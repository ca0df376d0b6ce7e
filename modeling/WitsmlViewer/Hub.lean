/-
# The WebSocket hub (`app.ws.hub`)

The endpoint keeps three variables, the current well, its queue and the drain task, and changes them
between awaits that may raise.  The registry of queues is the store's and all sockets share it.  What
the frames carry is in `LiveCurves`; here it is who is registered, and what is running.

A socket's handler is cut at its awaits: it accepts, receives, sends a snapshot, focuses, sends a
pong, or has ended.  A cancelled drain task is not done before the cancellation reaches it, so a new
one may be created while old ones are still to be unwound.

`hub_consistent`: in every run, the registry holds one queue for each live socket under its current
well and nothing else, and a socket has at most one running drain task, which reads that queue.

The registry and the endpoints are two views of one thing, and the endpoint's `finally` is all that
keeps them together.  It is enough, because the three variables are changed before an await and
never after one: wherever the handler is interrupted, they say what is registered.  `Ok` is this,
await by await.

Who holds which queue is an instance of `Leases`, in which a lease is acquired under a well and
released from it, and the registry is in balance with the holders.  The endpoint adds the drain
task, which is about one socket only.

Nothing is claimed about a socket whose handler has ended while its cancelled tasks are still to be
unwound, except that none of them runs; when the event loop gets round to them is its affair.
-/
import WitsmlViewer.Py.Str
import WitsmlViewer.Py.Dict
import WitsmlViewer.Lib.Runs
import WitsmlViewer.Lib.Leases

namespace WitsmlViewer.Hub

open Py Runs Leases

variable {α : Type}

/-! ## 1. The store's pub/sub

The store's side.  A set of queues is kept for each well; an empty set is not removed, which is why
the count is of the set's elements and not of the wells. -/

/-- Queues are told apart by their number, in the order of their creation; `queues` has what is in
them. -/
structure PubSub (α : Type) where
  subscribers : Dict Str (Finset ℕ) := []
  queues : List (List α) := []

namespace PubSub

variable (store : PubSub α)

/-- The queues under a well. -/
def registered (wellUid : Str) : Finset ℕ := (store.subscribers.get? wellUid).getD ∅

/-- `subscribe`: a new queue under the well. -/
def subscribe (wellUid : Str) : PubSub α × ℕ :=
  let q := store.queues.length
  ({ subscribers := store.subscribers.set wellUid (insert q (store.registered wellUid))
     queues := store.queues ++ [[]] }, q)

/-- `unsubscribe`: discard the queue from the well's set, if the well has one. -/
def unsubscribe (wellUid : Str) (q : ℕ) : PubSub α :=
  match store.subscribers.get? wellUid with
  | none => store
  | some qs => { store with subscribers := store.subscribers.set wellUid (qs.erase q) }

/-- `asyncio.Queue(maxsize=256)`. -/
def maxsize : ℕ := 256

/-- One queue of `publish`: a full one drops its oldest payload. -/
def put (payload : α) (items : List α) : List α :=
  (if maxsize ≤ items.length then items.drop 1 else items) ++ [payload]

/-- `publish`: one payload into each queue under the well. -/
def publish (wellUid : Str) (payload : α) : PubSub α :=
  { store with
    queues := store.queues.mapIdx fun q items =>
      if q ∈ store.registered wellUid then put payload items else items }

def subscriberCount (wellUid : Str) : ℕ := (store.registered wellUid).card

/-- `q.get()`: the oldest payload, if there is one. -/
def take (q : ℕ) : Option (α × PubSub α) :=
  match store.queues[q]? with
  | some (payload :: items) => some (payload, { store with queues := store.queues.set q items })
  | _ => none

end PubSub

/-! ## 2. The endpoint

The handler as a machine with a state for each await.  Between two awaits the code runs without
interruption, so it is one step; and at each await it may be resumed or raise, so that every point
has both steps. -/

/-- A drain task: it awaits its queue, or it sends what it took; it is to be cancelled at its await,
or it is done. -/
inductive TaskState (α : Type)
  | getting
  | sending (payload : α)
  | cancelling
  | done
deriving DecidableEq

/-- A drain task with its queue. -/
structure Task (α : Type) where
  queue : ℕ
  state : TaskState α
deriving DecidableEq

/-- It is neither done nor cancelled. -/
def Task.isRunning (t : Task α) : Bool :=
  match t.state with
  | .getting | .sending _ => true
  | .cancelling | .done => false

/-- `cancel()`: no effect on a task that is done. -/
def Task.cancel (t : Task α) : Task α :=
  match t.state with
  | .done => t
  | _ => { t with state := .cancelling }

/-- The await that the handler is at. -/
inductive Point
  | accepting
  | receiving
  | sendingSnapshot (q : ℕ)
  | focusing (q : ℕ)
  | sendingPong
  | ended
deriving DecidableEq

/-- A socket's handler.  `drainTask` is a place in `tasks`, all the drain tasks that it created; `got`
are all the queues that it ever got. -/
structure Endpoint (α : Type) where
  point : Point := .accepting
  currentWell : Option Str := none
  currentQ : Option ℕ := none
  drainTask : Option ℕ := none
  tasks : List (Task α) := []
  got : List ℕ := []
deriving DecidableEq

/-- What arrives; the well uid of a subscription may be something else than a string. -/
inductive Frame
  | notObject
  | subscribe (wellUid : Option Str)
  | unsubscribe
  | ping
  | unknown
deriving DecidableEq

namespace Endpoint

variable (store : PubSub α) (s : Endpoint α)

/-- `_stop_drain`. -/
def stopDrain : Endpoint α :=
  match s.drainTask with
  | none => s
  | some k => { s with tasks := s.tasks.modify k Task.cancel, drainTask := none }

/-- `_release`: detach from the current well's pub/sub. -/
def release : PubSub α × Endpoint α :=
  let s := s.stopDrain
  let store := match s.currentWell, s.currentQ with
    | some wellUid, some q => store.unsubscribe wellUid q
    | _, _ => store
  (store, { s with currentWell := none, currentQ := none })

/-- `_subscribe`, up to its first await. -/
def subscribe (wellUid : Str) : PubSub α × Endpoint α :=
  let (store, s) := s.release store
  let (store, q) := store.subscribe wellUid
  (store, { s with
    point := .sendingSnapshot q, currentWell := some wellUid, currentQ := some q,
    got := s.got ++ [q] })

/-- `_subscribe` after its last await: `asyncio.create_task(_drain(q))`. -/
def startDrain (q : ℕ) : Endpoint α :=
  { s with
    point := .receiving, drainTask := some s.tasks.length, tasks := s.tasks ++ [⟨q, .getting⟩] }

/-- A received frame, up to the next await. -/
def receive : Frame → PubSub α × Endpoint α
  | .subscribe (some (c :: cs)) => s.subscribe store (c :: cs)
  | .unsubscribe => s.release store
  | .ping => (store, { s with point := .sendingPong })
  | .subscribe _ | .notObject | .unknown => (store, s)

/-- The handler leaves its loop, whatever was raised: `finally` releases. -/
def finish : PubSub α × Endpoint α :=
  let (store, s) := s.release store
  (store, { s with point := .ended })

end Endpoint

/-- What a socket's handler and its drain tasks do next. -/
inductive Action
  | accepted
  | frame (f : Frame)
  | sent
  | focused
  | raises
  | takes (k : ℕ)
  | forwarded (k : ℕ)
  | ends (k : ℕ)
deriving DecidableEq

namespace Endpoint

/-- A step of the handler or of one of its drain tasks, if it can happen.  An await may raise at any
time (a disconnection, a failed send, a snapshot that has no wire form, a message that is not JSON, a
cancellation); while the socket is being accepted, nothing is to be released.  A running task may
fail, and a cancelled one does nothing else. -/
def act (store : PubSub α) (s : Endpoint α) : Action → Option (PubSub α × Endpoint α)
  | .accepted =>
    if s.point = .accepting then some (store, { s with point := .receiving }) else none
  | .frame f => if s.point = .receiving then some (s.receive store f) else none
  | .sent =>
    match s.point with
    | .sendingSnapshot q => some (store, { s with point := .focusing q })
    | .sendingPong => some (store, { s with point := .receiving })
    | _ => none
  | .focused =>
    match s.point with
    | .focusing q => some (store, s.startDrain q)
    | _ => none
  | .raises =>
    match s.point with
    | .ended => none
    | .accepting => some (store, { s with point := .ended })
    | _ => some (s.finish store)
  | .takes k =>
    match s.tasks[k]? with
    | some ⟨q, .getting⟩ => (store.take q).map fun (payload, store) =>
        (store, { s with tasks := s.tasks.set k ⟨q, .sending payload⟩ })
    | _ => none
  | .forwarded k =>
    match s.tasks[k]? with
    | some ⟨q, .sending _⟩ => some (store, { s with tasks := s.tasks.set k ⟨q, .getting⟩ })
    | _ => none
  | .ends k =>
    match s.tasks[k]? with
    | some ⟨_, .done⟩ | none => none
    | some ⟨q, _⟩ => some (store, { s with tasks := s.tasks.set k ⟨q, .done⟩ })

end Endpoint

/-- The store, and one endpoint for each socket that ever connected. -/
structure State (α : Type) where
  store : PubSub α := {}
  sockets : List (Endpoint α) := []

/-- A socket connects, something is published, or a socket takes a step. -/
inductive Event (α : Type)
  | connect
  | publish (wellUid : Str) (payload : α)
  | socket (i : ℕ) (a : Action)
deriving DecidableEq

/-- The state after an event, if it can happen.  Any number of sockets, each at a point of its
own. -/
def next (hub : State α) : Event α → Option (State α)
  | .connect => some { hub with sockets := hub.sockets ++ [{}] }
  | .publish wellUid payload => some { hub with store := hub.store.publish wellUid payload }
  | .socket i a =>
    match hub.sockets[i]? with
    | none => none
    | some s => (s.act hub.store a).map fun (store, s) => ⟨store, hub.sockets.set i s⟩

/-! ## 3. The registry

What the three operations do to the sets, and that `publish` and `q.get()` do nothing to them. -/

namespace PubSub

variable (store : PubSub α) (wellUid : Str) (q : ℕ)

theorem registered_subscribe : (store.subscribe wellUid).1.registered = fun w =>
    if wellUid = w then insert store.queues.length (store.registered w) else store.registered w := by
  funext w
  rw [registered, subscribe, Dict.get?_set]
  split
  · rename_i h
    rw [h]
    rfl
  · rfl

/-- An unsubscription removes its queue from under the well, and touches no other. -/
theorem registered_unsubscribe : (store.unsubscribe wellUid q).registered = fun w =>
    if wellUid = w then (store.registered w).erase q else store.registered w := by
  funext w
  cases hget : store.subscribers.get? wellUid with
  | none =>
    simp only [unsubscribe, hget]
    split
    · rename_i h
      rw [registered, ← h, hget]
      rfl
    · rfl
  | some qs =>
    simp only [unsubscribe, hget]
    rw [registered, Dict.get?_set]
    split
    · rename_i h
      rw [registered, ← h, hget]
      rfl
    · rfl

@[simp] theorem queues_unsubscribe : (store.unsubscribe wellUid q).queues = store.queues := by
  unfold unsubscribe
  split <;> rfl

@[simp] theorem length_queues_subscribe :
    (store.subscribe wellUid).1.queues.length = store.queues.length + 1 := by
  simp [subscribe]

@[simp] theorem length_queues_publish (payload : α) :
    (store.publish wellUid payload).queues.length = store.queues.length := by
  simp [publish]

/-- What is taken from a queue changes no set. -/
theorem take_spec {store store' : PubSub α} {q : ℕ} {payload : α}
    (h : store.take q = some (payload, store')) :
    store'.registered = store.registered ∧ store'.queues.length = store.queues.length := by
  unfold take at h
  split at h
  · obtain ⟨-, rfl⟩ := Prod.mk.inj (Option.some.inj h)
    exact ⟨rfl, List.length_set⟩
  · simp at h

end PubSub

/-! ## 4. The invariant of an endpoint

`Ok` says of each point what the variables hold there.  It is a property of one socket; the
registry does not come into it. -/

namespace Endpoint

/-- The current well and queue, as a lease. -/
def lease (s : Endpoint α) : Option (Str × ℕ) :=
  match s.currentWell, s.currentQ with
  | some wellUid, some q => some (wellUid, q)
  | _, _ => none

/-- The socket as a holder of leases. -/
def holder (s : Endpoint α) : Holder Str := ⟨s.lease, s.got⟩

/-- The three variables agree with each other, with the await that the handler is at and with the
tasks that run. -/
structure Ok (s : Endpoint α) : Prop where
  paired : s.currentWell = none ↔ s.currentQ = none
  running : ∀ k t, s.tasks[k]? = some t → t.isRunning = true →
    s.drainTask = some k ∧ s.currentQ = some t.queue
  opening : ∀ q, s.point = .sendingSnapshot q ∨ s.point = .focusing q →
    s.currentQ = some q ∧ s.drainTask = none
  idle : s.point = .accepting ∨ s.point = .ended → s.currentQ = none

/-- A socket that has just connected is in order. -/
theorem ok_init : ({} : Endpoint α).Ok := by
  constructor <;> simp

variable {s : Endpoint α}

/-- The lease is the current well and the current queue. -/
theorem lease_eq_some {wellUid : Str} {q : ℕ} :
    s.lease = some (wellUid, q) ↔ s.currentWell = some wellUid ∧ s.currentQ = some q := by
  unfold lease
  split
  · rename_i hw hq
    simp [hw, hq]
  · rename_i hnot
    constructor
    · simp
    · rintro ⟨hw, hq⟩
      exact absurd hq (hnot _ _ hw)

theorem Task.not_running_cancel (t : Task α) : t.cancel.isRunning = false := by
  unfold Task.cancel
  split
  · rename_i h
    simp [Task.isRunning, h]
  · rfl

/-- After `_stop_drain` no task runs. -/
theorem Ok.not_running_stopDrain (hs : s.Ok) {k : ℕ} {t : Task α}
    (hk : s.stopDrain.tasks[k]? = some t) : t.isRunning = false := by
  by_contra hrun
  rw [Bool.not_eq_false] at hrun
  unfold stopDrain at hk
  split at hk
  · rename_i hnone
    have hsome := (hs.running k t hk hrun).1
    simp [hnone] at hsome
  · rename_i k₀ hsome
    rw [List.getElem?_modify] at hk
    obtain ⟨t₀, ht₀, rfl⟩ := Option.map_eq_some_iff.mp hk
    split at hrun
    · simp [Task.not_running_cancel] at hrun
    · rename_i hne
      have hk₀ := (hs.running k t₀ ht₀ hrun).1
      exact hne (Option.some.inj (hsome.symm.trans hk₀))

@[simp] theorem stopDrain_drainTask : s.stopDrain.drainTask = none := by
  unfold stopDrain
  split
  · assumption
  · rfl

@[simp] theorem stopDrain_got : s.stopDrain.got = s.got := by
  unfold stopDrain
  split <;> rfl

@[simp] theorem stopDrain_point : s.stopDrain.point = s.point := by
  unfold stopDrain
  split <;> rfl

@[simp] theorem stopDrain_currentWell : s.stopDrain.currentWell = s.currentWell := by
  unfold stopDrain
  split <;> rfl

@[simp] theorem stopDrain_currentQ : s.stopDrain.currentQ = s.currentQ := by
  unfold stopDrain
  split <;> rfl

/-- A released endpoint is in order at every await but those of `_subscribe`. -/
theorem Ok.released (hs : s.Ok) (store : PubSub α) {p : Point}
    (hp : ∀ q, ¬(p = .sendingSnapshot q ∨ p = .focusing q)) :
    ({ (s.release store).2 with point := p } : Endpoint α).Ok := by
  constructor
  · exact ⟨fun _ => rfl, fun _ => rfl⟩
  · intro k t hk hrun
    have hnot := hs.not_running_stopDrain hk
    rw [hrun] at hnot
    simp at hnot
  · exact fun q hq => absurd hq (hp q)
  · exact fun _ => rfl

/-- A new subscription: its queue is the current one, and no task runs. -/
theorem Ok.subscribed (hs : s.Ok) {store : PubSub α} {wellUid : Str} :
    (s.subscribe store wellUid).2.Ok := by
  constructor
  · simp [subscribe]
  · intro k t hk hrun
    have hnot := hs.not_running_stopDrain hk
    rw [hrun] at hnot
    simp at hnot
  · rintro q (hq | hq)
    · obtain rfl := Point.sendingSnapshot.inj hq
      exact ⟨rfl, stopDrain_drainTask⟩
    · simp [subscribe] at hq
  · simp [subscribe]

/-- The handler moves to another await. -/
theorem Ok.move (hs : s.Ok) {p : Point}
    (hopening : ∀ q, p = .sendingSnapshot q ∨ p = .focusing q →
      s.currentQ = some q ∧ s.drainTask = none)
    (hidle : p = .accepting ∨ p = .ended → s.currentQ = none) :
    ({ s with point := p } : Endpoint α).Ok :=
  ⟨hs.paired, hs.running, hopening, hidle⟩

/-- The drain task is created while there is none. -/
theorem Ok.drained (hs : s.Ok) {q : ℕ} (hp : s.point = .focusing q) : (s.startDrain q).Ok := by
  obtain ⟨hq, hnone⟩ := hs.opening q (Or.inr hp)
  constructor
  · exact hs.paired
  · intro k t hk hrun
    have hk : (s.tasks ++ [⟨q, .getting⟩])[k]? = some t := hk
    rw [List.getElem?_append] at hk
    split at hk
    · have hsome := (hs.running k t hk hrun).1
      simp [hnone] at hsome
    · rename_i hlen
      rw [List.getElem?_singleton] at hk
      split at hk
      · obtain rfl := Option.some.inj hk
        have : k = s.tasks.length := by omega
        exact ⟨congrArg some this.symm, hq⟩
      · simp at hk
  · simp [startDrain]
  · simp [startDrain]

/-- A task changes its state, and does not start to run. -/
theorem Ok.setTask (hs : s.Ok) {k q : ℕ} {state state' : TaskState α}
    (hk : s.tasks[k]? = some ⟨q, state⟩)
    (hrun : (⟨q, state'⟩ : Task α).isRunning = true → (⟨q, state⟩ : Task α).isRunning = true) :
    ({ s with tasks := s.tasks.set k ⟨q, state'⟩ } : Endpoint α).Ok := by
  refine ⟨hs.paired, ?_, hs.opening, hs.idle⟩
  intro k' t hk' hrun'
  rcases getElem?_set_some hk' with ⟨rfl, rfl⟩ | ⟨-, hk'⟩
  · exact hs.running k ⟨q, state⟩ hk (hrun hrun')
  · exact hs.running k' t hk' hrun'

/-! ## 5. What a step does to the registry

Every step releases, acquires, or leaves the registry alone.  The three are lemmas of `Leases`;
here each step is assigned to one of them. -/

section Registry

variable {store store' : PubSub α} {hs : List (Holder Str)} {i : ℕ}

variable (s store) in
theorem holder_release : (s.release store).2.holder = ⟨none, s.got⟩ := by
  simp [holder, lease, release]

/-- Releasing gives the lease up, if there is one. -/
theorem balanced_release (hb : Balanced store.registered hs store.queues.length)
    (hi : hs[i]? = some s.holder) :
    Balanced (s.release store).1.registered (hs.set i ⟨none, s.got⟩)
      (s.release store).1.queues.length := by
  unfold release
  simp only [stopDrain_currentWell, stopDrain_currentQ]
  split
  · rename_i wellUid q hw hq
    rw [PubSub.registered_unsubscribe, PubSub.queues_unsubscribe]
    exact hb.release hi (lease_eq_some.mpr ⟨hw, hq⟩)
  · rename_i hnot
    have hlease : s.lease = none := by
      unfold lease
      split
      · rename_i hw hq
        exact absurd hq (hnot _ _ hw)
      · rfl
    have hsame : s.holder = ⟨none, s.got⟩ := by rw [holder, hlease]
    rw [← hsame, set_eq_self hi]
    exact hb

/-- A subscription releases the lease and acquires a new one. -/
theorem balanced_subscribe (hb : Balanced store.registered hs store.queues.length)
    (hi : hs[i]? = some s.holder) (wellUid : Str) :
    Balanced (s.subscribe store wellUid).1.registered
      (hs.set i (s.subscribe store wellUid).2.holder)
      (s.subscribe store wellUid).1.queues.length := by
  have hreleased := balanced_release hb hi
  have hi' : (hs.set i ⟨none, s.got⟩)[i]? = some ⟨none, s.got⟩ :=
    List.getElem?_set_self (List.getElem?_eq_some_iff.mp hi).1
  have hacquired := hreleased.acquire wellUid hi' rfl
  rw [List.set_set] at hacquired
  have hholder : (s.subscribe store wellUid).2.holder =
      ⟨some (wellUid, (s.release store).1.queues.length),
        s.got ++ [(s.release store).1.queues.length]⟩ := by
    simp [subscribe, holder, lease, release, PubSub.subscribe]
  rw [hholder, subscribe, PubSub.registered_subscribe, PubSub.length_queues_subscribe]
  exact hacquired

/-- What leaves the store and the holder alone leaves them in agreement. -/
theorem balanced_same (hb : Balanced store.registered hs store.queues.length)
    (hi : hs[i]? = some s.holder) {s' : Endpoint α} (hholder : s'.holder = s.holder) :
    Balanced store.registered (hs.set i s'.holder) store.queues.length := by
  rw [hholder, set_eq_self hi]
  exact hb

/-- A received frame. -/
theorem receive_spec {f : Frame} (hp : s.point = .receiving) (h : s.receive store f = (store', s'))
    (hok : s.Ok) (hb : Balanced store.registered hs store.queues.length)
    (hi : hs[i]? = some s.holder) :
    s'.Ok ∧ Balanced store'.registered (hs.set i s'.holder) store'.queues.length := by
  unfold receive at h
  split at h
  · rename_i c cs
    obtain ⟨rfl, rfl⟩ := Prod.mk.inj h
    exact ⟨hok.subscribed, balanced_subscribe hb hi _⟩
  · obtain rfl : store' = (s.release store).1 := (congrArg Prod.fst h).symm
    obtain rfl : s' = (s.release store).2 := (congrArg Prod.snd h).symm
    have hpoint : (s.release store).2.point = .receiving := stopDrain_point.trans hp
    refine ⟨?_, by rw [holder_release]; exact balanced_release hb hi⟩
    have hreleased := hok.released store (p := (s.release store).2.point) (by simp [hpoint])
    exact hreleased
  · obtain ⟨rfl, rfl⟩ := Prod.mk.inj h
    exact ⟨hok.move (by simp) (by simp), balanced_same hb hi rfl⟩
  -- the frames that are ignored
  · obtain ⟨rfl, rfl⟩ := Prod.mk.inj h
    exact ⟨hok, balanced_same hb hi rfl⟩
  · obtain ⟨rfl, rfl⟩ := Prod.mk.inj h
    exact ⟨hok, balanced_same hb hi rfl⟩
  · obtain ⟨rfl, rfl⟩ := Prod.mk.inj h
    exact ⟨hok, balanced_same hb hi rfl⟩

/-- The end of the handler. -/
theorem finish_spec (h : s.finish store = (store', s')) (hok : s.Ok)
    (hb : Balanced store.registered hs store.queues.length) (hi : hs[i]? = some s.holder) :
    s'.Ok ∧ Balanced store'.registered (hs.set i s'.holder) store'.queues.length := by
  obtain rfl : store' = (s.release store).1 := (congrArg Prod.fst h).symm
  obtain rfl : s' = { (s.release store).2 with point := .ended } := (congrArg Prod.snd h).symm
  have hholder : ({ (s.release store).2 with point := .ended } : Endpoint α).holder =
      ⟨none, s.got⟩ := holder_release s store
  refine ⟨hok.released store (by simp), ?_⟩
  rw [hholder]
  exact balanced_release hb hi

/-- **A step of a socket keeps its endpoint in order, and the registry in agreement with the
holders.**  One case for each action; an await that raises is the same case at every point, as what
follows is `finish`. -/
theorem act_spec {a : Action} (h : s.act store a = some (store', s')) (hok : s.Ok)
    (hb : Balanced store.registered hs store.queues.length) (hi : hs[i]? = some s.holder) :
    s'.Ok ∧ Balanced store'.registered (hs.set i s'.holder) store'.queues.length := by
  cases a with
  | accepted =>
    unfold act at h
    dsimp only at h
    split at h
    · rename_i hp
      obtain ⟨rfl, rfl⟩ := Prod.mk.inj (Option.some.inj h)
      exact ⟨hok.move (by simp) (by simp), balanced_same hb hi rfl⟩
    · simp at h
  | frame f =>
    unfold act at h
    dsimp only at h
    split at h
    · rename_i hp
      exact receive_spec hp (Option.some.inj h) hok hb hi
    · simp at h
  | sent =>
    unfold act at h
    dsimp only at h
    split at h
    · rename_i q hp
      obtain ⟨rfl, rfl⟩ := Prod.mk.inj (Option.some.inj h)
      refine ⟨hok.move ?_ (by simp), balanced_same hb hi rfl⟩
      rintro q' (hq | hq)
      · simp at hq
      · exact Point.focusing.inj hq ▸ hok.opening q (Or.inl hp)
    · obtain ⟨rfl, rfl⟩ := Prod.mk.inj (Option.some.inj h)
      exact ⟨hok.move (by simp) (by simp), balanced_same hb hi rfl⟩
    · simp at h
  | focused =>
    unfold act at h
    dsimp only at h
    split at h
    · rename_i q hp
      obtain ⟨rfl, rfl⟩ := Prod.mk.inj (Option.some.inj h)
      exact ⟨hok.drained hp, balanced_same hb hi rfl⟩
    · simp at h
  | raises =>
    unfold act at h
    dsimp only at h
    split at h
    · simp at h
    · rename_i hp
      obtain ⟨rfl, rfl⟩ := Prod.mk.inj (Option.some.inj h)
      exact ⟨hok.move (by simp) (fun _ => hok.idle (Or.inl hp)), balanced_same hb hi rfl⟩
    · exact finish_spec (Option.some.inj h) hok hb hi
  | takes k =>
    unfold act at h
    dsimp only at h
    split at h
    · rename_i q hk
      obtain ⟨⟨payload, store₁⟩, htake, heq⟩ := Option.map_eq_some_iff.mp h
      obtain ⟨rfl, rfl⟩ := Prod.mk.inj heq
      obtain ⟨hregistered, hlength⟩ := PubSub.take_spec htake
      refine ⟨hok.setTask hk fun _ => rfl, ?_⟩
      rw [hregistered, hlength]
      exact balanced_same hb hi rfl
    · simp at h
  | forwarded k =>
    unfold act at h
    dsimp only at h
    split at h
    · rename_i q payload hk
      obtain ⟨rfl, rfl⟩ := Prod.mk.inj (Option.some.inj h)
      exact ⟨hok.setTask hk fun _ => rfl, balanced_same hb hi rfl⟩
    · simp at h
  | ends k =>
    unfold act at h
    dsimp only at h
    split at h
    · simp at h
    · simp at h
    · rename_i q state _ hk
      obtain ⟨rfl, rfl⟩ := Prod.mk.inj (Option.some.inj h)
      exact ⟨hok.setTask hk (by simp [Task.isRunning]), balanced_same hb hi rfl⟩

end Registry

end Endpoint

/-! ## 6. Runs

The invariant is that every endpoint is in order, and that the registry is in balance with all of
them.  A step of one socket changes one endpoint, and the others' leases are none of its business.
-/

namespace State

variable (hub : State α)

/-- The invariant of a run. -/
structure Inv : Prop where
  ok : ∀ s ∈ hub.sockets, s.Ok
  balanced : Balanced hub.store.registered (hub.sockets.map Endpoint.holder)
    hub.store.queues.length

theorem inv_init : ({} : State α).Inv :=
  ⟨by simp, Balanced.empty⟩

variable {hub}

theorem Inv.step {hub' : State α} {e : Event α} (hinv : hub.Inv) (h : next hub e = some hub') :
    hub'.Inv := by
  cases e with
  | connect =>
    obtain rfl := Option.some.inj h
    constructor
    · intro s hs
      rcases List.mem_append.mp hs with hs | hs
      · exact hinv.ok s hs
      · rw [List.mem_singleton.mp hs]
        exact Endpoint.ok_init
    · rw [List.map_append]
      exact hinv.balanced.join
  | publish wellUid payload =>
    obtain rfl := Option.some.inj h
    refine ⟨hinv.ok, ?_⟩
    rw [PubSub.length_queues_publish]
    exact hinv.balanced
  | socket i a =>
    unfold next at h
    dsimp only at h
    split at h
    · simp at h
    · rename_i s hi
      obtain ⟨⟨store, s'⟩, hact, rfl⟩ := Option.map_eq_some_iff.mp h
      have hholder : (hub.sockets.map Endpoint.holder)[i]? = some s.holder := by
        rw [List.getElem?_map, hi]
        rfl
      obtain ⟨hok, hb⟩ := Endpoint.act_spec hact (hinv.ok s (List.mem_of_getElem? hi))
        hinv.balanced hholder
      constructor
      · intro s'' hs
        rcases List.mem_or_eq_of_mem_set hs with hs | rfl
        · exact hinv.ok s'' hs
        · exact hok
      · rw [List.map_set]
        exact hb

/-- A run keeps the invariant. -/
theorem Inv.run {hub' : State α} {es : List (Event α)} (hinv : hub.Inv)
    (hrun : Run next (fun _ _ => True) hub es hub') : hub'.Inv :=
  hrun.invariant (fun _ _ _ hinv _ h => hinv.step h) hinv

end State

/-! ## 7. No leaked and no doubled subscription

What the invariant says in terms of the code.  The count of a well's queues is the number of live
sockets that view it; a running drain task reads the queue that is registered; and nothing that a
socket ever got is left behind when it ends. -/

/-- The handler has not ended. -/
def Endpoint.isLive (s : Endpoint α) : Bool := s.point ≠ .ended

def Endpoint.runningTasks (s : Endpoint α) : List (Task α) := s.tasks.filter Task.isRunning

/-- The live sockets whose current well is the given one. -/
def State.viewers (hub : State α) (wellUid : Str) : List (Endpoint α) :=
  hub.sockets.filter fun s => s.isLive && s.currentWell = some wellUid

/-- The registry has one queue for each live socket, under its current well, and no other.  A socket
has at most one running drain task, which reads its current queue; and none of the queues that an
ended one got is registered. -/
structure State.Consistent (hub : State α) : Prop where
  ofSocket : ∀ s ∈ hub.sockets, s.isLive = true → ∀ wellUid, s.currentWell = some wellUid →
    ∃ q ∈ hub.store.registered wellUid, s.currentQ = some q
  ofQueue : ∀ wellUid, ∀ q ∈ hub.store.registered wellUid, ∃! i : ℕ, ∃ s : Endpoint α,
    hub.sockets[i]? = some s ∧ s.isLive = true ∧ s.currentWell = some wellUid ∧
      s.currentQ = some q
  oneDrain : ∀ s ∈ hub.sockets, s.runningTasks.length ≤ 1 ∧
    ∀ t ∈ s.runningTasks, s.currentQ = some t.queue
  released : ∀ s ∈ hub.sockets, s.isLive = false → ∀ q ∈ s.got, ∀ wellUid,
    q ∉ hub.store.registered wellUid
  count : ∀ wellUid, hub.store.subscriberCount wellUid = (hub.viewers wellUid).length

namespace Endpoint

variable {s : Endpoint α}

/-- Only a live endpoint has a queue. -/
theorem Ok.isLive (hs : s.Ok) {q : ℕ} (hq : s.currentQ = some q) : s.isLive = true := by
  by_contra hdead
  have hended : s.point = .ended := by simpa [Endpoint.isLive] using hdead
  have hnone := hs.idle (Or.inr hended)
  simp [hq] at hnone

/-- A current well comes with a current queue. -/
theorem Ok.exists_lease (hs : s.Ok) {wellUid : Str} (hw : s.currentWell = some wellUid) :
    ∃ q, s.lease = some (wellUid, q) := by
  cases hq : s.currentQ with
  | none =>
    have hnone := hs.paired.mpr hq
    simp [hw] at hnone
  | some q => exact ⟨q, lease_eq_some.mpr ⟨hw, hq⟩⟩

/-- Two running tasks would both be the drain task. -/
theorem Ok.length_runningTasks_le (hs : s.Ok) : s.runningTasks.length ≤ 1 := by
  have hpair : s.runningTasks.Pairwise fun _ _ => False := by
    refine List.pairwise_filter.mpr (List.pairwise_iff_getElem.mpr ?_)
    intro k k' hk hk' hlt hrun hrun'
    have hsome := (hs.running k _ (List.getElem?_eq_getElem hk) hrun).1
    have hsome' := (hs.running k' _ (List.getElem?_eq_getElem hk') hrun').1
    have : k = k' := Option.some.inj (hsome.symm.trans hsome')
    omega
  cases hl : s.runningTasks with
  | nil => simp
  | cons t ts =>
    cases ts with
    | nil => simp
    | cons t' ts =>
      rw [hl] at hpair
      exact ((List.pairwise_cons.mp hpair).1 t' List.mem_cons_self).elim

end Endpoint

namespace State

variable {hub : State α}

/-- A registered queue is the current queue of a live socket. -/
theorem Inv.mem_registered (hinv : hub.Inv) {wellUid : Str} {q : ℕ} :
    q ∈ hub.store.registered wellUid ↔
      ∃ (i : ℕ) (s : Endpoint α), hub.sockets[i]? = some s ∧ s.lease = some (wellUid, q) := by
  rw [hinv.balanced.matched]
  constructor
  · rintro ⟨i, h, hi, hl⟩
    rw [List.getElem?_map] at hi
    obtain ⟨s, hs, rfl⟩ := Option.map_eq_some_iff.mp hi
    exact ⟨i, s, hs, hl⟩
  · rintro ⟨i, s, hs, hl⟩
    exact ⟨i, s.holder, by rw [List.getElem?_map, hs]; rfl, hl⟩

theorem holder_getElem? {i : ℕ} {s : Endpoint α} (hi : hub.sockets[i]? = some s) :
    (hub.sockets.map Endpoint.holder)[i]? = some s.holder := by
  rw [List.getElem?_map, hi]
  rfl

/-- **The invariant says what is registered and what runs.** -/
theorem Inv.consistent (hinv : hub.Inv) : hub.Consistent := by
  constructor
  · intro s hs _ wellUid hw
    obtain ⟨q, hlease⟩ := (hinv.ok s hs).exists_lease hw
    obtain ⟨i, hi⟩ := List.getElem?_of_mem hs
    exact ⟨q, hinv.mem_registered.mpr ⟨i, s, hi, hlease⟩, (Endpoint.lease_eq_some.mp hlease).2⟩
  · intro wellUid q hq
    obtain ⟨i, s, hi, hlease⟩ := hinv.mem_registered.mp hq
    obtain ⟨hw, hcur⟩ := Endpoint.lease_eq_some.mp hlease
    have hlive := (hinv.ok s (List.mem_of_getElem? hi)).isLive hcur
    refine ⟨i, ⟨s, hi, hlive, hw, hcur⟩, ?_⟩
    rintro j ⟨s', hj, -, hw', hcur'⟩
    have hlease' : s'.lease = some (wellUid, q) := Endpoint.lease_eq_some.mpr ⟨hw', hcur'⟩
    have hi := holder_getElem? hi
    have hj := holder_getElem? hj
    exact hinv.balanced.apart j i _ _ q hj hi (hinv.balanced.kept j _ wellUid q hj hlease')
      (hinv.balanced.kept i _ wellUid q hi hlease)
  · intro s hs
    refine ⟨(hinv.ok s hs).length_runningTasks_le, fun t ht => ?_⟩
    obtain ⟨hmem, hrun⟩ := List.mem_filter.mp ht
    obtain ⟨k, hk⟩ := List.getElem?_of_mem hmem
    exact ((hinv.ok s hs).running k t hk hrun).2
  · intro s hs hdead q hgot wellUid hq
    obtain ⟨j, s', hj, hlease⟩ := hinv.mem_registered.mp hq
    obtain ⟨i, hi⟩ := List.getElem?_of_mem hs
    -- the queue is its own, so it is the ended socket that has it
    have hkept := hinv.balanced.kept j _ wellUid q (holder_getElem? hj) hlease
    obtain rfl := hinv.balanced.apart i j _ _ q (holder_getElem? hi) (holder_getElem? hj) hgot hkept
    obtain rfl := Option.some.inj (hi.symm.trans hj)
    have hlive := (hinv.ok s hs).isLive (Endpoint.lease_eq_some.mp hlease).2
    simp [hdead] at hlive
  · intro wellUid
    rw [PubSub.subscriberCount, hinv.balanced.card_eq, List.countP_map, viewers,
      ← List.countP_eq_length_filter]
    refine List.countP_congr fun s hs => ?_
    have hok := hinv.ok s hs
    constructor
    · intro hany
      obtain ⟨⟨w, q⟩, hlease, hw⟩ := (Option.any_eq_true _ _).mp hany
      obtain ⟨hcur, hq⟩ := Endpoint.lease_eq_some.mp hlease
      have hw : w = wellUid := by simpa using hw
      simp [hok.isLive hq, hcur, hw]
    · intro hview
      have hview : s.isLive = true ∧ s.currentWell = some wellUid := by simpa using hview
      obtain ⟨q, hlease⟩ := hok.exists_lease hview.2
      simp [Endpoint.holder, hlease]

end State

/-- **No leaked and no doubled subscription**, in any run of any number of sockets.

The run is arbitrary: sockets connect, subscribe, change wells, send garbage, fail at any await and
are cancelled, in any interleaving.  In particular a second subscription may arrive while the first
one's drain task is still to be unwound, and a disconnection while a snapshot is being sent. -/
theorem hub_consistent {hub : State α} {es : List (Event α)}
    (hrun : Run next (fun _ _ => True) {} es hub) : hub.Consistent :=
  (State.inv_init.run hrun).consistent

def wellA : Str := "A".toList

def wellB : Str := "B".toList

/-- Two sockets view a well; the first goes over to another one while its drain task sends, and the
second gets lost while its snapshot is sent. -/
def twoSockets : List (Event ℕ) :=
  [.connect, .connect, .socket 0 .accepted, .socket 1 .accepted,
    .socket 0 (.frame (.subscribe (some wellA))), .socket 0 .sent, .socket 0 .focused,
    .socket 1 (.frame (.subscribe (some wellA))), .publish wellA 7, .socket 0 (.takes 0),
    .socket 0 (.frame (.subscribe (some wellB))), .socket 0 .sent, .socket 0 .focused,
    .socket 1 .raises, .socket 0 (.ends 0)]

theorem isSome_twoSockets :
    (replay next (fun _ _ => decide True) ({} : State ℕ) twoSockets).isSome = true := by
  decide +kernel

/-- The first well has no queue left, and the other has one. -/
theorem hub_consistent_twoSockets : ∃ hub : State ℕ, Run next (fun _ _ => True) {} twoSockets hub ∧
    hub.Consistent ∧ hub.store.subscriberCount wellA = 0 ∧ hub.store.subscriberCount wellB = 1 := by
  have hrun := Run.of_isSome isSome_twoSockets
  exact ⟨_, hrun, hub_consistent hrun, by decide +kernel, by decide +kernel⟩

end WitsmlViewer.Hub

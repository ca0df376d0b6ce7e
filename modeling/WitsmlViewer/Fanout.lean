/-
# The fan-out with queues of any size (`RingBufferStore.subscribe`, `unsubscribe`, `publish`)

`Hub` has the queues as the endpoint creates them, with 256 places.  Here a subscriber chooses the
size, and `publish` is written with the exceptions of the queue that it catches, over the set of
queues in whatever order the set is iterated.  Nothing in it awaits, so a publication is one step.

The docstring of `publish` promises that a slow client drops its oldest message and that the
scheduler is not blocked.  Three things are behind it.  A full queue makes room by dropping its
oldest payload, and both operations on it can raise in principle, which the loop catches
(`Queue.offer_ok`, `publish_ok`).  A queue under a well gets each payload once, whatever the order
of the set (`Fit.publish`).  And what happens to one queue is decided by the events that concern
it, which are its own subscription, the publications to its well while it is subscribed, and what
its consumer takes.

`backpressure` puts these together: seen from one queue, any run of the store is a run of a bounded
queue of its own (`Windows`): it holds the newest payloads, and no other queue has a part in it.
The library knows nothing of wells or sets; `Sync` is the simulation between the two, kept by every
step (`Sync.next`).

Section 7 connects this store with the one that `Hub` proves its registry about.  Nothing is said
about a consumer that never takes anything: it keeps a window of the newest payloads, and that is
all that the code intends.
-/
import WitsmlViewer.Hub
import WitsmlViewer.Lib.Windows

namespace WitsmlViewer.Fanout

open Py Windows

variable {α : Type}

/-! ## 1. `asyncio.Queue`

Only the parts that `publish` uses.  `get_nowait` and `put_nowait` are total here, with their
exceptions as values, because the two `except` clauses of `publish` are about exactly these. -/

/-- What the queue raises. -/
inductive QueueError
  | queueEmpty
  | queueFull
deriving DecidableEq

/-- A queue with a maximal size, unbounded if that is not positive.  That is `asyncio`'s
convention, and it is why `Fits` has a premise. -/
structure Queue (α : Type) where
  maxsize : ℤ
  items : List α
deriving DecidableEq

namespace Queue

variable (queue : Queue α)

def full : Bool := decide (0 < queue.maxsize ∧ queue.maxsize ≤ queue.items.length)

/-- `get_nowait`. -/
def getNowait : Except QueueError (α × Queue α) :=
  match queue.items with
  | [] => .error .queueEmpty
  | x :: items => .ok (x, { queue with items := items })

/-- `put_nowait`. -/
def putNowait (payload : α) : Except QueueError (Queue α) :=
  if queue.full then .error .queueFull else .ok { queue with items := queue.items ++ [payload] }

/-- The body of the loop of `publish`, with its two handlers: make room if the queue is full, then
put.  A queue that is empty and full at once, which no queue is, would skip the first, and a queue
that is still full would lose the payload in the second. -/
def offer (payload : α) : Except QueueError (Queue α) := do
  let queue ←
    if queue.full then
      match queue.getNowait with
      | .ok (_, queue) => .ok queue
      | .error .queueEmpty => .ok queue
      | .error e => .error e
    else .ok queue
  match queue.putNowait payload with
  | .ok queue => .ok queue
  | .error .queueFull => .ok queue
  | .error e => .error e

end Queue

/-! ## 2. The store

The subscribers of a well are a set of queues; a queue that has left every set may still be drained
by its consumer.  `World` adds to the store what each consumer has taken, which no code keeps but
the statement is about. -/

/-- Queues are told apart by their number, in the order of their creation. -/
structure PubSub (α : Type) where
  subscribers : Dict Str (Finset ℕ) := []
  queues : List (Queue α) := []
deriving DecidableEq

namespace PubSub

variable (store : PubSub α)

/-- The queues under a well. -/
def registered (wellUid : Str) : Finset ℕ := (store.subscribers.get? wellUid).getD ∅

def subscribe (wellUid : Str) (maxsize : ℤ) : PubSub α where
  subscribers :=
    store.subscribers.set wellUid (insert store.queues.length (store.registered wellUid))
  queues := store.queues ++ [⟨maxsize, []⟩]

def unsubscribe (wellUid : Str) (q : ℕ) : PubSub α :=
  match store.subscribers.get? wellUid with
  | none => store
  | some qs => { store with subscribers := store.subscribers.set wellUid (qs.erase q) }

/-- One queue of `publish`. -/
def offer (payload : α) (store : PubSub α) (q : ℕ) : Except QueueError (PubSub α) :=
  match store.queues[q]? with
  | none => .ok store
  | some queue =>
    (queue.offer payload).map fun queue => { store with queues := store.queues.set q queue }

/-- `publish`, through the well's queues in the order `qs`.  The order is an argument, since a
Python set of objects is iterated by their addresses. -/
def publish (payload : α) (qs : List ℕ) : Except QueueError (PubSub α) :=
  qs.foldlM (offer payload) store

/-- An order in which the set of a well's queues may be iterated. -/
def Iterates (wellUid : Str) (qs : List ℕ) : Prop :=
  qs.Nodup ∧ qs.toFinset = store.registered wellUid

instance (wellUid : Str) (qs : List ℕ) : Decidable (store.Iterates wellUid qs) :=
  inferInstanceAs (Decidable (_ ∧ _))

end PubSub

/-- The store, and what the consumer of each queue has taken from it. -/
structure World (α : Type) where
  store : PubSub α := {}
  received : List (List α) := []
deriving DecidableEq

inductive Event (α : Type)
  | subscribe (wellUid : Str) (maxsize : ℤ)
  | unsubscribe (wellUid : Str) (q : ℕ)
  | publish (wellUid : Str) (payload : α) (qs : List ℕ)
  | take (q : ℕ)
deriving DecidableEq

/-- A step, if it can happen: the consumer of an empty queue goes on waiting.  A publication names
the order it goes through the queues in, and no step is possible with an order that is not one. -/
def next (world : World α) : Event α → Option (World α)
  | .subscribe wellUid maxsize => some {
      store := world.store.subscribe wellUid maxsize
      received := world.received ++ [[]] }
  | .unsubscribe wellUid q => some { world with store := world.store.unsubscribe wellUid q }
  | .publish wellUid payload qs =>
    if world.store.Iterates wellUid qs then
      (world.store.publish payload qs).toOption.map fun store => { world with store := store }
    else none
  | .take q =>
    match world.store.queues[q]? with
    | none => none
    | some queue => queue.getNowait.toOption.map fun (payload, queue) => {
        store := { world.store with queues := world.store.queues.set q queue }
        received := world.received.modify q (· ++ [payload]) }

/-! ## 3. A publication

First one queue, then the loop over several.  The loop is analysed for lists without repetition,
and a set gives such a list; this is where "each of them once" comes from. -/

namespace Queue

variable {queue : Queue α}

/-- No more than the maximal size is in the queue. -/
def Fits (queue : Queue α) : Prop := 0 < queue.maxsize → (queue.items.length : ℤ) ≤ queue.maxsize

/-- The queue with one more payload. -/
def offered (queue : Queue α) (payload : α) : Queue α :=
  { queue with items := (if queue.full then queue.items.drop 1 else queue.items) ++ [payload] }

theorem full_iff : queue.full = true ↔ 0 < queue.maxsize ∧ queue.maxsize ≤ queue.items.length := by
  rw [full, decide_eq_true_eq]

/-- Both exceptions of the queue are caught, whatever is in it.  No invariant is used, so a queue
that somebody else has filled beyond its size does no harm either. -/
theorem offer_ok (queue : Queue α) (payload : α) : ∃ queue', queue.offer payload = .ok queue' := by
  have hput : ∀ queue : Queue α, ∃ queue' : Queue α,
      (match queue.putNowait payload with
      | .ok queue => .ok queue
      | .error .queueFull => .ok queue
      | .error e => .error e : Except QueueError (Queue α)) = .ok queue' := by
    intro queue
    unfold putNowait
    split_ifs
    · exact ⟨_, rfl⟩
    · exact ⟨_, rfl⟩
  unfold offer getNowait
  split_ifs
  · cases queue.items with
    | nil => exact hput queue
    | cons x items => exact hput { queue with items := items }
  · exact hput queue

/-- **A payload always finds a place** in a queue that fits: at most the oldest makes room.  This
is the equation that everything below uses in place of the code. -/
theorem Fits.offer_eq (h : queue.Fits) (payload : α) :
    -- either there is room, or the queue is full and its oldest payload goes
    queue.offer payload = .ok (queue.offered payload) := by
  obtain ⟨maxsize, items⟩ := queue
  unfold offer offered getNowait putNowait
  by_cases hfull : (⟨maxsize, items⟩ : Queue α).full = true
  · obtain ⟨hpos, hle⟩ := full_iff.mp hfull
    have hfit : (items.length : ℤ) ≤ maxsize := h hpos
    cases items with
    | nil => exact absurd (hpos.trans_le hle) (by simp)
    | cons x items =>
      have hroom : (⟨maxsize, items⟩ : Queue α).full = false := by
        rw [Bool.eq_false_iff, Ne, full_iff]
        simp only [List.length_cons, Nat.cast_add, Nat.cast_one] at hfit ⊢
        omega
      simp only [hfull, if_true, bind, Except.bind, hroom]
      rfl
  · rw [Bool.not_eq_true] at hfull
    simp only [hfull, Bool.false_eq_true, if_false, bind, Except.bind]

/-- A queue that fits still fits with one more payload. -/
theorem Fits.offered (h : queue.Fits) (payload : α) : (queue.offered payload).Fits := by
  intro hpos
  have hfit := h hpos
  unfold Queue.offered
  split
  · rename_i hfull
    have hle := (full_iff.mp hfull).2
    simp only [List.length_append, List.length_drop, List.length_cons, List.length_nil]
    change 0 < queue.maxsize at hpos
    change _ ≤ queue.maxsize
    omega
  · rename_i hfull
    rw [full_iff] at hfull
    simp only [List.length_append, List.length_cons, List.length_nil]
    change 0 < queue.maxsize at hpos
    change _ ≤ queue.maxsize
    omega

end Queue

namespace PubSub

variable {store : PubSub α}

/-- Every queue fits. -/
def Fit (store : PubSub α) : Prop :=
  ∀ (q : ℕ) (queue : Queue α), store.queues[q]? = some queue → queue.Fits

/-- One queue of a publication: its own place changes and no other. -/
theorem Fit.offer (h : store.Fit) (payload : α) (q : ℕ) :
    ∃ store', PubSub.offer payload store q = .ok store' ∧
      store'.subscribers = store.subscribers ∧
      ∀ q', store'.queues[q']? = (store.queues[q']?).map fun queue =>
        if q' = q then queue.offered payload else queue := by
  unfold PubSub.offer
  cases hq : store.queues[q]? with
  | none =>
    refine ⟨store, rfl, rfl, fun q' => ?_⟩
    by_cases hqq : q' = q
    · subst hqq
      rw [hq, Option.map_none]
    · simp [hqq]
  | some queue =>
    refine ⟨{ store with queues := store.queues.set q (queue.offered payload) }, ?_, rfl,
      fun q' => ?_⟩
    · simp only [(h q queue hq).offer_eq payload, Except.map]
    · by_cases hqq : q' = q
      · subst hqq
        obtain ⟨hlt, -⟩ := List.getElem?_eq_some_iff.mp hq
        rw [List.getElem?_set_self hlt, hq, Option.map_some, if_pos rfl]
      · have hqq' : ¬q = q' := fun heq => hqq heq.symm
        simp [hqq, hqq']

/-- The queues fit after a publication, whichever of them it reached. -/
theorem Fit.of_offered {store' : PubSub α} (h : store.Fit) {payload : α} {p : ℕ → Prop}
    [DecidablePred p] (hqueues : ∀ q, store'.queues[q]? = (store.queues[q]?).map fun queue =>
      if p q then queue.offered payload else queue) : store'.Fit := by
  intro q queue hqueue
  rw [hqueues] at hqueue
  obtain ⟨queue', hqueue', rfl⟩ := Option.map_eq_some_iff.mp hqueue
  split
  · exact (h q queue' hqueue').offered payload
  · exact h q queue' hqueue'

/-- A list whose entries are those of another one, mapped, has its length. -/
theorem length_of_getElem?_map {β : Type} {l l' : List β} {f : ℕ → β → β}
    (h : ∀ i : ℕ, l'[i]? = (l[i]?).map (f i)) : l'.length = l.length := by
  refine le_antisymm (List.getElem?_eq_none_iff.mp ?_) (List.getElem?_eq_none_iff.mp ?_)
  · rw [h, List.getElem?_eq_none_iff.mpr (le_refl _), Option.map_none]
  · have hnone := h l'.length
    rw [List.getElem?_eq_none_iff.mpr (le_refl _)] at hnone
    exact Option.map_eq_none_iff.mp hnone.symm

/-- **A publication reaches each of the queues once**, and no other, in whatever order.  The
registry is untouched.  The induction is on the list, and a queue that has had its turn is not in
the rest. -/
theorem Fit.publish (h : store.Fit) (payload : α) {qs : List ℕ} (hnodup : qs.Nodup) :
    ∃ store', store.publish payload qs = .ok store' ∧ store'.subscribers = store.subscribers ∧
      ∀ q, store'.queues[q]? = (store.queues[q]?).map fun queue =>
        if q ∈ qs then queue.offered payload else queue := by
  induction qs generalizing store with
  | nil => exact ⟨store, rfl, rfl, fun q => by simp⟩
  | cons q qs ih =>
    obtain ⟨hq, hnodup⟩ := List.nodup_cons.mp hnodup
    obtain ⟨store₁, hoffer, hsubs₁, hqueues₁⟩ := h.offer payload q
    obtain ⟨store', hpublish, hsubs, hqueues⟩ := ih (h.of_offered hqueues₁) hnodup
    refine ⟨store', ?_, hsubs.trans hsubs₁, fun q' => ?_⟩
    · rw [PubSub.publish, List.foldlM_cons, hoffer]
      exact hpublish
    · rw [hqueues, hqueues₁, Option.map_map]
      refine congrArg (Option.map · _) (funext fun queue => ?_)
      by_cases hqq : q' = q
      · subst hqq
        simp [hq]
      · simp [hqq]

/-- **`publish` never raises**, whatever is in the queues.  The scheduler relies on it: a
publication stands between the append of a call's samples and the transaction that stores them. -/
theorem publish_ok (store : PubSub α) (payload : α) (qs : List ℕ) :
    ∃ store', store.publish payload qs = .ok store' := by
  induction qs generalizing store with
  | nil => exact ⟨store, rfl⟩
  | cons q qs ih =>
    rw [publish, List.foldlM_cons]
    unfold PubSub.offer
    cases store.queues[q]? with
    | none => exact ih store
    | some queue =>
      obtain ⟨queue', hoffer⟩ := queue.offer_ok payload
      obtain ⟨store', hstore'⟩ := ih { store with queues := store.queues.set q queue' }
      simp only [hoffer]
      exact ⟨store', hstore'⟩

theorem registered_subscribe (store : PubSub α) (wellUid w : Str) (maxsize : ℤ) :
    (store.subscribe wellUid maxsize).registered w =
      if wellUid = w then insert store.queues.length (store.registered w)
      else store.registered w := by
  rw [registered, subscribe, Dict.get?_set]
  split
  · rename_i h
    rw [h]
    rfl
  · rfl

theorem registered_unsubscribe (store : PubSub α) (wellUid w : Str) (q : ℕ) :
    (store.unsubscribe wellUid q).registered w =
      if wellUid = w then (store.registered w).erase q else store.registered w := by
  cases hget : store.subscribers.get? wellUid with
  | none =>
    simp only [unsubscribe, hget]
    split
    · rename_i h
      rw [registered, ← h, hget]
      rfl
    · rfl
  | some qs =>
    simp only [unsubscribe, hget]
    rw [registered, Dict.get?_set]
    split
    · rename_i h
      rw [registered, ← h, hget]
      rfl
    · rfl

@[simp] theorem queues_unsubscribe (store : PubSub α) (wellUid : Str) (q : ℕ) :
    (store.unsubscribe wellUid q).queues = store.queues := by
  unfold unsubscribe
  split <;> rfl

end PubSub

/-! ## 4. The store, always

Numbers stand for identity: a new queue gets the next number, so it is nobody's yet.  That
registered numbers exist is part of the invariant because a publication looks its queues up. -/

/-- What holds of the store in every run. -/
structure Inv (world : World α) : Prop where
  fit : world.store.Fit
  known : ∀ wellUid, ∀ q ∈ world.store.registered wellUid, q < world.store.queues.length
  consumers : world.received.length = world.store.queues.length

theorem inv_init : Inv ({} : World α) := by
  refine ⟨fun q queue h => ?_, fun wellUid q hq => ?_, rfl⟩
  · simp at h
  · exact absurd hq (Finset.notMem_empty q)

/-- What a consumer does: it takes the oldest payload of its queue, and only if there is one. -/
theorem next_take {world world' : World α} {q : ℕ} (h : next world (.take q) = some world') :
    ∃ maxsize x items, world.store.queues[q]? = some ⟨maxsize, x :: items⟩ ∧ world' = {
      store := { world.store with queues := world.store.queues.set q ⟨maxsize, items⟩ }
      received := world.received.modify q (· ++ [x]) } := by
  simp only [next] at h
  split at h
  · cases h
  · rename_i queue hq
    obtain ⟨maxsize, items⟩ := queue
    cases items with
    | nil => cases h
    | cons x items => exact ⟨maxsize, x, items, hq, (Option.some.inj h).symm⟩

/-- **Every step keeps it.** -/
theorem Inv.next {world world' : World α} {e : Event α} (h : Inv world)
    (hnext : next world e = some world') : Inv world' := by
  obtain ⟨hfit, hknown, hconsumers⟩ := h
  cases e with
  | subscribe wellUid maxsize =>
    obtain rfl := Option.some.inj hnext
    refine ⟨fun q queue hqueue => ?_, fun w q hq => ?_, by simp [PubSub.subscribe, hconsumers]⟩
    · simp only [PubSub.subscribe, List.getElem?_append] at hqueue
      split at hqueue
      · exact hfit q queue hqueue
      · obtain rfl := List.mem_singleton.mp (List.mem_of_getElem? hqueue)
        exact fun hpos => hpos.le
    · have hlength : (world.store.subscribe wellUid maxsize).queues.length =
          world.store.queues.length + 1 := by simp [PubSub.subscribe]
      rw [PubSub.registered_subscribe] at hq
      rw [hlength]
      split at hq
      · rcases Finset.mem_insert.mp hq with rfl | hq
        · exact Nat.lt_succ_self _
        · exact (hknown w q hq).trans (Nat.lt_succ_self _)
      · exact (hknown w q hq).trans (Nat.lt_succ_self _)
  | unsubscribe wellUid q =>
    obtain rfl := Option.some.inj hnext
    refine ⟨?_, fun w q' hq => ?_, by simpa using hconsumers⟩
    · intro q' queue hqueue
      rw [PubSub.queues_unsubscribe] at hqueue
      exact hfit q' queue hqueue
    · rw [PubSub.queues_unsubscribe]
      rw [PubSub.registered_unsubscribe] at hq
      split at hq
      · exact hknown w q' (Finset.mem_of_mem_erase hq)
      · exact hknown w q' hq
  -- the queues fit, so that the publication is a map over them
  | publish wellUid payload qs =>
    simp only [Fanout.next] at hnext
    split at hnext
    · rename_i hiter
      obtain ⟨store', hpublish, hsubs, hqueues⟩ := hfit.publish payload hiter.1
      rw [hpublish] at hnext
      obtain rfl := Option.some.inj hnext
      have hlength := PubSub.length_of_getElem?_map hqueues
      refine ⟨hfit.of_offered hqueues, fun w q hq => ?_, hconsumers.trans hlength.symm⟩
      rw [hlength]
      refine hknown w q ?_
      rwa [PubSub.registered, ← hsubs]
    · cases hnext
  | take q =>
    obtain ⟨maxsize, x, items, hq, rfl⟩ := next_take hnext
    refine ⟨fun q' queue hqueue => ?_, fun w q' hq' => ?_, by simpa using hconsumers⟩
    · obtain ⟨-, rfl⟩ | ⟨-, hold⟩ := Leases.getElem?_set_some hqueue
      · intro hpos
        have hle := hfit q _ hq hpos
        simp only [List.length_cons, Nat.cast_add, Nat.cast_one] at hle ⊢
        omega
      · exact hfit q' queue hold
    · rw [List.length_set]
      exact hknown w q' hq'

theorem Inv.run {es : List (Event α)} {world world' : World α} (h : Inv world)
    (hrun : es.foldlM Fanout.next world = some world') : Inv world' := by
  induction es generalizing world with
  | nil =>
    obtain rfl := Option.some.inj hrun
    exact h
  | cons e es ih =>
    obtain ⟨world₁, hnext, hrun⟩ := Option.bind_eq_some_iff.mp hrun
    exact ih (h.next hnext) hrun

/-! ## 5. One queue in a run

A queue sees of a run the publications to its well between its subscription and its leaving, and
its own consumer.  `ops` extracts that part as operations of `Windows`, and `departures` reads off
the run which payloads have left the queue and how.  The two are computed separately, one from the
events alone and one from the states, and `Sync.run` says that they agree. -/

section View

variable (wellUid : Str) (q : ℕ)

/-- The event takes the queue off the well. -/
def isLeave : Event α → Bool
  | .unsubscribe w q' => decide (w = wellUid ∧ q' = q)
  | _ => false

/-- What an event publishes to the well. -/
def payload? : Event α → Option α
  | .publish w payload _ => if w = wellUid then some payload else none
  | _ => none

/-- What is published to the well as long as the queue is subscribed. -/
def published (es : List (Event α)) : List α :=
  (es.takeWhile fun e => !isLeave wellUid q e).filterMap (payload? wellUid)

/-- The queue's own part in an event: `on` says that it is subscribed. -/
def op? (on : Bool) : Event α → Option (Op α)
  | .publish w payload _ => if on ∧ w = wellUid then some (.offer payload) else none
  | .take q' => if q' = q then some .take else none
  | _ => none

/-- The queue's own part in a run.  After it has left its well, publications are no part of it,
even if another queue of the well goes on getting them. -/
def ops : Bool → List (Event α) → List (Op α)
  | _, [] => []
  | on, e :: es => (op? wellUid q on e).toList ++ ops (on && !isLeave wellUid q e) es

/-- The payload that leaves the queue at an event: its consumer takes the oldest, or it is full when
a newer one is published. -/
def departure? (world : World α) : Event α → Option (Departure α)
  | .publish w _ _ =>
    if q ∈ world.store.registered w then
      world.store.queues[q]?.bind fun queue =>
        if queue.full then queue.items.head?.map .dropped else none
    else none
  | .take q' =>
    if q' = q then world.store.queues[q]?.bind fun queue => queue.items.head?.map .taken
    else none
  | _ => none

/-- The payloads that leave the queue during a run. -/
def departures : World α → List (Event α) → List (Departure α)
  | _, [] => []
  | world, e :: es =>
    (departure? q world e).toList ++ (next world e).elim [] fun world => departures world es

/-- Nothing is offered to a queue that has left. -/
theorem offered?_ops_off (es : List (Event α)) :
    (ops wellUid q false es).filterMap Op.offered? = [] := by
  induction es with
  | nil => rfl
  | cons e es ih =>
    rw [ops, List.filterMap_append, Bool.false_and, ih, List.append_nil]
    cases e with
    | publish w payload qs => simp [op?]
    | take q' =>
      simp only [op?]
      split <;> rfl
    | subscribe w maxsize => rfl
    | unsubscribe w q' => rfl

/-- What is offered to the queue is what is published to its well while it is subscribed. -/
theorem offered?_ops (es : List (Event α)) :
    (ops wellUid q true es).filterMap Op.offered? = published wellUid q es := by
  induction es with
  | nil => rfl
  | cons e es ih =>
    rw [ops, List.filterMap_append, Bool.true_and, published, List.takeWhile_cons]
    by_cases hleave : isLeave wellUid q e = true
    · rw [hleave, Bool.not_true, offered?_ops_off]
      cases e with
      | unsubscribe w q' => rfl
      | subscribe w maxsize => cases hleave
      | publish w payload qs => cases hleave
      | take q' => cases hleave
    · rw [Bool.not_eq_true] at hleave
      rw [hleave, Bool.not_false, ih, if_pos rfl, List.filterMap_cons, ← published]
      cases e with
      | publish w payload qs =>
        by_cases hw : w = wellUid
        · simp [op?, payload?, hw, Op.offered?]
        · simp [op?, payload?, hw]
      | take q' =>
        by_cases hq : q' = q
        · simp [op?, payload?, hq, Op.offered?]
        · simp [op?, payload?, hq]
      | subscribe w maxsize => rfl
      | unsubscribe w q' => rfl

variable {wellUid q}

/-- The world agrees with the account of one queue of `k` places: the queue holds what the account
says, its consumer has taken what the account says, and the queue is under its well as long as it
is subscribed and under no other. -/
structure Sync (wellUid : Str) (q k : ℕ) (on : Bool) (world : World α) (acc : Account α) :
    Prop where
  queue : world.store.queues[q]? = some ⟨k, acc.items⟩
  received : world.received[q]? = some acc.taken
  registered : ∀ w, q ∈ world.store.registered w ↔ on = true ∧ w = wellUid

/-- A queue that has just subscribed agrees with an empty account. -/
theorem sync_subscribe {world : World α} (h : Inv world) (wellUid : Str) (k : ℕ) :
    Sync wellUid world.store.queues.length k true
      ⟨world.store.subscribe wellUid k, world.received ++ [[]]⟩ ({} : Account α) := by
  refine ⟨?_, ?_, fun w => ?_⟩
  · simp [PubSub.subscribe]
  · simp [← h.consumers, Account.taken]
  · have hnew : world.store.queues.length ∉ world.store.registered w :=
      fun hmem => Nat.lt_irrefl _ (h.known w _ hmem)
    rw [PubSub.registered_subscribe]
    split
    · rename_i hw
      simp [hw]
    · rename_i hw
      simp only [true_and]
      exact ⟨fun hmem => absurd hmem hnew, fun heq => absurd heq.symm hw⟩

/-- What the account does with a payload is what the queue does with it. -/
theorem next_offer {k : ℕ} (hk : 1 ≤ k) (acc : Account α) (payload : α) :
    ∃ acc', acc.next k (.offer payload) = some acc' ∧
      (⟨k, acc.items⟩ : Queue α).offered payload = ⟨k, acc'.items⟩ ∧
      acc'.departed = acc.departed ++ (if (⟨k, acc.items⟩ : Queue α).full then
        acc.items.head?.map Departure.dropped else none).toList ∧
      acc'.taken = acc.taken := by
  -- with room nothing departs; without room the oldest item does, and there is one because `1 ≤
  -- k`
  by_cases hroom : acc.items.length < k
  · have hfull : (⟨k, acc.items⟩ : Queue α).full = false := by
      rw [Bool.eq_false_iff, Ne, Queue.full_iff]
      simp only [Nat.cast_le]
      omega
    refine ⟨{ acc with offered := acc.offered ++ [payload], items := acc.items ++ [payload] },
      if_pos hroom, ?_, ?_, rfl⟩
    · simp [Queue.offered, hfull]
    · simp [hfull]
  · have hfull : (⟨k, acc.items⟩ : Queue α).full = true := by
      rw [Queue.full_iff]
      simp only [Nat.cast_le, Nat.cast_pos]
      omega
    cases hitems : acc.items with
    | nil =>
      rw [hitems, List.length_nil] at hroom
      omega
    | cons y ys =>
      rw [hitems] at hfull
      refine ⟨⟨acc.offered ++ [payload], acc.departed ++ [.dropped y], ys ++ [payload]⟩, ?_, ?_, ?_,
        ?_⟩
      · rw [Account.next, if_neg hroom, hitems]
      · simp [Queue.offered, hfull]
      · simp [hfull]
      · simp [Account.taken, Departure.taken?]

/-- **A step of the world is a step of the queue's own, or none.**

By cases on the event.  Somebody else's subscription gets another number.  Somebody's leaving
matters only if it is this queue's, and then it ends its part in the publications.  A publication
reaches the queue if and only if it is to its well and it is subscribed, and this is what
membership in the order means.  A consumer takes from this queue or from another one. -/
theorem Sync.next {k : ℕ} (hk : 1 ≤ k) {on : Bool} {world world' : World α} {acc : Account α}
    {e : Event α} (hinv : Inv world) (h : Sync wellUid q k on world acc)
    (hnext : Fanout.next world e = some world') :
    ∃ acc', (op? wellUid q on e).toList.foldlM (Account.next k) acc = some acc' ∧
      Sync wellUid q k (on && !isLeave wellUid q e) world' acc' ∧
      acc'.departed = acc.departed ++ (departure? q world e).toList := by
  obtain ⟨hqueue, hreceived, hregistered⟩ := h
  obtain ⟨hlt, -⟩ := List.getElem?_eq_some_iff.mp hqueue
  obtain ⟨hlt', -⟩ := List.getElem?_eq_some_iff.mp hreceived
  cases e with
  | subscribe w maxsize =>
    obtain rfl := Option.some.inj hnext
    have hstays : (on && !isLeave wellUid q (.subscribe w maxsize : Event α)) = on := Bool.and_true on
    rw [hstays]
    refine ⟨acc, rfl, ⟨?_, ?_, fun w' => ?_⟩, (List.append_nil _).symm⟩
    · simp only [PubSub.subscribe]
      rw [List.getElem?_append_left hlt, hqueue]
    · rw [List.getElem?_append_left hlt', hreceived]
    · have hne : q ≠ world.store.queues.length := hlt.ne
      rw [PubSub.registered_subscribe]
      split
      · rw [Finset.mem_insert, or_iff_right hne]
        exact hregistered w'
      · exact hregistered w'
  | unsubscribe w q' =>
    obtain rfl := Option.some.inj hnext
    refine ⟨acc, rfl, ⟨by rwa [PubSub.queues_unsubscribe], hreceived, fun w' => ?_⟩,
      (List.append_nil _).symm⟩
    rw [PubSub.registered_unsubscribe, isLeave]
    split
    · rename_i hw
      rw [Finset.mem_erase, hregistered]
      simp only [Bool.and_eq_true, Bool.not_eq_true', decide_eq_false_iff_not]
      constructor
      · rintro ⟨hne, hon, hw'⟩
        exact ⟨⟨hon, fun heq => hne heq.2.symm⟩, hw'⟩
      · rintro ⟨⟨hon, hne⟩, hw'⟩
        exact ⟨fun heq => hne ⟨hw.trans hw', heq.symm⟩, hon, hw'⟩
    · rename_i hw
      rw [hregistered]
      simp only [Bool.and_eq_true, Bool.not_eq_true', decide_eq_false_iff_not]
      constructor
      · rintro ⟨hon, hw'⟩
        exact ⟨⟨hon, fun heq => hw (heq.1.trans hw'.symm)⟩, hw'⟩
      · rintro ⟨⟨hon, -⟩, hw'⟩
        exact ⟨hon, hw'⟩
  | publish w payload qs =>
    simp only [Fanout.next] at hnext
    split at hnext
    · rename_i hiter
      obtain ⟨store', hpublish, hsubs, hqueues⟩ := hinv.fit.publish payload hiter.1
      rw [hpublish] at hnext
      obtain rfl := Option.some.inj hnext
      -- the order iterates the well's set, and the queue is in that set while it is subscribed
      have hmem : q ∈ qs ↔ on = true ∧ w = wellUid := by
        rw [← hregistered w, ← hiter.2, List.mem_toFinset]
      have hreg : ∀ w', q ∈ store'.registered w' ↔ on = true ∧ w' = wellUid := by
        intro w'
        rw [← hregistered w', PubSub.registered, hsubs]
        rfl
      have hstays : (on && !isLeave wellUid q (.publish w payload qs)) = on := Bool.and_true on
      rw [hstays]
      by_cases hin : q ∈ qs
      · obtain ⟨acc', hacc', hitems, hdeparted, htaken⟩ := next_offer hk acc payload
        refine ⟨acc', ?_, ⟨?_, ?_, hreg⟩, ?_⟩
        · rw [op?, if_pos (hmem.mp hin)]
          simpa using hacc'
        · rw [hqueues, hqueue, Option.map_some, if_pos hin, hitems]
        · rw [htaken]
          exact hreceived
        · rw [hdeparted, departure?, if_pos ((hregistered w).mpr (hmem.mp hin)), hqueue,
            Option.bind_some]
      · refine ⟨acc, ?_, ⟨?_, hreceived, hreg⟩, ?_⟩
        · rw [op?, if_neg fun hon => hin (hmem.mpr hon)]
          rfl
        · rw [hqueues, hqueue, Option.map_some, if_neg hin]
        · rw [departure?, if_neg fun hon => hin (hmem.mpr ((hregistered w).mp hon))]
          exact (List.append_nil _).symm
    · cases hnext
  | take q' =>
    obtain ⟨maxsize, x, items, hq', rfl⟩ := next_take hnext
    have hstays : (on && !isLeave wellUid q (.take q' : Event α)) = on := Bool.and_true on
    rw [hstays]
    by_cases hqq : q' = q
    · subst hqq
      obtain ⟨rfl, hitems⟩ := Queue.mk.inj (Option.some.inj (hqueue.symm.trans hq'))
      refine ⟨{ acc with departed := acc.departed ++ [.taken x], items := items }, ?_,
        ⟨?_, ?_, hregistered⟩, ?_⟩
      · rw [op?, if_pos rfl]
        simp [Account.next, hitems]
      · rw [List.getElem?_set_self hlt]
      · rw [List.getElem?_modify, hreceived]
        simp [Account.taken, Departure.taken?]
      · rw [departure?, if_pos rfl, hqueue, Option.bind_some, hitems]
        rfl
    · refine ⟨acc, ?_, ⟨?_, ?_, hregistered⟩, ?_⟩
      · rw [op?, if_neg hqq]
        rfl
      · rw [List.getElem?_set_ne hqq, hqueue]
      · simpa only [List.getElem?_modify, if_neg hqq, id_map'] using hreceived
      · rw [departure?, if_neg hqq]
        exact (List.append_nil _).symm

/-- **Through a run, a queue follows its own part of it.**  What has departed in the account is
what the states of the run have shown to depart. -/
theorem Sync.run {k : ℕ} (hk : 1 ≤ k) {es : List (Event α)} {on : Bool} {world world' : World α}
    {acc : Account α} (hinv : Inv world) (h : Sync wellUid q k on world acc)
    (hrun : es.foldlM Fanout.next world = some world') :
    ∃ (acc' : Account α) (on' : Bool),
      (ops wellUid q on es).foldlM (Account.next k) acc = some acc' ∧
      Sync wellUid q k on' world' acc' ∧
      acc'.departed = acc.departed ++ departures q world es := by
  induction es generalizing on world acc with
  | nil =>
    obtain rfl := Option.some.inj hrun
    exact ⟨acc, on, rfl, h, (List.append_nil _).symm⟩
  | cons e es ih =>
    obtain ⟨world₁, hnext, hrun⟩ := Option.bind_eq_some_iff.mp hrun
    obtain ⟨acc₁, hacc₁, hsync₁, hdeparted₁⟩ := h.next hk hinv hnext
    obtain ⟨acc', on', hacc', hsync', hdeparted'⟩ := ih (hinv.next hnext) hsync₁ hrun
    refine ⟨acc', on', ?_, hsync', ?_⟩
    · rw [ops, List.foldlM_append, hacc₁]
      exact hacc'
    · rw [hdeparted', hdeparted₁, departures, hnext, List.append_assoc]
      rfl

end View

/-! ## 6. Back-pressure

The general facts about a bounded queue are from `Windows`: its items are a suffix of what was
offered, what was taken is in order, and the three lists balance.  What is left is to say what was
offered, and that is what was published to the well meanwhile. -/

/-- The payloads in a queue of `k` places and those that its consumer took, after the events `es`
since its subscription.  `lost` accounts for every payload: what is not in the queue has departed,
and what departed was either taken or dropped.  `alone` says that both lists are computed from the
queue's own part in the run, so that no other queue, however slow, has an influence on them. -/
structure Delivered (k : ℕ) (wellUid : Str) (q : ℕ) (start : World α) (es : List (Event α))
    (items taken : List α) : Prop where
  bounded : items.length ≤ k
  newest : items <:+ published wellUid q es
  inOrder : (taken ++ items).Sublist (published wellUid q es)
  lost : published wellUid q es = (departures q start es).map Departure.item ++ items ∧
    taken = (departures q start es).filterMap Departure.taken?
  alone : ∃ acc : Account α, (ops wellUid q true es).foldlM (Account.next k) {} = some acc ∧
    acc.items = items ∧ acc.taken = taken

/-- **A queue holds a contiguous newest window.**  Whatever happens before and after a
subscription, the queue holds the newest payloads that were published to its well since, its
consumer gets payloads in order and none twice, the others were dropped as the oldest of the full
queue, and both depend on the queue's own part in the run only.  A publication never raises.

The run before the subscription only matters for the invariant, and the run after it for the
simulation.  The size must be at least one: with a size of zero the queue is unbounded in
`asyncio`, and there is nothing to drop. -/
theorem backpressure {wellUid : Str} {k : ℕ} (hk : 1 ≤ k) {pre post : List (Event α)}
    {world₀ start world : World α} (hpre : pre.foldlM next {} = some world₀)
    (hstart : next world₀ (.subscribe wellUid k) = some start)
    (hpost : post.foldlM next start = some world) :
    (∃ items taken, world.store.queues[world₀.store.queues.length]? = some ⟨k, items⟩ ∧
      world.received[world₀.store.queues.length]? = some taken ∧
      Delivered k wellUid world₀.store.queues.length start post items taken) ∧
    ∀ payload qs, ∃ store, world.store.publish payload qs = .ok store := by
  have hinv₀ := inv_init.run hpre
  have hinv := hinv₀.next hstart
  obtain rfl := Option.some.inj hstart
  obtain ⟨acc, on, hacc, hsync, hdeparted⟩ :=
    (sync_subscribe hinv₀ wellUid k).run hk hinv hpost
  obtain ⟨hok, hoffered⟩ := (Account.ok_empty k).run hacc
  rw [offered?_ops] at hoffered
  replace hoffered : acc.offered = published wellUid world₀.store.queues.length post := hoffered
  replace hdeparted : acc.departed = departures world₀.store.queues.length
    ⟨world₀.store.subscribe wellUid k, world₀.received ++ [[]]⟩ post := hdeparted
  refine ⟨⟨acc.items, acc.taken, hsync.queue, hsync.received, hok.bounded, ?_, ?_, ⟨?_, ?_⟩,
    acc, hacc, rfl, rfl⟩, fun payload qs => world.store.publish_ok payload qs⟩
  · rw [← hoffered]
    exact hok.window
  · rw [← hoffered]
    exact hok.taken_sublist
  · rw [← hoffered, ← hdeparted]
    exact hok.balanced
  · rw [← hdeparted]
    rfl

/-- A slow queue of two places beside one of three: four payloads are published to their well and one
to another, the second queue takes one of them, then leaves. -/
def slowRun : List (Event ℕ) :=
  [.publish "W-1".toList 1 [0, 1], .publish "W-1".toList 2 [1, 0], .take 1, .publish "W-2".toList 9 [],
    .publish "W-1".toList 3 [0, 1], .unsubscribe "W-1".toList 1, .publish "W-1".toList 4 [0]]

/-- The world after the first queue has subscribed and the second is about to. -/
def slowStart : World ℕ := ⟨⟨[("W-1".toList, {0})], [⟨2, []⟩]⟩, [[]]⟩

/-- The world in the end. -/
def slowEnd : World ℕ :=
  ⟨⟨[("W-1".toList, {0})], [⟨2, [3, 4]⟩, ⟨3, [2, 3]⟩]⟩, [[], [1]]⟩

theorem backpressure_slow :
    (∃ items taken, slowEnd.store.queues[slowStart.store.queues.length]? = some ⟨(3 : ℕ), items⟩ ∧
      slowEnd.received[slowStart.store.queues.length]? = some taken ∧
      Delivered 3 "W-1".toList slowStart.store.queues.length
        ⟨slowStart.store.subscribe "W-1".toList (3 : ℕ), [[], []]⟩ slowRun items taken) ∧
    ∀ payload qs, ∃ store, slowEnd.store.publish payload qs = .ok store := by
  have hpre : ([.subscribe "W-1".toList 2] : List (Event ℕ)).foldlM next {} = some slowStart := by
    decide +kernel
  exact backpressure (by decide) hpre rfl (by decide +kernel)

/-! ## 7. The endpoint's queues

The endpoint's store is written in `Hub` without exceptions and with the size fixed.  That it is
the same store is proved and not assumed, one operation at a time. -/

/-- The store of `Hub`, whose queues all have 256 places. -/
def PubSub.toHub (store : PubSub α) : Hub.PubSub α :=
  ⟨store.subscribers, store.queues.map Queue.items⟩

namespace PubSub

variable {store : PubSub α}

theorem toHub_subscribe (store : PubSub α) (wellUid : Str) :
    (store.subscribe wellUid Hub.PubSub.maxsize).toHub = (store.toHub.subscribe wellUid).1 := by
  simp [toHub, subscribe, Hub.PubSub.subscribe, Hub.PubSub.registered, registered]

theorem toHub_unsubscribe (store : PubSub α) (wellUid : Str) (q : ℕ) :
    (store.unsubscribe wellUid q).toHub = store.toHub.unsubscribe wellUid q := by
  unfold unsubscribe Hub.PubSub.unsubscribe
  simp only [toHub]
  cases store.subscribers.get? wellUid <;> rfl

/-- **A publication to queues of 256 places is the one of `Hub`**, in whatever order it goes through
them. -/
theorem Fit.toHub_publish (h : store.Fit)
    (hsize : ∀ queue ∈ store.queues, queue.maxsize = Hub.PubSub.maxsize)
    {wellUid : Str} {qs : List ℕ} (hiter : store.Iterates wellUid qs) (payload : α) :
    ∃ store', store.publish payload qs = .ok store' ∧
      store'.toHub = store.toHub.publish wellUid payload := by
  obtain ⟨store', hpublish, hsubs, hqueues⟩ := h.publish payload hiter.1
  refine ⟨store', hpublish, ?_⟩
  have hmem : ∀ q, q ∈ qs ↔ q ∈ store.toHub.registered wellUid := fun q => by
    rw [← List.mem_toFinset, hiter.2]
    rfl
  rw [toHub, hsubs, Hub.PubSub.publish]
  refine congrArg (Hub.PubSub.mk store.subscribers) (List.ext_getElem? fun q => ?_)
  rw [List.getElem?_map, hqueues, List.getElem?_mapIdx, toHub, List.getElem?_map]
  cases hq : store.queues[q]? with
  | none => rfl
  | some queue =>
    have hmax := hsize queue (List.mem_of_getElem? hq)
    have hput : (queue.offered payload).items = Hub.PubSub.put payload queue.items := by
      have hfull : queue.full = true ↔ Hub.PubSub.maxsize ≤ queue.items.length := by
        rw [Queue.full_iff, hmax, Nat.cast_le]
        exact and_iff_right (by decide)
      simp only [Queue.offered, Hub.PubSub.put, hfull]
    simp only [Option.map_some, hmem, apply_ite Queue.items, hput]
    rfl

end PubSub

end WitsmlViewer.Fanout

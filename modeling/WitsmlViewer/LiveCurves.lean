/-
# Live curves (`app.ws.hub`, `frontend/src/api/useWellStream.ts`)

The way of a sample from the warm store to the browser's chart: the scheduler appends it and
publishes it to the queue of each subscriber; the hub's endpoint sends a snapshot of the store, and
then what it takes from its queue; the browser replaces on a snapshot and appends on data.

The system is cut at the await points of the endpoint and its drain task, so that ingestion may
happen between any two of its steps.  A connection may be lost at any moment, and what is on the
wire with it.

`live_exact`: while every number of the viewed well is finite and no mnemonic is the name of a
property that all JavaScript objects inherit, the browser's curves are exact at every moment.  `live_not_exact` shows what a `nan` does, and what such a name.

Exactness is a law about three things that are nowhere together: what the store held when the
subscription was made, what has been appended since, and what the browser shows.  The model keeps
the first two as a history beside the system.  No step of the system looks at it.

The argument follows the messages.  At every moment the appends since the subscription are split
into those that have been processed and those that are on the way, and the latter stand, in their
order, on the wire, in the hand of the drain task and in the queue.  A lost connection loses what
is on the way, and a new subscription starts over from the store; so nothing has to be resent.

A queue that is full drops its oldest message.  The law does not hold across such a drop, nor is it
meant to; the condition that there is room is one of the run.
-/
import WitsmlViewer.ReadPaths
import WitsmlViewer.Lib.Runs

namespace WitsmlViewer.Stream

open Py Runs

/-! ## 1. Messages

What travels.  A message has the points of each mnemonic in their order; its text is JSON except
where a number has none, and of such a text the browser can make nothing. -/

/-- The points of each mnemonic. -/
abbrev Curves := Dict Str (List WirePoint)

/-- The points of a mnemonic, none if it is missing. -/
def Curves.points (curves : Curves) (mnem : Str) : List WirePoint := (curves.get? mnem).getD []

/-- A `snapshot` or `data` message. -/
structure Message where
  isSnapshot : Bool
  wellUid : Str
  curves : Curves

/-- The point has a JSON form. -/
def finitePoint (p : WirePoint) : Bool := p.i.isFinite && p.v.all Float64.isFinite

/-- Whether the text that the server writes is JSON.  It writes `NaN` and `Infinity` for the floats
that have no JSON, and then the browser cannot parse the message. -/
def Message.parses (msg : Message) : Bool := msg.curves.all fun e => e.2.all finitePoint

/-- `by_mnem` of `_do_ingest_log`: the samples by mnemonic. -/
def byMnem (host : Host) (samples : List CurveSample) : Except PyError Curves :=
  samples.foldlM (fun curves s => (sampleToWire host s).map fun p =>
    Dict.set curves s.mnemonic (Curves.points curves s.mnemonic ++ [p])) []

def dataMessage (host : Host) (wellUid : Str) (samples : List CurveSample) :
    Except PyError Message :=
  (byMnem host samples).map fun curves => ⟨false, wellUid, curves⟩

/-- `_snapshot_frame`: the last 300 samples of each curve. -/
def snapshotMessage (host : Host) (store : RingBufferStore) (wellUid : Str) :
    Except PyError Message :=
  ((store.getRecent wellUid [] none (some 300)).mapM fun e : Str × List CurveSample =>
    (e.2.mapM (sampleToWire host)).map fun points => (e.1, points)).map fun curves =>
      ⟨true, wellUid, curves⟩

/-! ## 2. The browser

The hook's handler.  Curves are kept in an object, which is a dictionary for every name but those
that all objects have; a curve of such a name is looked up and something else is found. -/

/-- The names that an object literal inherits: looking one up finds something other than points. -/
def inheritedNames : List Str :=
  ["__proto__".toList, "constructor".toList, "hasOwnProperty".toList, "isPrototypeOf".toList,
    "propertyIsEnumerable".toList, "toLocaleString".toList, "toString".toList, "valueOf".toList,
    "__defineGetter__".toList, "__defineSetter__".toList, "__lookupGetter__".toList,
    "__lookupSetter__".toList]

/-- `merged.slice(merged.length - windowSize)`, if there are more. -/
def slide (windowSize : ℕ) (merged : List WirePoint) : List WirePoint :=
  if windowSize < merged.length then merged.drop (merged.length - windowSize) else merged

/-- `appendWindowed`.  An inherited property has no `concat`: the handler throws, and leaves what it
has done so far. -/
def appendWindowed (windowSize : ℕ) (replace : Bool) : Curves → Curves → Curves
  | target, [] => target
  | target, (mnem, pts) :: incoming =>
    if pts = [] then appendWindowed windowSize replace target incoming
    else if replace = false ∧ target.get? mnem = none ∧ mnem ∈ inheritedNames then target
    else
      let existing := if replace then [] else Curves.points target mnem
      appendWindowed windowSize replace (Dict.set target mnem (slide windowSize (existing ++ pts)))
        incoming

/-- What the hook's message handler does to the curves of the well that it shows. -/
def receive (wellUid : Str) (windowSize : ℕ) (curves : Curves) (msg : Message) : Curves :=
  if msg.parses = false then curves
  else if msg.wellUid ≠ [] ∧ msg.wellUid ≠ wellUid then curves
  else appendWindowed windowSize msg.isSnapshot curves msg.curves

/-! ## 3. The system

The endpoint has one connection at a time and a queue from the store.  A message passes through
four places on its way: the queue, the drain task's hand, the wire, and the browser. -/

/-- Where the endpoint's receive loop is. -/
inductive Phase
  | receiving
  | sendingSnapshot (msg : Message)
  | focusing

/-- A connection: the endpoint, its drain task with the message it is about to send, and the wire
to the browser.  Every message is marked with the number of the subscription that it belongs to,
which nobody looks at but the statements below. -/
structure Connection where
  phase : Phase := .receiving
  queue : Option (List Message) := none
  draining : Bool := false
  inHand : Option Message := none
  wire : List (ℕ × Message) := []

/-- The warm store, the viewed well's connection and the browser's curves.  The rest is the history
that exactness speaks of: the number of subscriptions, the store at the latest one,
what was appended to the well since, and how many data messages were processed since its snapshot
was. -/
structure LiveWell where
  store : RingBufferStore
  connection : Option Connection := none
  curves : Curves := []
  subscriptions : ℕ := 0
  base : RingBufferStore
  appended : List (List CurveSample) := []
  processed : Option ℕ := none

inductive Event
  | ingest (wellUid : Str) (samples : List CurveSample)
  | connect
  | disconnect
  | subscribe
  | snapshotSent
  | focused
  | take
  | send
  | deliver

/-- `asyncio.Queue(maxsize=256)`. -/
def queueSize : ℕ := 256

/-- `publish` into one queue: a full one drops its oldest message. -/
def publish (queue : List Message) (msg : Message) : List Message :=
  (if queueSize ≤ queue.length then queue.drop 1 else queue) ++ [msg]

variable (host : Host) (wellUid : Str) (windowSize : ℕ)

/-- What `_do_ingest_log` does with its samples: append them, and publish them to the well's
subscribers if all of them have a wire form. -/
def ingest (s : LiveWell) (well : Str) (samples : List CurveSample) : LiveWell :=
  if samples = [] then s
  else
    let s := { s with store := s.store.append well samples }
    if well ≠ wellUid then s
    else
      let s := { s with appended := s.appended ++ [samples] }
      match dataMessage host wellUid samples with
      | .error _ => s
      | .ok msg => { s with connection := s.connection.map fun c =>
          { c with queue := c.queue.map fun q => publish q msg } }

/-- `_subscribe` up to its first await: release the old queue, register a new one and build the
snapshot.  If that raises, the endpoint is done. -/
def subscribe (s : LiveWell) (c : Connection) : LiveWell :=
  let s := { s with
    subscriptions := s.subscriptions + 1
    base := s.store
    appended := []
    processed := none }
  match snapshotMessage host s.store wellUid with
  | .error _ => { s with connection := none }
  | .ok msg => { s with connection := some { c with
      phase := .sendingSnapshot msg, queue := some [], draining := false, inHand := none } }

/-- The browser processes a message; the history notes it if it belongs to the latest
subscription. -/
def deliver (s : LiveWell) (c : Connection) (number : ℕ) (msg : Message)
    (wire : List (ℕ × Message)) : LiveWell :=
  { s with
    connection := some { c with wire := wire }
    curves := receive wellUid windowSize s.curves msg
    processed := if number = s.subscriptions then
        (if msg.isSnapshot then some 0 else s.processed.map (· + 1))
      else s.processed }

/-- The state after an event, if it can happen. -/
def next (s : LiveWell) : Event → Option LiveWell
  | .ingest well samples => some (ingest host wellUid s well samples)
  | .connect => if s.connection.isNone then some { s with connection := some {} } else none
  | .disconnect => if s.connection.isSome then some { s with connection := none } else none
  | .subscribe =>
    match s.connection with
    | some c =>
      match c.phase with
      | .receiving => some (subscribe host wellUid s c)
      | _ => none
    | none => none
  | .snapshotSent =>
    match s.connection with
    | some c =>
      match c.phase with
      | .sendingSnapshot msg => some { s with connection := some { c with
          phase := .focusing, wire := c.wire ++ [(s.subscriptions, msg)] } }
      | _ => none
    | none => none
  | .focused =>
    match s.connection with
    | some c =>
      match c.phase with
      | .focusing => some { s with connection := some { c with
          phase := .receiving, draining := true } }
      | _ => none
    | none => none
  | .take =>
    match s.connection with
    | some c =>
      match c.draining, c.inHand, c.queue with
      | true, none, some (msg :: queue) => some { s with connection := some { c with
          inHand := some msg, queue := some queue } }
      | _, _, _ => none
    | none => none
  | .send =>
    match s.connection with
    | some c =>
      match c.inHand with
      | some msg => some { s with connection := some { c with
          inHand := none, wire := c.wire ++ [(s.subscriptions, msg)] } }
      | none => none
    | none => none
  | .deliver =>
    match s.connection with
    | some c =>
      match c.wire with
      | (number, msg) :: wire => some (deliver wellUid windowSize s c number msg wire)
      | [] => none
    | none => none

/-- The process starts with an empty store, and the browser with empty curves. -/
def start (perCurve : ℕ) : LiveWell where
  store := .init (max 2000 perCurve)
  base := .init (max 2000 perCurve)

/-! ## 4. What the messages carry

What the two kinds of messages have in them, for samples that reach the browser.  A snapshot has
the end of each curve, a data message the samples of one append, each in the order of the store. -/

section Messages

variable {host : Host}

/-- The wire form of a sample that has one. -/
def wire (host : Host) (s : CurveSample) : WirePoint :=
  match sampleToWire host s with
  | .ok p => p
  | .error _ => ⟨.nan, none, none, none⟩

/-- A sample that reaches the browser: its numbers are finite, and its mnemonic is not the name of
an inherited property. -/
def Clean (host : Host) (s : CurveSample) : Prop :=
  sampleToWire host s = .ok (wire host s) ∧ finitePoint (wire host s) = true ∧
    s.mnemonic ∉ inheritedNames

instance (host : Host) (s : CurveSample) : Decidable (Clean host s) :=
  inferInstanceAs (Decidable (sampleToWire host s = .ok (wire host s) ∧
    finitePoint (wire host s) = true ∧ s.mnemonic ∉ inheritedNames))

/-- The points of the samples of one mnemonic. -/
def pointsOf (host : Host) (mnem : Str) (samples : List CurveSample) : List WirePoint :=
  (samples.filter fun s => decide (s.mnemonic = mnem)).map (wire host)

/-- First the points of the one list, then those of the other. -/
theorem pointsOf_append (mnem : Str) (l m : List CurveSample) :
    pointsOf host mnem (l ++ m) = pointsOf host mnem l ++ pointsOf host mnem m := by
  rw [pointsOf, List.filter_append, List.map_append]
  rfl

/-- What a curve has after one has been set. -/
theorem points_set (curves : Curves) (mnem other : Str) (pts : List WirePoint) :
    Curves.points (Dict.set curves mnem pts) other =
      if mnem = other then pts else curves.points other := by
  rw [Curves.points, Dict.get?_set]
  split <;> rfl

/-- Curves that the browser can use: they are JSON, their mnemonics are distinct and none is an
inherited name. -/
structure Sendable (curves : Curves) : Prop where
  distinct : Dict.Distinct curves
  names : ∀ e ∈ curves, e.1 ∉ inheritedNames
  finite : ∀ e ∈ curves, ∀ p ∈ e.2, finitePoint p = true

/-- A message that the browser can use. -/
structure Usable (wellUid : Str) (msg : Message) : Prop where
  well : msg.wellUid = wellUid
  sendable : Sendable msg.curves

theorem Usable.parses {wellUid : Str} {msg : Message} (h : Usable wellUid msg) :
    msg.parses = true := by
  rw [Message.parses, List.all_eq_true]
  intro e he
  rw [List.all_eq_true]
  exact h.sendable.finite e he

theorem slide_eq (windowSize : ℕ) (merged : List WirePoint) :
    slide windowSize merged = lastN windowSize merged := by
  rw [slide, lastN]
  split
  · rfl
  · have hzero : merged.length - windowSize = 0 := by omega
    rw [hzero, List.drop_zero]

/-- **What `appendWindowed` does to one curve.** -/
theorem points_appendWindowed (windowSize : ℕ) (replace : Bool) {incoming : Curves} :
    ∀ {target : Curves}, Dict.Distinct incoming → (∀ e ∈ incoming, e.1 ∉ inheritedNames) →
      ∀ mnem, (appendWindowed windowSize replace target incoming).points mnem =
        if incoming.points mnem = [] then target.points mnem
        else lastN windowSize
          ((if replace then [] else target.points mnem) ++ incoming.points mnem) := by
  induction incoming with
  | nil => exact fun _ _ mnem => by simp [appendWindowed, Curves.points, Dict.get?]
  | cons e incoming ih =>
    obtain ⟨name, pts⟩ := e
    intro target hd hnames mnem
    obtain ⟨hhead, htail⟩ := List.pairwise_cons.mp hd
    have hname : name ∉ inheritedNames := hnames (name, pts) List.mem_cons_self
    have hrest : ∀ e ∈ incoming, e.1 ∉ inheritedNames := fun e he => hnames e (by simp [he])
    -- the mnemonics are distinct: this one is not among the others
    have hnone : Curves.points incoming name = [] := by
      rw [Curves.points]
      cases hget : Dict.get? incoming name with
      | none => rfl
      | some v =>
        have h := hhead _ (Dict.get?_mem (fun _ _ => eq_of_beq) hget)
        simp at h
    have hcons : Curves.points ((name, pts) :: incoming) mnem =
        if name = mnem then pts else Curves.points incoming mnem := by
      by_cases hm : name = mnem
      · simp [Curves.points, Dict.get?, hm]
      · simp [Curves.points, Dict.get?, hm]
    rw [appendWindowed, hcons]
    by_cases hpts : pts = []
    · rw [if_pos hpts, ih htail hrest]
      by_cases hm : name = mnem
      · rw [if_pos hm, hpts, ← hm, hnone]
      · rw [if_neg hm]
    · rw [if_neg hpts, if_neg (by tauto)]
      dsimp only
      rw [ih htail hrest, points_set, slide_eq]
      by_cases hm : name = mnem
      · subst hm
        rw [if_pos rfl, if_pos rfl, hnone, if_pos rfl, if_neg hpts]
      · rw [if_neg hm, if_neg hm]

theorem receive_points {wellUid : Str} (windowSize : ℕ) (curves : Curves) {msg : Message}
    (h : Usable wellUid msg) (mnem : Str) :
    (receive wellUid windowSize curves msg).points mnem =
      if msg.curves.points mnem = [] then curves.points mnem
      else lastN windowSize
        ((if msg.isSnapshot then [] else curves.points mnem) ++ msg.curves.points mnem) := by
  have hp := h.parses
  rw [receive, if_neg (by simp [hp]), if_neg (by simp [h.well])]
  exact points_appendWindowed windowSize _ h.sendable.distinct h.sendable.names mnem

/-- One more curve of finite points leaves them so. -/
theorem Sendable.set {curves : Curves} (h : Sendable curves) {mnem : Str} {pts : List WirePoint}
    (hname : mnem ∉ inheritedNames) (hpts : ∀ p ∈ pts, finitePoint p = true) :
    Sendable (Dict.set curves mnem pts) := by
  constructor
  · exact Dict.distinct_set h.distinct
  · intro e he
    rcases Dict.mem_of_mem_set (fun _ _ => eq_of_beq) h.distinct he with rfl | ⟨he, -⟩
    · exact hname
    · exact h.names e he
  · intro e he
    rcases Dict.mem_of_mem_set (fun _ _ => eq_of_beq) h.distinct he with rfl | ⟨he, -⟩
    · exact hpts
    · exact h.finite e he

theorem Sendable.points {curves : Curves} (h : Sendable curves) (mnem : Str) :
    ∀ p ∈ curves.points mnem, finitePoint p = true := by
  intro p hp
  rw [Curves.points] at hp
  cases hget : Dict.get? curves mnem with
  | none => simp [hget] at hp
  | some pts =>
    rw [hget, Option.getD_some] at hp
    exact h.finite _ (Dict.get?_mem (fun _ _ => eq_of_beq) hget) p hp

/-- **A data message carries the samples of each mnemonic, in their order.** -/
theorem dataMessage_spec (wellUid : Str) {samples : List CurveSample}
    (hclean : ∀ s ∈ samples, Clean host s) :
    ∃ msg, dataMessage host wellUid samples = .ok msg ∧ Usable wellUid msg ∧
      msg.isSnapshot = false ∧ ∀ mnem, msg.curves.points mnem = pointsOf host mnem samples := by
  suffices hfold : ∀ curves : Curves, Sendable curves → ∃ curves' : Curves,
      samples.foldlM (fun curves s => (sampleToWire host s).map fun p =>
        Dict.set curves s.mnemonic (Curves.points curves s.mnemonic ++ [p])) curves = .ok curves' ∧
      Sendable curves' ∧ ∀ mnem, curves'.points mnem = curves.points mnem ++ pointsOf host mnem samples by
    obtain ⟨curves, hrun, hsend, hpoints⟩ := hfold [] ⟨Dict.distinct_nil, by simp, by simp⟩
    exact ⟨⟨false, wellUid, curves⟩, by rw [dataMessage, byMnem, hrun]; rfl, ⟨rfl, hsend⟩, rfl,
      fun mnem => by rw [hpoints]; rfl⟩
  induction samples with
  | nil => exact fun curves hc => ⟨curves, rfl, hc, fun mnem => by simp [pointsOf]⟩
  | cons s samples ih =>
    intro curves hc
    obtain ⟨hwire, hfin, hname⟩ := hclean s (by simp)
    have hset : Sendable (Dict.set curves s.mnemonic
        (Curves.points curves s.mnemonic ++ [wire host s])) := by
      refine hc.set hname fun p hp => ?_
      rcases List.mem_append.mp hp with hp | hp
      · exact hc.points _ p hp
      · rw [List.mem_singleton.mp hp]
        exact hfin
    obtain ⟨curves', hrun, hsend, hpoints⟩ := ih (fun x hx => hclean x (by simp [hx])) _ hset
    refine ⟨curves', ?_, hsend, fun mnem => ?_⟩
    · rw [List.foldlM_cons, hwire]
      exact hrun
    · rw [hpoints, points_set, pointsOf, pointsOf, List.filter_cons]
      by_cases hm : s.mnemonic = mnem
      · subst hm
        simp
      · simp [hm]

/-- With a limit the newest samples are the end of the buffer. -/
theorem recentItems_eq_lastN {limit : ℕ} (hpos : limit ≠ 0) (buf : List CurveSample) :
    RingBufferStore.recentItems none (some limit) buf = lastN limit buf := by
  rw [RingBufferStore.recentItems, RingBufferStore.lastItems, if_neg hpos, lastN]

/-- The points that a subscription starts from: the last 300 of a curve. -/
def seed (host : Host) (store : RingBufferStore) (wellUid mnem : Str) : List WirePoint :=
  (lastN 300 (store.buffer (wellUid, mnem))).map (wire host)

/-- **A snapshot carries the last 300 samples of each curve.** -/
theorem snapshotMessage_spec {store : RingBufferStore} {wellUid : Str}
    (hclean : ∀ mnem, ∀ s ∈ store.buffer (wellUid, mnem), Clean host s ∧ s.mnemonic = mnem) :
    ∃ msg, snapshotMessage host store wellUid = .ok msg ∧ Usable wellUid msg ∧
      msg.isSnapshot = true ∧ ∀ mnem, msg.curves.points mnem = seed host store wellUid mnem := by
  have hdist := store.distinct_getRecent wellUid [] none (some 300)
  have hget := fun mnem =>
    @RingBufferStore.get?_getRecent_asked store wellUid mnem [] (Or.inl rfl) none (some 300)
  simp only [recentItems_eq_lastN (show 300 ≠ 0 by decide)] at hget
  have hmsg : ∀ curves, (store.getRecent wellUid [] none (some 300)).mapM
      (fun e : Str × List CurveSample =>
        (e.2.mapM (sampleToWire host)).map fun points => (e.1, points)) = .ok curves →
      snapshotMessage host store wellUid = .ok ⟨true, wellUid, curves⟩ := by
    intro curves h
    rw [snapshotMessage, h]
    rfl
  generalize store.getRecent wellUid [] none (some 300) = recent at hdist hget hmsg
  have hitems : ∀ e ∈ recent, store.buffer (wellUid, e.1) ≠ [] ∧
      e.2 = lastN 300 (store.buffer (wellUid, e.1)) := by
    intro e he
    have h := hget e.1
    rw [Dict.get?_of_mem (fun _ _ => eq_of_beq) (beq_self_eq_true e.1) hdist he] at h
    split at h
    · simp at h
    · rename_i hne
      exact ⟨hne, Option.some.inj h⟩
  have hsample : ∀ e ∈ recent, ∀ s ∈ e.2, Clean host s ∧ s.mnemonic = e.1 := by
    intro e he s hs
    rw [(hitems e he).2] at hs
    exact hclean e.1 s ((lastN_suffix _ _).subset hs)
  have hrun := hmsg (recent.map fun e => (e.1, e.2.map (wire host))) <| mapM_eq_ok fun e he => by
    rw [mapM_eq_ok fun s hs => (hsample e he s hs).1.1]
    rfl
  refine ⟨_, hrun, ⟨rfl, ?_⟩, rfl, fun mnem => ?_⟩
  · constructor
    · exact List.pairwise_map.mpr hdist
    · intro e he
      obtain ⟨e', he', rfl⟩ := List.mem_map.mp he
      -- a listed curve has a sample, which is clean
      obtain ⟨hne, hbuf⟩ := hitems e' he'
      obtain ⟨s, hs⟩ := List.exists_mem_of_ne_nil _ hne
      obtain ⟨⟨-, -, hname⟩, hmn⟩ := hclean e'.1 s hs
      exact hmn ▸ hname
    · intro e he p hp
      obtain ⟨e', he', rfl⟩ := List.mem_map.mp he
      obtain ⟨s, hs, rfl⟩ := List.mem_map.mp hp
      exact (hsample e' he' s hs).1.2.1
  · rw [Curves.points, Dict.get?_map, hget mnem, seed]
    split
    · rename_i hempty
      simp [hempty, lastN]
    · rw [Option.map_some, Option.getD_some]

end Messages

/-! ## 5. Exactness

`Exact` is the law and `Inv` what carries it: besides the law, what is on the way (`OnTheWay`), and
that everything the browser has or will get comes from the store's own samples, so that its
mnemonics and numbers are clean. -/

section Exactness

variable (host : Host) (wellUid : Str) (windowSize : ℕ)

/-- **The browser's curves are exact**: once the snapshot of the latest subscription and `k` data
messages after it have been processed, a curve is the window of what the subscription started from
and of what the first `k` appends since then brought. -/
def Exact (s : LiveWell) : Prop :=
  ∀ k, s.processed = some k → k ≤ s.appended.length ∧
    ∀ mnem, s.curves.points mnem = lastN windowSize
      (seed host s.base wellUid mnem ++ pointsOf host mnem (s.appended.take k).flatten)

/-- The queue of the viewed well has room when something is published to it. -/
def RoomInQueue (s : LiveWell) : Event → Prop
  | .ingest well samples => well = wellUid → samples ≠ [] →
      ∀ c ∈ s.connection, ∀ q ∈ c.queue, q.length < queueSize
  | _ => True

instance (s : LiveWell) : ∀ e, Decidable (RoomInQueue wellUid s e)
  | .ingest well samples => inferInstanceAs (Decidable (well = wellUid → samples ≠ [] →
      ∀ c ∈ s.connection, ∀ q ∈ c.queue, q.length < queueSize))
  | .connect | .disconnect | .subscribe | .snapshotSent | .focused | .take | .send | .deliver =>
    isTrue trivial

/-- What is ingested for the viewed well reaches the browser. -/
def CleanIngest : Event → Prop
  | .ingest well samples => well = wellUid → ∀ x ∈ samples, Clean host x
  | _ => True

instance : ∀ e, Decidable (CleanIngest host wellUid e)
  | .ingest well samples => inferInstanceAs (Decidable (well = wellUid →
      ∀ x ∈ samples, Clean host x))
  | .connect | .disconnect | .subscribe | .snapshotSent | .focused | .take | .send | .deliver =>
    isTrue trivial

/-- The snapshot of the latest subscription. -/
structure IsSnapshot (base : RingBufferStore) (msg : Message) : Prop where
  usable : Usable wellUid msg
  kind : msg.isSnapshot = true
  points : ∀ mnem, msg.curves.points mnem = seed host base wellUid mnem

/-- The message of one append. -/
structure IsData (samples : List CurveSample) (msg : Message) : Prop where
  usable : Usable wellUid msg
  kind : msg.isSnapshot = false
  points : ∀ mnem, msg.curves.points mnem = pointsOf host mnem samples

/-- A message of curves that this store has. -/
structure IsOf (store : RingBufferStore) (msg : Message) : Prop where
  usable : Usable wellUid msg
  known : ∀ mnem, msg.curves.points mnem ≠ [] → store.buffer (wellUid, mnem) ≠ []

/-- The message that the endpoint is about to put on the wire before all others. -/
def Phase.ahead : Phase → List Message
  | .sendingSnapshot msg => [msg]
  | _ => []

/-- What is on the way to the browser of the latest subscription: the snapshot and a message for
each append, or, once the snapshot has been processed, a message for each append that has not. -/
def OnTheWay (s : LiveWell) (pending : List Message) : Prop :=
  match s.processed with
  | none => ∃ snapshot rest, pending = snapshot :: rest ∧ IsSnapshot host wellUid s.base snapshot ∧
      List.Forall₂ (IsData host wellUid) s.appended rest
  | some k => List.Forall₂ (IsData host wellUid) (s.appended.drop k) pending

/-- The wire holds messages of former subscriptions and then those of the latest one; the drain
task, the queue and the endpoint hold the rest of these. -/
structure Subscribed (s : LiveWell) (c : Connection) (queue : List Message) : Prop where
  pending : ∃ former latest, c.wire = former ++ latest ∧
    (∀ m ∈ former, m.1 < s.subscriptions ∧ IsOf wellUid s.base m.2) ∧
    (∀ m ∈ latest, m.1 = s.subscriptions) ∧
    (s.processed ≠ none → former = []) ∧
    OnTheWay host wellUid s
      (latest.map Prod.snd ++ c.phase.ahead ++ c.inHand.toList ++ queue)
  quiet : c.phase.ahead ≠ [] → c.draining = false ∧ c.inHand = none

/-- Before it subscribes a connection carries nothing. -/
structure Silent (c : Connection) : Prop where
  ahead : c.phase.ahead = []
  inHand : c.inHand = none
  wire : c.wire = []

structure Inv (s : LiveWell) : Prop where
  positive : 0 < s.store.maxSamples
  bounded : ∀ mnem, (s.store.buffer (wellUid, mnem)).length ≤ s.store.maxSamples
  clean : ∀ mnem, ∀ x ∈ s.store.buffer (wellUid, mnem), Clean host x ∧ x.mnemonic = mnem
  grew : ∀ mnem, s.base.buffer (wellUid, mnem) ≠ [] ∨ pointsOf host mnem s.appended.flatten ≠ [] →
    s.store.buffer (wellUid, mnem) ≠ []
  exact : Exact host wellUid windowSize s
  known : s.processed = none → ∀ mnem, s.curves.points mnem ≠ [] →
    s.base.buffer (wellUid, mnem) ≠ []
  silent : ∀ c, s.connection = some c → c.queue = none → Silent c
  subscribed : ∀ c, s.connection = some c → ∀ q, c.queue = some q → Subscribed host wellUid s c q

end Exactness

section Invariant

variable {host : Host} {wellUid : Str} {windowSize : ℕ} {s : LiveWell}

/-- The end of a list that is not empty is not empty. -/
theorem lastN_ne_nil {α : Type} {n : ℕ} {l : List α} (hn : 0 < n) (hl : l ≠ []) :
    lastN n l ≠ [] := by
  have hpos : 0 < l.length := List.length_pos_iff.mpr hl
  rw [lastN]
  refine List.ne_nil_of_length_pos ?_
  rw [List.length_drop]
  omega

/-- A curve has a seed exactly if it has samples. -/
theorem seed_ne_nil {store : RingBufferStore} {mnem : Str} :
    seed host store wellUid mnem ≠ [] ↔ store.buffer (wellUid, mnem) ≠ [] := by
  constructor
  · intro h hempty
    exact h (by simp [seed, hempty, lastN])
  · intro h hempty
    rw [seed, List.map_eq_nil_iff] at hempty
    exact lastN_ne_nil (by decide) h hempty

theorem Inv.start (perCurve : ℕ) : Inv host wellUid windowSize (start perCurve) := by
  constructor
  · exact lt_of_lt_of_le (by decide) (le_max_left 2000 perCurve)
  · intro mnem
    simp [Stream.start, RingBufferStore.buffer, RingBufferStore.init, Dict.get?]
  · intro mnem x hx
    simp [Stream.start, RingBufferStore.buffer, RingBufferStore.init, Dict.get?] at hx
  · intro mnem h
    simp [Stream.start, RingBufferStore.buffer, RingBufferStore.init, Dict.get?, pointsOf] at h
  · intro k hk
    simp [Stream.start] at hk
  · intro _ mnem h
    simp [Stream.start, Curves.points, Dict.get?] at h
  · intro c hc
    simp [Stream.start] at hc
  · intro c hc
    simp [Stream.start] at hc

/-- The points that the browser has of a curve come from the store. -/
theorem Inv.curves_known (h : Inv host wellUid windowSize s) {mnem : Str}
    (hne : s.curves.points mnem ≠ []) : s.store.buffer (wellUid, mnem) ≠ [] := by
  cases hp : s.processed with
  | none => exact h.grew mnem (Or.inl (h.known hp mnem hne))
  | some k =>
    obtain ⟨-, hpoints⟩ := h.exact k hp
    by_contra hempty
    have hbase : seed host s.base wellUid mnem = [] := by
      by_contra hseed
      exact h.grew mnem (Or.inl (seed_ne_nil.mp hseed)) hempty
    have happ : pointsOf host mnem (s.appended.take k).flatten = [] := by
      by_contra hpts
      refine h.grew mnem (Or.inr fun hall => hpts ?_) hempty
      have hsplit : s.appended.flatten = (s.appended.take k).flatten ++ (s.appended.drop k).flatten := by
        rw [← List.flatten_append, List.take_append_drop]
      rw [hsplit, pointsOf_append] at hall
      exact (List.append_eq_nil_iff.mp hall).1
    exact hne (by rw [hpoints, hbase, happ]; simp [lastN])

/-- The points of an append come from the store. -/
theorem Inv.appended_known (h : Inv host wellUid windowSize s) {samples : List CurveSample}
    (hmem : samples ∈ s.appended) {mnem : Str} (hne : pointsOf host mnem samples ≠ []) :
    s.store.buffer (wellUid, mnem) ≠ [] := by
  refine h.grew mnem (Or.inr fun hall => ?_)
  obtain ⟨l, m, hsplit⟩ := List.append_of_mem hmem
  rw [hsplit, List.flatten_append, List.flatten_cons, pointsOf_append, pointsOf_append] at hall
  exact hne (List.append_eq_nil_iff.mp (List.append_eq_nil_iff.mp hall).2).1

/-- The message of an append is one of the store's curves. -/
theorem IsData.isOf {samples : List CurveSample} {msg : Message}
    (hd : IsData host wellUid samples msg) (h : Inv host wellUid windowSize s)
    (hmem : samples ∈ s.appended) : IsOf wellUid s.store msg :=
  ⟨hd.usable, fun mnem hne => h.appended_known hmem (by rwa [← hd.points])⟩

/-- So do the points that are on the way. -/
theorem Inv.pending_known (h : Inv host wellUid windowSize s) {pending : List Message}
    (hway : OnTheWay host wellUid s pending) : ∀ msg ∈ pending, IsOf wellUid s.store msg := by
  intro msg hmsg
  rw [OnTheWay] at hway
  split at hway
  · obtain ⟨snapshot, rest, rfl, hsnap, hall⟩ := hway
    rcases List.mem_cons.mp hmsg with rfl | hmsg
    · refine ⟨hsnap.usable, fun mnem hne => h.grew mnem (Or.inl ?_)⟩
      rw [hsnap.points] at hne
      exact seed_ne_nil.mp hne
    · obtain ⟨samples, hmem, hd⟩ := exists_of_forall₂ hall hmsg
      exact hd.isOf h hmem
  · obtain ⟨samples, hmem, hd⟩ := exists_of_forall₂ hway hmsg
    exact hd.isOf h (List.mem_of_mem_drop hmem)

/-! What each event does to the invariant. -/

theorem Inv.connect (h : Inv host wellUid windowSize s) :
    Inv host wellUid windowSize { s with connection := some {} } := by
  refine ⟨h.positive, h.bounded, h.clean, h.grew, h.exact, h.known, ?_, ?_⟩
  · intro c hc _
    obtain rfl := Option.some.inj hc
    exact ⟨rfl, rfl, rfl⟩
  · intro c hc q hq
    obtain rfl := Option.some.inj hc
    simp at hq

/-- A lost one loses what it carried; the browser keeps what it has. -/
theorem Inv.disconnect (h : Inv host wellUid windowSize s) :
    Inv host wellUid windowSize { s with connection := none } :=
  ⟨h.positive, h.bounded, h.clean, h.grew, h.exact, h.known, by simp, by simp⟩

/-- A subscription starts over from the store as it is. -/
theorem Inv.subscribe {c : Connection} (h : Inv host wellUid windowSize s)
    (hc : s.connection = some c) : Inv host wellUid windowSize (subscribe host wellUid s c) := by
  obtain ⟨msg, hrun, husable, hkind, hpoints⟩ := snapshotMessage_spec h.clean
  -- what is on the wire is of the store's curves, whatever subscription it belongs to
  have hwire : ∀ m ∈ c.wire, m.1 < s.subscriptions + 1 ∧ IsOf wellUid s.store m.2 := by
    cases hq : c.queue with
    | none => simp [(h.silent c hc hq).wire]
    | some q =>
      obtain ⟨⟨former, latest, hw, hformer, hlatest, -, hway⟩, -⟩ := h.subscribed c hc q hq
      intro m hm
      rw [hw] at hm
      rcases List.mem_append.mp hm with hm | hm
      · obtain ⟨hlt, hof⟩ := hformer m hm
        exact ⟨by omega, hof.usable, fun mnem hne => h.grew mnem (Or.inl (hof.known mnem hne))⟩
      · refine ⟨by rw [hlatest m hm]; omega, h.pending_known hway m.2 ?_⟩
        simp only [List.append_assoc, List.mem_append]
        exact Or.inl (List.mem_map_of_mem hm)
  simp only [Stream.subscribe, hrun]
  refine ⟨h.positive, h.bounded, h.clean, ?_, ?_, ?_, ?_, ?_⟩
  · intro mnem hor
    rcases hor with hbase | happ
    · exact hbase
    · simp [pointsOf] at happ
  · intro k hk
    simp at hk
  · exact fun _ mnem hne => h.curves_known hne
  · intro c' hc' hq
    obtain rfl := Option.some.inj hc'
    simp at hq
  · intro c' hc' q hq
    obtain rfl := Option.some.inj hc'
    obtain rfl := Option.some.inj hq
    refine ⟨⟨c.wire, [], by simp, hwire, by simp, fun hne => absurd rfl hne, ?_⟩, fun _ => ⟨rfl, rfl⟩⟩
    exact ⟨msg, [], by simp [Phase.ahead], ⟨husable, hkind, hpoints⟩, List.Forall₂.nil⟩

/-- Messages that move towards the browser in their order stay on the way to it. -/
theorem Inv.forward {c c' : Connection} {queue queue' : List Message}
    (h : Inv host wellUid windowSize s) (hc : s.connection = some c) (hq : c.queue = some queue)
    (hq' : c'.queue = some queue') (sent : List Message)
    (hwire : c'.wire = c.wire ++ sent.map fun msg => (s.subscriptions, msg))
    (hsame : sent ++ c'.phase.ahead ++ c'.inHand.toList ++ queue' =
      c.phase.ahead ++ c.inHand.toList ++ queue)
    (hquiet : c'.phase.ahead ≠ [] → c'.draining = false ∧ c'.inHand = none) :
    Inv host wellUid windowSize { s with connection := some c' } := by
  obtain ⟨⟨former, latest, hw, hformer, hlatest, hdone, hway⟩, -⟩ := h.subscribed c hc queue hq
  refine ⟨h.positive, h.bounded, h.clean, h.grew, h.exact, h.known, ?_, ?_⟩
  · intro c₁ hc₁ hnone
    obtain rfl := Option.some.inj hc₁
    rw [hq'] at hnone
    exact absurd hnone (by simp)
  · intro c₁ hc₁ q₁ hq₁
    obtain rfl := Option.some.inj hc₁
    obtain rfl : queue' = q₁ := Option.some.inj (hq'.symm.trans hq₁)
    refine ⟨⟨former, latest ++ sent.map fun msg => (s.subscriptions, msg), ?_, hformer, ?_, hdone, ?_⟩,
      hquiet⟩
    · rw [hwire, hw, List.append_assoc]
    · intro m hm
      rcases List.mem_append.mp hm with hm | hm
      · exact hlatest m hm
      · obtain ⟨msg, -, rfl⟩ := List.mem_map.mp hm
        rfl
    · have hlist : (latest ++ sent.map fun msg => (s.subscriptions, msg)).map Prod.snd ++
          c'.phase.ahead ++ c'.inHand.toList ++ queue' =
          latest.map Prod.snd ++ c.phase.ahead ++ c.inHand.toList ++ queue := by
        have hsnd : (sent.map fun msg => (s.subscriptions, msg)).map Prod.snd = sent := by
          simp [Function.comp_def]
        rw [List.map_append, hsnd]
        simp only [List.append_assoc] at hsame ⊢
        rw [hsame]
      rw [hlist]
      exact hway

/-- The snapshot goes onto the wire before the others. -/
theorem Inv.snapshotSent {c : Connection} {msg : Message} (h : Inv host wellUid windowSize s)
    (hc : s.connection = some c) (hphase : c.phase = .sendingSnapshot msg) :
    Inv host wellUid windowSize { s with connection := some { c with
      phase := .focusing, wire := c.wire ++ [(s.subscriptions, msg)] } } := by
  have hahead : c.phase.ahead = [msg] := by
    rw [hphase]
    rfl
  cases hq : c.queue with
  | none =>
    have hsilent := (h.silent c hc hq).ahead
    simp [hahead] at hsilent
  | some queue =>
    refine h.forward hc hq rfl [msg] rfl ?_ fun hne => absurd rfl hne
    rw [hahead]
    rfl

/-- The drain task is created, with nothing in its hand. -/
theorem Inv.focused {c : Connection} (h : Inv host wellUid windowSize s)
    (hc : s.connection = some c) (hphase : c.phase = .focusing) :
    Inv host wellUid windowSize { s with connection := some { c with
      phase := .receiving, draining := true } } := by
  have hahead : c.phase.ahead = [] := by
    rw [hphase]
    rfl
  cases hq : c.queue with
  | none =>
    refine ⟨h.positive, h.bounded, h.clean, h.grew, h.exact, h.known, ?_, ?_⟩
    · intro c' hc' _
      obtain rfl := Option.some.inj hc'
      exact ⟨rfl, (h.silent c hc hq).inHand, (h.silent c hc hq).wire⟩
    · intro c' hc' q' hq'
      obtain rfl := Option.some.inj hc'
      exact absurd hq' (by simp)
  | some queue =>
    refine h.forward hc hq rfl [] (by simp) ?_ fun hne => absurd rfl hne
    rw [hahead]
    rfl

/-- A message goes from the queue to the drain task. -/
theorem Inv.take {c : Connection} {msg : Message} {queue : List Message}
    (h : Inv host wellUid windowSize s) (hc : s.connection = some c)
    (hq : c.queue = some (msg :: queue)) (hhand : c.inHand = none) (hdrain : c.draining = true) :
    Inv host wellUid windowSize { s with connection := some { c with
      inHand := some msg, queue := some queue } } := by
  have hahead : c.phase.ahead = [] := by
    by_contra hne
    have hquiet := ((h.subscribed c hc _ hq).quiet hne).1
    rw [hdrain] at hquiet
    exact absurd hquiet (by simp)
  refine h.forward hc hq rfl [] (by simp) ?_ fun hne => absurd hahead hne
  rw [hhand]
  simp

theorem Inv.send {c : Connection} {msg : Message} (h : Inv host wellUid windowSize s)
    (hc : s.connection = some c) (hhand : c.inHand = some msg) :
    Inv host wellUid windowSize { s with connection := some { c with
      inHand := none, wire := c.wire ++ [(s.subscriptions, msg)] } } := by
  cases hq : c.queue with
  | none =>
    have hsilent := (h.silent c hc hq).inHand
    rw [hhand] at hsilent
    exact absurd hsilent (by simp)
  | some queue =>
    have hahead : c.phase.ahead = [] := by
      by_contra hne
      have hnone := ((h.subscribed c hc queue hq).quiet hne).2
      rw [hhand] at hnone
      exact absurd hnone (by simp)
    refine h.forward hc hq rfl [msg] rfl ?_ fun hne => absurd hahead hne
    rw [hhand]
    simp [hahead]

/-- The browser processes a message of a former subscription: the snapshot is still to come. -/
theorem Inv.deliver_former {c : Connection} {number : ℕ} {msg : Message}
    {rest : List (ℕ × Message)} {queue : List Message} {former latest : List (ℕ × Message)}
    (h : Inv host wellUid windowSize s) (hc : s.connection = some c) (hq : c.queue = some queue)
    (hwire : rest = former ++ latest) (hmsg : number < s.subscriptions ∧ IsOf wellUid s.base msg)
    (hformer : ∀ m ∈ former, m.1 < s.subscriptions ∧ IsOf wellUid s.base m.2)
    (hlatest : ∀ m ∈ latest, m.1 = s.subscriptions) (hnone : s.processed = none)
    (hway : OnTheWay host wellUid s
      (latest.map Prod.snd ++ c.phase.ahead ++ c.inHand.toList ++ queue)) :
    Inv host wellUid windowSize (deliver wellUid windowSize s c number msg rest) := by
  obtain ⟨hlt, hof⟩ := hmsg
  have hdeliver : deliver wellUid windowSize s c number msg rest =
      { s with
        connection := some { c with wire := rest }
        curves := receive wellUid windowSize s.curves msg } := by
    rw [deliver, if_neg (by omega)]
  rw [hdeliver]
  refine ⟨h.positive, h.bounded, h.clean, h.grew, ?_, ?_, ?_, ?_⟩
  · intro k hk
    rw [hnone] at hk
    exact absurd hk (by simp)
  · intro _ mnem hne
    change (receive wellUid windowSize s.curves msg).points mnem ≠ [] at hne
    rw [receive_points windowSize s.curves hof.usable mnem] at hne
    by_cases hempty : msg.curves.points mnem = []
    · rw [if_pos hempty] at hne
      exact h.known hnone mnem hne
    · exact hof.known mnem hempty
  · intro c' hc' hq'
    obtain rfl := Option.some.inj hc'
    exact absurd (hq.symm.trans hq') (by simp)
  · intro c' hc' q' hq'
    obtain rfl := Option.some.inj hc'
    obtain rfl : queue = q' := Option.some.inj (hq.symm.trans hq')
    exact ⟨⟨former, latest, hwire, hformer, hlatest, fun hne => absurd hnone hne, hway⟩,
      (h.subscribed c hc queue hq).quiet⟩

/-- The browser processes the snapshot: the buffers are the seeds. -/
theorem Inv.exact_snapshot {msg : Message} (h : Inv host wellUid windowSize s)
    (hnone : s.processed = none) (hsnap : IsSnapshot host wellUid s.base msg) (mnem : Str) :
    (receive wellUid windowSize s.curves msg).points mnem =
      lastN windowSize (seed host s.base wellUid mnem) := by
  rw [receive_points windowSize s.curves hsnap.usable mnem, hsnap.points, hsnap.kind]
  by_cases hseed : seed host s.base wellUid mnem = []
  · -- a curve that the snapshot does not have was never shown
    have hcurve : s.curves.points mnem = [] := by
      by_contra hne
      exact seed_ne_nil.mpr (h.known hnone mnem hne) hseed
    rw [if_pos hseed, hcurve, hseed, lastN, List.drop_nil]
  · rw [if_neg hseed, if_pos rfl, List.nil_append]

/-- The browser processes the next data message: its points are those of the next append. -/
theorem Inv.exact_data {msg : Message} {samples : List CurveSample}
    {rest : List (List CurveSample)} {k : ℕ} (h : Inv host wellUid windowSize s)
    (hk : s.processed = some k) (hdrop : s.appended.drop k = samples :: rest)
    (hdata : IsData host wellUid samples msg) (mnem : Str) :
    (receive wellUid windowSize s.curves msg).points mnem = lastN windowSize
      (seed host s.base wellUid mnem ++ pointsOf host mnem (s.appended.take (k + 1)).flatten) := by
  obtain ⟨hle, hpoints⟩ := h.exact k hk
  have hlen : (s.appended.take k).length = k := List.length_take_of_le hle
  have htake : s.appended.take (k + 1) = s.appended.take k ++ [samples] := by
    conv_lhs => rw [← List.take_append_drop k s.appended, hdrop]
    rw [List.take_append, hlen, List.take_of_length_le (by omega)]
    simp
  have hflat : pointsOf host mnem (s.appended.take (k + 1)).flatten =
      pointsOf host mnem (s.appended.take k).flatten ++ pointsOf host mnem samples := by
    rw [htake, List.flatten_append, List.flatten_singleton, pointsOf_append]
  rw [receive_points windowSize s.curves hdata.usable mnem, hdata.points, hdata.kind, hflat,
    hpoints mnem]
  by_cases hempty : pointsOf host mnem samples = []
  · rw [if_pos hempty, hempty, List.append_nil]
  · rw [if_neg hempty, if_neg (by simp), lastN_append, List.append_assoc]

/-- The browser processes a message of the latest subscription. -/
theorem Inv.deliver_latest {c : Connection} {msg : Message} {queue : List Message}
    {latest : List (ℕ × Message)} (h : Inv host wellUid windowSize s)
    (hc : s.connection = some c) (hq : c.queue = some queue)
    (hlatest : ∀ m ∈ latest, m.1 = s.subscriptions)
    (hway : OnTheWay host wellUid s
      (msg :: (latest.map Prod.snd ++ c.phase.ahead ++ c.inHand.toList ++ queue))) :
    Inv host wellUid windowSize
      (deliver wellUid windowSize s c s.subscriptions msg latest) := by
  -- the snapshot starts the count, a data message raises it
  obtain ⟨k, hk, hexact, hway'⟩ : ∃ k,
      (if msg.isSnapshot then some 0 else s.processed.map (· + 1)) = some k ∧
      (k ≤ s.appended.length ∧ ∀ mnem, (receive wellUid windowSize s.curves msg).points mnem =
        lastN windowSize (seed host s.base wellUid mnem ++
          pointsOf host mnem (s.appended.take k).flatten)) ∧
      List.Forall₂ (IsData host wellUid) (s.appended.drop k)
        (latest.map Prod.snd ++ c.phase.ahead ++ c.inHand.toList ++ queue) := by
    rw [OnTheWay] at hway
    split at hway
    · rename_i hnone
      obtain ⟨snapshot, rest, heq, hsnap, hall⟩ := hway
      obtain ⟨rfl, rfl⟩ := List.cons.inj heq
      refine ⟨0, by rw [if_pos hsnap.kind], ⟨Nat.zero_le _, fun mnem => ?_⟩, hall⟩
      rw [h.exact_snapshot hnone hsnap mnem]
      simp [pointsOf]
    · rename_i k hk
      cases hdrop : s.appended.drop k with
      | nil =>
        rw [hdrop] at hway
        cases hway
      | cons samples rest =>
        rw [hdrop] at hway
        cases hway with
        | cons hdata hall =>
          have hlt : k < s.appended.length := by
            have hlen := congrArg List.length hdrop
            rw [List.length_drop, List.length_cons] at hlen
            omega
          refine ⟨k + 1, by rw [if_neg (by simp [hdata.kind]), hk]; rfl,
            ⟨hlt, h.exact_data hk hdrop hdata⟩, ?_⟩
          rw [← List.drop_drop, hdrop]
          exact hall
  have hdeliver : deliver wellUid windowSize s c s.subscriptions msg latest =
      { s with
        connection := some { c with wire := latest }
        curves := receive wellUid windowSize s.curves msg
        processed := some k } := by
    rw [deliver, if_pos rfl, hk]
  rw [hdeliver]
  refine ⟨h.positive, h.bounded, h.clean, h.grew, ?_, fun hne => absurd hne (by simp), ?_, ?_⟩
  · intro k' hk'
    obtain rfl := Option.some.inj hk'
    exact hexact
  · intro c' hc' hq'
    obtain rfl := Option.some.inj hc'
    exact absurd (hq.symm.trans hq') (by simp)
  · intro c' hc' q' hq'
    obtain rfl := Option.some.inj hc'
    obtain rfl : queue = q' := Option.some.inj (hq.symm.trans hq')
    exact ⟨⟨[], latest, rfl, by simp, hlatest, fun _ => rfl, hway'⟩,
      (h.subscribed c hc queue hq).quiet⟩

/-- The browser processes the first message on the wire, of this subscription or a former one. -/
theorem Inv.deliver {c : Connection} {number : ℕ} {msg : Message} {rest : List (ℕ × Message)}
    (h : Inv host wellUid windowSize s) (hc : s.connection = some c)
    (hw : c.wire = (number, msg) :: rest) :
    Inv host wellUid windowSize (deliver wellUid windowSize s c number msg rest) := by
  cases hq : c.queue with
  | none =>
    have hsilent := (h.silent c hc hq).wire
    rw [hw] at hsilent
    exact absurd hsilent (by simp)
  | some queue =>
    obtain ⟨⟨former, latest, hsplit, hformer, hlatest, hdone, hway⟩, -⟩ :=
      h.subscribed c hc queue hq
    rw [hw] at hsplit
    cases former with
    | cons m former =>
      obtain ⟨rfl, rfl⟩ := List.cons.inj hsplit
      have hnone : s.processed = none := by
        by_contra hne
        exact absurd (hdone hne) (by simp)
      exact h.deliver_former hc hq rfl (hformer _ List.mem_cons_self) (fun m hm => hformer m (by simp [hm]))
        hlatest hnone hway
    | nil =>
      rw [List.nil_append] at hsplit
      subst hsplit
      obtain rfl : number = s.subscriptions := hlatest _ List.mem_cons_self
      exact h.deliver_latest hc hq (fun m hm => hlatest m (by simp [hm])) hway

/-- What an append does to the buffers of a well. -/
theorem Inv.buffer_append (h : Inv host wellUid windowSize s) (well : Str)
    (samples : List CurveSample) (mnem : Str) :
    (s.store.append well samples).buffer (wellUid, mnem) = lastN s.store.maxSamples
      (s.store.buffer (wellUid, mnem) ++
        if well = wellUid then samples.filter fun x => decide (x.mnemonic = mnem) else []) := by
  rw [RingBufferStore.buffer_append well samples (wellUid, mnem) s.store (h.bounded mnem)]
  by_cases hwell : well = wellUid
  · subst hwell
    simp
  · simp [hwell]

/-- Another well's append leaves the buffers of this one. -/
theorem Inv.ingest_other {well : Str} (h : Inv host wellUid windowSize s)
    (hwell : well ≠ wellUid) (samples : List CurveSample) :
    Inv host wellUid windowSize { s with store := s.store.append well samples } := by
  have hbuffer : ∀ mnem, (s.store.append well samples).buffer (wellUid, mnem) =
      s.store.buffer (wellUid, mnem) := by
    intro mnem
    have hzero : (s.store.buffer (wellUid, mnem)).length - s.store.maxSamples = 0 := by
      have hle := h.bounded mnem
      omega
    rw [h.buffer_append, if_neg hwell, List.append_nil, lastN, hzero, List.drop_zero]
  refine ⟨h.positive, fun mnem => ?_, fun mnem => ?_, fun mnem => ?_, h.exact, h.known, h.silent, ?_⟩
  · change ((s.store.append well samples).buffer (wellUid, mnem)).length ≤ s.store.maxSamples
    rw [hbuffer]
    exact h.bounded mnem
  · change ∀ x ∈ (s.store.append well samples).buffer (wellUid, mnem), _
    rw [hbuffer]
    exact h.clean mnem
  · change _ → (s.store.append well samples).buffer (wellUid, mnem) ≠ []
    rw [hbuffer]
    exact h.grew mnem
  · intro c hc q hq
    obtain ⟨hpending, hquiet⟩ := h.subscribed c hc q hq
    exact ⟨hpending, hquiet⟩

/-- Into a queue with room, a message goes to the end. -/
theorem publish_of_room {queue : List Message} (hroom : queue.length < queueSize) (msg : Message) :
    publish queue msg = queue ++ [msg] := by
  rw [publish, if_neg (by omega)]

/-- One more append, and one more message on the way. -/
theorem OnTheWay.snoc {pending : List Message} {samples : List CurveSample} {msg : Message}
    {s' : LiveWell} (h : OnTheWay host wellUid s pending) (hdata : IsData host wellUid samples msg)
    (hbase : s'.base = s.base) (happ : s'.appended = s.appended ++ [samples])
    (hprocessed : s'.processed = s.processed)
    (hle : ∀ k, s.processed = some k → k ≤ s.appended.length) :
    OnTheWay host wellUid s' (pending ++ [msg]) := by
  rw [OnTheWay] at h ⊢
  rw [hprocessed, hbase, happ]
  cases hp : s.processed with
  | none =>
    rw [hp] at h
    obtain ⟨snapshot, rest, rfl, hsnap, hall⟩ := h
    exact ⟨snapshot, rest ++ [msg], rfl, hsnap,
      List.rel_append hall (List.Forall₂.cons hdata List.Forall₂.nil)⟩
  | some k =>
    rw [hp] at h
    dsimp only at h ⊢
    rw [List.drop_append_of_le_length (hle k hp)]
    exact List.rel_append h (List.Forall₂.cons hdata List.Forall₂.nil)

/-- This well's append: the buffers grow, and its message is queued. -/
theorem Inv.ingest_viewed {samples : List CurveSample} {msg : Message}
    (h : Inv host wellUid windowSize s) (hsamples : ∀ x ∈ samples, Clean host x)
    (hdata : IsData host wellUid samples msg)
    (hroom : ∀ c, s.connection = some c → ∀ q, c.queue = some q → q.length < queueSize) :
    Inv host wellUid windowSize { s with
      store := s.store.append wellUid samples
      appended := s.appended ++ [samples]
      connection := s.connection.map fun c =>
        { c with queue := c.queue.map fun q => publish q msg } } := by
  have hbuffer : ∀ mnem, (s.store.append wellUid samples).buffer (wellUid, mnem) =
      lastN s.store.maxSamples (s.store.buffer (wellUid, mnem) ++
        samples.filter fun x => decide (x.mnemonic = mnem)) := by
    intro mnem
    rw [h.buffer_append, if_pos rfl]
  refine ⟨h.positive, ?_, ?_, ?_, ?_, h.known, ?_, ?_⟩
  · intro mnem
    change ((s.store.append wellUid samples).buffer (wellUid, mnem)).length ≤ s.store.maxSamples
    rw [hbuffer]
    exact lastN_length_le _ _
  · intro mnem x hx
    change x ∈ (s.store.append wellUid samples).buffer (wellUid, mnem) at hx
    rw [hbuffer] at hx
    rcases List.mem_append.mp ((lastN_suffix _ _).subset hx) with hx | hx
    · exact h.clean mnem x hx
    · obtain ⟨hmem, hmn⟩ := List.mem_filter.mp hx
      exact ⟨hsamples x hmem, by simpa using hmn⟩
  · intro mnem hor
    change (s.store.append wellUid samples).buffer (wellUid, mnem) ≠ []
    rw [hbuffer]
    refine lastN_ne_nil h.positive fun hnil => ?_
    obtain ⟨hold, hnew⟩ := List.append_eq_nil_iff.mp hnil
    rcases hor with hbase | hpts
    · exact h.grew mnem (Or.inl hbase) hold
    · refine h.grew mnem (Or.inr fun hnil => hpts ?_) hold
      rw [List.flatten_append, pointsOf_append, hnil, List.flatten_singleton, pointsOf, hnew]
      rfl
  · intro k hk
    obtain ⟨hle, hpoints⟩ := h.exact k hk
    refine ⟨?_, fun mnem => ?_⟩
    · change k ≤ (s.appended ++ [samples]).length
      rw [List.length_append]
      omega
    · change s.curves.points mnem = lastN windowSize (seed host s.base wellUid mnem ++
        pointsOf host mnem ((s.appended ++ [samples]).take k).flatten)
      rw [List.take_append_of_le_length hle]
      exact hpoints mnem
  · intro c' hc' hq'
    obtain ⟨c, hc, rfl⟩ := Option.map_eq_some_iff.mp hc'
    have hsilent := h.silent c hc (Option.map_eq_none_iff.mp hq')
    exact ⟨hsilent.ahead, hsilent.inHand, hsilent.wire⟩
  · intro c' hc' q' hq'
    obtain ⟨c, hc, rfl⟩ := Option.map_eq_some_iff.mp hc'
    obtain ⟨q, hq, rfl⟩ := Option.map_eq_some_iff.mp hq'
    obtain ⟨⟨former, latest, hw, hformer, hlatest, hdone, hway⟩, hquiet⟩ := h.subscribed c hc q hq
    refine ⟨⟨former, latest, hw, hformer, hlatest, hdone, ?_⟩, hquiet⟩
    rw [publish_of_room (hroom c hc q hq), ← List.append_assoc]
    exact hway.snoc hdata rfl rfl rfl fun k hk => (h.exact k hk).1

theorem Inv.ingest {well : Str} {samples : List CurveSample} (h : Inv host wellUid windowSize s)
    (hroom : RoomInQueue wellUid s (.ingest well samples))
    (hclean : CleanIngest host wellUid (.ingest well samples)) :
    Inv host wellUid windowSize (ingest host wellUid s well samples) := by
  rw [Stream.ingest]
  by_cases hempty : samples = []
  · rw [if_pos hempty]
    exact h
  · rw [if_neg hempty]
    by_cases hwell : well = wellUid
    · subst hwell
      obtain ⟨msg, hrun, husable, hkind, hpoints⟩ := dataMessage_spec well (hclean rfl)
      simp only [ne_eq, not_true_eq_false, if_false, hrun]
      exact h.ingest_viewed (hclean rfl) ⟨husable, hkind, hpoints⟩ (hroom rfl hempty)
    · simp only [ne_eq, hwell, not_false_eq_true, if_true]
      exact h.ingest_other hwell samples

theorem Inv.next {s' : LiveWell} {e : Event} (h : Inv host wellUid windowSize s)
    (he : next host wellUid windowSize s e = some s') (hroom : RoomInQueue wellUid s e)
    (hclean : CleanIngest host wellUid e) : Inv host wellUid windowSize s' := by
  cases e with
  | ingest well samples =>
    obtain rfl := Option.some.inj he
    exact h.ingest hroom hclean
  | connect =>
    simp only [Stream.next] at he
    split at he
    · obtain rfl := Option.some.inj he
      exact h.connect
    · cases he
  | disconnect =>
    simp only [Stream.next] at he
    split at he
    · obtain rfl := Option.some.inj he
      exact h.disconnect
    · cases he
  | subscribe =>
    simp only [Stream.next] at he
    split at he
    · rename_i c hc
      split at he
      · obtain rfl := Option.some.inj he
        exact h.subscribe hc
      · cases he
    · cases he
  | snapshotSent =>
    simp only [Stream.next] at he
    split at he
    · rename_i c hc
      split at he
      · rename_i msg hphase
        obtain rfl := Option.some.inj he
        exact h.snapshotSent hc hphase
      · cases he
    · cases he
  | focused =>
    simp only [Stream.next] at he
    split at he
    · rename_i c hc
      split at he
      · rename_i hphase
        obtain rfl := Option.some.inj he
        exact h.focused hc hphase
      · cases he
    · cases he
  | take =>
    simp only [Stream.next] at he
    split at he
    · rename_i c hc
      split at he
      · rename_i msg queue hdrain hhand hq
        obtain rfl := Option.some.inj he
        exact h.take hc hq hhand hdrain
      · cases he
    · cases he
  | send =>
    simp only [Stream.next] at he
    split at he
    · rename_i c hc
      split at he
      · rename_i msg hhand
        obtain rfl := Option.some.inj he
        exact h.send hc hhand
      · cases he
    · cases he
  | deliver =>
    simp only [Stream.next] at he
    split at he
    · rename_i c hc
      split at he
      · rename_i number msg rest hw
        obtain rfl := Option.some.inj he
        exact h.deliver hc hw
      · cases he
    · cases he

end Invariant

/-! ## 6. Runs

The law at every moment of every run, from an empty store. -/

/-- **The browser's curves are exact at every moment** of every run in which no full queue drops a
message and everything that is ingested for the viewed well reaches the browser.

"At every moment" includes those between two messages of one append and another, while a snapshot
is on its way, and when messages of a former subscription are still on the wire: these are
processed too, and what they do is undone by the snapshot.  Subscriptions to the well may come
again and again, and connections be lost at any point. -/
theorem live_exact (host : Host) (wellUid : Str) (windowSize perCurve : ℕ) {es : List Event}
    {s : LiveWell}
    (hrun : Run (next host wellUid windowSize)
      (fun s e => RoomInQueue wellUid s e ∧ CleanIngest host wellUid e) (start perCurve) es s) :
    Exact host wellUid windowSize s := by
  have hinv : Inv host wellUid windowSize s := by
    refine hrun.invariant ?_ (Inv.start perCurve)
    intro s e s' h hguard he
    exact h.next he hguard.1 hguard.2
  exact hinv.exact

def utcHost : Host := .utc

def viewedWell : Str := "W-1".toList

/-- A sample of a number at a depth. -/
def depthSample (mnem : String) (depth : ℕ) (x : Float64) : CurveSample :=
  ⟨mnem.toList, .num (.ofRatio depth 1), some x, none, none⟩

/-- Two appends, one on each side of the subscription, and a third while the second is on its
way. -/
def subscribeBetween : List Event :=
  [.ingest viewedWell [depthSample "ROP" 1 (.ofRatio 10 1)], .connect, .subscribe,
    .ingest viewedWell [depthSample "ROP" 2 (.ofRatio 20 1)], .snapshotSent, .focused, .take, .send,
    .ingest viewedWell [depthSample "ROP" 3 (.ofRatio 30 1)], .deliver, .deliver]

theorem live_exact_subscribeBetween :
    ∃ s, Run (next utcHost viewedWell 500)
        (fun s e => RoomInQueue viewedWell s e ∧ CleanIngest utcHost viewedWell e) (start 0)
        subscribeBetween s ∧
      s.processed = some 1 ∧ s.appended.length = 2 ∧ Exact utcHost viewedWell 500 s := by
  refine ⟨_, Run.of_isSome (by decide +kernel), by decide +kernel, by decide +kernel, ?_⟩
  exact live_exact utcHost viewedWell 500 0 (Run.of_isSome (by decide +kernel))

/-- A subscription, and an append whose message reaches the browser. -/
def appendOne (x : CurveSample) : List Event :=
  [.connect, .subscribe, .snapshotSent, .focused, .ingest viewedWell [x], .take, .send, .deliver,
    .deliver]

/-- **A `nan` is a missing point**: the browser cannot parse the message that carries it.  **So is
any point of a mnemonic that names an inherited property**: the browser's handler throws. -/
theorem live_not_exact :
    (∃ s, Run (next utcHost viewedWell 500) (RoomInQueue viewedWell) (start 0)
        (appendOne (depthSample "ROP" 1 .nan)) s ∧
      s.processed = some 1 ∧ s.curves.points "ROP".toList = [] ∧
      ¬Exact utcHost viewedWell 500 s) ∧
    ∃ s, Run (next utcHost viewedWell 500) (RoomInQueue viewedWell) (start 0)
        (appendOne (depthSample "constructor" 1 (.ofRatio 10 1))) s ∧
      s.processed = some 1 ∧ s.curves.points "constructor".toList = [] ∧
      ¬Exact utcHost viewedWell 500 s := by
  constructor
  · refine ⟨_, Run.of_isSome (by decide +kernel), by decide +kernel, by decide +kernel,
      fun h => ?_⟩
    obtain ⟨-, hpoints⟩ := h 1 (by decide +kernel)
    exact absurd (hpoints "ROP".toList) (by decide +kernel)
  · refine ⟨_, Run.of_isSome (by decide +kernel), by decide +kernel, by decide +kernel,
      fun h => ?_⟩
    obtain ⟨-, hpoints⟩ := h 1 (by decide +kernel)
    exact absurd (hpoints "constructor".toList) (by decide +kernel)

end WitsmlViewer.Stream

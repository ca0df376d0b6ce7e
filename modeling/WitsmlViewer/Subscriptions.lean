/-
# The subscription protocol (`frontend/src/api/ws.ts`, `app.ws.hub`)

Two state machines and a channel between them.  The client keeps the set of wells that it is
subscribed to, sends a frame for each call while its socket is open, and replays the set when the
socket opens again.  The hub keeps one current well for each connection.  A connection may drop at
any moment, and what was under way is lost with it.

`survives_iff` says when the two agree as they should.  They need not, for two reasons: the hub
takes any unsubscription for one from the current well, and the client replays its set in insertion
order, in which the last call need not come last.

The client's comment promises that a subscription persists across reconnects.  With one well it
does, whenever the drop comes.  The two designs part over several: the client has a set, and the
hub has one place.

"As they should" is measured against the same calls without a drop.  A drop may not change which
well the hub ends on, and the hub may not end on none, or on one that the client has given up,
while the client has subscriptions.
-/
import WitsmlViewer.Py.Str
import WitsmlViewer.Lib.Runs

namespace WitsmlViewer.Live

open Py Runs

/-! ## 1. The two machines

The client's `send` is silent while the socket is closed, so calls that are made in the meantime
reach the hub by the replay only.  The channel is a list of frames that have been sent and not
handled; a drop empties it, wherever they are. -/

/-- What the client sends. -/
inductive Frame
  | subscribe (wellUid : Str)
  | unsubscribe (wellUid : Str)
deriving DecidableEq

/-- The hub's current well after a frame: an empty well uid is ignored, and an unsubscription
releases whatever well is current. -/
def receive (currentWell : Option Str) : Frame → Option Str
  | .subscribe wellUid => if wellUid ≠ [] then some wellUid else currentWell
  | .unsubscribe _ => none

/-- A client and its connection: the frames that the hub has not handled yet, and the current well
of the connection's endpoint. -/
structure Session where
  subscribedWells : List Str := []
  isOpen : Bool := false
  sent : List Frame := []
  currentWell : Option Str := none
deriving DecidableEq

/-- `Set.add`: an element that is there already keeps its place. -/
def addWell (wells : List Str) (wellUid : Str) : List Str :=
  if wellUid ∈ wells then wells else wells ++ [wellUid]

/-- `Set.delete`. -/
def deleteWell (wells : List Str) (wellUid : Str) : List Str := wells.filter (· ≠ wellUid)

namespace Session

/-- `send`: nothing is sent while the socket is not open. -/
def send (s : Session) (frame : Frame) : Session :=
  if s.isOpen then { s with sent := s.sent ++ [frame] } else s

def subscribe (s : Session) (wellUid : Str) : Session :=
  { s with subscribedWells := addWell s.subscribedWells wellUid }.send (.subscribe wellUid)

def unsubscribe (s : Session) (wellUid : Str) : Session :=
  { s with subscribedWells := deleteWell s.subscribedWells wellUid }.send (.unsubscribe wellUid)

/-- `onopen`, on a fresh endpoint: all subscriptions are sent again. -/
def opened (s : Session) : Session :=
  { s with isOpen := true, sent := s.subscribedWells.map .subscribe, currentWell := none }

/-- The connection is lost, and with it what was sent; the endpoint releases its well. -/
def dropped (s : Session) : Session :=
  { s with isOpen := false, sent := [], currentWell := none }

/-- The current well once every frame sent has been handled. -/
def settled (s : Session) : Option Str := s.sent.foldl receive s.currentWell

end Session

/-- A call, a frame that is handled, an opening or a drop. -/
inductive Event
  | subscribe (wellUid : Str)
  | unsubscribe (wellUid : Str)
  | opened
  | dropped
  | handled
deriving DecidableEq

/-- The state after an event, if it can happen. -/
def next (s : Session) : Event → Option Session
  | .subscribe wellUid => some (s.subscribe wellUid)
  | .unsubscribe wellUid => some (s.unsubscribe wellUid)
  | .opened => if s.isOpen then none else some s.opened
  | .dropped => if s.isOpen then some s.dropped else none
  | .handled =>
    match s.sent with
    | [] => none
    | frame :: sent => some { s with sent := sent, currentWell := receive s.currentWell frame }

/-! ## 2. The same calls without a drop

The undisturbed session is the measure.  It makes the same calls and opens when the real one first
does. -/

/-- One step of the undisturbed session: the connection opens once, and never drops. -/
def undisturbedStep (r : Session) : Event → Session
  | .subscribe wellUid => r.subscribe wellUid
  | .unsubscribe wellUid => r.unsubscribe wellUid
  | .opened => if r.isOpen then r else r.opened
  | .dropped | .handled => r

/-- The session that the calls of `es` would make had no drop occurred. -/
def undisturbed (es : List Event) : Session := es.foldl undisturbedStep {}

/-- **A subscription survived**: the hub's current well is the one that the undisturbed session
settles on, it is subscribed to, and there is none only if nothing is subscribed to. -/
structure Session.Survives (s r : Session) : Prop where
  same : s.currentWell = r.settled
  member : ∀ wellUid, s.currentWell = some wellUid → wellUid ∈ s.subscribedWells
  nonempty : s.currentWell = none → s.subscribedWells = []

/-! ## 3. What decides

The condition is read off the events alone: the set that the calls make, the last call that the hub
acts upon, and whether the socket has opened again since. -/

/-- The calls so far: the set they make, whether the socket has ever opened, and the last call
that the hub acts upon, since it first opened and since it last opened. -/
structure History where
  wells : List Str := []
  everOpen : Bool := false
  sinceFirst : Option Frame := none
  sinceLatest : Option Frame := none

/-- The frame that a call sends, unless the hub ignores it. -/
def Event.frame : Event → Option Frame
  | .subscribe wellUid => if wellUid ≠ [] then some (.subscribe wellUid) else none
  | .unsubscribe wellUid => some (.unsubscribe wellUid)
  | _ => none

namespace History

/-- A call, noted if the socket has opened before. -/
def record (h : History) (wells : List Str) (e : Event) : History :=
  { h with
    wells := wells
    sinceFirst := if h.everOpen then e.frame.or h.sinceFirst else none
    sinceLatest := if h.everOpen then e.frame.or h.sinceLatest else none }

def track (h : History) (e : Event) : History :=
  match e with
  | .subscribe wellUid => h.record (addWell h.wells wellUid) e
  | .unsubscribe wellUid => h.record (deleteWell h.wells wellUid) e
  | .opened => { h with everOpen := true, sinceLatest := none }
  | .dropped | .handled => h

end History

/-- The history of a sequence of events. -/
def history (es : List Event) : History := es.foldl History.track {}

/-- The last of the wells that the hub does not ignore. -/
def lastNamed (wells : List Str) : Option Str := (wells.filter (· ≠ [])).getLast?

/-- Nothing is subscribed to; or the last call is a subscription; and if the socket has opened
again since the last call, the well of that call is the last one of the set. -/
def History.Replayable (h : History) : Prop :=
  h.wells = [] ∨
    match h.sinceLatest with
    | some (.subscribe _) => True
    | some (.unsubscribe _) => False
    | none => ∃ wellUid, lastNamed h.wells = some wellUid ∧
        (h.sinceFirst = none ∨ h.sinceFirst = some (.subscribe wellUid))

/-! ## 4. What a session knows of its history

Three things run side by side: the session, the undisturbed session, and the history.  `Follows` is
what holds between them, and each event keeps it; so at the end the condition on the history
decides. -/

/-- The well that a connection settles on, from the last call since it opened. -/
def settledOn (last : Option Frame) (wells : List Str) : Option Str :=
  match last with
  | none => lastNamed wells
  | some (.subscribe wellUid) => some wellUid
  | some (.unsubscribe _) => none

/-- After a replay the hub is on the last well of the set that it does not ignore. -/
theorem foldl_receive_subscribe (wells : List Str) : ∀ current : Option Str,
    (wells.map Frame.subscribe).foldl receive current = (lastNamed wells).or current := by
  induction wells using List.reverseRecOn with
  | nil => intro current; rfl
  | append_singleton wells wellUid ih =>
    intro current
    rw [List.map_append, List.foldl_append, ih]
    by_cases hw : wellUid = []
    · simp [receive, hw, lastNamed]
    · simp [receive, hw, lastNamed]

/-- A call that the hub ignores does not change the wells that it does not ignore. -/
theorem lastNamed_addWell_nil (wells : List Str) : lastNamed (addWell wells []) = lastNamed wells := by
  rw [addWell]
  split
  · rfl
  · simp [lastNamed]

theorem mem_addWell (wells : List Str) (wellUid : Str) : wellUid ∈ addWell wells wellUid := by
  rw [addWell]
  split
  · assumption
  · simp

/-- The relation between a session, the undisturbed one and the history of their calls. -/
structure Follows (h : History) (s r : Session) : Prop where
  wells : s.subscribedWells = h.wells
  refWells : r.subscribedWells = h.wells
  refOpen : r.isOpen = h.everOpen
  ever : s.isOpen = true → h.everOpen = true
  settled : s.isOpen = true → s.settled = settledOn h.sinceLatest h.wells
  refSettled : h.everOpen = true → r.settled = settledOn h.sinceFirst h.wells
  never : h.everOpen = false → h.sinceFirst = none
  latest : ∀ frame, h.sinceLatest = some frame → h.sinceFirst = some frame
  member : ∀ wellUid, h.sinceFirst = some (.subscribe wellUid) → wellUid ∈ h.wells

section Calls

variable (s : Session) (h : History) (wells : List Str) (frame : Frame) (e : Event)

theorem call_wells : ({ s with subscribedWells := wells }.send frame).subscribedWells = wells := by
  rw [Session.send]
  split <;> rfl

theorem call_isOpen : ({ s with subscribedWells := wells }.send frame).isOpen = s.isOpen := by
  rw [Session.send]
  split <;> rfl

variable {s h} in
theorem call_settled (hopen : s.isOpen = true) :
    ({ s with subscribedWells := wells }.send frame).settled = receive s.settled frame := by
  simp [Session.send, Session.settled, hopen]

variable {s h} in
theorem record_sinceFirst (hever : h.everOpen = true) :
    (h.record wells e).sinceFirst = e.frame.or h.sinceFirst := if_pos hever

variable {s h} in
theorem record_sinceLatest (hever : h.everOpen = true) :
    (h.record wells e).sinceLatest = e.frame.or h.sinceLatest := if_pos hever

variable {s h} in
/-- Before the socket opens no call has reached the hub. -/
theorem record_closed (hever : ¬h.everOpen = true) :
    (h.record wells e).sinceFirst = none ∧ (h.record wells e).sinceLatest = none :=
  ⟨if_neg hever, if_neg hever⟩

end Calls

/-- What a call does to the two sessions and the history: the hub settles on what the frame says,
or, where it ignores the frame, on what it had. -/
theorem Follows.call {h : History} {s r : Session} (hf : Follows h s r) {wells : List Str} {e : Event}
    {frame : Frame}
    (hignored : e.frame = none → (∀ current, receive current frame = current) ∧
      lastNamed wells = lastNamed h.wells ∧ h.wells ⊆ wells)
    (hacted : ∀ f, e.frame = some f → (∀ current, receive current frame = settledOn (some f) wells) ∧
      ∀ wellUid, f = .subscribe wellUid → wellUid ∈ wells) :
    Follows (h.record wells e) ({ s with subscribedWells := wells }.send frame)
      ({ r with subscribedWells := wells }.send frame) := by
  have hsettled : ∀ (last : Option Frame) (current : Option Str),
      current = settledOn last h.wells → receive current frame = settledOn (e.frame.or last) wells := by
    intro last current hc
    cases he : e.frame with
    | none =>
      obtain ⟨hsame, hlast, -⟩ := hignored he
      rw [hsame, hc, Option.none_or]
      cases last with
      | none => exact hlast.symm
      | some f => cases f <;> rfl
    | some f => exact (hacted f he).1 current
  constructor
  · exact call_wells _ _ _
  · exact call_wells _ _ _
  · exact (call_isOpen _ _ _).trans hf.refOpen
  · intro hopen
    exact hf.ever ((call_isOpen _ _ _).symm.trans hopen)
  · intro hopen
    have hopen' : s.isOpen = true := (call_isOpen _ _ _).symm.trans hopen
    rw [call_settled _ _ hopen', record_sinceLatest _ _ (hf.ever hopen')]
    exact hsettled _ _ (hf.settled hopen')
  · intro (hever : h.everOpen = true)
    rw [call_settled _ _ (hf.refOpen.trans hever), record_sinceFirst _ _ hever]
    exact hsettled _ _ (hf.refSettled hever)
  · intro (hever : h.everOpen = false)
    exact (record_closed _ _ (by simp [hever])).1
  · intro f hlatest
    by_cases hever : h.everOpen = true
    · rw [record_sinceLatest _ _ hever] at hlatest
      rw [record_sinceFirst _ _ hever]
      cases he : e.frame with
      | none =>
        rw [he, Option.none_or] at hlatest
        exact hf.latest f hlatest
      | some g =>
        rw [he, Option.some_or] at hlatest
        exact hlatest
    · rw [(record_closed _ _ hever).2] at hlatest
      exact absurd hlatest (by simp)
  · intro wellUid hfirst
    by_cases hever : h.everOpen = true
    · rw [record_sinceFirst _ _ hever] at hfirst
      cases he : e.frame with
      | none =>
        rw [he, Option.none_or] at hfirst
        exact (hignored he).2.2 (hf.member wellUid hfirst)
      | some g =>
        rw [he, Option.some_or, Option.some.injEq] at hfirst
        exact (hacted g he).2 wellUid hfirst
    · rw [(record_closed _ _ hever).1] at hfirst
      exact absurd hfirst (by simp)

theorem Follows.subscribe {h : History} {s r : Session} (hf : Follows h s r) (wellUid : Str) :
    Follows (h.track (.subscribe wellUid)) (s.subscribe wellUid) (r.subscribe wellUid) := by
  rw [Session.subscribe, Session.subscribe, hf.wells, hf.refWells]
  refine hf.call (e := .subscribe wellUid) ?_ ?_
  · intro he
    have hempty : wellUid = [] := by
      by_contra hne
      simp [Event.frame, hne] at he
    subst hempty
    refine ⟨fun current => by simp [receive], lastNamed_addWell_nil h.wells, ?_⟩
    rw [addWell]
    split
    · exact List.Subset.refl _
    · exact List.subset_append_left _ _
  · intro f he
    have hne : wellUid ≠ [] := by
      rintro rfl
      simp [Event.frame] at he
    obtain rfl : Frame.subscribe wellUid = f := by simpa [Event.frame, hne] using he
    refine ⟨fun current => by simp [receive, hne, settledOn], fun w hw => ?_⟩
    obtain rfl : wellUid = w := Frame.subscribe.inj hw
    exact mem_addWell _ _

theorem Follows.unsubscribe {h : History} {s r : Session} (hf : Follows h s r) (wellUid : Str) :
    Follows (h.track (.unsubscribe wellUid)) (s.unsubscribe wellUid) (r.unsubscribe wellUid) := by
  rw [Session.unsubscribe, Session.unsubscribe, hf.wells, hf.refWells]
  refine hf.call (e := .unsubscribe wellUid) ?_ ?_
  · intro he
    exact absurd he (by simp [Event.frame])
  · intro f he
    obtain rfl : Frame.unsubscribe wellUid = f := by simpa [Event.frame] using he
    exact ⟨fun current => rfl, fun w hw => absurd hw (by simp)⟩

/-- After an opening the hub settles on the last of the set. -/
theorem settled_opened (s : Session) : s.opened.settled = lastNamed s.subscribedWells := by
  have hrun : s.opened.settled = (s.subscribedWells.map Frame.subscribe).foldl receive none := rfl
  rw [hrun, foldl_receive_subscribe, Option.or_none]

/-- An opening.  The undisturbed session opens once; for the real one it is the replay that counts
from here on. -/
theorem Follows.opened {h : History} {s r : Session} (hf : Follows h s r) :
    Follows (h.track .opened) s.opened (undisturbedStep r .opened) := by
  have hopen : undisturbedStep r .opened = if h.everOpen then r else r.opened := by
    rw [undisturbedStep, hf.refOpen]
  rw [hopen]
  by_cases hever : h.everOpen = true
  · rw [if_pos hever]
    constructor
    · exact hf.wells
    · exact hf.refWells
    · exact hf.refOpen.trans hever
    · exact fun _ => rfl
    · intro _
      rw [settled_opened, hf.wells]
      rfl
    · exact fun _ => hf.refSettled hever
    · exact fun hno => absurd hno (by simp [History.track])
    · exact fun f hlatest => absurd hlatest (by simp [History.track])
    · exact hf.member
  · rw [if_neg hever]
    have hnone : h.sinceFirst = none := hf.never (by simpa using hever)
    constructor
    · exact hf.wells
    · exact hf.refWells
    · rfl
    · exact fun _ => rfl
    · intro _
      rw [settled_opened, hf.wells]
      rfl
    · intro _
      rw [settled_opened, hf.refWells]
      change _ = settledOn h.sinceFirst h.wells
      rw [hnone]
      rfl
    · exact fun hno => absurd hno (by simp [History.track])
    · exact fun f hlatest => absurd hlatest (by simp [History.track])
    · exact hf.member

/-- **One event keeps the relation.** -/
theorem Follows.step {h : History} {s s' r : Session} {e : Event} (hf : Follows h s r)
    (hnext : next s e = some s') : Follows (h.track e) s' (undisturbedStep r e) := by
  cases e with
  | subscribe wellUid =>
    rw [← Option.some.inj hnext]
    exact hf.subscribe wellUid
  | unsubscribe wellUid =>
    rw [← Option.some.inj hnext]
    exact hf.unsubscribe wellUid
  | opened =>
    rw [Live.next] at hnext
    split at hnext
    · simp at hnext
    · rw [← Option.some.inj hnext]
      exact hf.opened
  | dropped =>
    rw [Live.next] at hnext
    split at hnext
    · rw [← Option.some.inj hnext]
      exact ⟨hf.wells, hf.refWells, hf.refOpen, fun hopen => absurd hopen (by simp [Session.dropped]),
        fun hopen => absurd hopen (by simp [Session.dropped]), hf.refSettled, hf.never, hf.latest,
        hf.member⟩
    · simp at hnext
  | handled =>
    rw [Live.next] at hnext
    split at hnext
    · simp at hnext
    · rename_i frame sent hsent
      rw [← Option.some.inj hnext]
      refine ⟨hf.wells, hf.refWells, hf.refOpen, hf.ever, fun hopen => ?_, hf.refSettled, hf.never,
        hf.latest, hf.member⟩
      -- handling a frame is part of settling
      have hsettled : s.settled = sent.foldl receive (receive s.currentWell frame) := by
        rw [Session.settled, hsent]
        rfl
      exact hsettled.symm.trans (hf.settled hopen)

/-- A run keeps the relation. -/
theorem Follows.run {s s' : Session} {es : List Event}
    (hrun : Run Live.next (fun _ _ => True) s es s') :
    ∀ {h : History} {r : Session}, Follows h s r →
      Follows (es.foldl History.track h) s' (es.foldl undisturbedStep r) := by
  induction hrun with
  | nil s => exact fun hf => hf
  | cons _ step _ ih => exact fun hf => ih (hf.step step)

theorem Follows.initial : Follows {} {} {} := by
  constructor <;> simp

/-! ## 5. When a subscription survives

The statement is about moments at which the connection is open and every frame has been handled,
since in between the hub cannot be expected to know. -/

theorem mem_of_lastNamed {wells : List Str} {wellUid : Str} (h : lastNamed wells = some wellUid) :
    wellUid ∈ wells :=
  (List.mem_filter.mp (List.mem_of_getLast? h)).1

/-- Without wells there is nothing to settle on. -/
theorem settledOn_nil {last : Option Frame} {wells : List Str} (hnil : wells = [])
    (h : ∀ wellUid, last = some (.subscribe wellUid) → wellUid ∈ wells) :
    settledOn last wells = none := by
  subst hnil
  cases last with
  | none => rfl
  | some f =>
    cases f with
    | subscribe wellUid => exact absurd (h wellUid rfl) (by simp)
    | unsubscribe wellUid => rfl

/-- **At an open connection whose frames have all been handled, a subscription has survived exactly
if the calls are replayable.**

`History.Replayable` has two parts for the two reasons.  The last call is a subscription, or
nothing is subscribed to: an unsubscription from any well releases the current one.  And if the
socket has opened again since the last call, that call's well is the last of the set, so that the
replay ends on it.  A client that subscribes to one well at a time and leaves it before the next
meets both. -/
theorem survives_iff {es : List Event} {s : Session}
    (hrun : Run next (fun _ _ => True) {} es s) (hopen : s.isOpen = true) (hsent : s.sent = []) :
    s.Survives (undisturbed es) ↔ (history es).Replayable := by
  have hf : Follows (history es) s (undisturbed es) := Follows.run hrun Follows.initial
  have hcur : s.currentWell = settledOn (history es).sinceLatest (history es).wells := by
    rw [← hf.settled hopen, Session.settled, hsent]
    rfl
  have href := hf.refSettled (hf.ever hopen)
  generalize history es = h at hf hcur href ⊢
  constructor
  · intro hs
    by_cases hw : h.wells = []
    · exact Or.inl hw
    · have hsome : s.currentWell ≠ none := fun hnone => hw (hf.wells.symm.trans (hs.nonempty hnone))
      refine Or.inr ?_
      cases hl : h.sinceLatest with
      | some f =>
        cases f with
        | subscribe wellUid => trivial
        | unsubscribe wellUid =>
          rw [hl] at hcur
          exact hsome hcur
      | none =>
        obtain ⟨wellUid, hwell⟩ := Option.ne_none_iff_exists'.mp hsome
        have hlast : lastNamed h.wells = some wellUid := by
          rw [hl] at hcur
          exact hcur.symm.trans hwell
        refine ⟨wellUid, hlast, ?_⟩
        have hsame : some wellUid = settledOn h.sinceFirst h.wells :=
          hwell.symm.trans (hs.same.trans href)
        cases hfirst : h.sinceFirst with
        | none => exact Or.inl rfl
        | some f =>
          rw [hfirst] at hsame
          cases f with
          | subscribe w => exact Or.inr (by rw [Option.some.inj hsame])
          | unsubscribe w => exact absurd hsame (by simp [settledOn])
  · rintro (hw | hlast)
    · have hnone : s.currentWell = none := hcur.trans <|
        settledOn_nil hw fun w hlatest => hf.member w (hf.latest _ hlatest)
      have hrefNone : (undisturbed es).settled = none := href.trans (settledOn_nil hw hf.member)
      exact ⟨hnone.trans hrefNone.symm, fun w hsome => absurd (hnone.symm.trans hsome) (by simp),
        fun _ => hf.wells.trans hw⟩
    · obtain ⟨wellUid, hwell, hrefWell, hmem⟩ : ∃ wellUid, s.currentWell = some wellUid ∧
          (undisturbed es).settled = some wellUid ∧ wellUid ∈ h.wells := by
        cases hl : h.sinceLatest with
        | some f =>
          have hfirst := hf.latest f hl
          cases f with
          | subscribe wellUid =>
            rw [hl] at hcur
            rw [hfirst] at href
            exact ⟨wellUid, hcur, href, hf.member wellUid hfirst⟩
          | unsubscribe wellUid =>
            rw [hl] at hlast
            exact hlast.elim
        | none =>
          rw [hl] at hlast hcur
          obtain ⟨wellUid, hnamed, hfirst⟩ := hlast
          refine ⟨wellUid, hcur.trans hnamed, ?_, mem_of_lastNamed hnamed⟩
          rcases hfirst with hfirst | hfirst
          · rw [hfirst] at href
            exact href.trans hnamed
          · rw [hfirst] at href
            exact href
      constructor
      · exact hwell.trans hrefWell.symm
      · intro w hw
        obtain rfl := Option.some.inj (hwell.symm.trans hw)
        exact hf.wells ▸ hmem
      · intro hnone
        exact absurd (hwell.symm.trans hnone) (by simp)

/-- A replay of events is a run of the session. -/
theorem run_of_replay {es : List Event} {s : Session}
    (h : replay next (fun _ _ => true) {} es = some s) : Run next (fun _ _ => True) {} es s :=
  Run.of_replay (fun _ _ _ => trivial) h

def wellA : Str := "A".toList

def wellB : Str := "B".toList

/-- Release a well that is not the current one. -/
def releaseOther : List Event :=
  [.opened, .subscribe wellA, .subscribe wellB, .unsubscribe wellA, .handled, .handled, .handled]

/-- Return to a well, and lose the connection. -/
def returnAndDrop : List Event :=
  [.opened, .subscribe wellA, .subscribe wellB, .subscribe wellA, .handled, .handled, .handled,
    .dropped, .opened, .handled, .handled]

/-- **Subscriptions get lost**: in the first run the hub has no current well though the client is
subscribed to one; in the second it has another one after the reconnection. -/
theorem subscription_lost :
    (∃ s, Run next (fun _ _ => True) {} releaseOther s ∧ s.isOpen = true ∧ s.sent = [] ∧
      s.subscribedWells = [wellB] ∧ s.currentWell = none ∧
      ¬s.Survives (undisturbed releaseOther)) ∧
    ∃ s, Run next (fun _ _ => True) {} returnAndDrop s ∧ s.isOpen = true ∧ s.sent = [] ∧
      s.currentWell = some wellB ∧ (undisturbed returnAndDrop).settled = some wellA ∧
      ¬s.Survives (undisturbed returnAndDrop) := by
  constructor
  · refine ⟨{ subscribedWells := [wellB], isOpen := true }, ?_, rfl, rfl, rfl, rfl, fun h => ?_⟩
    · exact run_of_replay (by decide +kernel)
    · exact absurd (h.nonempty rfl) (by simp)
  · refine ⟨{ subscribedWells := [wellA, wellB], isOpen := true, currentWell := some wellB }, ?_,
      rfl, rfl, rfl, by decide +kernel, fun h => ?_⟩
    · exact run_of_replay (by decide +kernel)
    · exact absurd h.same (by decide +kernel)

/-- One well, and a drop while its frame is under way. -/
def dropOne : List Event :=
  [.opened, .subscribe wellA, .dropped, .opened, .handled]

/-- A single subscription survives the drop. -/
theorem survives_iff_dropOne :
    Session.Survives { subscribedWells := [wellA], isOpen := true, currentWell := some wellA }
      (undisturbed dropOne) ↔ (history dropOne).Replayable :=
  survives_iff (run_of_replay (by decide +kernel)) rfl rfl

end WitsmlViewer.Live

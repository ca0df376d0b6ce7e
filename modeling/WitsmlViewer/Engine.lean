/-
# The engine beside a growing server

Any number of `_do_ingest_log` calls, at most one for each log, run beside a store that may be
updated between any two of their awaits (`Engine`).  A call begins, gets its answers one by one,
and completes or ends with an exception; whatever it raises is logged by its caller.

What a run keeps true of one log depends on how the log may grow and on what the pages of a call
are to show.  A `Discipline` names both and proves that growth and paging agree with each other;
`Engine.Inv` is then kept by every event, and a completed call gets a block that is `Returned` for
its pages (`Engine.Inv.answer`).

The reason for the abstraction is that three results need three different invariants over one and
the same machine.  Exactly-once ingestion wants the pages to be a gap-free stretch of the table,
and pays with indices that render without loss (`ExactlyOnce`).  Completeness beyond the cursor
lets the frontier row be rewritten at any moment, and pays with a weaker statement about what is
handed on (`LateCells`).  That the cursor never falls back needs neither, only that the row at the
cursor is shown again (`Reaching`).  What is common, the case analysis over events and the whole of
`completeIngest`, is done here once.

One log is looked at, and the others run beside it.  They share the warm store with it but neither
its state nor its call, so for this log their events are quiet (`Engine.Quiet`).  What several logs
do to a buffer that they share is not the subject here, but of `SharedCurves`.
-/
import WitsmlViewer.Paging
import WitsmlViewer.Polls

namespace WitsmlViewer

open Py GrowingTable Runs
open MockStore (elemKey updatedLog)

/-! ## 1. The machine

The scheduler does not begin a call of a log whose last call is still under way, and a call that
fails leaves no trace but its log line; both are in `next`.  The engine records completed calls and
counts nothing else. -/

/-- A call under way, with the warm store as it was when the call began. -/
structure Flight where
  task : IngestTask
  since : RingBufferStore

/-- A completed call: the cursor it began from and the one it left, the return code of its last
page, and the samples it handed to `append`.  The record is the model's own; no code keeps it. -/
structure Ingested where
  key : LogKey
  start : Option Value
  code : ℤ
  samples : List CurveSample
  cursor : Option Value
deriving DecidableEq

structure Engine where
  server : MockStore
  warm : RingBufferStore
  calls : LogKey → Option Flight
  completed : List Ingested

/-- An answer that makes `get_log_data` raise. -/
def Answer.Fails : Answer → Prop
  | .error _ => True
  | .ok reply => reply.result ≤ 0

instance : (a : Answer) → Decidable a.Fails
  | .error _ => inferInstanceAs (Decidable True)
  | .ok reply => inferInstanceAs (Decidable (reply.result ≤ 0))

namespace Engine

inductive Event
  | update (el : LogElem)
  | begin (h : LogHeader)
  | answer (key : LogKey)
  | fail (key : LogKey) (a : Answer)

/-- Put a call under way, or end it. -/
def setCall (s : Engine) (key : LogKey) (f : Option Flight) : Engine :=
  { s with calls := Function.update s.calls key f }

theorem setCall_self (s : Engine) (key : LogKey) (f : Option Flight) :
    (s.setCall key f).calls key = f := Function.update_self _ _ _

theorem setCall_of_ne (s : Engine) {key key' : LogKey} (f : Option Flight) (h : key' ≠ key) :
    (s.setCall key f).calls key' = s.calls key' := Function.update_of_ne h _ _

variable (cfg : Settings) (serverId : ℤ)

/-- A call after an answer to its pending request. -/
def answered (s : Engine) (key : LogKey) (f : Flight) (a : Answer) : Engine :=
  match f.task.call.fetchStep f.task.fetch a with
  | .error _ => s.setCall key none
  | .ok (.inl (fetch, query)) =>
    s.setCall key (some { f with task := { f.task with fetch := fetch, query := query } })
  | .ok (.inr result) =>
    match completeIngest cfg s.warm f.task result with
    | .error _ => s.setCall key none
    | .ok (warm, samples) =>
      { s.setCall key none with
        warm := warm
        completed := s.completed ++ [{
          key := key
          start := f.task.state.lastIndex
          code := (a.map Reply.result).toOption.getD 0
          samples := samples
          cursor := (warm.getLogState key).bind LogState.lastIndex }] }

/-- A call after its beginning: it waits for its first answer, or there was nothing to fetch. -/
def begun (s : Engine) (h : LogHeader) : Engine :=
  match beginIngest cfg serverId s.warm h with
  | .ok (some task) => s.setCall (headerKey serverId h) (some ⟨task, s.warm⟩)
  | _ => s

/-- No log is ingested by two calls at a time.  An answer is what the store says at that moment; a
failing answer may be anything that makes the fetch raise, and comes instead. -/
def next (s : Engine) : Event → Option Engine
  | .update el => some { s with server := (s.server.updateLog (some el)).1 }
  | .begin h =>
    if (s.calls (headerKey serverId h)).isSome then none else some (s.begun cfg serverId h)
  | .answer key =>
    (s.calls key).map fun f => s.answered cfg key f (s.server.serve f.task.query)
  | .fail key a =>
    if a.Fails then (s.calls key).map fun f => s.answered cfg key f a else none

/-- The samples of one log that have been handed to `append`. -/
def handed (s : Engine) (key : LogKey) : List CurveSample :=
  (s.completed.filter (·.key = key)).flatMap Ingested.samples

/-- The cursors of one log that its completed calls have left. -/
def cursors (s : Engine) (key : LogKey) : List (Option Value) :=
  (s.completed.filter (·.key = key)).map Ingested.cursor

end Engine

/-! ## 2. How a log may grow, and what its pages show

The laws of a discipline are what the proofs of section 5 ask for, no more.  Some say that an
update keeps what is known; the others follow a call from its begin through its pages to the cursor
that it leaves. -/

/-- The identity that a header addresses a log by. -/
def LogHeader.logKey (h : LogHeader) : Str × Str × Str := (h.uidWell, h.uidWellbore, h.uid)

/-- The log that a header and a state are about.  A state keeps the index type and the direction
that its log had when it was discovered, and the store never changes either. -/
structure Tracks (serverId : ℤ) (h : LogHeader) (log : StoredLog) (state : LogState) : Prop where
  logKey : log.key = h.logKey
  key : state.key = headerKey serverId h
  indexType : state.indexType = log.indexType
  direction : state.direction = log.direction

/-- A discipline of growth: what holds of a log, which updates it gets, what its cursor is, and
what the pages collected from a start bound show.  Each law is about one of the things that can
happen between two states of a call.

`pages` may speak of the call's state, so that a discipline can relate the pages to the last
continuation.  `cursor_stops` is the only law that looks forward: the most advanced row of all the
pages has to be a cursor that the next call can begin from. -/
structure Discipline (maxNodes : ℤ) where
  log : StoredLog → Prop
  update : StoredLog → LogElem → Prop
  cursor : StoredLog → Option Value → Prop
  pages : LogDataCall → StoredLog → Option Value → FetchState → List Entry → Prop
  orderable : ∀ {l}, log l → l.Orderable
  fresh : ∀ {l}, log l → cursor l none
  log_update : ∀ {l el}, log l → update l el → log (updatedLog el l)
  cursor_update : ∀ {l el c}, log l → update l el → cursor l c → cursor (updatedLog el l) c
  pages_update : ∀ {l el call start st got}, log l → update l el → pages call l start st got →
    pages call (updatedLog el l) start st got
  pages_initial : ∀ {l call start}, log l → pages call l start (call.initial start) []
  pages_asks : ∀ {l store call start st q got lo hi st' q'}, log l → cursor l start →
    call.maxReturnNodes = some maxNodes → call.stop = none → Underway call l start st q got →
    pages call l start st got → Served store call l st q lo hi →
    (l.page lo hi call.maxReturnNodes).2 = true →
    Asks call l st got (l.page lo hi call.maxReturnNodes).1 st' q' →
    pages call l start st' (got ++ (l.page lo hi call.maxReturnNodes).1)
  cursor_stops : ∀ {l store call start st q got lo hi e}, log l → cursor l start →
    call.maxReturnNodes = some maxNodes → call.stop = none → Underway call l start st q got →
    pages call l start st got → Served store call l st q lo hi →
    l.Last (got ++ (l.page lo hi call.maxReturnNodes).1) e → cursor l (some e.1)

/-- An event leaves a log to its discipline, and to its one header; other logs may change freely. -/
def Engine.Allows {maxNodes : ℤ} (D : Discipline maxNodes) (serverId : ℤ) (h : LogHeader)
    (s : Engine) : Engine.Event → Prop
  | .update el => elemKey el = h.logKey → ∀ log ∈ s.server.findLog h.logKey, D.update log el
  | .begin h' => headerKey serverId h' = headerKey serverId h → h' = h
  | _ => True

/-! ## 3. Completing a call

The second half of `_do_ingest_log` as an equation.  On ordered rows none of its steps raises, and
its effect is to store a cursor and to append samples. -/

section Completing

variable (cfg : Settings) {t : IndexType}

/-- The samples that a completed call hands on: those of the rows strictly beyond its cursor. -/
def newSamples (block : LogDataBlock) (d : Direction) (last : Option Value) : List CurveSample :=
  (block.rows.filter (beyond d last)).flatMap block.samplesOf

/-- The warm store after a call: the state with its new cursor, then the samples. -/
def RingBufferStore.ingest (warm : RingBufferStore) (wellUid : Str) (state : LogState)
    (cursor : Option Value) (samples : List CurveSample) : RingBufferStore :=
  (warm.putLogState { state with
    lastIndex := cursor.or state.lastIndex
    objectGrowing := some true }).append wellUid samples

/-- **A block of ordered rows completes**: nothing is raised.  The cursor is the most advanced
index of the block before the dedupe, so it moves also when every row of the block was known. -/
theorem completeIngest_eq (warm : RingBufferStore) {task : IngestTask} {result : LogDataResult}
    (hord : ∀ r ∈ result.block.rows, r.Orders t)
    (hlast : ∀ v, task.state.lastIndex = some v → (aware v).Orders t) :
    ∃ cursor, continuationIndex result.block task.state.direction = .ok cursor ∧
      completeIngest cfg warm task result =
        .ok (warm.ingest task.header.uidWell task.state cursor
            (newSamples result.block task.state.direction task.state.lastIndex),
          newSamples result.block task.state.direction task.state.lastIndex) := by
  obtain ⟨cursor, hcursor⟩ : ∃ cursor,
      continuationIndex result.block task.state.direction = .ok cursor := by
    rcases continuationIndex_spec hord task.state.direction with ⟨hrun, -⟩ | ⟨v, hrun, -⟩
    · exact ⟨none, hrun⟩
    · exact ⟨some v, hrun⟩
  refine ⟨cursor, hcursor, ?_⟩
  have hkept : ∀ r ∈ result.block.rows.filter (beyond task.state.direction task.state.lastIndex),
      r.Orders t := fun r hr => hord r (List.mem_filter.mp hr).1
  have hsamples : ({ result.block with
        rows := result.block.rows.filter
          (beyond task.state.direction task.state.lastIndex) } : LogDataBlock).samples cfg =
      .ok (newSamples result.block task.state.direction task.state.lastIndex) :=
    samples_eq cfg hkept
  unfold completeIngest
  simp only [dedupeBoundary_spec hord hlast, hsamples, hcursor, bind, Except.bind]
  change Except.ok (if newSamples result.block task.state.direction task.state.lastIndex = [] then _
    else _, newSamples result.block task.state.direction task.state.lastIndex) = _
  split
  · rename_i hnil
    rw [hnil]
    rfl
  · rfl

/-- A call writes the state of its own log and no other. -/
theorem getLogState_ingest (warm : RingBufferStore) (wellUid : Str) (state : LogState)
    (cursor : Option Value) (samples : List CurveSample) (key : LogKey) :
    (warm.ingest wellUid state cursor samples).getLogState key =
      if state.key = key then
        some { state with
          lastIndex := cursor.or state.lastIndex
          objectGrowing := some true }
      else warm.getLogState key := by
  unfold RingBufferStore.ingest
  rw [RingBufferStore.getLogState_append, RingBufferStore.getLogState_putLogState]
  rfl

end Completing

/-! ## 4. The invariant

The invariant is about one log and its call.  It does not mention the samples that have been handed
on; what is known of them is added by each of the results. -/

section Invariant

variable {cfg : Settings} {serverId : ℤ} {h : LogHeader} {D : Discipline cfg.maxReturnNodes}
  {s s' : Engine} {log : StoredLog}

/-- A call of the log that is under way. -/
structure Flies (cfg : Settings) (D : Discipline cfg.maxReturnNodes) (h : LogHeader)
    (log : StoredLog) (st : LogState) (f : Flight) : Prop where
  header : f.task.header = h
  state : f.task.state = st
  call : f.task.call = ingestCall cfg h st
  pages : ∃ got, Underway f.task.call log st.lastIndex f.task.fetch f.task.query got ∧
    D.pages f.task.call log st.lastIndex f.task.fetch got

/-- States are stored under their own keys, and so are calls. -/
structure Engine.Keyed (s : Engine) : Prop where
  states : ∀ key state, s.warm.getLogState key = some state → state.key = key
  calls : ∀ key f, s.calls key = some f → f.task.state.key = key

/-- The invariant of one log. -/
structure Engine.Inv (cfg : Settings) (serverId : ℤ) (D : Discipline cfg.maxReturnNodes)
    (h : LogHeader) (s : Engine) (log : StoredLog) : Prop where
  find : s.server.findLog h.logKey = some log
  sole : s.server.Sole h.logKey
  disciplined : D.log log
  tracks : Tracks serverId h log (pollState serverId h s.warm)
  ordered : ∀ v, (pollState serverId h s.warm).lastIndex = some v → (aware v).Orders log.indexType
  cursor : D.cursor log (pollState serverId h s.warm).lastIndex
  call : ∀ f, s.calls (headerKey serverId h) = some f →
    Flies cfg D h log (pollState serverId h s.warm) f

/-- Every event keeps states and calls under their own keys. -/
theorem Engine.Keyed.next (hk : s.Keyed) {e : Engine.Event}
    -- a state is written by a completing call, and a call is about the key it is stored under
    (hnext : s.next cfg serverId e = some s') : s'.Keyed := by
  have hset : ∀ key f, (∀ f', f = some f' → f'.task.state.key = key) →
      (s.setCall key f).Keyed := by
    intro key f hf
    refine ⟨hk.states, fun key' f' hcall => ?_⟩
    by_cases hkey : key' = key
    · subst hkey
      rw [Engine.setCall_self] at hcall
      exact hf f' hcall
    · rw [Engine.setCall_of_ne s f hkey] at hcall
      exact hk.calls key' f' hcall
  have hanswered : ∀ key f a, s.calls key = some f → (s.answered cfg key f a).Keyed := by
    intro key f a hcall
    unfold Engine.answered
    split
    · exact hset key none (by simp)
    · refine hset key _ fun f' hf' => ?_
      rw [← Option.some.inj hf']
      exact hk.calls key f hcall
    · split
      · exact hset key none (by simp)
      · rename_i warm samples hdone
        refine ⟨fun key' state hstate => ?_, (hset key none (by simp)).calls⟩
        obtain ⟨_, _, _, _, _, hget⟩ := completeIngest_eq_ok cfg hdone
        rw [hget] at hstate
        split at hstate
        · rename_i hkey
          rw [← Option.some.inj hstate, ← hkey]
          rfl
        · exact hk.states key' state hstate
  cases e with
  | update el =>
    rw [← Option.some.inj hnext]
    exact ⟨hk.states, hk.calls⟩
  | begin h' =>
    simp only [Engine.next] at hnext
    split at hnext
    · simp at hnext
    · rw [← Option.some.inj hnext, Engine.begun]
      split
      · rename_i task hbegin
        refine hset _ _ fun f' hf' => ?_
        rw [← Option.some.inj hf']
        dsimp only
        rw [(beginIngest_eq_ok cfg serverId h' hbegin).1, pollState]
        cases hget : s.warm.getLogState (headerKey serverId h') with
        | none => rfl
        | some state => exact hk.states _ state hget
      · exact hk
  | answer key =>
    obtain ⟨f, hcall, rfl⟩ := Option.map_eq_some_iff.mp hnext
    exact hanswered key f _ hcall
  | fail key a =>
    simp only [Engine.next] at hnext
    split at hnext
    · obtain ⟨f, hcall, rfl⟩ := Option.map_eq_some_iff.mp hnext
      exact hanswered key f a hcall
    · simp at hnext

/-! ## 5. What each event does to one log

One lemma for each event, and `Engine.Inv.next` puts them together.  An event of another log is
quiet.  An update of the log is the business of the discipline; a begin reads the state, and an
answer is where the work is. -/

/-- The fetch that a state asks for is one for its log. -/
theorem Tracks.for {st : LogState} (ht : Tracks serverId h log st) : (ingestCall cfg h st).For log := by
  constructor
  · rw [ht.logKey]; rfl
  · rw [ht.logKey]; rfl
  · rw [ht.logKey]; rfl
  · exact ht.indexType
  · exact ht.direction

/-- Growth does not change what a header is about. -/
theorem Tracks.of_sameHead {st : LogState} {log' : StoredLog} (ht : Tracks serverId h log st)
    (hs : SameHead log log') : Tracks serverId h log' st := by
  constructor
  · rw [hs.key]; exact ht.logKey
  · exact ht.key
  · rw [hs.indexType]; exact ht.indexType
  · rw [hs.direction]; exact ht.direction

/-- The log of a header after an update. -/
def StoredLog.afterUpdate (log : StoredLog) (el : LogElem) : StoredLog :=
  if log.key = elemKey el then updatedLog el log else log

/-- **An update keeps the invariant**, for the log as it is then. -/
theorem Engine.Inv.update (hi : s.Inv cfg serverId D h log) {el : LogElem}
    (ha : s.Allows D serverId h (.update el)) :
    Engine.Inv cfg serverId D h { s with server := (s.server.updateLog (some el)).1 }
      (log.afterUpdate el) := by
  have hlk := hi.tracks.logKey
  have hfind : ((s.server.updateLog (some el)).1).findLog h.logKey = some (log.afterUpdate el) := by
    rw [MockStore.findLog_updateLog, hi.find, StoredLog.afterUpdate, hlk]
    rfl
  by_cases hk : log.key = elemKey el
  · have hup : D.update log el := ha (hk.symm.trans hlk) log hi.find
    have hs := updatedLog_sameHead log el
    rw [StoredLog.afterUpdate, if_pos hk] at hfind ⊢
    refine ⟨hfind, hi.sole.update el, D.log_update hi.disciplined hup, hi.tracks.of_sameHead hs, ?_,
      D.cursor_update hi.disciplined hup hi.cursor, fun f hf => ?_⟩
    · rw [hs.indexType]
      exact hi.ordered
    · obtain ⟨hheader, hstate, hcall, got, hu, hp⟩ := hi.call f hf
      exact ⟨hheader, hstate, hcall, got, hu.of_sameHead hs, D.pages_update hi.disciplined hup hp⟩
  · rw [StoredLog.afterUpdate, if_neg hk] at hfind ⊢
    exact ⟨hfind, hi.sole.update el, hi.disciplined, hi.tracks, hi.ordered, hi.cursor, hi.call⟩

/-- A task that has begun is under way, without a page. -/
theorem flies_begun (hd : D.log log) (ht : Tracks serverId h log (pollState serverId h s.warm))
    {task : IngestTask} (hbegin : beginIngest cfg serverId s.warm h = .ok (some task)) :
    Flies cfg D h log (pollState serverId h s.warm) ⟨task, s.warm⟩ := by
  rw [beginIngest] at hbegin
  split at hbegin
  · simp at hbegin
  · obtain ⟨⟨fetch, query⟩, hstart, heq⟩ := map_eq_ok.mp hbegin
    obtain rfl := Option.some.inj heq
    refine ⟨rfl, rfl, rfl, [], Underway.initial ht.for hstart, ?_⟩
    obtain ⟨q, -, heq⟩ := map_eq_ok.mp hstart
    obtain ⟨rfl, -⟩ := Prod.mk.inj heq
    exact D.pages_initial hd

/-- **A call that begins keeps the invariant.** -/
theorem Engine.Inv.begun (hi : s.Inv cfg serverId D h log) {h' : LogHeader}
    (ha : s.Allows D serverId h (.begin h')) : (s.begun cfg serverId h').Inv cfg serverId D h log := by
  rw [Engine.begun]
  split
  · rename_i task hbegin
    refine ⟨hi.find, hi.sole, hi.disciplined, hi.tracks, hi.ordered, hi.cursor, fun f hf => ?_⟩
    by_cases hkey : headerKey serverId h' = headerKey serverId h
    · obtain rfl := ha hkey
      rw [Engine.setCall_self] at hf
      rw [← Option.some.inj hf]
      exact flies_begun hi.disciplined hi.tracks hbegin
    · rw [Engine.setCall_of_ne s _ (Ne.symm hkey)] at hf
      exact hi.call f hf
  · exact hi

/-- The most advanced row of a call's pages is what it continues from. -/
theorem Returned.last {got : List Entry} {r : LogDataResult} (hret : Returned log got r)
    (ho : ∀ e ∈ got, e.1.Orders log.indexType) {v : Value}
    (hrun : continuationIndex r.block log.direction = .ok (some v)) :
    ∃ e, log.Last got e ∧ v = e.1 := by
  have hord : ∀ row ∈ r.block.rows, row.Orders log.indexType := by
    intro row hrow
    obtain ⟨e, he, -, rfl⟩ := hret.row row hrow
    exact decodedRow_orders (ho e he)
  rcases continuationIndex_spec hord log.direction with
    ⟨hnone, -⟩ | ⟨w, hw, -, ⟨row, hrow, hindex⟩, hmax⟩
  · rw [hnone] at hrun
    exact absurd (Except.ok.inj hrun) (by simp)
  · rw [hw, Except.ok.injEq, Option.some.injEq] at hrun
    subst hrun
    obtain ⟨e, he, hr, rfl⟩ := hret.row row hrow
    refine ⟨e, ⟨he, hr, fun f hf hrf => ?_⟩, (decodedRow_index_eq_some.mp hindex).2.symm⟩
    obtain ⟨row', hrow', hindex'⟩ := hret.index f hf hrf
    have hle := hmax row' hrow' f.1 hindex'
    rw [← (decodedRow_index_eq_some.mp hindex).2] at hle
    exact hle

/-- A completed call and what it leaves: its block is returned for its pages, and the samples
beyond its cursor go to the warm store. -/
structure Engine.Completes (cfg : Settings) (serverId : ℤ) (D : Discipline cfg.maxReturnNodes)
    (h : LogHeader) (log : StoredLog) (s s' : Engine) (f : Flight) (got : List Entry)
    (lo : Option Value) (result : LogDataResult) (cursor : Option Value) : Prop where
  flies : s.calls (headerKey serverId h) = some f
  call : f.task.call = ingestCall cfg h (pollState serverId h s.warm)
  underway : Underway f.task.call log (pollState serverId h s.warm).lastIndex f.task.fetch
    f.task.query got
  pages : D.pages f.task.call log (pollState serverId h s.warm).lastIndex f.task.fetch got
  served : Served s.server f.task.call log f.task.fetch f.task.query lo none
  stops : Stops log f.task.fetch got (log.page lo none f.task.call.maxReturnNodes) result
  continuation : continuationIndex result.block log.direction = .ok cursor
  after : s' = { s.setCall (headerKey serverId h) none with
    warm := s.warm.ingest h.uidWell (pollState serverId h s.warm) cursor
      (newSamples result.block log.direction (pollState serverId h s.warm).lastIndex)
    completed := s.completed ++ [{
      key := headerKey serverId h
      start := (pollState serverId h s.warm).lastIndex
      code := if (log.page lo none f.task.call.maxReturnNodes).2 then rcPartialSuccess else rcSuccess
      samples := newSamples result.block log.direction (pollState serverId h s.warm).lastIndex
      cursor := cursor.or (pollState serverId h s.warm).lastIndex }] }

/-- A call that goes on or ends with an exception changes nothing else. -/
structure Engine.Proceeds (key : LogKey) (s s' : Engine) : Prop where
  server : s'.server = s.server
  warm : s'.warm = s.warm
  completed : s'.completed = s.completed
  others : ∀ key', key' ≠ key → s'.calls key' = s.calls key'

/-- The state of a log after a call of it has completed. -/
theorem pollState_ingest (warm : RingBufferStore) (wellUid : Str) {st : LogState}
    (hkey : st.key = headerKey serverId h) (cursor : Option Value) (samples : List CurveSample) :
    pollState serverId h (warm.ingest wellUid st cursor samples) =
      { st with
        lastIndex := cursor.or st.lastIndex
        objectGrowing := some true } := by
  rw [pollState, getLogState_ingest, if_pos hkey, Option.getD_some]

/-- **The next answer to a call of the log**: the call goes on or ends with an exception, or it
completes.

The answer is that of the store as it is now, which may have grown since the request was sent.  It
is a page between the bounds of the request, or an exception of the server; a page takes the call
on by `Underway.step`.  If the call completes, all rows of its block are ordered, so
`completeIngest_eq` applies, and the cursor that it leaves is the most advanced row of its pages or
the old one. -/
theorem Engine.Inv.answer (hi : s.Inv cfg serverId D h log) {f : Flight}
    (hcall : s.calls (headerKey serverId h) = some f)
    (hs' : s' = s.answered cfg (headerKey serverId h) f (s.server.serve f.task.query)) :
    s'.Inv cfg serverId D h log ∧ (Engine.Proceeds (headerKey serverId h) s s' ∨
      ∃ got lo result cursor, Engine.Completes cfg serverId D h log s s' f got lo result cursor) := by
  have hidle : (s.setCall (headerKey serverId h) none).Inv cfg serverId D h log := by
    refine ⟨hi.find, hi.sole, hi.disciplined, hi.tracks, hi.ordered, hi.cursor, fun f' hf' => ?_⟩
    rw [Engine.setCall_self] at hf'
    exact absurd hf' (by simp)
  have hproceeds : ∀ f', Engine.Proceeds (headerKey serverId h) s
      (s.setCall (headerKey serverId h) f') := fun f' =>
    ⟨rfl, rfl, rfl, fun key' hne => Engine.setCall_of_ne s f' hne⟩
  obtain ⟨hheader, hstate, hcalleq, got, hu, hp⟩ := hi.call f hcall
  have ho := D.orderable hi.disciplined
  have hlk := hi.tracks.logKey
  have hstop : f.task.call.stop = none := by rw [hcalleq]; rfl
  have hmax : f.task.call.maxReturnNodes = some cfg.maxReturnNodes := by rw [hcalleq]; rfl
  have hserve := hu.serve (hlk ▸ hi.find) (hlk ▸ hi.sole) ho
  rcases hserve with ⟨lo, hi', hserved⟩ | herr
  swap
  · have hstep : f.task.call.fetchStep f.task.fetch (.error .transportError) =
        .error .transportError := rfl
    rw [hs', herr, Engine.answered, hstep]
    exact ⟨hidle, Or.inl (hproceeds none)⟩
  -- a poll has no upper bound
  obtain rfl : hi' = none := by
    have hnone := hserved.stop
    rw [hstop, servedBound_none, Except.ok.injEq] at hnone
    exact hnone.symm
  rcases hu.step ho hserved with ⟨st', q', hrun, htr, hasks, hu'⟩ | ⟨r, hrun, hstops⟩
  · rw [hs', Engine.answered, hrun]
    refine ⟨⟨hi.find, hi.sole, hi.disciplined, hi.tracks, hi.ordered, hi.cursor, fun f' hf' => ?_⟩,
      Or.inl (hproceeds _)⟩
    rw [Engine.setCall_self] at hf'
    rw [← Option.some.inj hf']
    exact ⟨hheader, hstate, hcalleq, _, hu',
      D.pages_asks hi.disciplined hi.cursor hmax hstop hu hp hserved htr hasks⟩
  -- every row of the block is one of the pages', so it can be ordered
  · have hpages : ∀ e ∈ got ++ (log.page lo none f.task.call.maxReturnNodes).1,
        e.1.Orders log.indexType := by
      intro e he
      rcases List.mem_append.mp he with he | he
      · exact hu.orders e he
      · exact ho.orders (StoredLog.mem_entries_of_mem_page he)
    have hord : ∀ row ∈ r.block.rows, row.Orders log.indexType := by
      intro row hrow
      obtain ⟨e, he, -, rfl⟩ := hstops.returned.row row hrow
      exact decodedRow_orders (hpages e he)
    have hlast : ∀ v, f.task.state.lastIndex = some v → (aware v).Orders log.indexType := by
      rw [hstate]
      exact hi.ordered
    obtain ⟨cursor, hcursor, hdone⟩ := completeIngest_eq cfg s.warm hord hlast
    rw [hheader, hstate, hi.tracks.direction] at hdone
    rw [hstate, hi.tracks.direction] at hcursor
    have hafter := pollState_ingest (h := h) s.warm h.uidWell hi.tracks.key cursor
      (newSamples r.block log.direction (pollState serverId h s.warm).lastIndex)
    have hcode : ((s.server.serve f.task.query).map Reply.result).toOption.getD 0 =
        if (log.page lo none f.task.call.maxReturnNodes).2 then rcPartialSuccess else rcSuccess := by
      rw [hserved.answer]
      rfl
    have hcomplete : Engine.Completes cfg serverId D h log s s' f got lo r cursor := by
      refine ⟨hcall, hcalleq, hu, hp, hserved, hstops, hcursor, ?_⟩
      rw [hs', Engine.answered, hrun]
      dsimp only
      rw [hdone, hstate, ← hcode]
      dsimp only
      rw [getLogState_ingest, if_pos hi.tracks.key]
      rfl
    refine ⟨?_, Or.inr ⟨got, lo, r, cursor, hcomplete⟩⟩
    rw [hcomplete.after]
    constructor
    · exact hi.find
    · exact hi.sole
    · exact hi.disciplined
    · rw [hafter]
      exact ⟨hi.tracks.logKey, hi.tracks.key, hi.tracks.indexType, hi.tracks.direction⟩
    · rw [hafter]
      intro v hv
      cases cursor with
      | none => exact hi.ordered v hv
      | some w =>
        obtain rfl : w = v := Option.some.inj hv
        obtain ⟨e, he, rfl⟩ := hstops.returned.last hpages hcursor
        rw [aware_of_orders (hpages e he.mem)]
        exact hpages e he.mem
    · rw [hafter]
      cases cursor with
      | none => exact hi.cursor
      | some w =>
        obtain ⟨e, he, rfl⟩ := hstops.returned.last hpages hcursor
        exact D.cursor_stops hi.disciplined hi.cursor hmax hstop hu hp hserved he
    · intro f' hf'
      rw [Engine.setCall_self] at hf'
      exact absurd hf' (by simp)

/-- A failing answer ends the call. -/
theorem fetchStep_fails {call : LogDataCall} {st : FetchState} {a : Answer} (ha : a.Fails) :
    ∃ e, call.fetchStep st a = .error e := by
  cases a with
  | error e => exact ⟨e, rfl⟩
  | ok reply =>
    have herr : isError reply.result = true := decide_eq_true ha
    refine ⟨reply.error, ?_⟩
    simp only [LogDataCall.fetchStep, bind, Except.bind, herr, if_true]

/-- Such a call is gone, and nothing else has changed. -/
theorem Engine.answered_fails {key : LogKey} {f : Flight} {a : Answer} (ha : a.Fails) :
    s.answered cfg key f a = s.setCall key none := by
  obtain ⟨e, he⟩ : ∃ e, f.task.call.fetchStep f.task.fetch a = .error e := fetchStep_fails ha
  rw [Engine.answered, he]

/-- What is untouched by an event that does not concern a log. -/
structure Engine.Quiet (key : LogKey) (s s' : Engine) : Prop where
  server : s'.server = s.server
  state : s'.warm.getLogState key = s.warm.getLogState key
  completed : s'.completed.filter (·.key = key) = s.completed.filter (·.key = key)

/-- A call that goes on is quiet for every log. -/
theorem Engine.Proceeds.quiet {key : LogKey} (hp : Engine.Proceeds key s s') (key' : LogKey) :
    Engine.Quiet key' s s' :=
  ⟨hp.server, by rw [hp.warm], by rw [hp.completed]⟩

/-- A call of another log leaves this one alone.  It may complete and write a state and samples,
but under another key. -/
theorem Engine.answered_other {key key' : LogKey} (hk : s.Keyed) {f : Flight}
    (hcall : s.calls key' = some f) (hne : key' ≠ key) (a : Answer) :
    Engine.Quiet key s (s.answered cfg key' f a) ∧
      (s.answered cfg key' f a).calls key = s.calls key := by
  have hset : ∀ f', Engine.Quiet key s (s.setCall key' f') := fun f' => ⟨rfl, rfl, rfl⟩
  rw [Engine.answered]
  split
  · exact ⟨hset none, Engine.setCall_of_ne s none hne.symm⟩
  · exact ⟨hset _, Engine.setCall_of_ne s _ hne.symm⟩
  · split
    · exact ⟨hset none, Engine.setCall_of_ne s none hne.symm⟩
    · rename_i warm samples hdone
      obtain ⟨_, _, _, _, _, hget⟩ := completeIngest_eq_ok cfg hdone
      refine ⟨⟨rfl, ?_, ?_⟩, Engine.setCall_of_ne s none hne.symm⟩
      · dsimp only
        rw [hget, if_neg]
        rw [hk.calls key' f hcall]
        exact hne
      · dsimp only
        rw [List.filter_append]
        simp [hne]

/-- What is quiet for a log keeps its invariant. -/
theorem Engine.Inv.of_quiet (hi : s.Inv cfg serverId D h log)
    (hq : Engine.Quiet (headerKey serverId h) s s')
    (hc : s'.calls (headerKey serverId h) = s.calls (headerKey serverId h)) :
    s'.Inv cfg serverId D h log := by
  have hstate : pollState serverId h s'.warm = pollState serverId h s.warm := by
    rw [pollState, pollState, hq.state]
  constructor
  · rw [hq.server]; exact hi.find
  · rw [hq.server]; exact hi.sole
  · exact hi.disciplined
  · rw [hstate]; exact hi.tracks
  · rw [hstate]; exact hi.ordered
  · rw [hstate]; exact hi.cursor
  · rw [hstate, hc]; exact hi.call

/-- What an event does, as far as one log is concerned.  The results above argue by cases on this
and never look at an event again. -/
inductive Engine.Effect (cfg : Settings) (serverId : ℤ) (D : Discipline cfg.maxReturnNodes)
    (h : LogHeader) (log : StoredLog) (s s' : Engine) : Engine.Event → StoredLog → Prop
  | update (el : LogElem) (hs' : s' = { s with server := (s.server.updateLog (some el)).1 }) :
      Engine.Effect cfg serverId D h log s s' (.update el) (log.afterUpdate el)
  | quiet (e : Engine.Event) (hq : Engine.Quiet (headerKey serverId h) s s') :
      Engine.Effect cfg serverId D h log s s' e log
  | complete (f : Flight) (got : List Entry) (lo : Option Value) (result : LogDataResult)
      (cursor : Option Value)
      (hc : Engine.Completes cfg serverId D h log s s' f got lo result cursor) :
      Engine.Effect cfg serverId D h log s s' (.answer (headerKey serverId h)) log

/-- **Every event keeps the invariant of a log**, and its effect on the log is an update, nothing,
or a completed call. -/
theorem Engine.Inv.next (hi : s.Inv cfg serverId D h log) (hk : s.Keyed) {e : Engine.Event}
    (ha : s.Allows D serverId h e) (hnext : s.next cfg serverId e = some s') :
    ∃ log', s'.Inv cfg serverId D h log' ∧ Engine.Effect cfg serverId D h log s s' e log' := by
  cases e with
  | update el =>
    rw [← Option.some.inj hnext]
    exact ⟨_, hi.update ha, .update el rfl⟩
  | begin h' =>
    simp only [Engine.next] at hnext
    split at hnext
    · simp at hnext
    · rw [← Option.some.inj hnext]
      refine ⟨log, hi.begun ha, .quiet _ ?_⟩
      rw [Engine.begun]
      split <;> exact ⟨rfl, rfl, rfl⟩
  | answer key =>
    obtain ⟨f, hcall, hs'⟩ := Option.map_eq_some_iff.mp hnext
    by_cases hkey : key = headerKey serverId h
    · subst hkey
      obtain ⟨hi', hp | ⟨got, lo, r, cursor, hc⟩⟩ := hi.answer hcall hs'.symm
      · exact ⟨log, hi', .quiet _ (hp.quiet _)⟩
      · exact ⟨log, hi', .complete f got lo r cursor hc⟩
    · obtain ⟨hq, hc⟩ : Engine.Quiet _ s (s.answered cfg key f (s.server.serve f.task.query)) ∧
          (s.answered cfg key f (s.server.serve f.task.query)).calls _ = s.calls _ :=
        Engine.answered_other hk hcall hkey (s.server.serve f.task.query)
      rw [hs'] at hq hc
      exact ⟨log, hi.of_quiet hq hc, .quiet _ hq⟩
  | fail key a =>
    simp only [Engine.next] at hnext
    split at hnext
    · rename_i hfails
      obtain ⟨f, hcall, hs'⟩ := Option.map_eq_some_iff.mp hnext
      rw [Engine.answered_fails hfails] at hs'
      rw [← hs']
      have hq : Engine.Quiet (headerKey serverId h) s (s.setCall key none) := ⟨rfl, rfl, rfl⟩
      refine ⟨log, ?_, .quiet _ hq⟩
      by_cases hkey : headerKey serverId h = key
      · refine ⟨hi.find, hi.sole, hi.disciplined, hi.tracks, hi.ordered, hi.cursor, ?_⟩
        intro f' hf'
        rw [← hkey, Engine.setCall_self] at hf'
        exact absurd hf' (by simp)
      · exact hi.of_quiet hq (Engine.setCall_of_ne s none hkey)
    · simp at hnext

end Invariant

end WitsmlViewer

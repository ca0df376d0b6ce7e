/-
# Successive polls of one log

Each poll fetches from the cursor, drops the rows that are not strictly beyond it, hands the rest
on, and sets the cursor to the most advanced index of the block *before* dropping.  The server may
answer anything: rows in any order, inside or outside the requested range, any return code.

A server that answers with old rows only moves the cursor back, and the next poll may hand on what
an earlier one has.  `polls_no_duplicates`: if every non-empty block reaches the cursor, the cursor
never moves back and no two polls hand on a sample of the same index.

The store of this repository answers with the boundary row as long as its log is only appended to,
so it meets the condition (`Reaching`).  A real server need not: one that has lost its last rows,
or that takes the start bound as exclusive and has nothing newer but something older, does not.
The code looks at the block alone; had it kept the more advanced of the block's index and its old
cursor, the condition would be superfluous.

Only rows that can be ordered are considered.  A block with a `nan` or with a text among its
indices either raises, and then the poll has no effect, or is the subject of `UnorderedRows`.
-/
import WitsmlViewer.Lib.Runs
import WitsmlViewer.Scheduler

namespace WitsmlViewer

open Py Runs

/-! ## 1. Polls

A poll is one step here: its answers are all given at once, and nothing happens in between.  With a
single log that is no restriction, since other tasks do not touch its state. -/

/-- The state that a poll of the log works on. -/
def pollState (serverId : ℤ) (h : LogHeader) (warm : RingBufferStore) : LogState :=
  (warm.getLogState (headerKey serverId h)).getD (stateFromHeader serverId h)

/-- The warm store, with what the polls have handed to it and to the database, one entry for each
poll, and the cursor as each of them left it. -/
structure Polled where
  warm : RingBufferStore
  handed : List (List CurveSample) := []
  cursors : List (Option Value) := []

variable (cfg : Settings) (serverId : ℤ) (h : LogHeader)

/-- `_do_ingest_log` against a server that gives these answers.  What it raises is logged. -/
def Polled.poll (s : Polled) (answers : ℕ → Answer) : Polled :=
  match beginIngest cfg serverId s.warm h with
  | .ok (some task) =>
    match (task.call.getLogData task.state.lastIndex answers).1 with
    | .ok result =>
      match completeIngest cfg s.warm task result with
      | .ok (warm, samples) =>
        { warm := warm
          handed := s.handed ++ [samples]
          cursors := s.cursors ++ [(pollState serverId h warm).lastIndex] }
      | .error _ => s
    | .error _ => s
  | _ => s

/-- The answers' rows have ordered indices, or none. -/
def WellFormed (s : Polled) (answers : ℕ → Answer) : Prop :=
  ∀ n reply els batch, answers n = .ok reply → reply.logs = .ok els →
    parseLogData els (some (pollState serverId h s.warm).indexType) none = .ok batch →
    ∀ r ∈ batch, ∀ row ∈ r.block.rows, row.Orders (pollState serverId h s.warm).indexType

/-- The block that the answers make has no index, or one at or beyond the cursor.  This is a
condition on the answers and on the state before the poll, and it can be computed from them. -/
def ReachesCursor (s : Polled) (answers : ℕ → Answer) : Prop :=
  ∀ result ∈ ((ingestCall cfg h (pollState serverId h s.warm)).getLogData
    (pollState serverId h s.warm).lastIndex answers).1.toOption,
    ∀ last ∈ (pollState serverId h s.warm).lastIndex,
      (∀ r ∈ result.block.rows, r.index = none) ∨
        ∃ r ∈ result.block.rows, ∃ i ∈ r.index,
          growthKey (pollState serverId h s.warm).direction last ≤
            growthKey (pollState serverId h s.warm).direction i

instance (s : Polled) (answers : ℕ → Answer) : Decidable (ReachesCursor cfg serverId h s answers) :=
  inferInstanceAs (Decidable (∀ result ∈ ((ingestCall cfg h (pollState serverId h s.warm)).getLogData
    (pollState serverId h s.warm).lastIndex answers).1.toOption,
    ∀ last ∈ (pollState serverId h s.warm).lastIndex,
      (∀ r ∈ result.block.rows, r.index = none) ∨
        ∃ r ∈ result.block.rows, ∃ i ∈ r.index,
          growthKey (pollState serverId h s.warm).direction last ≤
            growthKey (pollState serverId h s.warm).direction i))

/-- One cursor is not behind another.  No cursor at all is behind every other. -/
def NotBehind (d : Direction) : Option Value → Option Value → Prop
  | none, _ => True
  | some _, none => False
  | some v, some w => growthKey d v ≤ growthKey d w

/-- No two polls have handed on the same index of a curve, and the cursor has never moved back.
Within one poll an index cannot come twice anyway, since a merged block has each index once. -/
structure Duplicatefree (d : Direction) (s : Polled) : Prop where
  apart : s.handed.Pairwise fun a b => ∀ x ∈ a, ∀ y ∈ b, (x.mnemonic, x.index) ≠ (y.mnemonic, y.index)
  onward : s.cursors.Pairwise (NotBehind d)

/-- Before the first poll: the cursor, if a restart has brought one back, is an ordered index, whose
time zone the database may have dropped. -/
structure Polled.Initial (s : Polled) : Prop where
  key : (pollState serverId h s.warm).key = headerKey serverId h
  handed : s.handed = []
  cursors : s.cursors = [(pollState serverId h s.warm).lastIndex]
  cursor : ∀ v, (pollState serverId h s.warm).lastIndex = some v →
    (aware v).Orders (pollState serverId h s.warm).indexType

/-! ## 2. What a fetch returns

Whatever the pages are, the merge orders them, and what it returns can be ordered if they can. -/

/-- A merged row is one of the pages' rows. -/
theorem mergeBlocks_orders {t : IndexType} {blocks : List LogDataBlock} {merged : LogDataBlock}
    (h : mergeBlocks blocks = .ok merged) (hord : ∀ b ∈ blocks, ∀ r ∈ b.rows, r.Orders t) :
    ∀ r ∈ merged.rows, r.Orders t := by
  intro r hr j hj
  obtain ⟨i, hi, -, -, -, hindex, -⟩ := mergeBlocks_last h hord r hr
  rw [hindex] at hj
  exact Option.some.inj hj ▸ hi

namespace LogDataCall

variable {t : IndexType} (call : LogDataCall)

/-- The pages' rows have ordered indices, or none. -/
def HoldsOrdered (t : IndexType) (st : FetchState) : Prop :=
  ∀ b ∈ st.blocks, ∀ r ∈ b.rows, r.Orders t

theorem absorb_holdsOrdered {st st' : FetchState} {batch : List LogDataResult}
    {next : Option Value} (hrun : call.absorb st batch = .ok (st', next))
    (hst : HoldsOrdered t st) (hbatch : ∀ r ∈ batch, ∀ row ∈ r.block.rows, row.Orders t) :
    HoldsOrdered t st' := by
  cases batch with
  | nil =>
    simp only [absorb, Except.ok.injEq, Prod.mk.injEq] at hrun
    rw [← hrun.1]
    exact hst
  | cons first rest =>
    obtain ⟨next', -, heq⟩ := map_eq_ok.mp hrun
    obtain ⟨rfl, -⟩ := Prod.mk.inj heq
    intro b hb
    rcases List.mem_append.mp hb with hb | hb
    · exact hst b hb
    · rw [List.mem_singleton.mp hb]
      exact hbatch first List.mem_cons_self

theorem result_orders {st : FetchState} {result : LogDataResult} (hrun : call.result st = .ok result)
    (hst : HoldsOrdered t st) : ∀ r ∈ result.block.rows, r.Orders t := by
  simp only [LogDataCall.result] at hrun
  split at hrun
  · obtain ⟨merged, hmerge, heq⟩ := bind_eq_ok.mp hrun
    obtain rfl := Except.ok.inj heq
    obtain rfl := Except.ok.inj hmerge
    simp
  · obtain ⟨merged, hmerge, heq⟩ := bind_eq_ok.mp hrun
    obtain rfl := Except.ok.inj heq
    exact mergeBlocks_orders hmerge hst

/-- The rows of a result are strictly ascending. -/
theorem result_ascending {st : FetchState} {result : LogDataResult}
    (hrun : call.result st = .ok result) (hst : HoldsOrdered t st) :
    result.block.rows.Pairwise fun a b => a.rank < b.rank := by
  simp only [LogDataCall.result] at hrun
  split at hrun
  · obtain ⟨merged, hmerge, heq⟩ := bind_eq_ok.mp hrun
    obtain rfl := Except.ok.inj heq
    obtain rfl := Except.ok.inj hmerge
    exact List.Pairwise.nil
  · obtain ⟨merged, hmerge, heq⟩ := bind_eq_ok.mp hrun
    obtain rfl := Except.ok.inj heq
    exact mergeBlocks_ascending hmerge hst

/-- **One answer with ordered rows**: the fetch goes on with ordered pages, or returns them. -/
theorem fetchStep_ordered {a : Answer} {st : FetchState}
    {out : (FetchState × LogQuery) ⊕ LogDataResult} (hout : call.fetchStep st a = .ok out)
    (hwell : ∀ reply els batch, a = .ok reply → reply.logs = .ok els →
      parseLogData els (some call.indexType) none = .ok batch →
      ∀ r ∈ batch, ∀ row ∈ r.block.rows, row.Orders t) (hst : HoldsOrdered t st) :
    (∀ st' q, out = .inl (st', q) → HoldsOrdered t st') ∧
      ∀ r, out = .inr r → ∃ st', HoldsOrdered t st' ∧ call.result st' = .ok r := by
  obtain ⟨reply, hans, hout⟩ := bind_eq_ok.mp hout
  split at hout
  · simp at hout
  · obtain ⟨els, hels, hout⟩ := bind_eq_ok.mp hout
    obtain ⟨batch, hbatch, hout⟩ := bind_eq_ok.mp hout
    obtain ⟨⟨st₁, next⟩, habs, hout⟩ := bind_eq_ok.mp hout
    have hst₁ := call.absorb_holdsOrdered habs hst (hwell reply els batch hans hels hbatch)
    dsimp only at hout
    split at hout
    · obtain ⟨q, -, hout⟩ := bind_eq_ok.mp hout
      obtain rfl := Except.ok.inj hout
      refine ⟨fun st' q' heq => ?_, fun r heq => absurd heq (by simp)⟩
      obtain ⟨rfl, -⟩ := Prod.mk.inj (Sum.inl.inj heq)
      exact hst₁
    · obtain ⟨r, hr, rfl⟩ := map_eq_ok.mp hout
      refine ⟨fun st' q' heq => absurd heq (by simp), fun r' heq => ?_⟩
      obtain rfl := Sum.inr.inj heq
      exact ⟨st₁, hst₁, hr⟩

theorem fetchLoop_orders {answers : ℕ → Answer} {result : LogDataResult}
    (hwell : ∀ n reply els batch, answers n = .ok reply → reply.logs = .ok els →
      parseLogData els (some call.indexType) none = .ok batch →
      ∀ r ∈ batch, ∀ row ∈ r.block.rows, row.Orders t) :
    ∀ {fuel : ℕ} {st : FetchState} {n : ℕ}, HoldsOrdered t st →
      (call.fetchLoop answers fuel st n).1 = .ok result →
      ∀ r ∈ result.block.rows, r.Orders t
  | 0, st, n, hst, hrun => call.result_orders hrun hst
  | fuel + 1, st, n, hst, hrun => by
    rw [fetchLoop] at hrun
    split at hrun
    · simp at hrun
    · rename_i r hr
      obtain rfl := Except.ok.inj hrun
      obtain ⟨st', hst', hresult⟩ := (call.fetchStep_ordered hr (hwell n) hst).2 r rfl
      exact call.result_orders hresult hst'
    · rename_i st' q hst'
      exact fetchLoop_orders hwell ((call.fetchStep_ordered hst' (hwell n) hst).1 st' q rfl) hrun

/-- **Well-formed answers make a block of well-formed rows.** -/
theorem getLogData_orders {answers : ℕ → Answer} {start : Option Value} {result : LogDataResult}
    (hwell : ∀ n reply els batch, answers n = .ok reply → reply.logs = .ok els →
      parseLogData els (some call.indexType) none = .ok batch →
      ∀ r ∈ batch, ∀ row ∈ r.block.rows, row.Orders t)
    (hrun : (call.getLogData start answers).1 = .ok result) :
    ∀ r ∈ result.block.rows, r.Orders t := by
  rw [getLogData] at hrun
  split at hrun
  · simp at hrun
  · rename_i st q hstart
    obtain ⟨q', -, heq⟩ := map_eq_ok.mp hstart
    obtain ⟨rfl, -⟩ := Prod.mk.inj heq
    exact call.fetchLoop_orders hwell (fun b hb => by simp [initial] at hb) hrun

end LogDataCall

/-! ## 3. What a poll does

A poll either changes nothing, because it raised or had nothing to fetch, or it has fetched a block
and completed. -/

/-- What a completion has gone through, and the state that it leaves. -/
theorem completeIngest_eq_ok {warm warm' : RingBufferStore} {task : IngestTask}
    {result : LogDataResult} {samples : List CurveSample}
    (hrun : completeIngest cfg warm task result = .ok (warm', samples)) :
    ∃ deduped cursor,
      dedupeBoundary result.block task.state.lastIndex task.state.direction = .ok deduped ∧
      deduped.samples cfg = .ok samples ∧
      continuationIndex result.block task.state.direction = .ok cursor ∧
      ∀ key, warm'.getLogState key =
        if task.state.key = key then
          some { task.state with
            lastIndex := cursor.or task.state.lastIndex
            objectGrowing := some true }
        else warm.getLogState key := by
  obtain ⟨deduped, hdedup, hrun⟩ := bind_eq_ok.mp hrun
  obtain ⟨xs, hxs, hrun⟩ := bind_eq_ok.mp hrun
  obtain ⟨cursor, hcursor, hrun⟩ := bind_eq_ok.mp hrun
  obtain ⟨rfl, rfl⟩ := Prod.mk.inj (Except.ok.inj hrun)
  refine ⟨deduped, cursor, hdedup, hxs, hcursor, fun key => ?_⟩
  split
  · exact RingBufferStore.getLogState_putLogState warm _ key
  · exact RingBufferStore.getLogState_putLogState warm _ key

/-- What the completion of an ordered block hands on. -/
theorem completeIngest_spec {t : IndexType} {warm warm' : RingBufferStore} {task : IngestTask}
    {result : LogDataResult} {samples : List CurveSample}
    (hrun : completeIngest cfg warm task result = .ok (warm', samples))
    (hord : ∀ r ∈ result.block.rows, r.Orders t)
    (hlast : ∀ v, task.state.lastIndex = some v → (aware v).Orders t) :
    ∃ cursor, continuationIndex result.block task.state.direction = .ok cursor ∧
      (∀ key, warm'.getLogState key =
        if task.state.key = key then
          some { task.state with
            lastIndex := cursor.or task.state.lastIndex
            objectGrowing := some true }
        else warm.getLogState key) ∧
      ∀ x ∈ samples, ∃ r ∈ result.block.rows, r.index = some x.index ∧
        beyond task.state.direction task.state.lastIndex r = true := by
  obtain ⟨deduped, cursor, hdedup, hsamples, hcursor, hget⟩ := completeIngest_eq_ok cfg hrun
  rw [dedupeBoundary_spec hord hlast] at hdedup
  obtain rfl := Except.ok.inj hdedup
  refine ⟨cursor, hcursor, hget, fun x hx => ?_⟩
  rw [samples_eq cfg fun r hr => hord r (List.mem_filter.mp hr).1] at hsamples
  obtain rfl := Except.ok.inj hsamples
  obtain ⟨r, hr, hx⟩ := List.mem_flatMap.mp hx
  obtain ⟨hmem, hbeyond⟩ := List.mem_filter.mp hr
  exact ⟨r, hmem, index_of_mem_samplesOf hx, hbeyond⟩

/-- The task that a poll begins. -/
theorem beginIngest_eq_ok {warm : RingBufferStore} {task : IngestTask}
    (hbegin : beginIngest cfg serverId warm h = .ok (some task)) :
    task.state = pollState serverId h warm ∧
      task.call = ingestCall cfg h (pollState serverId h warm) ∧
      ∃ q, (ingestCall cfg h (pollState serverId h warm)).fetchStart
        (pollState serverId h warm).lastIndex =
          .ok ((ingestCall cfg h (pollState serverId h warm)).initial
            (pollState serverId h warm).lastIndex, q) := by
  rw [beginIngest] at hbegin
  split at hbegin
  · simp at hbegin
  · obtain ⟨⟨fetch, query⟩, hstart, heq⟩ := map_eq_ok.mp hbegin
    obtain rfl := Option.some.inj heq
    obtain ⟨q, hq, heq⟩ := map_eq_ok.mp hstart
    refine ⟨rfl, rfl, q, ?_⟩
    rw [LogDataCall.fetchStart, pollState, hq]
    rfl

theorem header_of_beginIngest {warm : RingBufferStore} {task : IngestTask}
    (hbegin : beginIngest cfg serverId warm h = .ok (some task)) : task.header = h := by
  rw [beginIngest] at hbegin
  split at hbegin
  · exact absurd hbegin (by simp)
  · obtain ⟨_, -, heq⟩ := map_eq_ok.mp hbegin
    rw [← Option.some.inj heq]

/-- A poll that raises nothing has fetched a block and completed. -/
theorem Polled.poll_cases (s : Polled) (answers : ℕ → Answer) :
    s.poll cfg serverId h answers = s ∨ ∃ task result warm samples,
      task.state = pollState serverId h s.warm ∧
      ((ingestCall cfg h (pollState serverId h s.warm)).getLogData
        (pollState serverId h s.warm).lastIndex answers).1 = .ok result ∧
      completeIngest cfg s.warm task result = .ok (warm, samples) ∧
      s.poll cfg serverId h answers = {
        warm := warm
        handed := s.handed ++ [samples]
        cursors := s.cursors ++ [(pollState serverId h warm).lastIndex] } := by
  rw [Polled.poll]
  split
  · rename_i task hbegin
    obtain ⟨hstate, hcall, -⟩ := beginIngest_eq_ok cfg serverId h hbegin
    split
    · rename_i result hfetch
      rw [hcall, hstate] at hfetch
      split
      · rename_i warm samples hdone
        exact Or.inr ⟨task, result, warm, samples, hstate, hfetch, hdone, rfl⟩
      · exact Or.inl rfl
    · exact Or.inl rfl
  · exact Or.inl rfl

/-- Cursors that never fall back from one to the next never do from the first to the last. -/
theorem NotBehind.trans {d : Direction} {a b c : Option Value} (hab : NotBehind d a b)
    (hbc : NotBehind d b c) : NotBehind d a c := by
  cases a with
  | none => trivial
  | some u => cases b with
    | none => exact hab.elim
    | some v => cases c with
      | none => exact hbc.elim
      | some w => exact le_trans (show growthKey d u ≤ growthKey d v from hab) hbc

theorem NotBehind.refl (d : Direction) (a : Option Value) : NotBehind d a a := by
  cases a with
  | none => trivial
  | some v => exact le_refl (growthKey d v)

/-! What the cursor that a block leaves is. -/

section Cursor

variable {t : IndexType} {d : Direction} {block : LogDataBlock} {cursor last : Option Value}

/-- No row of a block is beyond the cursor that it leaves. -/
theorem notBehind_of_mem (hord : ∀ r ∈ block.rows, r.Orders t)
    (hcursor : continuationIndex block d = .ok cursor) {r : Row} (hr : r ∈ block.rows) {i : Value}
    (hi : r.index = some i) (last : Option Value) : NotBehind d (some i) (cursor.or last) := by
  rcases continuationIndex_spec hord d with ⟨-, hempty⟩ | ⟨v, hsome, -, -, hmax⟩
  · rw [hempty r hr] at hi
    exact absurd hi (by simp)
  · obtain rfl := Except.ok.inj (hcursor.symm.trans hsome)
    exact hmax r hr i hi

/-- It is ordered, as the old one. -/
theorem orders_cursor (hord : ∀ r ∈ block.rows, r.Orders t)
    (hcursor : continuationIndex block d = .ok cursor)
    (hlast : ∀ v, last = some v → (aware v).Orders t) :
    ∀ v, cursor.or last = some v → (aware v).Orders t := by
  rcases continuationIndex_spec hord d with ⟨hnone, -⟩ | ⟨v, hsome, hv, -⟩
  · obtain rfl := Except.ok.inj (hcursor.symm.trans hnone)
    exact hlast
  · obtain rfl := Except.ok.inj (hcursor.symm.trans hsome)
    intro w hw
    obtain rfl := Option.some.inj hw
    exact (aware_of_orders hv).symm ▸ hv

/-- **A block that reaches the cursor does not move it back.**  The new cursor is the most advanced
index of the block, so it is not behind the index that reaches the old one. -/
theorem notBehind_cursor (hord : ∀ r ∈ block.rows, r.Orders t)
    (hcursor : continuationIndex block d = .ok cursor)
    (hreach : ∀ v, last = some v → (∀ r ∈ block.rows, r.index = none) ∨
      ∃ r ∈ block.rows, ∃ i ∈ r.index, growthKey d v ≤ growthKey d i) :
    NotBehind d last (cursor.or last) := by
  rcases continuationIndex_spec hord d with ⟨hnone, -⟩ | ⟨v, hsome, -, ⟨r, hr, hindex⟩, hmax⟩
  · obtain rfl := Except.ok.inj (hcursor.symm.trans hnone)
    exact NotBehind.refl d _
  · obtain rfl := Except.ok.inj (hcursor.symm.trans hsome)
    cases hv : last with
    | none => trivial
    | some v' =>
      rcases hreach v' hv with hempty | ⟨r', hr', i, hi, hle⟩
      · rw [hempty r hr] at hindex
        exact absurd hindex (by simp)
      · exact le_trans hle (hmax r' hr' i hi)

end Cursor

/-! ## 4. Runs of polls

The invariant says where everything lies that has been handed on: at or before the cursor.  New
samples lie strictly beyond the old cursor, so they are new; and they lie at or before the new one,
which keeps the invariant. -/

/-- What every poll preserves: what has been handed on lies at or before the cursor. -/
structure PollInv (t : IndexType) (d : Direction) (s : Polled) : Prop where
  key : (pollState serverId h s.warm).key = headerKey serverId h
  indexType : (pollState serverId h s.warm).indexType = t
  direction : (pollState serverId h s.warm).direction = d
  cursor : ∀ v, (pollState serverId h s.warm).lastIndex = some v → (aware v).Orders t
  passed : ∀ a ∈ s.handed, ∀ x ∈ a,
    NotBehind d (some x.index) (pollState serverId h s.warm).lastIndex
  former : ∀ c ∈ s.cursors, NotBehind d c (pollState serverId h s.warm).lastIndex
  free : Duplicatefree d s

section Step

variable {cfg serverId h} {t : IndexType} {d : Direction} {s : Polled} {answers : ℕ → Answer}

/-- Where a poll of ordered rows leaves the cursor, and what it hands on. -/
theorem PollInv.advance {task : IngestTask} {result : LogDataResult} {warm : RingBufferStore}
    {samples : List CurveSample} (hi : PollInv serverId h t d s)
    (hstate : task.state = pollState serverId h s.warm)
    (hord : ∀ r ∈ result.block.rows, r.Orders t)
    (hreach : ∀ last, (pollState serverId h s.warm).lastIndex = some last →
      (∀ r ∈ result.block.rows, r.index = none) ∨
        ∃ r ∈ result.block.rows, ∃ i ∈ r.index, growthKey d last ≤ growthKey d i)
    (hdone : completeIngest cfg s.warm task result = .ok (warm, samples)) :
    ∃ cursor, pollState serverId h warm = { pollState serverId h s.warm with
        lastIndex := cursor
        objectGrowing := some true } ∧
      (∀ v, cursor = some v → (aware v).Orders t) ∧
      NotBehind d (pollState serverId h s.warm).lastIndex cursor ∧
      ∀ x ∈ samples, NotBehind d (some x.index) cursor ∧
        ∀ last, (pollState serverId h s.warm).lastIndex = some last →
          growthKey d last < growthKey d x.index := by
  obtain ⟨cursor, hcursor, hget, hsamples⟩ := completeIngest_spec cfg hdone hord (by
    rw [hstate]
    exact hi.cursor)
  rw [hstate, hi.direction] at hcursor
  have hnew : pollState serverId h warm = { pollState serverId h s.warm with
      lastIndex := cursor.or (pollState serverId h s.warm).lastIndex
      objectGrowing := some true } := by
    rw [pollState, hget, hstate, if_pos hi.key, Option.getD_some]
  rw [hstate, hi.direction] at hsamples
  refine ⟨_, hnew, orders_cursor hord hcursor hi.cursor, notBehind_cursor hord hcursor hreach,
    fun x hx => ?_⟩
  obtain ⟨r, hr, hindex, hbeyond⟩ := hsamples x hx
  refine ⟨notBehind_of_mem hord hcursor hr hindex _, fun last hlast => ?_⟩
  rw [hlast] at hbeyond
  simpa [beyond, hindex] using hbeyond

/-- **One poll**: nothing that has been handed on is handed on again, and the cursor does not move
back.  This is the only place where the condition is used, and it is used for the cursor alone. -/
theorem PollInv.poll (hi : PollInv serverId h t d s) (hwell : WellFormed serverId h s answers)
    (hreach : ReachesCursor cfg serverId h s answers) :
    PollInv serverId h t d (s.poll cfg serverId h answers) := by
  rcases s.poll_cases cfg serverId h answers with
    hsame | ⟨task, result, warm, samples, hstate, hfetch, hdone, hpoll⟩
  · rw [hsame]
    exact hi
  · have hord : ∀ r ∈ result.block.rows, r.Orders t := by
      rw [WellFormed, hi.indexType] at hwell
      refine LogDataCall.getLogData_orders _ ?_ hfetch
      intro n reply els batch hans hels hbatch
      refine hwell n reply els batch hans hels ?_
      rw [← hi.indexType]
      exact hbatch
    have hreach' := hreach result (by rw [hfetch]; rfl)
    rw [hi.direction] at hreach'
    obtain ⟨cursor, hnew, hcursor, honward, hsamples⟩ :=
      hi.advance hstate hord hreach' hdone
    have hlast : (pollState serverId h warm).lastIndex = cursor := by rw [hnew]
    rw [hpoll]
    constructor
    · rw [hnew]
      exact hi.key
    · rw [hnew]
      exact hi.indexType
    · rw [hnew]
      exact hi.direction
    · rw [hlast]
      exact hcursor
    · intro a ha x hx
      rw [hlast]
      rcases List.mem_append.mp ha with ha | ha
      · exact (hi.passed a ha x hx).trans honward
      · rw [List.mem_singleton.mp ha] at hx
        exact (hsamples x hx).1
    · intro c hc
      rw [hlast]
      rcases List.mem_append.mp hc with hc | hc
      · exact (hi.former c hc).trans honward
      · rw [List.mem_singleton.mp hc, hlast]
        exact NotBehind.refl d cursor
    · constructor
      · refine List.pairwise_append.mpr ⟨hi.free.apart, List.pairwise_singleton _ _, ?_⟩
        intro a ha b hb x hx y hy heq
        rw [List.mem_singleton.mp hb] at hy
        -- the old sample is at or before the old cursor, the new one is beyond it
        have hold := hi.passed a ha x hx
        cases hc : (pollState serverId h s.warm).lastIndex with
        | none =>
          rw [hc] at hold
          exact hold
        | some last =>
          rw [hc] at hold
          have hle : growthKey d x.index ≤ growthKey d last := hold
          have hlt := (hsamples y hy).2 last hc
          rw [(Prod.mk.inj heq).2] at hle
          omega
      · refine List.pairwise_append.mpr ⟨hi.free.onward, List.pairwise_singleton _ _, ?_⟩
        intro c hc c' hc'
        rw [List.mem_singleton.mp hc', hlast]
        exact (hi.former c hc).trans honward

end Step

/-- A run of polls is a run of steps that are always possible. -/
def pollNext (cfg : Settings) (serverId : ℤ) (h : LogHeader) (s : Polled) (answers : ℕ → Answer) :
    Option Polled :=
  some (s.poll cfg serverId h answers)

/-- **No duplicates**: in every run of polls whose answers have ordered indices, and whose blocks
reach the cursor if they have an index at all, no index of a curve is handed on by two polls, and
the cursor never moves back.

The condition is about each poll of the run, and it is tight: the poll that violates it moves the
cursor back by definition, so the second half fails at once, and the first as soon as the server
repeats a row in between (`polls_duplicate`). -/
theorem polls_no_duplicates (cfg : Settings) (serverId : ℤ) (h : LogHeader) {s₀ s : Polled}
    (hinit : s₀.Initial serverId h) {answers : List (ℕ → Answer)}
    (hrun : Run (pollNext cfg serverId h)
      (fun s a => WellFormed serverId h s a ∧ ReachesCursor cfg serverId h s a) s₀ answers s) :
    Duplicatefree (pollState serverId h s₀.warm).direction s := by
  have hstart : PollInv serverId h (pollState serverId h s₀.warm).indexType
      (pollState serverId h s₀.warm).direction s₀ := by
    refine ⟨hinit.key, rfl, rfl, hinit.cursor, ?_, ?_, ?_, ?_⟩
    · simp [hinit.handed]
    · intro c hc
      rw [hinit.cursors, List.mem_singleton] at hc
      rw [hc]
      exact NotBehind.refl _ _
    · simp [hinit.handed]
    · simp [hinit.cursors]
  refine (hrun.invariant (fun s a s' hi hguard hstep => ?_) hstart).free
  obtain rfl := Option.some.inj hstep
  exact hi.poll hguard.1 hguard.2

instance (r : Row) (t : IndexType) : Decidable (r.Orders t) :=
  inferInstanceAs (Decidable (∀ i ∈ r.index, i.Orders t))

/-- A server that always gives the same answer, whose rows are well formed. -/
theorem wellFormed_const {serverId : ℤ} {h : LogHeader} {s : Polled} {reply : Reply}
    (hrows : ∀ els ∈ reply.logs.toOption,
      ∀ batch ∈ (parseLogData els (some (pollState serverId h s.warm).indexType) none).toOption,
        ∀ r ∈ batch, ∀ row ∈ r.block.rows, row.Orders (pollState serverId h s.warm).indexType) :
    WellFormed serverId h s fun _ => .ok reply := by
  intro n reply' els batch hans hels hbatch
  obtain rfl := Except.ok.inj hans
  exact hrows els (by rw [hels]; rfl) batch (by rw [hbatch]; rfl)

/-- The header of a depth log with one curve. -/
def depthHeader : LogHeader where
  uid := "L".toList
  uidWell := "W".toList
  uidWellbore := "B".toList
  name := none
  nameWell := none
  nameWellbore := none
  indexType := .measuredDepth
  indexCurve := some "DEPTH".toList
  direction := .increasing
  objectGrowing := none
  nullValue := none
  indexUom := none
  startIndex := none
  endIndex := none
  startDatetimeIndex := none
  endDatetimeIndex := none
  curves := ["DEPTH", "GR"].map fun m =>
    ⟨none, m.toList, none, none, none, none, none, none, none, none⟩

/-- A success with these lines of data. -/
def linesReply (lines : List String) : Reply where
  result := 1
  logs := .ok [{ logData := some ⟨some "DEPTH,GR".toList, none, lines.map fun l => some l.toList⟩ }]

def linesAnswers (lines : List String) : ℕ → Answer := fun _ => .ok (linesReply lines)

/-- A process that has polled nothing yet. -/
def unpolled : Polled where
  warm := .init 2000
  cursors := [none]

theorem initial_unpolled : unpolled.Initial 1 depthHeader := by
  refine ⟨rfl, rfl, rfl, fun v hv => ?_⟩
  have hnone : (pollState 1 depthHeader unpolled.warm).lastIndex = none := rfl
  rw [hnone] at hv
  exact absurd hv (by simp)

def depthSettings : Settings := ⟨1000, 2000, fun _ => .error .valueError⟩

/-- A depth as an index. -/
def depth? (token : String) : Option Value := (float? token.toList).map .num

/-- The process after some polls. -/
def polledWith (pages : List (List String)) : Polled :=
  pages.foldl (fun s lines => s.poll depthSettings 1 depthHeader (linesAnswers lines)) unpolled

/-- Two polls, the second of which gets the boundary row again. -/
theorem polls_no_duplicates_two :
    (polledWith [["10,1", "20,2"], ["20,2", "30,3"]]).handed.map List.length = [2, 1] ∧
      Duplicatefree .increasing (polledWith [["10,1", "20,2"], ["20,2", "30,3"]]) := by
  have hrun : Run (pollNext depthSettings 1 depthHeader)
      (fun s a => WellFormed 1 depthHeader s a ∧ ReachesCursor depthSettings 1 depthHeader s a)
      unpolled [linesAnswers ["10,1", "20,2"], linesAnswers ["20,2", "30,3"]]
      (polledWith [["10,1", "20,2"], ["20,2", "30,3"]]) :=
    Run.cons ⟨wellFormed_const (by decide +kernel), by decide +kernel⟩ rfl <|
      Run.cons ⟨wellFormed_const (by decide +kernel), by decide +kernel⟩ rfl <| Run.nil _
  exact ⟨by decide +kernel, polls_no_duplicates depthSettings 1 depthHeader initial_unpolled hrun⟩

/-- **An answer with old rows brings samples back**: the second poll gets one row that precedes the
cursor and moves it there, and the third poll hands on the first sample again. -/
theorem polls_duplicate :
    Run (pollNext depthSettings 1 depthHeader) (WellFormed 1 depthHeader) unpolled
        [linesAnswers ["10,1", "20,2"], linesAnswers ["5,0"], linesAnswers ["10,1"]]
        (polledWith [["10,1", "20,2"], ["5,0"], ["10,1"]]) ∧
      (polledWith [["10,1", "20,2"], ["5,0"], ["10,1"]]).cursors =
        [none, depth? "20", depth? "5", depth? "10"] ∧
      ¬Duplicatefree .increasing (polledWith [["10,1", "20,2"], ["5,0"], ["10,1"]]) := by
  refine ⟨?_, by decide +kernel, fun h => ?_⟩
  · exact Run.cons (wellFormed_const (by decide +kernel)) rfl <|
      Run.cons (wellFormed_const (by decide +kernel)) rfl <|
      Run.cons (wellFormed_const (by decide +kernel)) rfl <| Run.nil _
  · exact absurd h.apart (by decide +kernel)

end WitsmlViewer

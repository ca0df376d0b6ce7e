/-
# Polling helpers (`app.witsml.polling`)

The pure functions that keep a polled series free of duplicates: the index to resume from, the
removal of rows already seen, and the merge of a fetch's pages.  They have no state.  The client
calls the first after every page and the third when it returns, the scheduler calls the second with
the log's cursor, and between them they are all that stands between a store that repeats its
boundary rows and a viewer that must not see them twice.

Comparisons are Python's, so each function can raise `TypeError`: a text among depths, or a naive
instant among aware ones.  `merge_blocks` and `continuation_index` compare indices with each other,
`is_beyond` makes both sides aware first, which is why a cursor from a database that drops zones
still works (`isBeyond_eq`).

Each has one lemma about pages whose indices are ordered (`Value.Orders`), and the rest of the
development uses these and does not unfold the functions again:

* `continuationIndex_spec`: the most advanced index, or none;
* `dedupeBoundary_spec`: the rows strictly beyond the last index, in the order they came;
* `mergeBlocks_spec`: one row for each index, strictly ascending, all from the pages.

Pages whose indices are not ordered are the business of `UnorderedRows`, where `nan` is let in, and
of `Merging`, where blocks may disagree about their header.  Nothing here says that the merged rows
come in the log's direction: they ascend always, also on a decreasing log, and what that does to
the newest sample of a curve is the subject of `NewestLast`.
-/
import WitsmlViewer.Domain

namespace WitsmlViewer

open Py

/-! ## 1. The functions

All three take blocks as they were decoded, in which a row may lack an index.  Such a row is no
candidate for the continuation, and survives neither the merge nor a dedupe, unless the dedupe has
no cursor and returns its block as it is. -/

/-- `_aware`: a naive instant counts as UTC. -/
def aware : Value → Value
  | .dt t => .dt t.replaceUtc
  | v => v

/-- `_row_indices`. -/
def rowIndices (block : LogDataBlock) : List Value :=
  block.rows.filterMap fun r => r.index.map aware

/-- `continuation_index`: the index to resume from after a batch. -/
def continuationIndex (block : LogDataBlock) (direction : Direction) :
    Except PyError (Option Value) :=
  extremum (direction == .decreasing) (rowIndices block)

/-- `is_beyond`: strictly newer in the given direction. -/
def isBeyond (index last : Value) (direction : Direction) : Except PyError Bool :=
  match direction with
  | .increasing => (aware last).lt? (aware index)
  | .decreasing => (aware index).lt? (aware last)

/-- The rows strictly beyond `last`.  A row without an index is not beyond anything; the first
comparison that raises ends the whole of it, so a block is deduped completely or not at all. -/
def keepBeyond (last : Value) (direction : Direction) : List Row → Except PyError (List Row)
  | [] => .ok []
  | r :: rows => do
    let keep ← match r.index with
      | none => .ok false
      | some index => isBeyond index last direction
    let kept ← keepBeyond last direction rows
    .ok (if keep then r :: kept else kept)

/-- `dedupe_boundary`: everything, before there is a cursor, and then the rows beyond it.  The
boundary row itself goes, also if the store has rewritten it in the meantime. -/
def dedupeBoundary (block : LogDataBlock) (lastIndex : Option Value) (direction : Direction) :
    Except PyError LogDataBlock :=
  match lastIndex with
  | none => .ok block
  | some last => (keepBeyond last direction block.rows).map fun rows => { block with rows := rows }

/-- `by_index[r[0]] = r` for every row with an index.  A row replaces the one that was there, but
keeps its place in the dictionary; the sort after it makes the place irrelevant. -/
def indexRows (byIndex : Dict Value Row) (rows : List Row) : Dict Value Row :=
  rows.foldl (fun d r => match r.index with
    | none => d
    | some index => d.set index r) byIndex

/-- `merge_blocks`: one ordered, duplicate-free block; the last row written for an index wins.  The
header is that of the first block that has one, and blocks with another one are an error. -/
def mergeBlocks (blocks : List LogDataBlock) : Except PyError LogDataBlock :=
  match blocks with
  | [] => .error .valueError
  | first :: _ =>
    let head := (blocks.find? fun b => b.mnemonics ≠ []).getD first
    if blocks.any fun b => b.mnemonics ≠ [] ∧ b.mnemonics ≠ head.mnemonics then
      .error .valueError
    else do
      let byIndex := blocks.foldl (fun d b => indexRows d b.rows) []
      let ordered ← sortedEntries false byIndex
      .ok { head with rows := ordered.map Prod.snd }

/-! ## 2. Rows and their place

`Value.Orders t` says that an index is a finite or infinite number, or an instant in UTC, as a log
of type `t` has it.  On such indices every comparison answers, and it answers like the integers
`rank` (ascending) and `growthKey` (in the log's direction).  From here on nothing is said about
`lt` or `max`, only about integers. -/

namespace Row

/-- A row whose index, if any, is ordered. -/
def Orders (t : IndexType) (r : Row) : Prop := ∀ i, r.index = some i → i.Orders t

/-- Where the row stands on its log's line. -/
def rank (r : Row) : ℤ := r.index.elim 0 Value.rank

/-- Where the row stands along its log's growth. -/
def key (d : Direction) (r : Row) : ℤ := r.index.elim 0 (growthKey d)

theorem rank_of_index {r : Row} {i : Value} (h : r.index = some i) : r.rank = i.rank := by
  simp [rank, h]

end Row

@[simp] theorem rank_aware (v : Value) : (aware v).rank = v.rank := by cases v <;> rfl

@[simp] theorem growthKey_aware (d : Direction) (v : Value) :
    growthKey d (aware v) = growthKey d v := by
  cases d <;> simp [growthKey]

/-- An ordered index is in UTC already: making it aware does nothing. -/
theorem aware_of_orders {t : IndexType} {v : Value} (h : v.Orders t) : aware v = v := by
  cases v with
  | num x => rfl
  | text s => rfl
  | dt d => rw [aware, Datetime.replaceUtc_of_aware h.2]

/-! ## 3. What they do on ordered rows

The common assumption is that the rows of a block are ordered.  It is not a wish: the client
decodes an index cell under the log's type, and `Row.Orders` fails for a `nan`, and for a text in a
depth column, only. -/

section Ordered

variable {t : IndexType} {block : LogDataBlock}

/-- What `_row_indices` collects: the indices of the rows that have one. -/
theorem mem_rowIndices (h : ∀ r ∈ block.rows, r.Orders t) {v : Value} :
    v ∈ rowIndices block ↔ ∃ r ∈ block.rows, r.index = some v := by
  simp only [rowIndices, List.mem_filterMap, Option.map_eq_some_iff]
  constructor
  · rintro ⟨r, hr, i, hi, rfl⟩
    exact ⟨r, hr, by rw [hi, aware_of_orders (h r hr i hi)]⟩
  · rintro ⟨r, hr, hi⟩
    exact ⟨r, hr, v, hi, aware_of_orders (h r hr v hi)⟩

/-- **The continuation is the most advanced index of the block**, if it has any.

The two cases are told apart by the client: without a continuation a truncated answer cannot be
resumed, and it returns what it has.  In the other case the continuation is an index of the block
itself, never one beyond it, so that the next page starts at a row that is known. -/
theorem continuationIndex_spec (h : ∀ r ∈ block.rows, r.Orders t) (d : Direction) :
    (continuationIndex block d = .ok none ∧ ∀ r ∈ block.rows, r.index = none) ∨
    ∃ v, continuationIndex block d = .ok (some v) ∧ v.Orders t ∧
      (∃ r ∈ block.rows, r.index = some v) ∧
      -- the maximum of no indices is `none`, that of some is one of them
      ∀ r ∈ block.rows, ∀ i, r.index = some i → growthKey d i ≤ growthKey d v := by
  by_cases hne : rowIndices block = []
  · refine Or.inl ⟨by rw [continuationIndex, hne]; rfl, fun r hr => ?_⟩
    cases hi : r.index with
    | none => rfl
    | some i =>
      have := (mem_rowIndices h).mpr ⟨r, hr, hi⟩
      rw [hne] at this
      exact absurd this List.not_mem_nil
  · have hord : ∀ v ∈ rowIndices block, v.Orders t := by
      intro v hv
      obtain ⟨r, hr, hi⟩ := (mem_rowIndices h).mp hv
      exact h r hr v hi
    obtain ⟨m, hm, hrun, hmax⟩ := extremum_spec d hord hne
    refine Or.inr ⟨m, hrun, hord m hm, (mem_rowIndices h).mp hm, ?_⟩
    exact fun r hr i hi => hmax i ((mem_rowIndices h).mpr ⟨r, hr, hi⟩)

/-- `is_beyond` is the strict order of growth.  The cursor may be a naive instant, as a database
returns it: both sides are made aware before they are compared. -/
theorem isBeyond_eq {i last : Value} (hi : i.Orders t) (hl : (aware last).Orders t)
    (d : Direction) : isBeyond i last d = .ok (decide (growthKey d last < growthKey d i)) := by
  cases d with
  | increasing =>
    rw [isBeyond, aware_of_orders hi, hl.lt?_eq hi, rank_aware]
    rfl
  | decreasing =>
    rw [isBeyond, aware_of_orders hi, hi.lt?_eq hl, rank_aware]
    refine congrArg Except.ok (decide_eq_decide.mpr ?_)
    simp only [growthKey]
    omega

/-- Whether a row is strictly beyond an optional cursor. -/
def beyond (d : Direction) (last : Option Value) (r : Row) : Bool :=
  match last, r.index with
  | none, _ => true
  | some _, none => false
  | some last, some i => growthKey d last < growthKey d i

/-- Without a comparison that raises, the loop is a filter. -/
theorem keepBeyond_eq {last : Value} (hl : (aware last).Orders t) (d : Direction) :
    ∀ {rows : List Row}, (∀ r ∈ rows, r.Orders t) →
      keepBeyond last d rows = .ok (rows.filter (beyond d (some last)))
  | [], _ => rfl
  | r :: rows, h => by
    have ih := keepBeyond_eq hl d fun r' hr' => h r' (List.mem_cons_of_mem _ hr')
    cases hi : r.index with
    | none => simp [keepBeyond, hi, ih, bind, Except.bind, beyond]
    | some i =>
      have hr : i.Orders t := h r List.mem_cons_self i hi
      simp only [keepBeyond, hi, isBeyond_eq hr hl, ih, bind, Except.bind, List.filter_cons, beyond]

/-- **Dedupe keeps the rows strictly beyond the cursor**, in the order they came.  Before there is
a cursor it keeps them all, those without an index included. -/
theorem dedupeBoundary_spec {last : Option Value} (h : ∀ r ∈ block.rows, r.Orders t)
    (hl : ∀ v, last = some v → (aware v).Orders t) (d : Direction) :
    dedupeBoundary block last d = .ok { block with rows := block.rows.filter (beyond d last) } := by
  cases last with
  | none =>
    have hall : block.rows.filter (beyond d none) = block.rows :=
      List.filter_eq_self.mpr fun r _ => rfl
    rw [hall]
    rfl
  | some v => simp [dedupeBoundary, keepBeyond_eq (hl v rfl) d h, Except.map]

/-! The dictionary that a merge builds: each entry is a row under its own index, and every
index of the rows read so far has an entry. -/

/-- What `by_index` holds after reading `rows`. -/
structure Indexed (t : IndexType) (rows : List Row) (d : Dict Value Row) : Prop where
  distinct : Dict.Distinct d
  entry : ∀ e ∈ d, e.2.index = some e.1 ∧ e.1.Orders t ∧ e.2 ∈ rows
  covered : ∀ r ∈ rows, ∀ i, r.index = some i → ∃ e ∈ d, e.1 = i

/-- One more row: it replaces the entry of its index or is a new one, and a row without an index
changes nothing. -/
theorem Indexed.step {rows : List Row} {d : Dict Value Row} (hd : Indexed t rows d) {r : Row}
    (hr : r.Orders t) :
    Indexed t (rows ++ [r]) (match r.index with | none => d | some i => d.set i r) := by
  cases hi : r.index with
  | none =>
    refine ⟨hd.distinct, fun e he => ?_, fun r' hr' i hi' => ?_⟩
    · obtain ⟨h1, h2, h3⟩ := hd.entry e he
      exact ⟨h1, h2, List.mem_append_left _ h3⟩
    · rcases List.mem_append.mp hr' with hr' | hr'
      · exact hd.covered r' hr' i hi'
      · rw [List.mem_singleton.mp hr', hi] at hi'
        exact absurd hi' (by simp)
  | some i =>
    refine ⟨Dict.distinct_set hd.distinct, fun e he => ?_, fun r' hr' j hj => ?_⟩
    · rcases Dict.mem_of_mem_set Value.eq_of_beq hd.distinct he with rfl | ⟨he, -⟩
      · exact ⟨hi, hr i hi, by simp⟩
      · obtain ⟨h1, h2, h3⟩ := hd.entry e he
        exact ⟨h1, h2, List.mem_append_left _ h3⟩
    -- an index that was covered still is: by its old entry, or by the new row if it is the same
    -- index
    · have hself : (i, r) ∈ d.set i r := Dict.mem_set_self Value.eq_of_beq i r d
      rcases List.mem_append.mp hr' with hr' | hr'
      · obtain ⟨e, he, rfl⟩ := hd.covered r' hr' j hj
        by_cases heq : (e.1 == i) = true
        · exact ⟨_, hself, (Value.eq_of_beq _ _ heq).symm⟩
        · exact ⟨e, Dict.mem_set_of_ne he (by simpa using heq), rfl⟩
      · rw [List.mem_singleton.mp hr', hi] at hj
        exact ⟨_, hself, Option.some.inj hj⟩

theorem Indexed.rows {rows : List Row} {d : Dict Value Row} (hd : Indexed t rows d) :
    ∀ {more : List Row}, (∀ r ∈ more, r.Orders t) → Indexed t (rows ++ more) (indexRows d more)
  | [], _ => by simpa [indexRows] using hd
  | r :: more, h => by
    have hstep := hd.step (h r List.mem_cons_self)
    have hrest := hstep.rows fun r' hr' => h r' (List.mem_cons_of_mem _ hr')
    simpa [indexRows] using hrest

theorem Indexed.blocks {rows : List Row} {d : Dict Value Row} (hd : Indexed t rows d) :
    ∀ {blocks : List LogDataBlock}, (∀ b ∈ blocks, ∀ r ∈ b.rows, r.Orders t) →
      Indexed t (rows ++ blocks.flatMap LogDataBlock.rows)
        (blocks.foldl (fun d b => indexRows d b.rows) d)
  | [], _ => by simpa using hd
  | b :: blocks, h => by
    have hstep := hd.rows (h b List.mem_cons_self)
    have hrest := hstep.blocks fun b' hb' => h b' (List.mem_cons_of_mem _ hb')
    simpa using hrest

/-- The row that was written last under an index. -/
def LastUnder (rows : List Row) (i : Value) (r : Row) : Prop :=
  ∃ before after, rows = before ++ r :: after ∧ r.index = some i ∧ ∀ r' ∈ after, r'.index ≠ some i

/-- **The last row of an index wins.**  By induction from the right: the row that was read last is
under its index, and every other entry has been there before, with no row of its index after it. -/
theorem indexRows_last {rows : List Row} (h : ∀ r ∈ rows, r.Orders t) :
    ∀ e ∈ indexRows [] rows, LastUnder rows e.1 e.2 := by
  induction rows using List.reverseRecOn with
  | nil => simp [indexRows]
  | append_singleton rows r ih =>
    have hrows : ∀ r' ∈ rows, r'.Orders t := fun r' hr' => h r' (List.mem_append_left _ hr')
    have hempty : Indexed t [] ([] : Dict Value Row) := ⟨Dict.distinct_nil, by simp, by simp⟩
    have hidx := hempty.rows hrows
    -- a later row under another index, or none, changes nothing
    have hold : ∀ e ∈ indexRows [] rows, r.index ≠ some e.1 → LastUnder (rows ++ [r]) e.1 e.2 := by
      intro e he hne
      obtain ⟨before, after, hsplit, hindex, hafter⟩ := ih hrows e he
      refine ⟨before, after ++ [r], by simp [hsplit], hindex, fun r' hr' => ?_⟩
      rcases List.mem_append.mp hr' with hr' | hr'
      · exact hafter r' hr'
      · rw [List.mem_singleton.mp hr']
        exact hne
    intro e he
    rw [indexRows, List.foldl_append] at he
    cases hr : r.index with
    | none =>
      simp only [List.foldl_cons, List.foldl_nil, hr] at he
      exact hold e he (by simp [hr])
    | some j =>
      simp only [List.foldl_cons, List.foldl_nil, hr] at he
      rcases Dict.mem_of_mem_set Value.eq_of_beq hidx.distinct he with rfl | ⟨he, hne⟩
      · exact ⟨rows, [], by simp, hr, by simp⟩
      · refine hold e he fun heq => ?_
        rw [hr, Option.some.injEq] at heq
        have hj : j.Orders t := h r (by simp) j hr
        rw [← heq, Value.beq_self hj.ne_nan] at hne
        exact absurd hne (by simp)

/-- **The entries by index** are rows in strictly ascending order.

Sorting gives an order that is not strict, and the dictionary has no two equal keys.  Both are
about keys; an entry's row has the entry's key for its index, so they carry over to the rows, and
two ordered indices of one rank are equal. -/
theorem Indexed.ascending {rows : List Row} {d : Dict Value Row} (hd : Indexed t rows d) :
    ((d.insertionSort fun a b => a.1.rank ≤ b.1.rank).map Prod.snd).Pairwise
      fun a b => a.rank < b.rank := by
  set ordered := d.insertionSort fun a b => a.1.rank ≤ b.1.rank with hordered
  have hsorted : ordered.Pairwise fun a b => a.1.rank ≤ b.1.rank := by
    have htot : Std.Total fun a b : Value × Row => a.1.rank ≤ b.1.rank :=
      ⟨fun a b => le_total _ _⟩
    have htrans : IsTrans (Value × Row) fun a b => a.1.rank ≤ b.1.rank :=
      ⟨fun a b c => le_trans⟩
    exact List.pairwise_insertionSort _ _
  have hdist : ordered.Pairwise fun a b => (a.1 == b.1) = false := by
    refine (List.perm_insertionSort _ d).symm.pairwise_iff ?_ |>.mp hd.distinct
    intro a b hab
    by_contra hba
    have := Value.eq_of_beq _ _ (by simpa using hba)
    rw [this] at hab
    rw [this] at hba
    simp [hab] at hba
  rw [List.pairwise_map]
  refine (hsorted.and hdist).imp_of_mem fun {a b} ha hb hab => ?_
  obtain ⟨ha1, ha2, -⟩ := hd.entry a ((List.mem_insertionSort _).mp ha)
  obtain ⟨hb1, hb2, -⟩ := hd.entry b ((List.mem_insertionSort _).mp hb)
  rw [Row.rank_of_index ha1, Row.rank_of_index hb1]
  -- equal ranks would make the keys equal, and the keys are distinct
  refine lt_of_le_of_ne hab.1 fun heq => ?_
  have hab2 := hab.2
  rw [ha2.beq_eq hb2, decide_eq_false_iff_not] at hab2
  exact hab2 heq

/-- Blocks of one log: they agree on everything but the rows. -/
def SameHeader (head : LogDataBlock) (blocks : List LogDataBlock) : Prop :=
  ∀ b ∈ blocks, b.mnemonics = head.mnemonics ∧ b.units = head.units ∧ b.indexType = head.indexType

/-- **The merge of one log's pages**: rows of the pages, one for each index, strictly ascending.

The four parts are what the callers need and no more.  That the header comes back unchanged makes
the next dedupe and the flattening work on the same columns.  The third part says that nothing is
made up, the fourth that no index is lost.  Which of several rows of one index survives is told by
`mergeBlocks_last`; on a store that does not rewrite rows it makes no difference. -/
theorem mergeBlocks_spec {head : LogDataBlock} {blocks : List LogDataBlock} (hne : blocks ≠ [])
    (hhead : SameHeader head blocks) (hord : ∀ b ∈ blocks, ∀ r ∈ b.rows, r.Orders t) :
    ∃ rows, mergeBlocks blocks = .ok { head with rows := rows } ∧
      rows.Pairwise (fun a b => a.rank < b.rank) ∧
      (∀ r ∈ rows, r.index ≠ none ∧ ∃ b ∈ blocks, r ∈ b.rows) ∧
      ∀ b ∈ blocks, ∀ r ∈ b.rows, ∀ i, r.index = some i → ∃ r' ∈ rows, r'.index = some i := by
  cases blocks with
  | nil => exact absurd rfl hne
  | cons first rest =>
    have hempty : Indexed t [] ([] : Dict Value Row) :=
      ⟨Dict.distinct_nil, by simp, by simp⟩
    have hidx := hempty.blocks hord
    simp only [List.nil_append] at hidx
    set d := (first :: rest).foldl (fun d b => indexRows d b.rows) ([] : Dict Value Row) with hd
    have hsort := sortedEntries_eq (d := d) (fun e he => (hidx.entry e he).2.1) false
    set ordered := d.insertionSort fun a b =>
      if false = true then b.1.rank ≤ a.1.rank else a.1.rank ≤ b.1.rank with hordered
    have hmem : ∀ e, e ∈ ordered ↔ e ∈ d := fun e => List.mem_insertionSort _
    -- the block that gives the header is one of the blocks, so that no other disagrees with it
    obtain ⟨hfirst, hrun⟩ : (∃ h ∈ first :: rest,
        ((first :: rest).find? fun b => b.mnemonics ≠ []).getD first = h) ∧
        ¬((first :: rest).any fun b => b.mnemonics ≠ [] ∧
          b.mnemonics ≠ (((first :: rest).find? fun b => b.mnemonics ≠ []).getD first).mnemonics)
          = true := by
      have hin : ((first :: rest).find? fun b => b.mnemonics ≠ []).getD first ∈ first :: rest := by
        cases hf : (first :: rest).find? fun b => b.mnemonics ≠ [] with
        | none => exact List.mem_cons_self
        | some b => exact List.mem_of_find?_eq_some hf
      refine ⟨⟨_, hin, rfl⟩, ?_⟩
      simp only [List.any_eq_true, decide_eq_true_eq, not_exists, not_and, not_not]
      intro b hb _
      rw [(hhead b hb).1, (hhead _ hin).1]
    obtain ⟨h, hh, hhd⟩ := hfirst
    refine ⟨ordered.map Prod.snd, ?_, ?_, ?_, ?_⟩
    · obtain ⟨h1, h2, h3⟩ := hhead h hh
      simp only [mergeBlocks]
      rw [if_neg hrun, ← hd, hsort, hhd]
      simp only [bind, Except.bind]
      rw [h1, h2, h3]
    · simpa [hordered] using hidx.ascending
    · intro r hr
      obtain ⟨e, he, rfl⟩ := List.mem_map.mp hr
      obtain ⟨h1, -, h3⟩ := hidx.entry e ((hmem e).mp he)
      obtain ⟨b, hb, hbr⟩ := List.mem_flatMap.mp h3
      exact ⟨by simp [h1], b, hb, hbr⟩
    · intro b hb r hr i hi
      obtain ⟨e, he, rfl⟩ := hidx.covered r (List.mem_flatMap.mpr ⟨b, hb, hr⟩) i hi
      exact ⟨e.2, List.mem_map.mpr ⟨e, (hmem e).mpr he, rfl⟩, (hidx.entry e he).1⟩

/-- The pages are read as if they were one. -/
theorem foldl_indexRows (blocks : List LogDataBlock) (d : Dict Value Row) :
    blocks.foldl (fun d b => indexRows d b.rows) d =
      indexRows d (blocks.flatMap LogDataBlock.rows) := by
  induction blocks generalizing d with
  | nil => rfl
  | cons b blocks ih =>
    rw [List.foldl_cons, ih, List.flatMap_cons, indexRows, indexRows, indexRows, List.foldl_append]

/-- A merged row is the last of its index in the pages.  This is the half of the merge that matters
where a store rewrites a row between two pages: the later page has the newer cells, and these are
what is handed on. -/
theorem mergeBlocks_last {blocks : List LogDataBlock} {merged : LogDataBlock}
    (h : mergeBlocks blocks = .ok merged) (hord : ∀ b ∈ blocks, ∀ r ∈ b.rows, r.Orders t) :
    ∀ r ∈ merged.rows, ∃ i, i.Orders t ∧ LastUnder (blocks.flatMap LogDataBlock.rows) i r := by
  have hempty : Indexed t [] ([] : Dict Value Row) := ⟨Dict.distinct_nil, by simp, by simp⟩
  have hidx := hempty.blocks hord
  cases blocks with
  | nil => simp [mergeBlocks] at h
  | cons first rest =>
    simp only [mergeBlocks] at h
    split at h
    · simp at h
    · obtain ⟨ordered, hsort, heq⟩ := bind_eq_ok.mp h
      rw [sortedEntries_eq (fun e he => (hidx.entry e he).2.1)] at hsort
      obtain rfl := Except.ok.inj hsort
      obtain rfl := Except.ok.inj heq
      intro r hr
      obtain ⟨e, he, rfl⟩ := List.mem_map.mp hr
      have he := (List.mem_insertionSort _).mp he
      have hrows : ∀ r ∈ (first :: rest).flatMap LogDataBlock.rows, r.Orders t := by
        intro r hr
        obtain ⟨b, hb, hr⟩ := List.mem_flatMap.mp hr
        exact hord b hb r hr
      exact ⟨e.1, (hidx.entry e he).2.1, indexRows_last hrows e (foldl_indexRows _ _ ▸ he)⟩

/-- Merged rows are strictly ascending.  Unlike in `mergeBlocks_spec` the blocks may have any
headers here, as long as the merge succeeds. -/
theorem mergeBlocks_ascending {blocks : List LogDataBlock} {merged : LogDataBlock}
    (h : mergeBlocks blocks = .ok merged) (hord : ∀ b ∈ blocks, ∀ r ∈ b.rows, r.Orders t) :
    merged.rows.Pairwise fun a b => a.rank < b.rank := by
  have hempty : Indexed t [] ([] : Dict Value Row) := ⟨Dict.distinct_nil, by simp, by simp⟩
  have hidx := hempty.blocks hord
  cases blocks with
  | nil => simp [mergeBlocks] at h
  | cons first rest =>
    simp only [mergeBlocks] at h
    split at h
    · simp at h
    · obtain ⟨ordered, hsort, heq⟩ := bind_eq_ok.mp h
      rw [sortedEntries_eq (fun e he => (hidx.entry e he).2.1)] at hsort
      obtain rfl := Except.ok.inj hsort
      obtain rfl := Except.ok.inj heq
      simpa using hidx.ascending

/-- The samples of a row that needs no validation. -/
def LogDataBlock.samplesOf (b : LogDataBlock) (r : Row) : List CurveSample :=
  match r.index with
  | none => []
  | some i => b.samplesAt i r

/-- **The samples of rows whose index is no text**, row by row.  Building a `CurveSample` validates
its index, and only a text is changed or refused by that; a number or an instant passes as it is.
So flattening cannot raise here, and a caller may reason about one row at a time. -/
theorem samples_eq_of_no_text (cfg : Settings)
    (h : ∀ r ∈ block.rows, ∀ s, r.index ≠ some (.text s)) :
    block.samples cfg = .ok (block.rows.flatMap block.samplesOf) := by
  have hrow : ∀ r ∈ block.rows, block.rowSamples cfg r = .ok (block.samplesOf r) := by
    intro r hr
    rw [LogDataBlock.rowSamples, LogDataBlock.samplesOf]
    cases hi : r.index with
    | none => rfl
    | some i =>
      dsimp only
      split
      · rename_i hnil
        rw [hnil]
      · have hsame : cfg.sampleIndex i = .ok i := by
          cases i with
          | num y => rfl
          | text w => exact absurd hi (h r hr w)
          | dt d => rfl
        rw [hsame]
        rfl
  rw [LogDataBlock.samples, mapM_eq_ok hrow, List.flatMap_def]
  rfl

/-- **The samples of ordered rows**, row by row. -/
theorem samples_eq (cfg : Settings) (h : ∀ r ∈ block.rows, r.Orders t) :
    block.samples cfg = .ok (block.rows.flatMap block.samplesOf) :=
  samples_eq_of_no_text cfg fun r hr _ hs => h r hr _ hs

/-- A sample has the index of its row.  All statements about which samples are handed on come down
to statements about rows by this. -/
theorem index_of_mem_samplesOf {r : Row} {x : CurveSample} (hx : x ∈ block.samplesOf r) :
    r.index = some x.index := by
  rw [LogDataBlock.samplesOf] at hx
  cases hi : r.index with
  | none =>
    rw [hi] at hx
    exact absurd hx List.not_mem_nil
  | some i =>
    rw [hi] at hx
    obtain ⟨⟨mnem, col⟩, -, hcell⟩ := List.mem_filterMap.mp hx
    obtain ⟨reading, -, rfl⟩ := Option.map_eq_some_iff.mp hcell
    cases reading <;> rfl

end Ordered

end WitsmlViewer

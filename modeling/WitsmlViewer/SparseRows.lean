/-
# Sparse rows (`app.witsml.parse.merge_sparse_rows`)

A request for the latest values answers with sparse rows: one curve in each, and one row for each
curve of an index.  `merge_sparse_rows` writes them over each other into one dense row for each
index.

`merge_sparse_rows_law`: the cell of a column is the last one that is not null among the rows of
its index (`lastCell`); merging again changes nothing; and where no cell is written twice, the
order of the rows does not matter.  A row keeps its index even if the block has no mnemonics.

The closed form carries the other two.  A dense block is determined by its last cells
(`Densifies.eq_of_lastCell`), so to show that two merges agree it is enough to compare these, and a
dense row is its own last row.

Indices must be such as can be sorted, since the source sorts them, and `nan` is left out, as it
would be an index of its own each time it occurs.
-/
import WitsmlViewer.Merging

namespace WitsmlViewer

open Py

/-! ## 1. The merge

Cells are values of any kind here, as the function does not look at them; that the first one is the
index is all it knows of a row. -/

/-- A row as the merge reads it: cells of any kind, the first of them the index. -/
abbrev CellRow := List (Option Value)

/-- `LogDataBlock`, with such rows. -/
structure CellBlock where
  mnemonics : List Str
  units : List (Option Str)
  indexType : IndexType
  rows : List CellRow
deriving DecidableEq

namespace CellRow

/-- The first cell, if there is one. -/
def index (row : CellRow) : Option Value := row.head?.join

/-- A cell that is there and not null. -/
def cell (row : CellRow) (col : ℕ) : Option Value := (row[col]?).join

/-- The loop over the columns: `dense[col] = row[col]`, where the row has a value. -/
def fill (row : CellRow) (columns : List ℕ) (dense : CellRow) : CellRow :=
  columns.foldl (fun dense col =>
    match row.cell col with
    | some v => dense.set col (some v)
    | none => dense) dense

end CellRow

/-- One row of the loop; `row[0]` of an empty row raises. -/
def mergeRow (width : ℕ) (byIndex : Dict Value CellRow) (row : CellRow) :
    Except PyError (Dict Value CellRow) :=
  match row with
  | [] => .error .indexError
  | none :: _ => .ok byIndex
  | some idx :: _ =>
    let dense := (byIndex.get? idx).getD (some idx :: List.replicate (width - 1) none)
    .ok (byIndex.set idx (row.fill (List.range' 1 (width - 1)) dense))

/-- `merge_sparse_rows`. -/
def mergeSparseRows (block : CellBlock) : Except PyError CellBlock := do
  let byIndex ← block.rows.foldlM (mergeRow block.mnemonics.length) []
  let ordered ← sortedEntries false byIndex
  return { block with rows := ordered.map Prod.snd }

/-! ## 2. What a dense row is

The specification, in the rows alone.  `cellsAt` is what has been written to a place in the order
of the rows, and of this the last counts. -/

section Dense

variable {rows rows' : List CellRow} {row : CellRow} {k : Value} {col width : ℕ}

/-- The non-null cells of a column in the rows with an index. -/
def cellsAt (rows : List CellRow) (k : Value) (col : ℕ) : List Value :=
  (rows.filter fun row => row.index = some k).filterMap fun row => row.cell col

/-- **The last of them.** -/
def lastCell (rows : List CellRow) (k : Value) (col : ℕ) : Option Value :=
  (cellsAt rows k col).getLast?

/-- The dense row of an index: the last cell in each column.  There is always an index column. -/
def denseRow (width : ℕ) (rows : List CellRow) (k : Value) : CellRow :=
  (List.range (max 1 width)).map (lastCell rows k)

theorem cellsAt_append : cellsAt (rows ++ rows') k col =
    cellsAt rows k col ++ cellsAt rows' k col := by
  rw [cellsAt, List.filter_append, List.filterMap_append]
  rfl

/-- A row writes over what was there, where it has a value. -/
theorem lastCell_append_self (h : row.index = some k) :
    lastCell (rows ++ [row]) k col = (row.cell col).or (lastCell rows k col) := by
  have hone : cellsAt [row] k col = (row.cell col).toList := by
    simp only [cellsAt, h, List.filter_cons, decide_true, if_true, List.filter_nil]
    cases hcell : row.cell col <;> simp [hcell]
  rw [lastCell, cellsAt_append, hone, List.getLast?_append, lastCell]
  cases row.cell col <;> rfl

theorem lastCell_append_other (h : row.index ≠ some k) :
    lastCell (rows ++ [row]) k col = lastCell rows k col := by
  have hnone : cellsAt [row] k col = [] := by simp [cellsAt, h]
  rw [lastCell, cellsAt_append, hnone, List.append_nil]
  rfl

/-- The first column has the index. -/
theorem lastCell_zero (hrow : row ∈ rows) (hk : row.index = some k) :
    lastCell rows k 0 = some k := by
  have hcell : ∀ row : CellRow, row.cell 0 = row.index := by
    intro row
    cases row <;> rfl
  have hall : ∀ v ∈ cellsAt rows k 0, v = k := by
    intro v hv
    obtain ⟨row', hrow', hv⟩ := List.mem_filterMap.mp hv
    have hk' : row'.index = some k := by simpa using (List.mem_filter.mp hrow').2
    rw [hcell, hk'] at hv
    exact (Option.some.inj hv).symm
  have hmem : k ∈ cellsAt rows k 0 := by
    refine List.mem_filterMap.mpr ⟨row, List.mem_filter.mpr ⟨hrow, by simpa using hk⟩, ?_⟩
    rw [hcell, hk]
  rw [lastCell, List.getLast?_eq_some_getLast (List.ne_nil_of_mem hmem)]
  exact congrArg some (hall _ (List.getLast_mem _))

/-- An index that no row has is written nowhere. -/
theorem lastCell_none (h : ∀ row ∈ rows, row.index ≠ some k) : lastCell rows k col = none := by
  have hnil : rows.filter (fun row => row.index = some k) = [] :=
    List.filter_eq_nil_iff.mpr fun row hrow => by simpa using h row hrow
  rw [lastCell, cellsAt, hnil]
  rfl

/-- A dense row is as wide as the mnemonic list, and has its index in any case. -/
@[simp] theorem length_denseRow : (denseRow width rows k).length = max 1 width := by
  simp [denseRow]

theorem getElem?_denseRow :
    (denseRow width rows k)[col]? = if col < max 1 width then some (lastCell rows k col) else none := by
  rw [denseRow, List.getElem?_map]
  split
  · rename_i h
    rw [List.getElem?_range h]
    rfl
  · rename_i h
    have hlen : (List.range (max 1 width)).length ≤ col := by
      rw [List.length_range]
      omega
    rw [List.getElem?_eq_none hlen]
    rfl

theorem index_denseRow (hrow : row ∈ rows) (hk : row.index = some k) :
    (denseRow width rows k).index = some k := by
  have hpos : 0 < max 1 width := by omega
  rw [CellRow.index, List.head?_eq_getElem?, getElem?_denseRow, if_pos hpos,
    lastCell_zero hrow hk]
  rfl

/-! ## 3. One row

The loop keeps a dictionary from indices to rows.  After some rows it holds the dense row of each
index that they have, and nothing else; that is `Densified`, and one more row keeps it. -/

/-- **Filling a dense row** writes the row's values over it. -/
theorem CellRow.getElem?_fill (row : CellRow) (columns : List ℕ) (dense : CellRow) (col : ℕ) :
    (row.fill columns dense)[col]? =
      (dense[col]?).map fun cell => if col ∈ columns then (row.cell col).or cell else cell := by
  induction columns generalizing dense with
  | nil => simp [fill]
  | cons c columns ih =>
    rw [fill, List.foldl_cons, ← fill, ih]
    by_cases hc : c = col
    · subst hc
      cases hcell : row.cell c with
      | none => simp
      | some v =>
        rw [List.getElem?_set_self']
        cases dense[c]? <;> simp
    · have hmem : col ∈ c :: columns ↔ col ∈ columns := by simp [Ne.symm hc]
      cases hcell : row.cell c with
      | none => simp only [hmem]
      | some v => simp only [hmem, List.getElem?_set_ne hc]

/-- What the loop has made of some rows: the dense row of each index. -/
structure Densified (width : ℕ) (rows : List CellRow) (d : Dict Value CellRow) : Prop where
  distinct : Dict.Distinct d
  mem : ∀ k r, (k, r) ∈ d ↔ (∃ row ∈ rows, row.index = some k) ∧ r = denseRow width rows k

theorem Densified.nil : Densified width [] [] :=
  ⟨Dict.distinct_nil, fun k r => by simp⟩

/-- A row leaves the dense rows of other indices alone. -/
theorem denseRow_append_other (h : row.index ≠ some k) :
    denseRow width (rows ++ [row]) k = denseRow width rows k :=
  List.map_congr_left fun _ _ => lastCell_append_other h

/-- What the loop starts from for an index that it has not seen. -/
theorem denseRow_none (h : ∀ row ∈ rows, row.index ≠ some k) :
    (some k :: List.replicate (width - 1) none : CellRow)[col]? =
      if col < max 1 width then some (if col = 0 then some k else lastCell rows k col) else none := by
  cases col with
  | zero => simp
  | succ col =>
    rw [List.getElem?_cons_succ, List.getElem?_replicate, lastCell_none h]
    have hlt : col < width - 1 ↔ col + 1 < max 1 width := by omega
    simp only [hlt, Nat.add_one_ne_zero, if_false]

/-- **The row of an index after one more row.** -/
theorem fill_dense (hk : row.index = some k) {dense : CellRow}
    (hdense : ∀ col, dense[col]? = if col < max 1 width then
      some (if col = 0 then some k else lastCell rows k col) else none) :
    row.fill (List.range' 1 (width - 1)) dense = denseRow width (rows ++ [row]) k := by
  refine List.ext_getElem? fun col => ?_
  rw [CellRow.getElem?_fill, hdense, getElem?_denseRow]
  by_cases hcol : col < max 1 width
  · rw [if_pos hcol, if_pos hcol, Option.map_some]
    have hrange : col ∈ List.range' 1 (width - 1) ↔ col ≠ 0 := by
      rw [List.mem_range'_1]
      omega
    by_cases hzero : col = 0
    · subst hzero
      have hlast : lastCell (rows ++ [row]) k 0 = some k :=
        lastCell_zero (List.mem_append_right _ (List.mem_singleton_self row)) hk
      rw [if_neg (fun h => hrange.mp h rfl), if_pos rfl, hlast]
    · rw [if_pos (hrange.mpr hzero), if_neg hzero, lastCell_append_self hk]
  · rw [if_neg hcol, if_neg hcol, Option.map_none]

/-- **One step of the loop** keeps what it has made of the rows so far. -/
theorem Densified.mergeRow {d : Dict Value CellRow} (h : Densified width rows d) (hne : row ≠ [])
    (hnan : ∀ k, row.index = some k → k ≠ .num .nan) :
    ∃ d', mergeRow width d row = .ok d' ∧ Densified width (rows ++ [row]) d' := by
  have hold : ∀ j, row.index ≠ some j →
      ((∃ row' ∈ rows ++ [row], row'.index = some j) ↔ ∃ row' ∈ rows, row'.index = some j) := by
    intro j hj
    constructor
    · rintro ⟨row', hrow', hindex⟩
      rcases List.mem_append.mp hrow' with hrow' | hrow'
      · exact ⟨row', hrow', hindex⟩
      · obtain rfl := List.mem_singleton.mp hrow'
        exact absurd hindex hj
    · rintro ⟨row', hrow', hindex⟩
      exact ⟨row', List.mem_append_left _ hrow', hindex⟩
  cases row with
  | nil => exact absurd rfl hne
  | cons head rest =>
    cases head with
    | none =>
      have hindex : CellRow.index (none :: rest) = none := rfl
      refine ⟨d, rfl, h.distinct, fun j r => ?_⟩
      have hj : CellRow.index (none :: rest) ≠ some j := by rw [hindex]; exact nofun
      rw [h.mem, hold j hj, denseRow_append_other hj]
    | some k =>
      have hk : CellRow.index (some k :: rest) = some k := rfl
      have hself : (k == k) = true := Value.beq_self (hnan k hk)
      have hdense : ∀ col, ((Dict.get? d k).getD (some k :: List.replicate (width - 1) none))[col]? =
          if col < max 1 width then some (if col = 0 then some k else lastCell rows k col)
          else none := by
        intro col
        by_cases hseen : ∃ row ∈ rows, row.index = some k
        · have hget := Dict.get?_of_mem Value.eq_of_beq hself h.distinct
            ((h.mem k _).mpr ⟨hseen, rfl⟩)
          obtain ⟨row, hrow, hindex⟩ := hseen
          rw [hget, Option.getD_some, getElem?_denseRow]
          by_cases hzero : col = 0
          · rw [hzero, if_pos rfl, lastCell_zero hrow hindex]
          · rw [if_neg hzero]
        · have hget : Dict.get? d k = none := by
            refine Option.eq_none_iff_forall_ne_some.mpr fun r hr => ?_
            exact hseen ((h.mem k r).mp (Dict.get?_mem Value.eq_of_beq hr)).1
          rw [hget, Option.getD_none]
          exact denseRow_none fun row hrow hindex => hseen ⟨row, hrow, hindex⟩
      refine ⟨d.set k (denseRow width (rows ++ [some k :: rest]) k), ?_,
        Dict.distinct_set h.distinct, fun j r => ?_⟩
      · rw [← fill_dense hk hdense]
        rfl
      by_cases hj : j = k
      · subst hj
        have hseen : ∃ row' ∈ rows ++ [some j :: rest], CellRow.index row' = some j :=
          ⟨some j :: rest, by simp, rfl⟩
        constructor
        · intro hmem
          rcases Dict.mem_of_mem_set Value.eq_of_beq h.distinct hmem with heq | ⟨-, hne⟩
          · exact ⟨hseen, (Prod.mk.inj heq).2⟩
          · rw [hself] at hne
            cases hne
        · rintro ⟨-, rfl⟩
          exact Dict.mem_set_self Value.eq_of_beq j _ d
      · have hother : CellRow.index (some k :: rest) ≠ some j := by
          rw [hk]
          exact fun heq => hj (Option.some.inj heq).symm
        rw [hold j hother, denseRow_append_other hother, ← h.mem]
        constructor
        · intro hmem
          rcases Dict.mem_of_mem_set Value.eq_of_beq h.distinct hmem with heq | ⟨hmem, -⟩
          · exact absurd (Prod.mk.inj heq).1 hj
          · exact hmem
        · intro hmem
          refine Dict.mem_set_of_ne hmem ?_
          rw [Bool.eq_false_iff]
          exact fun hbeq => hj (Value.eq_of_beq _ _ hbeq)

end Dense

/-! ## 4. The dense block

The values of the dictionary are sorted by their first cells.  Distinct indices that can be sorted
are strictly ascending afterwards, and so the block has one row for each. -/

/-- Rows whose indices can be sorted: any two are comparable, and none is `nan`. -/
def MutualIndices (rows : List CellRow) : Prop :=
  ∀ i ∈ rows.filterMap CellRow.index, ∀ j ∈ rows.filterMap CellRow.index,
    i.comparable j = true ∧ i ≠ .num .nan

instance (rows : List CellRow) : Decidable (MutualIndices rows) :=
  inferInstanceAs (Decidable (∀ i ∈ rows.filterMap CellRow.index,
    ∀ j ∈ rows.filterMap CellRow.index, _))

/-- No cell of a data column is written twice for an index. -/
def SingleWrites (width : ℕ) (rows : List CellRow) : Prop :=
  rows.Pairwise fun a b => ∀ k col, 1 ≤ col → col < width → a.index = some k → b.index = some k →
    a.cell col = none ∨ b.cell col = none

/-- A block with one row for each index, strictly ascending, as wide as the mnemonic list but never
without the index, whose cells are the last ones. -/
structure Densifies (block out : CellBlock) : Prop where
  head : { out with rows := [] } = { block with rows := [] }
  ascending : out.rows.Pairwise fun a b => ∃ i j, a.index = some i ∧ b.index = some j ∧ i.Below j
  indices : ∀ k, (∃ r ∈ out.rows, r.index = some k) ↔ ∃ row ∈ block.rows, row.index = some k
  width : ∀ r ∈ out.rows, r.length = max 1 block.mnemonics.length
  cells : ∀ r ∈ out.rows, ∃ k, r.index = some k ∧
    ∀ col < r.length, r[col]? = some (lastCell block.rows k col)

section Law

variable {block block' out out' : CellBlock} {rows : List CellRow} {k : Value}

theorem MutualIndices.pair (h : MutualIndices rows) {a b : CellRow} (ha : a ∈ rows) (hb : b ∈ rows)
    {i j : Value} (hi : a.index = some i) (hj : b.index = some j) :
    i.comparable j = true ∧ i ≠ .num .nan :=
  h i (List.mem_filterMap.mpr ⟨a, ha, hi⟩) j (List.mem_filterMap.mpr ⟨b, hb, hj⟩)

/-- **The loop over the rows** succeeds. -/
theorem foldlM_mergeRow (width : ℕ) (hne : ∀ row ∈ rows, row ≠ []) (hmutual : MutualIndices rows) :
    ∃ d, rows.foldlM (mergeRow width) [] = .ok d ∧ Densified width rows d := by
  have hnan : ∀ row ∈ rows, ∀ k, row.index = some k → k ≠ .num .nan :=
    fun row hrow k hk => (hmutual.pair hrow hrow hk hk).2
  clear hmutual
  induction rows using List.reverseRecOn with
  | nil => exact ⟨[], rfl, .nil⟩
  | append_singleton rows row ih =>
    obtain ⟨d, hd, hdense⟩ := ih (fun r hr => hne r (List.mem_append_left _ hr))
      (fun r hr => hnan r (List.mem_append_left _ hr))
    obtain ⟨d', hd', hdense'⟩ := hdense.mergeRow (hne row (by simp)) (hnan row (by simp))
    have hone : [row].foldlM (mergeRow width) d = .ok d' := by
      rw [List.foldlM_cons, hd']
      rfl
    refine ⟨d', ?_, hdense'⟩
    rw [List.foldlM_append, hd]
    exact hone

/-- **The merge of a block of sortable rows is its dense block.** -/
theorem densifies_of_merge (hne : ∀ row ∈ block.rows, row ≠ [])
    (hmutual : MutualIndices block.rows) :
    ∃ out, mergeSparseRows block = .ok out ∧ Densifies block out := by
  obtain ⟨d, hd, hdense⟩ := foldlM_mergeRow block.mnemonics.length hne hmutual
  have hentry : ∀ e ∈ d, (∃ row ∈ block.rows, row.index = some e.1) ∧
      e.2 = denseRow block.mnemonics.length block.rows e.1 := fun e he => (hdense.mem e.1 e.2).mp he
  have hindex : ∀ e ∈ d, e.2.index = some e.1 := by
    intro e he
    obtain ⟨⟨row, hrow, hk⟩, hr⟩ := hentry e he
    rw [hr]
    exact index_denseRow hrow hk
  have hpair : ∀ e ∈ d, ∀ e' ∈ d, e.1.comparable e'.1 = true ∧ e.1 ≠ .num .nan := by
    intro e he e' he'
    obtain ⟨⟨row, hrow, hk⟩, -⟩ := hentry e he
    obtain ⟨⟨row', hrow', hk'⟩, -⟩ := hentry e' he'
    exact hmutual.pair hrow hrow' hk hk'
  obtain ⟨ordered, hsort, hperm, hbelow⟩ := sortedEntries_ascending hdense.distinct hpair
  have hmem : ∀ r ∈ ordered.map Prod.snd, ∃ e ∈ d, e.2 = r := by
    intro r hr
    obtain ⟨e, he, rfl⟩ := List.mem_map.mp hr
    exact ⟨e, hperm.mem_iff.mp he, rfl⟩
  refine ⟨{ block with rows := ordered.map Prod.snd }, ?_, rfl, ?_, fun k => ?_, ?_, ?_⟩
  · rw [mergeSparseRows, hd]
    change (do let ordered ← sortedEntries false d; _) = _
    rw [hsort]
    rfl
  · rw [List.pairwise_map]
    refine hbelow.imp_of_mem fun {a b} ha hb hab => ?_
    exact ⟨a.1, b.1, hindex a (hperm.mem_iff.mp ha), hindex b (hperm.mem_iff.mp hb), hab⟩
  · constructor
    · rintro ⟨r, hr, hk⟩
      obtain ⟨e, he, rfl⟩ := hmem r hr
      rw [hindex e he] at hk
      rw [← Option.some.inj hk]
      exact (hentry e he).1
    · rintro ⟨row, hrow, hk⟩
      have he := (hdense.mem k _).mpr ⟨⟨row, hrow, hk⟩, rfl⟩
      exact ⟨_, List.mem_map_of_mem (hperm.mem_iff.mpr he), hindex _ he⟩
  · intro r hr
    obtain ⟨e, he, rfl⟩ := hmem r hr
    rw [(hentry e he).2, length_denseRow]
  · intro r hr
    obtain ⟨e, he, rfl⟩ := hmem r hr
    refine ⟨e.1, hindex e he, fun col hcol => ?_⟩
    rw [(hentry e he).2] at hcol ⊢
    rw [length_denseRow] at hcol
    rw [getElem?_denseRow, if_pos hcol]

/-- A row of a dense block is the dense row of its index. -/
theorem Densifies.eq_denseRow (h : Densifies block out) {r : CellRow} (hr : r ∈ out.rows)
    (hk : r.index = some k) : r = denseRow block.mnemonics.length block.rows k := by
  obtain ⟨k', hk', hcells⟩ := h.cells r hr
  obtain rfl := Option.some.inj (hk.symm.trans hk')
  refine List.ext_getElem? fun col => ?_
  rw [getElem?_denseRow]
  split
  · rename_i hcol
    exact hcells col (by rwa [h.width r hr])
  · rename_i hcol
    have hlen := h.width r hr
    exact List.getElem?_eq_none (by omega)

/-- The rows of a dense block. -/
theorem Densifies.mem_iff (h : Densifies block out) {r : CellRow} : r ∈ out.rows ↔
    ∃ k, (∃ row ∈ block.rows, row.index = some k) ∧
      r = denseRow block.mnemonics.length block.rows k := by
  constructor
  · intro hr
    obtain ⟨k, hk, -⟩ := h.cells r hr
    exact ⟨k, (h.indices k).mp ⟨r, hr, hk⟩, h.eq_denseRow hr hk⟩
  · rintro ⟨k, hseen, rfl⟩
    obtain ⟨r, hr, hk⟩ := (h.indices k).mpr hseen
    rwa [← h.eq_denseRow hr hk]

/-- **There is one dense block** for the same last cells. -/
theorem Densifies.eq_of_lastCell (h : Densifies block out) (h' : Densifies block' out')
    (hhead : { block with rows := [] } = { block' with rows := [] })
    (hseen : ∀ k, (∃ row ∈ block.rows, row.index = some k) ↔
      ∃ row ∈ block'.rows, row.index = some k)
    (hlast : ∀ k, (∃ row ∈ block.rows, row.index = some k) → ∀ col < max 1 block.mnemonics.length,
      lastCell block.rows k col = lastCell block'.rows k col) : out = out' := by
  have hboth : ∀ a b : CellRow, (∃ i j, a.index = some i ∧ b.index = some j ∧ i.Below j) →
      ¬∃ j i, b.index = some j ∧ a.index = some i ∧ j.Below i := by
    rintro a b ⟨i, j, hi, hj, hij⟩ ⟨j', i', hj', hi', hji⟩
    obtain rfl := Option.some.inj (hi.symm.trans hi')
    obtain rfl := Option.some.inj (hj.symm.trans hj')
    exact hij.asymm hji
  have hirrefl : Std.Irrefl fun a b : CellRow =>
      ∃ i j, a.index = some i ∧ b.index = some j ∧ i.Below j := ⟨fun a haa => hboth a a haa haa⟩
  have hantisymm : Std.Antisymm fun a b : CellRow =>
      ∃ i j, a.index = some i ∧ b.index = some j ∧ i.Below j :=
    ⟨fun a b hab hba => absurd hba (hboth a b hab)⟩
  have hwidth : block.mnemonics = block'.mnemonics := (CellBlock.mk.inj hhead).1
  have hrows : out.rows = out'.rows := by
    refine h.ascending.eq_of_mem_iff h'.ascending fun r => ?_
    rw [h.mem_iff, h'.mem_iff]
    refine exists_congr fun k => ?_
    rw [← hseen k, and_congr_right_iff]
    intro hk
    have hdense : denseRow block.mnemonics.length block.rows k =
        denseRow block'.mnemonics.length block'.rows k := by
      rw [denseRow, denseRow, ← hwidth]
      exact List.map_congr_left fun col hcol => hlast k hk col (List.mem_range.mp hcol)
    rw [hdense]
  have hout : ({ out with rows := [] } : CellBlock) = { out' with rows := [] } :=
    h.head.trans (hhead.trans h'.head.symm)
  simp only [CellBlock.mk.injEq, and_true] at hout
  cases out
  cases out'
  simp_all

/-- Each index has one row in a dense block. -/
theorem Densifies.filter_index (h : Densifies block out) {r : CellRow} (hr : r ∈ out.rows)
    (hk : r.index = some k) : out.rows.filter (fun row => row.index = some k) = [r] := by
  have hnodup : out.rows.Nodup := by
    refine h.ascending.imp fun {a b} => ?_
    rintro ⟨i, j, hi, hj, hbelow⟩ rfl
    obtain rfl := Option.some.inj (hi.symm.trans hj)
    exact hbelow.asymm hbelow
  refine List.perm_singleton.mp ((List.perm_ext_iff_of_nodup (hnodup.filter _)
    (List.nodup_singleton r)).mpr fun r' => ?_)
  rw [List.mem_filter, List.mem_singleton, decide_eq_true_eq]
  constructor
  · rintro ⟨hr', hk'⟩
    exact (h.eq_denseRow hr' hk').trans (h.eq_denseRow hr hk).symm
  · rintro rfl
    exact ⟨hr, hk⟩

/-- The last cells of a dense block are those that it was made from. -/
theorem Densifies.lastCell_eq (h : Densifies block out)
    (hseen : ∃ row ∈ block.rows, row.index = some k) {col : ℕ}
    (hcol : col < max 1 block.mnemonics.length) :
    lastCell block.rows k col = lastCell out.rows k col := by
  obtain ⟨r, hr, hk⟩ := (h.indices k).mpr hseen
  have hcell : r.cell col = lastCell block.rows k col := by
    rw [CellRow.cell, h.eq_denseRow hr hk, getElem?_denseRow, if_pos hcol]
    rfl
  rw [← hcell, lastCell, cellsAt, h.filter_index hr hk]
  cases hc : r.cell col <;> simp [hc]

/-- **A dense block is its own dense block.** -/
theorem Densifies.merge_self (h : Densifies block out) (hmutual : MutualIndices block.rows) :
    mergeSparseRows out = .ok out := by
  have hne : ∀ row ∈ out.rows, row ≠ [] := by
    rintro row hrow rfl
    have hlen := h.width [] hrow
    rw [List.length_nil] at hlen
    omega
  have hindex : ∀ i ∈ out.rows.filterMap CellRow.index, i ∈ block.rows.filterMap CellRow.index := by
    intro i hi
    obtain ⟨r, hr, hk⟩ := List.mem_filterMap.mp hi
    obtain ⟨row, hrow, hk⟩ := (h.indices i).mp ⟨r, hr, hk⟩
    exact List.mem_filterMap.mpr ⟨row, hrow, hk⟩
  obtain ⟨out', hrun, h'⟩ := densifies_of_merge hne
    fun i hi j hj => hmutual i (hindex i hi) j (hindex j hj)
  have heq : out = out' := h.eq_of_lastCell h' h.head.symm (fun k => (h.indices k).symm)
    fun k hseen col hcol => h.lastCell_eq hseen hcol
  rw [hrun, heq]

/-- Where no cell is written twice, a column has at most one cell for an index. -/
theorem SingleWrites.length_cellsAt {width : ℕ} (h : SingleWrites width rows) {col : ℕ}
    (hpos : 1 ≤ col) (hcol : col < width) : (cellsAt rows k col).length ≤ 1 := by
  have hpair : (cellsAt rows k col).Pairwise fun _ _ => False := by
    rw [cellsAt, List.pairwise_filterMap]
    refine (h.filter _).imp_of_mem fun {a b} ha hb hab v hv w hw => ?_
    have hak : a.index = some k := by simpa using (List.mem_filter.mp ha).2
    have hbk : b.index = some k := by simpa using (List.mem_filter.mp hb).2
    rcases hab k col hpos hcol hak hbk with hnone | hnone
    · rw [hnone] at hv
      cases hv
    · rw [hnone] at hw
      cases hw
  match hlist : cellsAt rows k col with
  | [] => exact Nat.zero_le 1
  | [_] => exact le_rfl
  | v :: w :: rest =>
    rw [hlist] at hpair
    exact (List.rel_of_pairwise_cons hpair List.mem_cons_self).elim

/-- **Without double writes the order of the rows does not matter.** -/
theorem Densifies.of_perm (h : Densifies block out) (hne : ∀ row ∈ block.rows, row ≠ [])
    (hmutual : MutualIndices block.rows) (hsingle : SingleWrites block.mnemonics.length block.rows)
    (hperm : rows.Perm block.rows) : mergeSparseRows { block with rows := rows } = .ok out := by
  have hindex : ∀ i ∈ rows.filterMap CellRow.index, i ∈ block.rows.filterMap CellRow.index :=
    fun i hi => (hperm.filterMap _).mem_iff.mp hi
  have hne' : ∀ row ∈ rows, row ≠ [] := fun row hrow => hne row (hperm.mem_iff.mp hrow)
  have hmutual' : MutualIndices rows :=
    fun i hi j hj => hmutual i (hindex i hi) j (hindex j hj)
  obtain ⟨out', hrun, h'⟩ : ∃ out', mergeSparseRows { block with rows := rows } = .ok out' ∧
      Densifies { block with rows := rows } out' := densifies_of_merge hne' hmutual'
  have hseen : ∀ k, (∃ row ∈ block.rows, row.index = some k) ↔ ∃ row ∈ rows, row.index = some k :=
    fun k => exists_congr fun row => and_congr_left fun _ => hperm.mem_iff.symm
  have heq : out = out' := by
    refine h.eq_of_lastCell h' rfl hseen fun k hk col hcol => ?_
    by_cases hzero : col = 0
    · subst hzero
      obtain ⟨row, hrow, hindex⟩ := hk
      rw [lastCell_zero hrow hindex, lastCell_zero (hperm.mem_iff.mpr hrow) hindex]
    · have hcells : (cellsAt rows k col).Perm (cellsAt block.rows k col) :=
        (hperm.filter _).filterMap _
      have hlen : (cellsAt block.rows k col).length ≤ 1 :=
        hsingle.length_cellsAt (by omega) (by omega)
      have hsame : cellsAt rows k col = cellsAt block.rows k col := by
        match hlist : cellsAt block.rows k col with
        | [] => exact (hlist ▸ hcells).eq_nil
        | [_] => exact List.perm_singleton.mp (hlist ▸ hcells)
        | v :: w :: rest => rw [hlist] at hlen; simp at hlen
      rw [lastCell, lastCell, hsame]
  rw [hrun, heq]

/-- **A merge of sparse rows** makes the dense block, merging that changes nothing, and where no
cell is written twice the rows may come in any order.

Cells that are written twice are not excluded from the first two laws.  For them the later row
wins, so the order matters to them and to nothing else. -/
theorem merge_sparse_rows_law (block : CellBlock) (hne : ∀ row ∈ block.rows, row ≠ [])
    (hmutual : MutualIndices block.rows) :
    ∃ out, mergeSparseRows block = .ok out ∧ Densifies block out ∧
      mergeSparseRows out = .ok out ∧
      (SingleWrites block.mnemonics.length block.rows → ∀ rows : List CellRow,
        rows.Perm block.rows → mergeSparseRows { block with rows := rows } = .ok out) := by
  obtain ⟨out, hrun, h⟩ := densifies_of_merge hne hmutual
  exact ⟨out, hrun, h, h.merge_self hmutual,
    fun hsingle rows hperm => h.of_perm hne hmutual hsingle hperm⟩

end Law

/-- Two sparse rows of one index, one curve in each. -/
def sparseLatest : CellBlock where
  mnemonics := ["DEPT".toList, "GR".toList, "RHOB".toList]
  units := [none, none, none]
  indexType := .measuredDepth
  rows := [[some (.num (.ofRatio 2501 1)), some (.num (.ofRatio 448 10)), none],
    [some (.num (.ofRatio 2501 1)), none, some (.num (.ofRatio 23 10))]]

/-- Both curves end up in one row, in either order. -/
theorem merge_sparse_rows_latest : ∃ out, mergeSparseRows sparseLatest = .ok out ∧
    Densifies sparseLatest out ∧ mergeSparseRows out = .ok out ∧
      mergeSparseRows { sparseLatest with rows := sparseLatest.rows.reverse } = .ok out := by
  obtain ⟨out, hrun, h, hself, hperm⟩ := merge_sparse_rows_law sparseLatest
    (by decide) (by decide +kernel)
  refine ⟨out, hrun, h, hself, hperm ?_ _ (List.reverse_perm _)⟩
  refine List.pairwise_pair.mpr fun k col hpos hcol _ _ => ?_
  have hcases : col = 1 ∨ col = 2 := by
    have hwidth : sparseLatest.mnemonics.length = 3 := rfl
    omega
  rcases hcases with rfl | rfl
  · exact Or.inr rfl
  · exact Or.inl rfl

/-- **Without mnemonics a row still has its index**, and is wider than the mnemonic list. -/
theorem sparse_index_kept : ∃ out r, mergeSparseRows ⟨[], [], .measuredDepth,
    [[some (.num (.ofRatio 1 1))]]⟩ = .ok out ∧ r ∈ out.rows ∧ r.length ≠ out.mnemonics.length := by
  refine ⟨⟨[], [], .measuredDepth, [[some (.num (.ofRatio 1 1))]]⟩,
    [some (.num (.ofRatio 1 1))], ?_, List.mem_cons_self, by decide⟩
  rfl

end WitsmlViewer

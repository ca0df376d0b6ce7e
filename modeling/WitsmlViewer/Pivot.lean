/-
# The exported sheet (`app.export.excel.assemble_rows`)

The samples of the present curves are entered under their indices, the indices are sorted by their
time stamps, and each row starts with its index under the sheet's label before the cells of the
curves are written over it.

`faithful_pivot_iff`: the sheet is a faithful pivot exactly if no present curve has the label as
its mnemonic (or that curve repeats the index everywhere), and no two instants that one float
stands for are met in descending order.

The first part of the condition is about columns, the second about rows.  A row is a dictionary,
and the label is a key like the mnemonics, so a curve of that name writes its values where the
index was.  And rows are sorted by `timestamp()`, a float, which has fewer values than there are
microseconds; between indices that it cannot tell apart the sort leaves the order in which they
were entered.

The curves need not be aligned, and the label may be any text.  In the one caller it is `Depth` or
`Time`, and a curve of that name is not refused.
-/
import WitsmlViewer.Lib.LastWins
import WitsmlViewer.Export

namespace WitsmlViewer

open Py LastWins

/-! ## 1. A stable sort by a coarser key

A fact about stable sorts, for any order and any key that is coarser than it. -/

section Stable

variable {α κ : Type} [LinearOrder κ] {f : α → κ} {l : List α}

/-- Two different elements stand in one order. -/
theorem pair_sublist_or_swap {a b : α} (ha : a ∈ l) (hb : b ∈ l) (hne : a ≠ b) :
    [a, b].Sublist l ∨ [b, a].Sublist l := by
  obtain ⟨pre, post, rfl⟩ := List.append_of_mem ha
  rcases List.mem_append.mp hb with hb | hb
  · exact Or.inr ((List.singleton_sublist.mpr hb).append
      (List.singleton_sublist.mpr List.mem_cons_self))
  · have hb : b ∈ post := (List.mem_cons.mp hb).resolve_left fun h => hne h.symm
    exact Or.inl (((List.singleton_sublist.mpr hb).cons_cons a).trans
      (List.sublist_append_right _ _))

theorem not_swap_of_nodup (hnodup : l.Nodup) {a b : α} (h : [a, b].Sublist l) :
    ¬[b, a].Sublist l := by
  induction l with
  | nil => exact fun _ => by cases h
  | cons c l ih =>
    obtain ⟨hc, hnodup⟩ := List.nodup_cons.mp hnodup
    intro h'
    cases h with
    | cons _ h =>
      cases h' with
      | cons _ h' => exact ih hnodup h h'
      | cons_cons _ h' => exact hc (h.subset (by simp))
    | cons_cons _ h =>
      cases h' with
      | cons _ h' => exact hc (h'.subset (by simp))
      | cons_cons _ h' => exact hc (List.singleton_sublist.mp h)

/-- **A stable sort by a key ascends in a finer order exactly if** elements with one key come in
this order.  Elements with different keys are put in order by the sort; those with one key stay as
they came. -/
theorem insertionSort_pairwise_iff {lt : α → α → Prop} (hnodup : l.Nodup)
    (hlt : ∀ a ∈ l, ∀ b ∈ l, f a < f b → lt a b) :
    (l.insertionSort fun a b => f a ≤ f b).Pairwise lt ↔
      ∀ a b, [a, b].Sublist l → f a = f b → lt a b := by
  have hperm : (l.insertionSort fun a b => f a ≤ f b).Perm l := List.perm_insertionSort _ l
  have hsorted : (l.insertionSort fun a b => f a ≤ f b).Pairwise fun a b => f a ≤ f b := by
    have htot : Std.Total fun a b : α => f a ≤ f b := ⟨fun a b => le_total _ _⟩
    have htrans : IsTrans α fun a b => f a ≤ f b := ⟨fun a b c => le_trans⟩
    exact List.pairwise_insertionSort _ _
  have htrans : IsTrans α fun a b => f a ≤ f b := ⟨fun a b c => le_trans⟩
  have htot : Std.Total fun a b : α => f a ≤ f b := ⟨fun a b => le_total _ _⟩
  rw [List.pairwise_iff_forall_sublist]
  constructor
  · intro h a b hab heq
    exact h (List.pair_sublist_insertionSort heq.le hab)
  · intro h a b hab
    have ha : a ∈ l := hperm.mem_iff.mp (hab.subset (by simp))
    have hb : b ∈ l := hperm.mem_iff.mp (hab.subset (by simp))
    rcases lt_or_eq_of_le (List.pairwise_iff_forall_sublist.mp hsorted hab) with hless | heq
    · exact hlt a ha b hb hless
    · have hne : a ≠ b := by
        rintro rfl
        have hpair := (hperm.nodup_iff.mpr hnodup).sublist hab
        simp at hpair
      rcases pair_sublist_or_swap ha hb hne with hsub | hsub
      · exact h a b hsub heq
      · -- a swapped pair would have stayed swapped
        exact absurd hab (not_swap_of_nodup (hperm.nodup_iff.mpr hnodup)
          (List.pair_sublist_insertionSort heq.ge hsub))

end Stable

/-! ## 2. The sheet

The sheet as the source makes it, and a faithful pivot as a specification beside it: one row for
each index of the present curves, strictly ascending, with the index under the label and under each
mnemonic the curve's cell at that index. -/

/-- A reading as it stands in a sheet, next to the indices. -/
def Reading.toValue : Reading → Value
  | .num x => .num x
  | .text s => .text s

/-- A row of the sheet: `{index_label: ix}`, updated with the cells of the curves.  A cell may be
empty. -/
def labelledRow (indexLabel : Str) (row : SheetRow) : Dict Str (Option Value) :=
  row.2.foldl (fun d e => d.set e.1 (e.2.map Reading.toValue)) [(indexLabel, some row.1)]

/-- `assemble_rows`. -/
def assembleSheet (host : Host) (curves : Dict Str (List CurveSample)) (mnemonics : List Str)
    (indexLabel : Str) :
    Except PyError (List Str × List (Dict Str (Option Value)) × Dict Str (Option Str)) :=
  (assembleRows host curves mnemonics indexLabel).map fun (columns, rows, units) =>
    (columns, rows.map (labelledRow indexLabel), units)

/-- The samples of a curve. -/
def curveSamples (curves : Dict Str (List CurveSample)) (mnem : Str) : List CurveSample :=
  (curves.get? mnem).getD []

/-- What a curve has at an index: nothing, or a cell. -/
def cellAt (curves : Dict Str (List CurveSample)) (mnem : Str) (v : Value) :
    Option (Option Value) :=
  ((curveSamples curves mnem).find? fun s => decide (s.index = v)).map fun s =>
    s.cell.map Reading.toValue

/-- The row of an index: the index under the label, and the cells of the curves. -/
structure FaithfulRow (curves : Dict Str (List CurveSample)) (present : List Str) (indexLabel : Str)
    (v : Value) (row : Dict Str (Option Value)) : Prop where
  index : row.get? indexLabel = some (some v)
  cells : ∀ mnem ∈ present, row.get? mnem = cellAt curves mnem v

/-- A faithful pivot: one row for each index of the present curves, strictly ascending. -/
structure FaithfulPivot (curves : Dict Str (List CurveSample)) (mnemonics : List Str)
    (indexLabel : Str) (columns : List Str) (rows : List (Dict Str (Option Value))) : Prop where
  columns : columns = indexLabel :: presentMnemonics curves mnemonics
  rows : ∃ indices : List Value, indices.Pairwise (fun a b => a.rank < b.rank) ∧
    (∀ v, v ∈ indices ↔ ∃ mnem ∈ presentMnemonics curves mnemonics,
      ∃ s ∈ curveSamples curves mnem, s.index = v) ∧
    List.Forall₂ (FaithfulRow curves (presentMnemonics curves mnemonics) indexLabel) indices rows

/-- The distinct values of a list, in the order they are first met. -/
def firstMet (vs : List Value) : List Value :=
  vs.foldl (fun seen v => if seen.any fun w => decide (w = v) then seen else seen ++ [v]) []

/-- The indices of the present curves, in the order they are first met. -/
def metIndices (curves : Dict Str (List CurveSample)) (present : List Str) : List Value :=
  firstMet (present.flatMap fun mnem => (curveSamples curves mnem).map CurveSample.index)

/-- The label is not the mnemonic of a present curve, or that curve repeats every index. -/
def LabelFree (curves : Dict Str (List CurveSample)) (present : List Str) (indexLabel : Str) :
    Prop :=
  indexLabel ∈ present → ∀ v ∈ metIndices curves present, cellAt curves indexLabel v = some (some v)

/-- Indices that one float stands for are met in ascending order. -/
def MetAscending (host : Host) (curves : Dict Str (List CurveSample)) (present : List Str) : Prop :=
  ∀ a b, [a, b].Sublist (metIndices curves present) → a.stampD host = b.stampD host → a.rank < b.rank

/-! ## 3. What is entered

The loop over the samples, with two dictionaries inside each other.  What it leaves is the indices
in the order in which they were met first, and under each index and mnemonic the last sample. -/

/-- A value that has been met before is not met again. -/
theorem firstMet_append (vs : List Value) (v : Value) : firstMet (vs ++ [v]) =
    if (firstMet vs).any fun w => decide (w = v) then firstMet vs else firstMet vs ++ [v] := by
  rw [firstMet, List.foldl_append]
  rfl

theorem mem_firstMet {vs : List Value} {v : Value} : v ∈ firstMet vs ↔ v ∈ vs := by
  induction vs using List.reverseRecOn with
  | nil => rfl
  | append_singleton vs w ih =>
    rw [firstMet_append]
    split
    · rename_i hany
      obtain ⟨x, hx, heq⟩ := List.any_eq_true.mp hany
      obtain rfl := of_decide_eq_true heq
      rw [List.mem_append, List.mem_singleton, ih]
      refine (or_iff_left_of_imp ?_).symm
      rintro rfl
      rwa [← ih]
    · rw [List.mem_append, List.mem_append, ih]

theorem nodup_firstMet (vs : List Value) : (firstMet vs).Nodup := by
  induction vs using List.reverseRecOn with
  | nil => exact List.nodup_nil
  | append_singleton vs w ih =>
    rw [firstMet_append]
    split
    · exact ih
    · rename_i hany
      refine List.nodup_append.mpr ⟨ih, List.nodup_singleton w, fun a ha b hb => ?_⟩
      rw [List.mem_singleton.mp hb]
      rintro rfl
      exact hany (List.any_eq_true.mpr ⟨a, ha, decide_eq_true rfl⟩)

/-- A look-up after an entry has been set under a key that equals itself. -/
theorem get?_set_value {β : Type} {k : Value} (hk : k ≠ .num .nan) (k' : Value) (v : β) :
    ∀ d : Dict Value β, (d.set k v).get? k' = if k = k' then some v else d.get? k'
  | [] => by
    by_cases h : k = k'
    · subst h
      simp [Dict.set, Dict.get?, Value.beq_self hk]
    · have hne : (k == k') = false := by
        rw [Bool.eq_false_iff]
        exact fun hbeq => h (Value.eq_of_beq _ _ hbeq)
      simp [Dict.set, Dict.get?, hne, h]
  | (k₀, v₀) :: d => by
    by_cases h₀ : (k₀ == k) = true
    · obtain rfl := Value.eq_of_beq _ _ h₀
      by_cases h : k₀ = k'
      · subst h
        simp [Dict.set, Dict.get?, h₀]
      · have hne : (k₀ == k') = false := by
          rw [Bool.eq_false_iff]
          exact fun hbeq => h (Value.eq_of_beq _ _ hbeq)
        simp [Dict.set, Dict.get?, h₀, hne, h]
    · rw [Bool.not_eq_true] at h₀
      by_cases h' : (k₀ == k') = true
      · obtain rfl := Value.eq_of_beq _ _ h'
        have hne : k ≠ k₀ := by
          rintro rfl
          rw [h'] at h₀
          cases h₀
        simp [Dict.set, Dict.get?, h₀, h', hne]
      · simp [Dict.set, Dict.get?, h₀, h', get?_set_value hk k' v d]

/-- What stands under an index and a mnemonic. -/
def pivotCell (byIndex : Dict Value (Dict Str (Option Reading))) (v : Value) (mnem : Str) :
    Option (Option Reading) :=
  (byIndex.get? v).bind fun cells => cells.get? mnem

theorem pivotCell_enter {s : CurveSample} (hs : s.index ≠ .num .nan) (mnem : Str)
    (byIndex : Dict Value (Dict Str (Option Reading))) (v : Value) (mnem' : Str) :
    pivotCell (enterSample mnem byIndex s) v mnem' =
      if s.index = v ∧ mnem = mnem' then some s.cell else pivotCell byIndex v mnem' := by
  rw [pivotCell, enterSample, get?_set_value hs]
  by_cases hv : s.index = v
  · subst hv
    rw [if_pos rfl, Option.bind_some, Dict.get?_set]
    by_cases hm : mnem = mnem'
    · simp [hm]
    · rw [if_neg hm, if_neg fun h => hm h.2, pivotCell]
      cases byIndex.get? s.index <;> rfl
  · rw [if_neg hv, if_neg fun h => hv h.1]
    rfl

/-- What the entered samples leave: the indices in the order they are met, and under each index and
mnemonic the last sample. -/
structure Pivoted (entries : List (Str × CurveSample))
    (byIndex : Dict Value (Dict Str (Option Reading))) : Prop where
  indices : byIndex.map Prod.fst = firstMet (entries.map fun e => e.2.index)
  cell : ∀ v mnem, pivotCell byIndex v mnem =
    (lastOf (fun e : Str × CurveSample => some (e.1, e.2.index)) entries (mnem, v)).map fun e =>
      e.2.cell
  nodup : ∀ r ∈ byIndex, (r.2.map Prod.fst).Nodup

/-- The keys stay distinct. -/
theorem nodup_keys_set {β : Type} {d : Dict Str β} (h : (d.map Prod.fst).Nodup) (k : Str) (v : β) :
    ((d.set k v).map Prod.fst).Nodup := by
  rw [Dict.keys_set]
  split
  · rwa [List.append_nil]
  · rename_i hnew
    refine List.nodup_append.mpr ⟨h, List.nodup_singleton k, fun a ha b hb => ?_⟩
    rw [List.mem_singleton.mp hb]
    rintro rfl
    obtain ⟨e, he, rfl⟩ := List.mem_map.mp ha
    exact hnew (List.any_eq_true.mpr ⟨e, he, beq_self_eq_true e.1⟩)

/-- What is in a dictionary after an entry has been set. -/
theorem mem_set_value {β : Type} {k : Value} {v : β} {e : Value × β} :
    ∀ {d : Dict Value β}, e ∈ d.set k v → e.2 = v ∨ e ∈ d
  | [], he => Or.inl (by rw [List.mem_singleton.mp he])
  | (k₀, v₀) :: d, he => by
    by_cases h : (k₀ == k) = true
    · simp only [Dict.set, h, if_true] at he
      rcases List.mem_cons.mp he with rfl | he
      · exact Or.inl rfl
      · exact Or.inr (List.mem_cons_of_mem _ he)
    · simp only [Dict.set, h, if_false, Bool.false_eq_true] at he
      rcases List.mem_cons.mp he with rfl | he
      · exact Or.inr List.mem_cons_self
      · exact (mem_set_value he).imp_right (List.mem_cons_of_mem _)

theorem Pivoted.enter {entries : List (Str × CurveSample)}
    {byIndex : Dict Value (Dict Str (Option Reading))} (h : Pivoted entries byIndex) (mnem : Str)
    {s : CurveSample} (hs : s.index ≠ .num .nan) :
    Pivoted (entries ++ [(mnem, s)]) (enterSample mnem byIndex s) := by
  refine ⟨?_, fun v mnem' => ?_, fun r hr => ?_⟩
  · have hbeq : ∀ e : Value × Dict Str (Option Reading),
        (e.1 == s.index) = decide (e.1 = s.index) := by
      intro e
      rw [Bool.eq_iff_iff, Value.beq_iff, decide_eq_true_eq]
      exact and_iff_left_of_imp fun heq => heq ▸ hs
    have hany : (byIndex.any fun e => e.1 == s.index) =
        ((firstMet (entries.map fun e => e.2.index)).any fun w => decide (w = s.index)) := by
      rw [← h.indices, List.any_map]
      exact congrArg byIndex.any (funext hbeq)
    rw [enterSample, Dict.keys_set, hany, h.indices, List.map_append, List.map_cons, List.map_nil,
      firstMet_append]
    split
    · exact List.append_nil _
    · rfl
  · rw [pivotCell_enter hs, lastOf_append, h.cell]
    by_cases hkey : s.index = v ∧ mnem = mnem'
    · obtain ⟨rfl, rfl⟩ := hkey
      simp [lastOf, under]
    · have hne : ¬(mnem = mnem' ∧ s.index = v) := fun hk => hkey ⟨hk.2, hk.1⟩
      rw [if_neg hkey]
      simp [lastOf, under, hne]
  · rcases mem_set_value hr with hnew | hold
    · rw [hnew]
      refine nodup_keys_set ?_ _ _
      cases hget : byIndex.get? s.index with
      | none => exact List.nodup_nil
      | some cells => exact h.nodup _ (Dict.get?_mem Value.eq_of_beq hget)
    · exact h.nodup r hold

/-- **What a pivot holds.** -/
theorem pivoted_foldl {entries : List (Str × CurveSample)}
    (h : ∀ e ∈ entries, e.2.index ≠ .num .nan) :
    Pivoted entries (entries.foldl (fun byIndex e => enterSample e.1 byIndex e.2) []) := by
  induction entries using List.reverseRecOn with
  | nil => exact ⟨rfl, fun v mnem => rfl, fun r hr => absurd hr List.not_mem_nil⟩
  | append_singleton entries e ih =>
    rw [List.foldl_append]
    exact (ih fun e' he' => h e' (List.mem_append_left _ he')).enter e.1 (h e (by simp))

/-- The pivot of the present curves, none of whose indices is `nan`. -/
theorem pivoted_pivot {curves : Dict Str (List CurveSample)} {present : List Str}
    (h : ∀ mnem ∈ present, ∀ s ∈ curveSamples curves mnem, s.index ≠ .num .nan) :
    Pivoted (sheetEntries curves present) (pivot curves present) := by
  have hentries : ∀ e ∈ sheetEntries curves present, e.2.index ≠ .num .nan := by
    intro e he
    obtain ⟨hm, hs⟩ := mem_sheetEntries.mp he
    exact h e.1 hm e.2 hs
  have hpivot := pivoted_foldl hentries
  simp only [sheetEntries, List.foldl_flatMap, List.foldl_map] at hpivot
  exact hpivot

/-! ## 4. Rows and cells

No curve has two samples at one index, so "the last sample" is the only one, and a cell of the
sheet is what the curve has there. -/

section Sheet

variable {host : Host} {curves : Dict Str (List CurveSample)} {t : IndexType}

/-- Curves whose samples have ordered indices, no two of a curve the same. -/
structure Pivotable (t : IndexType) (curves : Dict Str (List CurveSample)) : Prop where
  orders : ∀ mnem, ∀ s ∈ curveSamples curves mnem, s.index.Orders t
  distinct : ∀ mnem, (curveSamples curves mnem).Pairwise fun a b => a.index ≠ b.index

/-- The indices are met in the order in which the samples are entered. -/
theorem metIndices_eq (present : List Str) : metIndices curves present =
    firstMet ((sheetEntries curves present).map fun e => e.2.index) := by
  rw [metIndices, sheetEntries, List.map_flatMap]
  congr 1
  refine List.flatMap_congr fun mnem _ => ?_
  rw [List.map_map]
  rfl

/-- An index is met exactly if a present curve has a sample there. -/
theorem mem_metIndices {present : List Str} {v : Value} : v ∈ metIndices curves present ↔
    ∃ mnem ∈ present, ∃ s ∈ curveSamples curves mnem, s.index = v := by
  rw [metIndices, mem_firstMet, List.mem_flatMap]
  simp only [List.mem_map]

/-- A sample is the only one of its curve at its index. -/
theorem Pivotable.eq_of_index (h : Pivotable t curves) {mnem : Str} {s s' : CurveSample}
    (hs : s ∈ curveSamples curves mnem) (hs' : s' ∈ curveSamples curves mnem)
    (heq : s.index = s'.index) : s = s' := by
  have hsymm : Std.Symm fun a b : CurveSample => a.index ≠ b.index := ⟨fun _ _ hne => hne.symm⟩
  by_contra hne
  exact (h.distinct mnem).forall hs hs' hne heq

theorem Pivotable.pivoted (h : Pivotable t curves) {present : List Str} :
    Pivoted (sheetEntries curves present) (pivot curves present) :=
  pivoted_pivot fun mnem _ s hs => (h.orders mnem s hs).ne_nan

/-- The last entry under a mnemonic and an index is a sample of the curve at this index. -/
theorem sample_of_lastOf {present : List Str} {mnem : Str} {v : Value} {e : Str × CurveSample}
    (h : lastOf (fun e : Str × CurveSample => some (e.1, e.2.index)) (sheetEntries curves present)
      (mnem, v) = some e) :
    mnem ∈ present ∧ e.2 ∈ curveSamples curves mnem ∧ e.2.index = v := by
  obtain ⟨he, hkey⟩ := key_of_lastOf h
  obtain ⟨rfl, hv⟩ := Prod.mk.inj (Option.some.inj hkey)
  obtain ⟨hm, hs⟩ := mem_sheetEntries.mp he
  exact ⟨hm, hs, hv⟩

/-- **The cell of a present curve at an index is its sample there.** -/
theorem Pivotable.pivotCell_eq (h : Pivotable t curves) {present : List Str} {mnem : Str}
    (hm : mnem ∈ present) (v : Value) :
    (pivotCell (pivot curves present) v mnem).map (Option.map Reading.toValue) =
      cellAt curves mnem v := by
  rw [h.pivoted.cell, cellAt]
  cases hfind : (curveSamples curves mnem).find? fun s => decide (s.index = v) with
  | none =>
    have hnone : lastOf (fun e : Str × CurveSample => some (e.1, e.2.index))
        (sheetEntries curves present) (mnem, v) = none := by
      cases hlast : lastOf (fun e : Str × CurveSample => some (e.1, e.2.index))
          (sheetEntries curves present) (mnem, v) with
      | none => rfl
      | some e =>
        obtain ⟨-, hs, hv⟩ := sample_of_lastOf hlast
        exact absurd (decide_eq_true hv) (List.find?_eq_none.mp hfind e.2 hs)
    rw [hnone]
    rfl
  | some s =>
    have hs := List.mem_of_find?_eq_some hfind
    have hv : s.index = v := by simpa using List.find?_some hfind
    have hentered : (mnem, s) ∈ sheetEntries curves present := mem_sheetEntries.mpr ⟨hm, hs⟩
    obtain ⟨e, hlast⟩ : ∃ e, lastOf (fun e : Str × CurveSample => some (e.1, e.2.index))
        (sheetEntries curves present) (mnem, v) = some e := exists_lastOf hentered (by rw [hv])
    obtain ⟨-, hs', hv'⟩ := sample_of_lastOf hlast
    obtain rfl := h.eq_of_index hs' hs (hv'.trans hv.symm)
    rw [hlast]
    rfl

/-- A row that has been updated with the cells of the curves. -/
theorem get?_labelledRow {row : SheetRow} (hnodup : (row.2.map Prod.fst).Nodup)
    (indexLabel k : Str) : (labelledRow indexLabel row).get? k =
      ((row.2.get? k).map (Option.map Reading.toValue)).or
        (if indexLabel = k then some (some row.1) else none) := by
  have hmap : labelledRow indexLabel row =
      (row.2.map fun e : Str × Option Reading => (e.1, e.2.map Reading.toValue)).foldl
        (fun (d : Dict Str (Option Value)) (e : Str × Option Value) => d.set e.1 e.2)
        [(indexLabel, some row.1)] := by
    rw [labelledRow, List.foldl_map]
  have hkeys : ((row.2.map fun e : Str × Option Reading =>
      (e.1, e.2.map Reading.toValue)).map Prod.fst).Nodup := by
    rwa [List.map_map]
  rw [hmap, Dict.get?_foldl_set hkeys, Dict.get?_map]
  congr 1
  by_cases hk : indexLabel = k
  · simp [Dict.get?, hk]
  · simp [Dict.get?, hk]

theorem Pivotable.orders_of_mem (h : Pivotable t curves) {present : List Str} {v : Value}
    (hv : v ∈ metIndices curves present) : v.Orders t := by
  obtain ⟨mnem, -, s, hs, rfl⟩ := mem_metIndices.mp hv
  exact h.orders mnem s hs

/-- A row of the pivot is for an index that is met. -/
theorem Pivotable.mem_met_of_row (h : Pivotable t curves) {present : List Str} {row : SheetRow}
    (hrow : row ∈ pivot curves present) : row.1 ∈ metIndices curves present := by
  rw [metIndices_eq, ← h.pivoted.indices]
  exact List.mem_map_of_mem hrow

/-- The cells of an index are found under it. -/
theorem Pivotable.get?_pivot (h : Pivotable t curves) {present : List Str} {row : SheetRow}
    (hrow : row ∈ pivot curves present) : (pivot curves present).get? row.1 = some row.2 := by
  have hself : (row.1 == row.1) = true :=
    Value.beq_self (h.orders_of_mem (h.mem_met_of_row hrow)).ne_nan
  have hdistinct : Dict.Distinct (pivot curves present) := by
    have hnodup := nodup_firstMet ((sheetEntries curves present).map fun e => e.2.index)
    rw [← h.pivoted.indices, List.Nodup, List.pairwise_map] at hnodup
    refine hnodup.imp fun {a b} hne => ?_
    rw [Bool.eq_false_iff]
    exact fun hbeq => hne (Value.eq_of_beq _ _ hbeq)
  exact Dict.get?_of_mem Value.eq_of_beq hself hdistinct hrow

/-- **What a row of the sheet has under a key.** -/
theorem Pivotable.get?_row (h : Pivotable t curves) {present : List Str} {row : SheetRow}
    (hrow : row ∈ pivot curves present) (indexLabel k : Str) :
    (labelledRow indexLabel row).get? k = (if k ∈ present then cellAt curves k row.1 else none).or
      (if indexLabel = k then some (some row.1) else none) := by
  have hcell : row.2.get? k = pivotCell (pivot curves present) row.1 k := by
    rw [pivotCell, h.get?_pivot hrow]
    rfl
  rw [get?_labelledRow (h.pivoted.nodup row hrow), hcell]
  congr 1
  split
  · rename_i hm
    exact h.pivotCell_eq hm row.1
  · rename_i hm
    have hnone : lastOf (fun e : Str × CurveSample => some (e.1, e.2.index))
        (sheetEntries curves present) (k, row.1) = none := by
      refine Option.eq_none_iff_forall_ne_some.mpr fun e hlast => ?_
      exact hm (sample_of_lastOf hlast).1
    rw [h.pivoted.cell, hnone]
    rfl

/-- A row is faithful unless a curve has written over the index.  The cells of the curves are
written last, so they are always right; only the index can be wrong. -/
theorem Pivotable.faithfulRow_iff (h : Pivotable t curves) {present : List Str} {row : SheetRow}
    (hrow : row ∈ pivot curves present) (indexLabel : Str) :
    FaithfulRow curves present indexLabel row.1 (labelledRow indexLabel row) ↔
      (indexLabel ∈ present → cellAt curves indexLabel row.1 = some (some row.1)) := by
  constructor
  · intro hfaithful hlabel
    rw [← hfaithful.cells indexLabel hlabel, hfaithful.index]
  · intro hlabel
    refine ⟨?_, fun mnem hm => ?_⟩
    · rw [h.get?_row hrow, if_pos rfl]
      split
      · rename_i hmem
        rw [hlabel hmem]
        rfl
      · rfl
    · rw [h.get?_row hrow, if_pos hm]
      by_cases heq : indexLabel = mnem
      · subst heq
        rw [hlabel hm]
        rfl
      · rw [if_neg heq, Option.or_none]

/-! ## 5. The order of the rows

Sorting by a float that does not descend where indices ascend: strictly ascending time stamps give
strictly ascending rows, and for equal ones the sort is stable. -/

/-- The rows of the sheet, in the order of their time stamps. -/
def stampedRows (host : Host) (curves : Dict Str (List CurveSample)) (present : List Str) :
    List SheetRow :=
  (pivot curves present).insertionSort fun a b =>
    (a.1.stampD host).rank ≤ (b.1.stampD host).rank

/-- The sheet of such curves is assembled without an error. -/
theorem Pivotable.assembleSheet_eq (h : Pivotable t curves) (host : Host) (mnemonics : List Str)
    (indexLabel : Str) : assembleSheet host curves mnemonics indexLabel =
      .ok (indexLabel :: presentMnemonics curves mnemonics,
        (stampedRows host curves (presentMnemonics curves mnemonics)).map (labelledRow indexLabel),
        sheetUnits curves (presentMnemonics curves mnemonics)) := by
  have hkeyed : ((pivot curves (presentMnemonics curves mnemonics)).mapM fun row : SheetRow =>
      (row.1.stamp host).map fun x => (x, row)) = .ok ((pivot curves
        (presentMnemonics curves mnemonics)).map fun row => (row.1.stampD host, row)) := by
    refine mapM_eq_ok fun row hrow => ?_
    rw [(h.orders_of_mem (h.mem_met_of_row hrow)).stamp.1]
    rfl
  have hsort := List.map_insertionSort
    (r := fun a b : SheetRow => (a.1.stampD host).rank ≤ (b.1.stampD host).rank)
    (s := fun a b : Float64 × SheetRow => a.1.rank ≤ b.1.rank)
    (fun row : SheetRow => (row.1.stampD host, row))
    (pivot curves (presentMnemonics curves mnemonics)) fun _ _ _ _ => Iff.rfl
  have hrows : (((pivot curves (presentMnemonics curves mnemonics)).map fun row : SheetRow =>
      (row.1.stampD host, row)).insertionSort fun a b => a.1.rank ≤ b.1.rank).map Prod.snd =
        stampedRows host curves (presentMnemonics curves mnemonics) := by
    rw [← hsort, List.map_map]
    exact List.map_id' _
  rw [assembleSheet, assembleRows, hkeyed, ← hrows]
  rfl

/-- The indices of the rows are the indices that are met, in the order of their time stamps. -/
theorem Pivotable.rows_indices (h : Pivotable t curves) (host : Host) (present : List Str) :
    (stampedRows host curves present).map Prod.fst =
      (metIndices curves present).insertionSort fun a b =>
        (a.stampD host).rank ≤ (b.stampD host).rank := by
  rw [metIndices_eq, ← h.pivoted.indices]
  exact List.map_insertionSort
    (r := fun a b : SheetRow => (a.1.stampD host).rank ≤ (b.1.stampD host).rank)
    (s := fun a b : Value => (a.stampD host).rank ≤ (b.stampD host).rank)
    Prod.fst (pivot curves present) fun _ _ _ _ => Iff.rfl

/-- **The rows ascend strictly exactly if** instants with one time stamp are met in ascending
order. -/
theorem Pivotable.ascending_iff (h : Pivotable t curves) (host : Host) (present : List Str) :
    ((stampedRows host curves present).map Prod.fst).Pairwise (fun a b => a.rank < b.rank) ↔
      MetAscending host curves present := by
  have hnodup : (metIndices curves present).Nodup := nodup_firstMet _
  rw [h.rows_indices, insertionSort_pairwise_iff hnodup]
  · refine forall_congr' fun a => forall_congr' fun b => forall_congr' fun hab => ?_
    have ha : a.stampD host ≠ .nan := (h.orders_of_mem (hab.subset (by simp))).stamp.2
    have hb : b.stampD host ≠ .nan := (h.orders_of_mem (hab.subset (by simp))).stamp.2
    exact imp_congr_left
      ⟨fun hrank => Float64.rank_injOn ha hb hrank, congrArg Float64.rank⟩
  · intro a ha b hb hstamp
    by_contra hle
    have hmono : (b.stampD host).rank ≤ (a.stampD host).rank :=
      (h.orders_of_mem hb).stampD_mono (h.orders_of_mem ha) (not_lt.mp hle)
    exact absurd hstamp (not_lt.mpr hmono)

/-- A depth has a time stamp of its own. -/
theorem Value.Orders.eq_of_stampD {host : Host} {a b : Value} (ha : a.Orders t) (hb : b.Orders t)
    (hnot : ∀ d, a ≠ .dt d) (h : a.stampD host = b.stampD host) : a = b := by
  cases a with
  | text s => exact ha.elim
  | dt d => exact absurd rfl (hnot d)
  | num x => cases b with
    | text s => exact hb.elim
    | dt d => exact absurd (ha.1.symm.trans hb.1) (by simp)
    | num y => exact congrArg Value.num h

/-- Depths are met in ascending order wherever one time stamp stands for two of them: nowhere. -/
theorem Pivotable.metAscending (h : Pivotable t curves) (host : Host) {present : List Str}
    (hnot : ∀ v ∈ metIndices curves present, ∀ d, v ≠ .dt d) : MetAscending host curves present := by
  intro a b hab heq
  have ha : a ∈ metIndices curves present := hab.subset (by simp)
  have hb : b ∈ metIndices curves present := hab.subset (by simp)
  obtain rfl := (h.orders_of_mem ha).eq_of_stampD (h.orders_of_mem hb) (hnot a ha) heq
  have hnodup := (nodup_firstMet _).sublist hab
  simp at hnodup

/-- No cell of a curve is an instant. -/
theorem cellAt_ne_dt {mnem : Str} {v : Value} {d : Datetime} :
    cellAt curves mnem v ≠ some (some (.dt d)) := by
  intro hcell
  obtain ⟨s, -, hs⟩ := Option.map_eq_some_iff.mp hcell
  obtain ⟨r, -, hr⟩ := Option.map_eq_some_iff.mp hs
  cases r <;> cases hr

/-- Each row has one index under the label, if no curve has the label as its mnemonic. -/
theorem Pivotable.indices_eq (h : Pivotable t curves) {present : List Str} {rows : List SheetRow}
    (hmem : ∀ row ∈ rows, row ∈ pivot curves present) {indexLabel : Str}
    (hlabel : indexLabel ∉ present) {indices : List Value}
    (hrows : List.Forall₂ (FaithfulRow curves present indexLabel) indices
      (rows.map (labelledRow indexLabel))) : indices = rows.map Prod.fst := by
  have hleft : indices.map (fun v => some (some v)) =
      (rows.map (labelledRow indexLabel)).map fun row => row.get? indexLabel := by
    rw [← List.forall₂_eq_eq_eq, List.forall₂_map_left_iff, List.forall₂_map_right_iff]
    exact hrows.imp fun v row hrow => hrow.index.symm
  have hright : (rows.map (labelledRow indexLabel)).map (fun row => row.get? indexLabel) =
      (rows.map Prod.fst).map fun v => some (some v) := by
    rw [List.map_map, List.map_map]
    refine List.map_congr_left fun row hrow => ?_
    rw [Function.comp_apply, h.get?_row (hmem row hrow), if_neg hlabel, if_pos rfl]
    rfl
  have hinj : Function.Injective fun v : Value => some (some v) :=
    fun a b hab => Option.some.inj (Option.some.inj hab)
  exact List.map_injective_iff.mpr hinj (hleft.trans hright)

/-- **A sheet is a faithful pivot exactly if** its label is not the mnemonic of a present curve, or
this curve repeats the index everywhere, and instants with one time stamp are met in ascending
order.

For depth logs the second part holds by itself (`Pivotable.metAscending`).  For time logs it fails
where two curves have samples within one float, and the curve that is entered first has the later
of the two. -/
theorem faithful_pivot_iff (host : Host) (h : Pivotable t curves) (mnemonics : List Str)
    (indexLabel : Str) :
    (∃ columns rows units,
      assembleSheet host curves mnemonics indexLabel = .ok (columns, rows, units) ∧
        FaithfulPivot curves mnemonics indexLabel columns rows) ↔
      LabelFree curves (presentMnemonics curves mnemonics) indexLabel ∧
        MetAscending host curves (presentMnemonics curves mnemonics) := by
  have hmem : ∀ row ∈ stampedRows host curves (presentMnemonics curves mnemonics),
      row ∈ pivot curves (presentMnemonics curves mnemonics) :=
    fun row hrow => (List.perm_insertionSort _ _).mem_iff.mp hrow
  have hmet : ∀ v, v ∈ (stampedRows host curves (presentMnemonics curves mnemonics)).map Prod.fst ↔
      v ∈ metIndices curves (presentMnemonics curves mnemonics) := by
    intro v
    rw [h.rows_indices]
    exact (List.perm_insertionSort _ _).mem_iff
  constructor
  · rintro ⟨columns, rows, units, hsheet, hfaithful⟩
    rw [h.assembleSheet_eq] at hsheet
    obtain ⟨rfl, rfl, rfl⟩ : _ ∧ _ ∧ _ := by simpa using hsheet
    obtain ⟨indices, hasc, hindices, hrows⟩ := hfaithful.rows
    have hfree : LabelFree curves (presentMnemonics curves mnemonics) indexLabel := by
      intro hlabel v hv
      obtain ⟨i, hi, rfl⟩ := List.getElem_of_mem ((hindices v).mpr (mem_metIndices.mp hv))
      have hrow := hrows.get hi (hrows.length_eq ▸ hi)
      exact (hrow.cells indexLabel hlabel).symm.trans hrow.index
    refine ⟨hfree, ?_⟩
    by_cases hlabel : indexLabel ∈ presentMnemonics curves mnemonics
    · -- no cell is an instant, so the indices are depths
      refine h.metAscending host fun v hv d => ?_
      rintro rfl
      exact cellAt_ne_dt (hfree hlabel _ hv)
    · rw [h.indices_eq hmem hlabel hrows] at hasc
      exact (h.ascending_iff host _).mp hasc
  · rintro ⟨hfree, hasc⟩
    refine ⟨_, _, _, h.assembleSheet_eq host mnemonics indexLabel, rfl, _,
      (h.ascending_iff host _).mpr hasc, fun v => (hmet v).trans mem_metIndices, ?_⟩
    rw [List.forall₂_map_left_iff, List.forall₂_map_right_iff, List.forall₂_same]
    intro row hrow
    exact (h.faithfulRow_iff (hmem row hrow) indexLabel).mpr fun hlabel =>
      hfree hlabel row.1 ((hmet row.1).mp (List.mem_map_of_mem hrow))

end Sheet

def sheetSample (mnem : String) (depth value : ℤ) : CurveSample :=
  ⟨mnem.toList, .num (.ofRatio depth 1), some (.ofRatio value 1), none, none⟩

/-- Two curves that are not aligned. -/
def unalignedCurves : Dict Str (List CurveSample) :=
  [("GR".toList, [sheetSample "GR" 2 40, sheetSample "GR" 1 30]),
    ("ROP".toList, [sheetSample "ROP" 3 9, sheetSample "ROP" 2 8])]

/-- A curve with the name of the index column. -/
def curveNamedDepth : Dict Str (List CurveSample) :=
  [("Depth".toList, [sheetSample "Depth" 1 50])]

/-- To be pivotable is a property of each curve. -/
theorem pivotable_of_all {t : IndexType} {curves : Dict Str (List CurveSample)}
    (h : ∀ e ∈ curves, (∀ s ∈ e.2, s.index.Orders t) ∧
      e.2.Pairwise fun a b => a.index ≠ b.index) : Pivotable t curves := by
  have hcurve : ∀ mnem, (∀ s ∈ curveSamples curves mnem, s.index.Orders t) ∧
      (curveSamples curves mnem).Pairwise fun a b => a.index ≠ b.index := by
    intro mnem
    rw [curveSamples]
    cases hget : curves.get? mnem with
    | none => exact ⟨fun s hs => absurd hs List.not_mem_nil, List.Pairwise.nil⟩
    | some samples => exact h _ (Dict.get?_mem (fun _ _ => eq_of_beq) hget)
  exact ⟨fun mnem => (hcurve mnem).1, fun mnem => (hcurve mnem).2⟩

/-- The curves that are not aligned make a faithful pivot. -/
theorem faithful_pivot_unaligned :
    ∃ columns rows units,
      assembleSheet .utc unalignedCurves ["ROP".toList, "GR".toList] "Depth".toList =
          .ok (columns, rows, units) ∧
        FaithfulPivot unalignedCurves ["ROP".toList, "GR".toList] "Depth".toList columns rows := by
  have hpivotable : Pivotable .measuredDepth unalignedCurves :=
    pivotable_of_all (by decide +kernel)
  refine (faithful_pivot_iff .utc hpivotable _ _).mpr ⟨fun h => absurd h (by decide +kernel), ?_⟩
  refine hpivotable.metAscending _ fun v hv d => ?_
  rintro rfl
  exact absurd (hpivotable.orders_of_mem hv).1 (by decide)

/-- **A curve writes over the index**: its value stands in the column of the depths, and the depth is
gone. -/
theorem pivot_overwritten :
    Pivotable .measuredDepth curveNamedDepth ∧
      (∃ units, assembleSheet .utc curveNamedDepth ["Depth".toList] "Depth".toList =
        .ok (["Depth".toList, "Depth".toList],
          [[("Depth".toList, some (.num (.ofRatio 50 1)))]], units)) ∧
      ¬∃ columns rows units,
        assembleSheet .utc curveNamedDepth ["Depth".toList] "Depth".toList =
            .ok (columns, rows, units) ∧
          FaithfulPivot curveNamedDepth ["Depth".toList] "Depth".toList columns rows := by
  have hpivotable : Pivotable .measuredDepth curveNamedDepth :=
    pivotable_of_all (by decide +kernel)
  have hpresent : presentMnemonics curveNamedDepth ["Depth".toList] = ["Depth".toList] := by
    decide +kernel
  have hrows : (stampedRows .utc curveNamedDepth ["Depth".toList]).map
      (labelledRow "Depth".toList) = [[("Depth".toList, some (.num (.ofRatio 50 1)))]] := by
    decide +kernel
  have hrun := hpivotable.assembleSheet_eq .utc ["Depth".toList] "Depth".toList
  rw [hpresent, hrows] at hrun
  refine ⟨hpivotable, ⟨_, hrun⟩, ?_⟩
  rintro ⟨columns, rows, units, hsheet, hfaithful⟩
  obtain ⟨rfl, rfl, rfl⟩ : _ ∧ _ ∧ _ := by simpa using hrun.symm.trans hsheet
  obtain ⟨indices, -, hindices, hfaithfulRows⟩ := hfaithful.rows
  obtain ⟨v, l, hrow, -, rfl⟩ := List.forall₂_cons_right_iff.mp hfaithfulRows
  obtain rfl : .num (.ofRatio 50 1) = v := Option.some.inj (Option.some.inj hrow.index)
  obtain ⟨mnem, hm, s, hs, heq⟩ := (hindices _).mp List.mem_cons_self
  rw [hpresent] at hm
  obtain rfl := List.mem_singleton.mp hm
  obtain rfl : s = sheetSample "Depth" 1 50 := List.mem_singleton.mp hs
  exact absurd heq (by decide +kernel)

end WitsmlViewer

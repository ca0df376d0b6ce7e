/-
# `requestLatestValues` (`_latest_value_rows`)

The store scans each curve from its newest row backwards for `n` readings, and sends the rows that
any curve needs, with the other cells blanked.  What is a reading is decided by one set of null
values for all curves: a number that one curve declares as its null counts as null in every other
curve too.

`latest_values_iff`: the newest readings of every curve are sent exactly if none of them is the
null value that another curve declares.

A blanked reading is not an older one that takes its place by chance: the scan goes on past it, so
that the curve's `n` readings are older ones, and the newest is missing from the response.

The newest rows are the ones with the greatest index for either direction.  The source scans its
sorted list from the end and does not ask how the log grows, and the statement follows it.
-/
import WitsmlViewer.Headers

namespace WitsmlViewer

open Py GrowingTable
open MockStore (logOfElem updatedLog)

/-! ## 1. What is to be sent

The specification is in terms of what each curve declares for itself.  A cell is null for a curve
if it is blank, the default null value, the log's, or the curve's own; the comment in `constants`
has the curve's own value override the log's.  `KeepsNewest` asks for the newest readings of every
curve but the index, and for nothing about the other cells except that they are as stored or
blanked. -/

namespace StoredLog

variable (log : StoredLog)

/-- A cell of a curve is null: blank, or the default null value, or the log's or the curve's own. -/
def OwnNull (c : CurveMeta) (cell : Str) : Prop :=
  strip cell = [] ∨ strip cell = defaultNullValue ∨ strip cell = log.nullValue ∨
    c.nullValue = some (strip cell)

instance (c : CurveMeta) (cell : Str) : Decidable (log.OwnNull c cell) :=
  inferInstanceAs (Decidable (_ ∨ _))

/-- The row has a reading of the curve. -/
def hasReading (c : CurveMeta) (col : ℕ) (e : Entry) : Bool :=
  (e.2.cell? col).any fun cell => decide ¬log.OwnNull c cell

/-- The newest `k` rows with a reading of the curve. -/
def newest (c : CurveMeta) (col k : ℕ) : List Entry :=
  (log.table.reverse.filter (log.hasReading c col)).take k

/-- A sent row stands for a row of the log: its cells are those of the row, or blanked. -/
structure Sparse (log : StoredLog) (e : Entry) (row : StoredRow) : Prop where
  token : row.token = e.2.token
  width : row.cells.length = log.curves.length - 1
  cells : ∀ col cell, 1 ≤ col → row.cell? col = some cell →
    e.2.cell? col = some cell ∨ cell = log.nullValue

/-- Rows of the log in ascending order, cells as stored or blanked, and for every curve but the index
the newest readings, as many as were asked for and are allowed. -/
structure KeepsNewest (log : StoredLog) (maxRequestLatestValues n : ℤ) (rows : List StoredRow) :
    Prop where
  ascending : ∃ entries : List Entry, (∀ e ∈ entries, e ∈ log.rows.entries) ∧
    entries.Pairwise (fun a b => a.1.rank < b.1.rank) ∧ List.Forall₂ log.Sparse entries rows
  newest : ∀ col c, 1 ≤ col → log.curves[col]? = some c →
    ∀ e ∈ log.newest c col (min n maxRequestLatestValues).toNat,
      ∃ row ∈ rows, row.token = e.2.token ∧ row.cell? col = e.2.cell? col

/-- None of the newest readings of a curve is the null value that some curve declares. -/
def Unshared (maxRequestLatestValues n : ℤ) : Prop :=
  ∀ col c, 1 ≤ col → log.curves[col]? = some c →
    ∀ e ∈ log.newest c col (min n maxRequestLatestValues).toNat, ∀ cell, e.2.cell? col = some cell →
      ∀ c' ∈ log.curves, c'.nullValue ≠ some (strip cell)

variable {log}

theorem mem_nullSet {w : Str} : w ∈ log.nullSet ↔ w = [] ∨ w = defaultNullValue ∨
    w = log.nullValue ∨ ∃ c ∈ log.curves, c.nullValue = some w := by
  rw [nullSet, List.mem_cons, List.mem_cons, List.mem_cons, List.mem_filterMap]
  constructor
  · rintro (h | h | h | ⟨c, hc, h⟩)
    · exact Or.inr (Or.inr (Or.inl h))
    · exact Or.inr (Or.inl h)
    · exact Or.inl h
    · exact Or.inr (Or.inr (Or.inr ⟨c, hc, (Option.filter_eq_some_iff.mp h).1⟩))
  · rintro (h | h | h | ⟨c, hc, h⟩)
    · exact Or.inr (Or.inr (Or.inl h))
    · exact Or.inr (Or.inl h)
    · exact Or.inl h
    · by_cases hw : w = []
      · exact Or.inr (Or.inr (Or.inl hw))
      · exact Or.inr (Or.inr (Or.inr ⟨c, hc, Option.filter_eq_some_iff.mpr ⟨h, by simpa using hw⟩⟩))

/-- A reading is in the shared set exactly if some curve declares it as its null value. -/
theorem mem_nullSet_of_reading {c : CurveMeta} {cell : Str} (h : ¬log.OwnNull c cell) :
    strip cell ∈ log.nullSet ↔ ∃ c' ∈ log.curves, c'.nullValue = some (strip cell) := by
  rw [mem_nullSet]
  rw [OwnNull] at h
  push Not at h
  constructor
  · rintro (h' | h' | h' | h')
    · exact absurd h' h.1
    · exact absurd h' h.2.1
    · exact absurd h' h.2.2.1
    · exact h'
  · exact fun h' => Or.inr (Or.inr (Or.inr h'))

/-! ## 2. What is sent

The response, written as a filter of the log's rows.  The source collects row numbers in a set and
sorts them; each row that some curve needs is sent once. -/

variable (log)

/-- The row has a cell of the column that the store takes for a reading. -/
def counted (col : ℕ) (e : Entry) : Bool :=
  (e.2.cell? col).any fun cell => strip cell ≠ [] && strip cell ∉ log.nullSet

/-- Some curve needs the row. -/
def needed (k : ℕ) (e : Entry) : Bool :=
  (List.range' 1 (log.mnemonics.length - 1)).any fun col =>
    ((log.table.reverse.filter (log.counted col)).take k).any fun e' => e'.1 = e.1

/-- The row as it is sent. -/
def sparse (e : Entry) : StoredRow :=
  ⟨e.2.token, (List.range' 1 (log.mnemonics.length - 1)).map fun col =>
    let cell := (e.2.cell? col).getD []
    if strip cell ∈ log.nullSet then log.nullValue else cell⟩

/-- The rows that are sent, ascending. -/
def sent (k : ℕ) : List Entry :=
  (log.table.filter (log.needed k)).insertionSort fun a b => a.1.rank ≤ b.1.rank

variable {log}

/-- The response is those rows, each blanked in the columns that are null for the store. -/
theorem latestValueRows_eq (ho : log.Orderable) (maxRequestLatestValues n : ℤ) :
    log.latestValueRows maxRequestLatestValues n =
      .ok ((log.sent (max (min n maxRequestLatestValues) 1).toNat).map log.sparse) := by
  have hsort : sortedEntries false (log.table.filter
      (log.needed (max (min n maxRequestLatestValues) 1).toNat)) =
      .ok (log.sent (max (min n maxRequestLatestValues) 1).toNat) := by
    rw [sortedEntries_eq fun e he =>
      ho.orders (mem_table.mp (List.mem_filter.mp he).1)]
    rfl
  rw [latestValueRows, sortedIndices_eq ho]
  exact congrArg (Except.map fun sorted => sorted.map log.sparse) hsort

/-- A row is sent exactly if some curve needs it. -/
theorem mem_sent {k : ℕ} {e : Entry} :
    e ∈ log.sent k ↔ e ∈ log.rows.entries ∧ log.needed k e = true := by
  rw [sent, List.mem_insertionSort, List.mem_filter, mem_table]

theorem sent_ascending (ho : log.Orderable) (k : ℕ) :
    (log.sent k).Pairwise fun a b => a.1.rank < b.1.rank := by
  have hsorted : (log.sent k).Pairwise fun a b => a.1.rank ≤ b.1.rank := by
    have htot : Std.Total fun a b : Entry => a.1.rank ≤ b.1.rank := ⟨fun a b => le_total _ _⟩
    have htrans : IsTrans Entry fun a b => a.1.rank ≤ b.1.rank := ⟨fun a b c => le_trans⟩
    exact List.pairwise_insertionSort _ _
  have hdistinct : (log.sent k).Pairwise fun a b => a.1.rank ≠ b.1.rank := by
    refine ((List.perm_insertionSort _ _).symm.pairwise_iff fun hab => hab.symm).mp ?_
    refine ((table_ordered ho).filter _).imp fun {a b} hab heq => ?_
    have hkey : log.entryKey a = log.entryKey b := by
      rw [entryKey, entryKey]
      cases log.direction <;> simp only [growthKey, heq]
    exact hab.ne hkey
  exact (hsorted.and hdistinct).imp fun hab => lt_of_le_of_ne hab.1 hab.2

/-- The columns that are scanned are all but the first. -/
theorem mem_columns {col : ℕ} :
    col ∈ List.range' 1 (log.mnemonics.length - 1) ↔ 1 ≤ col ∧ col < log.curves.length := by
  rw [List.mem_range'_1, mnemonics, List.length_map]
  omega

/-- A cell that is sent. -/
theorem cell?_sparse (e : Entry) {col : ℕ} (h : 1 ≤ col) (hlt : col < log.curves.length) :
    (log.sparse e).cell? col = some (if strip ((e.2.cell? col).getD []) ∈ log.nullSet
      then log.nullValue else (e.2.cell? col).getD []) := by
  obtain ⟨col, rfl⟩ := Nat.exists_eq_add_of_le' h
  have hrange : (List.range' 1 (log.mnemonics.length - 1))[col]? = some (col + 1) := by
    rw [List.getElem?_range' (by rw [mnemonics, List.length_map]; omega)]
    simp [add_comm]
  simp only [sparse, StoredRow.cell?, List.getElem?_map, hrange, Option.map_some]

/-- A row that is sent stands for the row it was made from. -/
theorem sparse_spec (e : Entry) : log.Sparse e (log.sparse e) := by
  refine ⟨rfl, by simp [sparse, mnemonics], fun col cell h hcell => ?_⟩
  have hlt : col < log.curves.length := by
    obtain ⟨col, rfl⟩ := Nat.exists_eq_add_of_le' h
    have hlen := (List.getElem?_eq_some_iff.mp hcell).1
    simp [sparse, mnemonics] at hlen
    omega
  rw [cell?_sparse e h hlt, Option.some.injEq] at hcell
  split at hcell
  · exact Or.inr hcell.symm
  · rename_i hnot
    cases hstored : e.2.cell? col with
    | none =>
      -- a missing cell is blank, so it is null
      rw [hstored] at hnot
      exact absurd (mem_nullSet.mpr (Or.inl rfl)) hnot
    | some stored =>
      rw [hstored] at hcell
      exact Or.inl (congrArg some hcell)

/-! ## 3. The newest readings

The store counts fewer cells as readings than the curve does, never more.  Where it counts all of
the newest ones, its newest are the curve's newest.  Where it misses one, that one is not sent at
all, or blanked in a row that is sent for another curve. -/

/-- Elements that pass a narrower test too are still among the first `k`. -/
theorem mem_take_filter {β : Type} {p q : β → Bool} (hqp : ∀ b, q b = true → p b = true)
    {l : List β} {k : ℕ} (hall : ∀ b ∈ (l.filter p).take k, q b = true) {b : β}
    (hb : b ∈ (l.filter p).take k) : b ∈ (l.filter q).take k := by
  have hfilter : l.filter q = (l.filter p).filter q := by
    rw [List.filter_filter]
    refine List.filter_congr fun a _ => ?_
    cases hq : q a with
    | false => rfl
    | true => rw [hqp a hq, Bool.and_true]
  have hself : ((l.filter p).take k).filter q = (l.filter p).take k :=
    List.filter_eq_self.mpr hall
  rw [hfilter, ← List.take_append_drop k (l.filter p), List.filter_append, hself]
  rw [List.take_append, List.take_of_length_le (List.length_take_le _ _)]
  exact List.mem_append_left _ hb

/-- A reading is a cell that is not null for its curve. -/
theorem hasReading_iff {c : CurveMeta} {col : ℕ} {e : Entry} :
    log.hasReading c col e = true ↔ ∃ cell, e.2.cell? col = some cell ∧ ¬log.OwnNull c cell := by
  simp [hasReading, Option.any_eq_true]

/-- What the store counts is a cell that is in no curve's null set. -/
theorem counted_iff {col : ℕ} {e : Entry} :
    log.counted col e = true ↔ ∃ cell, e.2.cell? col = some cell ∧ strip cell ∉ log.nullSet := by
  simp only [counted, Option.any_eq_true, Bool.and_eq_true, decide_eq_true_eq]
  refine exists_congr fun cell => and_congr_right fun _ => and_iff_right_of_imp fun hnot hnil => ?_
  exact hnot (mem_nullSet.mpr (Or.inl hnil))

/-- What the store counts is a reading. -/
theorem hasReading_of_counted {c : CurveMeta} {col : ℕ} (hc : c ∈ log.curves) {e : Entry}
    (h : log.counted col e = true) : log.hasReading c col e = true := by
  obtain ⟨cell, hcell, hnot⟩ := counted_iff.mp h
  refine hasReading_iff.mpr ⟨cell, hcell, fun hnull => hnot (mem_nullSet.mpr ?_)⟩
  rcases hnull with h | h | h | h
  · exact Or.inl h
  · exact Or.inr (Or.inl h)
  · exact Or.inr (Or.inr (Or.inl h))
  · exact Or.inr (Or.inr (Or.inr ⟨c, hc, h⟩))

/-- The newest readings are counted, if no curve declares them null. -/
theorem counted_of_newest {k : ℕ} {c : CurveMeta} {col : ℕ} (hc : log.curves[col]? = some c)
    (hun : ∀ e ∈ log.newest c col k, ∀ cell, e.2.cell? col = some cell →
      ∀ c' ∈ log.curves, c'.nullValue ≠ some (strip cell)) {e : Entry}
    (he : e ∈ log.newest c col k) :
    e ∈ (log.table.reverse.filter (log.counted col)).take k := by
  refine mem_take_filter (fun b hb => hasReading_of_counted (List.mem_of_getElem? hc) hb)
    (fun b hb => ?_) he
  obtain ⟨cell, hcell, hread⟩ := hasReading_iff.mp (List.mem_filter.mp (List.mem_of_mem_take hb)).2
  refine counted_iff.mpr ⟨cell, hcell, fun hin => ?_⟩
  obtain ⟨c', hc', hnull⟩ := (mem_nullSet_of_reading hread).mp hin
  exact hun b hb cell hcell c' hc' hnull

/-- Two rows with one token are one row. -/
theorem entry_of_token {e e' : Entry} (he : e ∈ log.rows.entries) (he' : e' ∈ log.rows.entries)
    (ho : log.Orderable) (h : e.2.token = e'.2.token) : e = e' := by
  have hkey : e.1 = e'.1 := by
    have hp := (log.rows.rowOk e he).parsed
    rw [h, (log.rows.rowOk e' he').parsed] at hp
    exact (Option.some.inj (Except.ok.inj hp)).symm
  refine (table_ordered ho).eq_of_key (mem_table.mpr he) (mem_table.mpr he') ?_
  rw [entryKey, entryKey, hkey]

/-- **The newest readings are sent exactly if none of them is a null value of another curve.**
From right to left the two counts agree on the newest rows; from left to right a reading that is
sent as it is stored is not blank, so it was not blanked. -/
theorem keepsNewest_iff (ho : log.Orderable) (htrim : strip log.nullValue = log.nullValue)
    (maxRequestLatestValues n : ℤ) :
    (∃ rows, log.latestValueRows maxRequestLatestValues n = .ok rows ∧
      log.KeepsNewest maxRequestLatestValues n rows) ↔ log.Unshared maxRequestLatestValues n := by
  have hrun := latestValueRows_eq ho maxRequestLatestValues n
  generalize hk : (max (min n maxRequestLatestValues) 1).toNat = k at hrun
  have hle : (min n maxRequestLatestValues).toNat ≤ k := by omega
  constructor
  · rintro ⟨rows, hrows, hkeeps⟩ col c hcol hc e he cell hcell c' hc' hnull
    obtain rfl := Except.ok.inj (hrun.symm.trans hrows)
    obtain ⟨row, hrow, htoken, hsame⟩ := hkeeps.newest col c hcol hc e he
    obtain ⟨e', he', rfl⟩ := List.mem_map.mp hrow
    have hmem := List.mem_filter.mp (List.mem_of_mem_take he)
    obtain rfl := entry_of_token (mem_sent.mp he').1
      (mem_table.mp (List.mem_reverse.mp hmem.1)) ho htoken
    -- its cell is blanked, and a reading is not the log's null value
    obtain ⟨cell', hcell', hread⟩ := hasReading_iff.mp hmem.2
    obtain rfl := Option.some.inj (hcell.symm.trans hcell')
    have hin : strip cell ∈ log.nullSet :=
      (mem_nullSet_of_reading hread).mpr ⟨c', hc', hnull⟩
    have hlt := (List.getElem?_eq_some_iff.mp hc).1
    rw [cell?_sparse e' hcol hlt, hcell, Option.getD_some, if_pos hin, Option.some.injEq] at hsame
    refine hread (Or.inr (Or.inr (Or.inl ?_)))
    rw [← hsame, htrim]
  · intro hun
    refine ⟨_, hrun, ⟨log.sent k, fun e he => (mem_sent.mp he).1, sent_ascending ho k, ?_⟩, ?_⟩
    · rw [List.forall₂_map_right_iff]
      exact List.forall₂_same.mpr fun e _ => sparse_spec e
    · intro col c hcol hc e he
      have hlt := (List.getElem?_eq_some_iff.mp hc).1
      have hcounted := counted_of_newest hc (hun col c hcol hc) he
      have hmem := List.mem_filter.mp (List.mem_of_mem_take hcounted)
      have hneeded : log.needed k e = true := by
        refine List.any_eq_true.mpr ⟨col, mem_columns.mpr ⟨hcol, hlt⟩, ?_⟩
        refine List.any_eq_true.mpr ⟨e, ?_, decide_eq_true rfl⟩
        exact List.take_subset_take_left _ hle hcounted
      refine ⟨log.sparse e, List.mem_map.mpr ⟨e, mem_sent.mpr
        ⟨mem_table.mp (List.mem_reverse.mp hmem.1), hneeded⟩, rfl⟩, rfl, ?_⟩
      obtain ⟨cell, hcell, hnot⟩ := counted_iff.mp hmem.2
      rw [cell?_sparse e hcol hlt, hcell, Option.getD_some, if_neg hnot]

end StoredLog

/-! ## 4. Stored logs

The log is one that a client has created and updated.  Its null value is trimmed, as every text of
a header is. -/

/-- A log as an element creates it and updates change it. -/
def storedLog (el : LogElem) (updates : List LogElem) : StoredLog :=
  updates.foldl (fun log u => updatedLog u log) (ingestLogData (logOfElem el) el).1

/-- The null value of a stored log is trimmed. -/
theorem trimmed_nullValue (el : LogElem) (updates : List LogElem) :
    strip (storedLog el updates).nullValue = (storedLog el updates).nullValue := by
  have hnull : (storedLog el updates).nullValue = (logOfElem el).nullValue := by
    rw [storedLog]
    induction updates using List.reverseRecOn with
    | nil => exact (ingestLogData_sameHead (logOfElem el) el).nullValue
    | append_singleton updates u ih =>
      rw [List.foldl_append]
      exact ((updatedLog_sameHead _ u).nullValue).trans ih
  rw [hnull]
  change strip ((childText el.nullValue).getD defaultNullValue) =
    (childText el.nullValue).getD defaultNullValue
  cases h : childText el.nullValue with
  | none => decide
  | some w => exact (childText_eq_some h).1

/-- **The newest readings of every curve are sent exactly if** no curve declares one of them as its
null value; for every log that a client created and updated.

`n` may be anything: the limit of the server is applied to it, and a request for none is answered
by no rows.  The condition is on the newest readings only, so a clash further back does no harm
until it is among those that are asked for. -/
theorem latest_values_iff (el : LogElem) (updates : List LogElem)
    (ho : (storedLog el updates).Orderable) (maxRequestLatestValues n : ℤ) :
    (∃ rows, (storedLog el updates).latestValueRows maxRequestLatestValues n = .ok rows ∧
      (storedLog el updates).KeepsNewest maxRequestLatestValues n rows) ↔
    (storedLog el updates).Unshared maxRequestLatestValues n :=
  StoredLog.keepsNewest_iff ho (trimmed_nullValue el updates) maxRequestLatestValues n

/-- A log whose gamma ray curve declares -1 as its null value, and whose temperature is -1. -/
def frozenElem : LogElem :=
  { logElem "L" .measuredDepth .increasing ["DEPTH", "GR", "TEMP"] ["10,5,-1", "11,-1,-2"] with
    logCurveInfo := [⟨none, some "DEPTH".toList, none, none, none, none, none, none, none, none⟩,
      ⟨none, some "GR".toList, none, none, none, some "-1".toList, none, none, none, none⟩,
      ⟨none, some "TEMP".toList, none, none, none, none, none, none, none, none⟩] }

theorem latest_values_iff_frozen :
    (∃ rows, (storedLog frozenElem []).latestValueRows 10000 1 = .ok rows ∧
      (storedLog frozenElem []).KeepsNewest 10000 1 rows) ↔
    (storedLog frozenElem []).Unshared 10000 1 :=
  latest_values_iff frozenElem [] (by unfold StoredLog.Orderable; decide +kernel) 10000 1

/-- **A reading is lost to another curve's null value**: of the two newest temperatures one is -1,
which is null for the gamma ray only. -/
theorem latest_values_blanked : (storedLog frozenElem []).Orderable ∧
    ((storedLog frozenElem []).latestValueRows 10000 2).map (List.map StoredRow.line) =
      .ok ["10,5,-999.25".toList, "11,-999.25,-2".toList] ∧
    ¬∃ rows, (storedLog frozenElem []).latestValueRows 10000 2 = .ok rows ∧
      (storedLog frozenElem []).KeepsNewest 10000 2 rows := by
  have ho : (storedLog frozenElem []).Orderable := by
    unfold StoredLog.Orderable
    decide +kernel
  refine ⟨ho, by decide +kernel, fun h => ?_⟩
  have hun := (StoredLog.keepsNewest_iff ho (trimmed_nullValue frozenElem []) 10000 2).mp h
  have hread : ∃ e ∈ (storedLog frozenElem []).newest ⟨"TEMP".toList, none, none, none, none⟩ 2
      (min (2 : ℤ) 10000).toNat, e.2.cell? 2 = some "-1".toList := by
    decide +kernel
  obtain ⟨e, he, hcell⟩ := hread
  exact hun 2 ⟨"TEMP".toList, none, none, none, none⟩ (by decide) (by decide +kernel) e he _ hcell
    ⟨"GR".toList, none, none, none, some "-1".toList⟩ (by decide +kernel) (by decide +kernel)

end WitsmlViewer

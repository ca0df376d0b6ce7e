/-
# The read paths (`app.ingestion.store`, `app.api.curves`, `app.api.export`)

A sample is read in two ways: from the warm store, and from the `curve_samples` table through a
driver that may drop the time zone of an instant.  Each reader turns the index into a number of its
own: `sampleToWire` and `getHistory` into milliseconds, `gatherCurve` into the key by which it
drops repetitions.  `assembleRows` keys by the index itself.

`oneIndex_iff` says when the two readings of one sample are one reading.

An instant without a zone means UTC everywhere in this program but in `timestamp()`, which takes it
for the host's local time.  So a reader that goes through `timestamp()` sees two instants, and one
that compares the values themselves sees an aware and a naive one, which are not equal either.
Whether anything comes of it depends on the driver and on the host, and on nothing else; the
equivalence is in these two.

The host is a whole number of seconds off UTC, and `timestamp()` is computed in floats as the
source's is.  The rounding is part of the model: for a naive instant the seconds and the
microseconds are added in another order than for an aware one, and the sums may differ in the last
place.
-/
import WitsmlViewer.Scheduler
import WitsmlViewer.Py.Timestamp

namespace WitsmlViewer

open Py

/-! ## 1. The wire form

Depths and instants travel as one kind of number.  The unit is milliseconds, also for depths, which
are thousandths there. -/

/-- A point as JSON: `i`, `v`, `t` and `u`. -/
structure WirePoint where
  i : Float64
  v : Option Float64
  t : Option Str
  u : Option Str
deriving DecidableEq

/-- `index.timestamp()` of an instant, else `float(index)`. -/
def Value.stamp (host : Host) : Value → Except PyError Float64
  | .dt t => (t.timestamp? host).elim (.error .valueError) .ok
  | .num x => .ok x
  | .text s => (float? s).elim (.error .valueError) .ok

/-- A thousand of them: seconds as milliseconds. -/
def Value.wireIndex (host : Host) : Value → Except PyError Float64
  | .dt t => (Value.stamp host (.dt t)).map fun x => x.mul (.ofRatio 1000 1)
  | v => v.stamp host

/-- `sample_to_wire`. -/
def sampleToWire (host : Host) (s : CurveSample) : Except PyError WirePoint :=
  (s.index.wireIndex host).map fun i => ⟨i, s.value, s.text, s.uom⟩

/-! ## 2. The history endpoint

The rows come as the driver returns them, in the order of the query.  A row without an index has no
point, and an index that has no time stamp makes the whole request fail. -/

/-- A row as the driver returns it. -/
def CurveSampleRow.read (keepsZone : Bool) (row : CurveSampleRow) : CurveSampleRow :=
  { row with indexDt := row.indexDt.map fun t => { t with aware := t.aware && keepsZone } }

/-- The point that `get_history` serves for a row; a row without an index has none. -/
def historyPoint (host : Host) (row : CurveSampleRow) : Except PyError (Option WirePoint) :=
  match row.indexDt, row.indexFloat with
  | some t, _ => ((Value.dt t).wireIndex host).map fun i => some ⟨i, row.value, row.text, row.uom⟩
  | none, some x => .ok (some ⟨x, row.value, row.text, row.uom⟩)
  | none, none => .ok none

/-- `curves.setdefault(mnemonic, []).append(point)`, if the row has a point. -/
def addPoint (curves : Dict Str (List WirePoint)) (mnem : Str) (point : Option WirePoint) :
    Dict Str (List WirePoint) :=
  match point with
  | none => curves
  | some p => curves.set mnem ((curves.get? mnem).getD [] ++ [p])

/-- `get_history` from the selected rows on. -/
def getHistory (host : Host) (rows : List CurveSampleRow) :
    Except PyError (Dict Str (List WirePoint)) :=
  rows.foldlM (fun curves row => (historyPoint host row).map (addPoint curves row.mnemonic)) []

/-- The point of a row, if it has one. -/
def pointOf (host : Host) (row : CurveSampleRow) : Option WirePoint :=
  (historyPoint host row).toOption.join

/-- A point is added to the curve that it is of. -/
theorem get?_addPoint (curves : Dict Str (List WirePoint)) (mnem : Str) (point : Option WirePoint)
    (m : Str) : (Dict.get? (addPoint curves mnem point) m).getD [] =
      (Dict.get? curves m).getD [] ++ if mnem = m then point.toList else [] := by
  cases point with
  | none => simp [addPoint]
  | some p =>
    rw [addPoint, Dict.get?_set]
    split
    · rename_i heq
      rw [heq]
      rfl
    · rw [List.append_nil]

/-- **The history of a curve** is the points of its rows, in the order of the rows.  The other
curves' rows play no part, unless one of them raises. -/
theorem getHistory_points {host : Host} {rows : List CurveSampleRow}
    {curves : Dict Str (List WirePoint)} (h : getHistory host rows = .ok curves) (m : Str) :
    (Dict.get? curves m).getD [] =
      (rows.filter fun row => decide (row.mnemonic = m)).filterMap (pointOf host) := by
  have hfold : ∀ (rows : List CurveSampleRow) (start curves : Dict Str (List WirePoint)),
      rows.foldlM (fun curves row => (historyPoint host row).map (addPoint curves row.mnemonic))
        start = .ok curves →
      (Dict.get? curves m).getD [] = (Dict.get? start m).getD [] ++
        (rows.filter fun row => decide (row.mnemonic = m)).filterMap (pointOf host) := by
    intro rows
    induction rows with
    | nil =>
      intro start curves h
      rw [← Except.ok.inj h]
      simp
    | cons row rows ih =>
      intro start curves h
      rw [List.foldlM_cons] at h
      obtain ⟨start', hadd, hrest⟩ := bind_eq_ok.mp h
      obtain ⟨point, hpoint, rfl⟩ := map_eq_ok.mp hadd
      have hof : pointOf host row = point := by rw [pointOf, hpoint]; rfl
      rw [ih _ _ hrest, get?_addPoint, List.append_assoc]
      by_cases hm : row.mnemonic = m
      · rw [if_pos hm, List.filter_cons_of_pos (by simpa using hm), List.filterMap_cons, hof]
        cases point <;> rfl
      · rw [if_neg hm, List.filter_cons_of_neg (by simpa using hm), List.nil_append]
  exact hfold rows [] curves h

/-! ## 3. The export

The export reads both sources.  For each mnemonic it has the warm samples and then those of the
history; it keeps the first of each time stamp, so that a sample that is in both is meant to be
exported once, in the reading of the warm store. -/

/-- `_row_to_sample`. -/
def rowToSample (row : CurveSampleRow) : CurveSample where
  mnemonic := row.mnemonic
  index := match row.indexDt with
    | some t => .dt t
    | none => .num (row.indexFloat.getD (.ofRatio 0 1))
  value := row.value
  text := row.text
  uom := row.uom

/-- Keep the first sample of each time stamp. -/
def firstPerStamp (keyed : List (Float64 × CurveSample)) : List (Float64 × CurveSample) :=
  keyed.foldl (fun combined e => if combined.any fun e' => e'.1.eq e.1 then combined
    else combined ++ [e]) []

/-- `_gather_curves` for one mnemonic, whose samples are the warm ones and then those of the
history. -/
def gatherCurve (host : Host) (limit : ℕ) (samples : List CurveSample) :
    Except PyError (List CurveSample) :=
  (samples.mapM fun s : CurveSample => (s.index.stamp host).map fun x => (x, s)).map fun keyed =>
    RingBufferStore.lastItems limit
      (((firstPerStamp keyed).insertionSort fun a b => a.1.rank ≤ b.1.rank).map Prod.snd)

/-- `_gather_curves`. -/
def gatherCurves (host : Host) (limit : ℕ) (warm history : Dict Str (List CurveSample)) :
    Except PyError (Dict Str (List CurveSample)) :=
  let keys := (warm.map Prod.fst ++ history.map Prod.fst).dedup
  keys.mapM fun mnem => (gatherCurve host limit
    ((warm.get? mnem).getD [] ++ (history.get? mnem).getD [])).map fun samples => (mnem, samples)

/-- What stands in a cell of the sheet. -/
def CurveSample.cell (s : CurveSample) : Option Reading :=
  (s.value.map .num).or (s.text.map .text)

/-- A row of the sheet: an index, and a cell for some mnemonics. -/
abbrev SheetRow := Value × Dict Str (Option Reading)

/-- Enter a sample under its index. -/
def enterSample (mnem : Str) (byIndex : Dict Value (Dict Str (Option Reading))) (s : CurveSample) :
    Dict Value (Dict Str (Option Reading)) :=
  byIndex.set s.index (((byIndex.get? s.index).getD []).set mnem s.cell)

/-- The mnemonics that have samples: the requested ones, or all. -/
def presentMnemonics (curves : Dict Str (List CurveSample)) (mnemonics : List Str) : List Str :=
  let hasData := fun mnem => decide ((curves.get? mnem).getD [] ≠ [])
  if mnemonics.filter hasData = [] then (curves.map Prod.fst).filter hasData
  else mnemonics.filter hasData

/-- The unit of each present mnemonic: the first that a sample names. -/
def sheetUnits (curves : Dict Str (List CurveSample)) (present : List Str) :
    Dict Str (Option Str) :=
  present.foldl (fun units mnem =>
    if (Dict.get? units mnem).isSome then units
    else Dict.set units mnem
      (((curves.get? mnem).getD []).findSome? fun s : CurveSample => s.uom.filter (· ≠ []))) []

/-- `by_index`: the samples of the present mnemonics, each under its index. -/
def pivot (curves : Dict Str (List CurveSample)) (present : List Str) :
    Dict Value (Dict Str (Option Reading)) :=
  present.foldl (fun byIndex mnem =>
    ((curves.get? mnem).getD []).foldl (enterSample mnem) byIndex) []

/-- `assemble_rows`: the columns, the rows in the order of their time stamps, and the units. -/
def assembleRows (host : Host) (curves : Dict Str (List CurveSample)) (mnemonics : List Str)
    (indexLabel : Str) : Except PyError (List Str × List SheetRow × Dict Str (Option Str)) :=
  let present := presentMnemonics curves mnemonics
  ((pivot curves present).mapM fun row : SheetRow =>
      (row.1.stamp host).map fun x => (x, row)).map fun keyed =>
    (indexLabel :: present, (keyed.insertionSort fun a b => a.1.rank ≤ b.1.rank).map Prod.snd,
      sheetUnits curves present)

/-! ## 4. One reading for each time stamp

What "the first of each time stamp" leaves.  It is counted, since what is claimed is a count: of
the readings of one sample there is one. -/

theorem firstPerStamp_append (keyed : List (Float64 × CurveSample)) (e : Float64 × CurveSample) :
    firstPerStamp (keyed ++ [e]) = if (firstPerStamp keyed).any fun e' => e'.1.eq e.1 then
      firstPerStamp keyed else firstPerStamp keyed ++ [e] := by
  rw [firstPerStamp, List.foldl_append]
  rfl

/-- What is kept is a part of what there was. -/
theorem firstPerStamp_sublist (keyed : List (Float64 × CurveSample)) :
    (firstPerStamp keyed).Sublist keyed := by
  induction keyed using List.reverseRecOn with
  | nil => exact List.Sublist.refl _
  | append_singleton keyed e ih =>
    rw [firstPerStamp_append]
    split
    · exact ih.trans (List.sublist_append_left _ _)
    · exact ih.append (List.Sublist.refl _)

theorem eq_iff {x y : Float64} : x.eq y = true ↔ x = y ∧ x ≠ .nan := by
  simp [Float64.eq, and_comm]

/-- **Entries that are marked by a time stamp of their own leave one.** -/
theorem countP_firstPerStamp {q : Float64 × CurveSample → Bool} {a : Float64} (ha : a ≠ .nan) :
    ∀ {keyed : List (Float64 × CurveSample)}, (∀ e ∈ keyed, q e = true ↔ e.1 = a) →
      (firstPerStamp keyed).countP q = if keyed.any q then 1 else 0 := by
  intro keyed
  induction keyed using List.reverseRecOn with
  | nil => exact fun _ => rfl
  | append_singleton keyed e ih =>
    intro hq
    have hold : ∀ e' ∈ firstPerStamp keyed, q e' = true ↔ e'.1 = a := fun e' he' =>
      hq e' (List.mem_append_left _ ((firstPerStamp_sublist keyed).subset he'))
    have hnew : q e = true ↔ e.1 = a := hq e (by simp)
    have hcount := ih fun e' he' => hq e' (List.mem_append_left _ he')
    rw [firstPerStamp_append]
    by_cases hqe : q e = true
    · have hany : (keyed ++ [e]).any q = true := by simp [hqe]
      rw [hany, if_pos rfl]
      by_cases hseen : keyed.any q = true
      · -- the mark is there already
        rw [hseen, if_pos rfl] at hcount
        obtain ⟨e', he', hqe'⟩ := List.countP_pos_iff.mp (by omega : 0 < (firstPerStamp keyed).countP q)
        have hdup : ((firstPerStamp keyed).any fun e' => e'.1.eq e.1) = true := by
          rw [List.any_eq_true]
          refine ⟨e', he', eq_iff.mpr ?_⟩
          rw [(hold e' he').mp hqe', hnew.mp hqe]
          exact ⟨rfl, ha⟩
        rw [if_pos hdup, hcount]
      · rw [if_neg hseen] at hcount
        have hfresh : ¬((firstPerStamp keyed).any fun e' => e'.1.eq e.1) = true := by
          intro hdup
          obtain ⟨e', he', heq⟩ := List.any_eq_true.mp hdup
          have hqe' : q e' = true := (hold e' he').mpr ((eq_iff.mp heq).1.trans (hnew.mp hqe))
          have hpos := List.countP_pos_iff.mpr ⟨e', he', hqe'⟩
          omega
        rw [if_neg hfresh, List.countP_append, hcount]
        simp [hqe]
    · have hany : (keyed ++ [e]).any q = keyed.any q := by simp [hqe]
      rw [hany, ← hcount]
      split
      · rfl
      · rw [List.countP_append]
        simp [hqe]

/-- The time stamp of an index that has one. -/
def Value.stampD (host : Host) (v : Value) : Float64 :=
  match v.stamp host with
  | .ok x => x
  | .error _ => .nan

/-- Samples that all have a time stamp are gathered: one for each stamp, in the order of the stamps,
and of these the last ones. -/
theorem gatherCurve_run {host : Host} (limit : ℕ) {samples : List CurveSample}
    (hstamp : ∀ s ∈ samples, s.index.stamp host = .ok (s.index.stampD host)) :
    gatherCurve host limit samples = .ok (RingBufferStore.lastItems limit
      (((firstPerStamp (samples.map fun s => (s.index.stampD host, s))).insertionSort
        fun a b => a.1.rank ≤ b.1.rank).map Prod.snd)) := by
  have hkeyed : (samples.mapM fun s : CurveSample => (s.index.stamp host).map fun x => (x, s)) =
      .ok (samples.map fun s => (s.index.stampD host, s)) :=
    mapM_eq_ok fun s hs => by rw [hstamp s hs]; rfl
  rw [gatherCurve, hkeyed]
  rfl

/-- **What is gathered for a curve**, when every sample has a time stamp and the limit does not
cut: the first sample of each time stamp, in some order. -/
theorem gatherCurve_perm {host : Host} {limit : ℕ} {samples : List CurveSample}
    (hstamp : ∀ s ∈ samples, s.index.stamp host = .ok (s.index.stampD host))
    (hfits : samples.length ≤ limit) :
    ∃ gathered, gatherCurve host limit samples = .ok gathered ∧
      gathered.Perm ((firstPerStamp (samples.map fun s => (s.index.stampD host, s))).map
        Prod.snd) := by
  have hlen : (firstPerStamp (samples.map fun s => (s.index.stampD host, s))).length ≤ limit := by
    have h := (firstPerStamp_sublist (samples.map fun s => (s.index.stampD host, s))).length_le
    rw [List.length_map] at h
    omega
  refine ⟨_, gatherCurve_run limit hstamp, ?_⟩
  rw [RingBufferStore.lastItems]
  split
  · exact (List.perm_insertionSort _ _).map _
  · rw [List.length_map, List.length_insertionSort, Nat.sub_eq_zero_of_le hlen, List.drop_zero]
    exact (List.perm_insertionSort _ _).map _

/-! ## 5. The rows of the sheet

The sheet is keyed by the index, not by its time stamp.  So a sample that has been gathered once is
entered once; one that has been gathered twice gets two rows, as its two indices are not equal. -/

/-- The rows after the samples `entries` have been entered, each under a mnemonic. -/
structure Entered (entries : List (Str × CurveSample)) (rows : Dict Value (Dict Str (Option Reading))) :
    Prop where
  distinct : Dict.Distinct rows
  index : ∀ r ∈ rows, ∃ e ∈ entries, r.1 = e.2.index
  cells : ∀ r ∈ rows, ∀ mnem, (Dict.get? r.2 mnem).isSome = true →
    ∃ s, (mnem, s) ∈ entries ∧ r.1 = s.index
  complete : ∀ e ∈ entries, (e.2.index == e.2.index) = true →
    ∃ r ∈ rows, r.1 = e.2.index ∧ (Dict.get? r.2 e.1).isSome = true

theorem Entered.nil : Entered [] [] := by
  constructor
  · exact Dict.distinct_nil
  · simp
  · simp
  · simp

/-- One more sample. -/
theorem Entered.enter {entries : List (Str × CurveSample)}
    {rows : Dict Value (Dict Str (Option Reading))} (h : Entered entries rows)
    (mnem : Str) (s : CurveSample) : Entered (entries ++ [(mnem, s)]) (enterSample mnem rows s) := by
  let cells := ((rows.get? s.index).getD []).set mnem s.cell
  have hrows : ∀ r ∈ enterSample mnem rows s, r = (s.index, cells) ∨
      r ∈ rows ∧ (r.1 == s.index) = false := fun r hr =>
    Dict.mem_of_mem_set Value.eq_of_beq h.distinct hr
  have hself : (s.index, cells) ∈ enterSample mnem rows s :=
    Dict.mem_set_self Value.eq_of_beq _ _ _
  -- the cells that the row of this index had
  have hcells : ∀ other, (Dict.get? cells other).isSome = true →
      other = mnem ∨ ∃ old, (s.index, old) ∈ rows ∧ (Dict.get? old other).isSome = true := by
    intro other hother
    by_cases hne : mnem = other
    · exact Or.inl hne.symm
    · rw [Dict.get?_set_of_ne hne] at hother
      cases hget : rows.get? s.index with
      | none => simp [hget, Dict.get?] at hother
      | some old =>
        rw [hget, Option.getD_some] at hother
        exact Or.inr ⟨old, Dict.get?_mem Value.eq_of_beq hget, hother⟩
  constructor
  · exact Dict.distinct_set h.distinct
  · intro r hr
    rcases hrows r hr with rfl | ⟨hr, -⟩
    · exact ⟨(mnem, s), by simp, rfl⟩
    · obtain ⟨e, he, hidx⟩ := h.index r hr
      exact ⟨e, by simp [he], hidx⟩
  · intro r hr other hother
    rcases hrows r hr with rfl | ⟨hr, -⟩
    · rcases hcells other hother with rfl | ⟨old, hold, hsome⟩
      · exact ⟨s, by simp, rfl⟩
      · obtain ⟨x, hx, hidx⟩ := h.cells _ hold other hsome
        exact ⟨x, by simp [hx], hidx⟩
    · obtain ⟨x, hx, hidx⟩ := h.cells r hr other hother
      exact ⟨x, by simp [hx], hidx⟩
  · intro e he hrefl
    rcases List.mem_append.mp he with he | he
    · obtain ⟨r, hr, hidx, hsome⟩ := h.complete e he hrefl
      by_cases heq : (r.1 == s.index) = true
      · -- its row is the one that was updated
        have hindex : s.index = e.2.index := (Value.eq_of_beq _ _ heq).symm.trans hidx
        refine ⟨_, hself, hindex, ?_⟩
        by_cases hne : mnem = e.1
        · rw [← hne, Dict.get?_set_self]
          rfl
        · rw [Dict.get?_set_of_ne hne]
          have hr1 : r.1 = s.index := Value.eq_of_beq _ _ heq
          have hget : rows.get? s.index = some r.2 :=
            Dict.get?_of_mem Value.eq_of_beq (hr1 ▸ heq) h.distinct (hr1 ▸ hr)
          rw [hget]
          exact hsome
      · exact ⟨r, Dict.mem_set_of_ne hr (by simpa using heq), hidx, hsome⟩
    · rw [List.mem_singleton.mp he]
      refine ⟨_, hself, rfl, ?_⟩
      rw [Dict.get?_set_self]
      rfl

theorem Entered.foldl (entries : List (Str × CurveSample)) :
    Entered entries (entries.foldl (fun rows e => enterSample e.1 rows e.2) []) := by
  induction entries using List.reverseRecOn with
  | nil => exact Entered.nil
  | append_singleton entries e ih =>
    rw [List.foldl_append]
    exact ih.enter e.1 e.2

/-- Two readings of one instant, whatever became of its zone. -/
def Value.sameInstant : Value → Value → Bool
  | .dt t, .dt t' => t.micros == t'.micros
  | _, _ => false

/-- The sample `x` is a reading of `s`. -/
def CurveSample.isReading (s x : CurveSample) : Bool :=
  decide (x.mnemonic = s.mnemonic) && s.index.sameInstant x.index

/-- The row holds a reading of `s`. -/
def CurveSample.inRow (s : CurveSample) (r : SheetRow) : Bool :=
  s.index.sameInstant r.1 && (Dict.get? r.2 s.mnemonic).isSome

/-- What is counted once is one element. -/
theorem exists_unique_of_countP {α : Type} {p : α → Bool} {l : List α} (h : l.countP p = 1) :
    ∃ z ∈ l, p z = true ∧ ∀ x ∈ l, p x = true → x = z := by
  rw [List.countP_eq_length_filter, List.length_eq_one_iff] at h
  obtain ⟨z, hz⟩ := h
  have hmem : ∀ x, x ∈ l ∧ p x = true ↔ x = z := fun x => by
    rw [← List.mem_filter, hz, List.mem_singleton]
  obtain ⟨hzl, hpz⟩ := (hmem z).mpr rfl
  exact ⟨z, hzl, hpz, fun x hx hpx => (hmem x).mp ⟨hx, hpx⟩⟩

/-- Under one key there is one row. -/
theorem length_le_one_of_distinct {rows : Dict Value (Dict Str (Option Reading))} {k : Value}
    (hrefl : (k == k) = true) (hd : Dict.Distinct rows) (hk : ∀ r ∈ rows, r.1 = k) :
    rows.length ≤ 1 := by
  match rows, hd, hk with
  | [], _, _ => simp
  | [r], _, _ => simp
  | r :: r' :: rest, hd, hk =>
    have hne := List.rel_of_pairwise_cons hd (List.mem_cons_self (a := r') (l := rest))
    rw [hk r (by simp), hk r' (by simp), hrefl] at hne
    exact absurd hne (by simp)

/-- An instant that is read in two ways is one that equals itself. -/
theorem sameInstant_refl_right {a b : Value} (h : a.sameInstant b = true) : (b == b) = true := by
  cases a <;> cases b <;> simp_all [Value.sameInstant, Value.beq_iff]

section Sheet

variable {host : Host} {curves : Dict Str (List CurveSample)}

/-- The samples of the present mnemonics, in the order in which they are entered. -/
def sheetEntries (curves : Dict Str (List CurveSample)) (present : List Str) :
    List (Str × CurveSample) :=
  present.flatMap fun mnem => ((curves.get? mnem).getD []).map fun x => (mnem, x)

/-- The entries are the samples of the present mnemonics. -/
theorem mem_sheetEntries {present : List Str} {mnem : Str} {x : CurveSample} :
    (mnem, x) ∈ sheetEntries curves present ↔
      mnem ∈ present ∧ x ∈ (curves.get? mnem).getD [] := by
  simp only [sheetEntries, List.mem_flatMap, List.mem_map, Prod.mk.injEq]
  constructor
  · rintro ⟨m, hm, y, hy, rfl, rfl⟩
    exact ⟨hm, hy⟩
  · rintro ⟨hm, hx⟩
    exact ⟨mnem, hm, x, hx, rfl, rfl⟩

theorem pivot_entered (present : List Str) :
    Entered (sheetEntries curves present) (pivot curves present) := by
  have h := Entered.foldl (sheetEntries curves present)
  simp only [sheetEntries, List.foldl_flatMap, List.foldl_map] at h
  exact h

/-- **The sheet is assembled** when every sample has a time stamp, and its rows are the pivoted
ones. -/
theorem assembleRows_perm (mnemonics : List Str) (indexLabel : Str)
    (hstamp : ∀ e ∈ curves, ∀ x ∈ e.2, x.index.stamp host = .ok (x.index.stampD host)) :
    ∃ columns rows units, assembleRows host curves mnemonics indexLabel =
      .ok (columns, rows, units) ∧ rows.Perm (pivot curves (presentMnemonics curves mnemonics)) := by
  have hkeyed : ((pivot curves (presentMnemonics curves mnemonics)).mapM fun row : SheetRow =>
      (row.1.stamp host).map fun x => (x, row)) = .ok ((pivot curves
        (presentMnemonics curves mnemonics)).map fun row => (row.1.stampD host, row)) := by
    refine mapM_eq_ok fun r hr => ?_
    obtain ⟨e, he, hidx⟩ := (pivot_entered _).index r hr
    obtain ⟨-, hx⟩ := mem_sheetEntries.mp he
    have hstamped : e.2.index.stamp host = .ok (e.2.index.stampD host) := by
      cases hc : curves.get? e.1 with
      | none => simp [hc] at hx
      | some xs =>
        rw [hc, Option.getD_some] at hx
        exact hstamp _ (Dict.get?_mem (fun _ _ => eq_of_beq) hc) e.2 hx
    rw [hidx, hstamped]
    rfl
  refine ⟨_, _, _, by rw [assembleRows, hkeyed]; rfl, ?_⟩
  refine ((List.perm_insertionSort _ _).map Prod.snd).trans (List.Perm.of_eq ?_)
  rw [List.map_map]
  exact List.map_id' _

/-- A curve with samples is present if it was asked for, or nothing was. -/
theorem mem_presentMnemonics {mnemonics : List Str} {mnem : Str} {samples : List CurveSample}
    (hget : curves.get? mnem = some samples) (hne : samples ≠ [])
    (hreq : mnemonics = [] ∨ mnem ∈ mnemonics) : mnem ∈ presentMnemonics curves mnemonics := by
  have hdata : decide ((curves.get? mnem).getD [] ≠ []) = true := by
    rw [decide_eq_true_eq, hget, Option.getD_some]
    exact hne
  have hkey : mnem ∈ curves.map Prod.fst :=
    List.mem_map_of_mem (Dict.get?_mem (fun _ _ => eq_of_beq) hget)
  rw [presentMnemonics]
  split
  · exact List.mem_filter.mpr ⟨hkey, hdata⟩
  · rename_i hnone
    refine List.mem_filter.mpr ⟨hreq.resolve_left ?_, hdata⟩
    rintro rfl
    exact hnone rfl

/-- **A sample gathered once stands in one row of the sheet.** -/
theorem assembleRows_inRow {mnemonics : List Str} {s : CurveSample} {gathered : List CurveSample}
    (indexLabel : Str) (hget : curves.get? s.mnemonic = some gathered)
    (hreq : mnemonics = [] ∨ s.mnemonic ∈ mnemonics)
    (hstamp : ∀ e ∈ curves, ∀ x ∈ e.2, x.index.stamp host = .ok (x.index.stampD host))
    (hmnem : ∀ x ∈ gathered, x.mnemonic = s.mnemonic)
    (hone : gathered.countP s.isReading = 1) :
    ∃ columns rows units, assembleRows host curves mnemonics indexLabel =
      .ok (columns, rows, units) ∧ rows.countP s.inRow = 1 := by
  obtain ⟨z, hz, hzr, huniq⟩ := exists_unique_of_countP hone
  have hinst : s.index.sameInstant z.index = true := by
    rw [CurveSample.isReading, Bool.and_eq_true] at hzr
    exact hzr.2
  obtain ⟨columns, rows, units, hrun, hperm⟩ := assembleRows_perm mnemonics indexLabel hstamp
  refine ⟨columns, rows, units, hrun, ?_⟩
  have hentered : Entered (sheetEntries curves (presentMnemonics curves mnemonics))
      (pivot curves (presentMnemonics curves mnemonics)) := pivot_entered _
  have hpresent := mem_presentMnemonics hget (List.ne_nil_of_mem hz) hreq
  rw [hperm.countP_eq, List.countP_eq_length_filter]
  generalize pivot curves (presentMnemonics curves mnemonics) = byIndex at hentered
  -- the rows that hold the sample have the index of its one reading
  have hindex : ∀ r ∈ byIndex.filter s.inRow, r.1 = z.index := by
    intro r hr
    obtain ⟨hr, hin⟩ := List.mem_filter.mp hr
    rw [CurveSample.inRow, Bool.and_eq_true] at hin
    obtain ⟨x, hx, hidx⟩ := hentered.cells r hr s.mnemonic hin.2
    have hxg : x ∈ gathered := by
      have h := (mem_sheetEntries.mp hx).2
      rwa [hget, Option.getD_some] at h
    rw [hidx] at hin ⊢
    rw [huniq x hxg (by rw [CurveSample.isReading, hmnem x hxg]; simpa using hin.1)]
  have hle : (byIndex.filter s.inRow).length ≤ 1 :=
    length_le_one_of_distinct (sameInstant_refl_right hinst)
      (hentered.distinct.sublist List.filter_sublist) hindex
  have hpos : 0 < (byIndex.filter s.inRow).length := by
    have hentry : (s.mnemonic, z) ∈ sheetEntries curves (presentMnemonics curves mnemonics) :=
      mem_sheetEntries.mpr ⟨hpresent, by rw [hget, Option.getD_some]; exact hz⟩
    obtain ⟨r, hr, hidx, hsome⟩ := hentered.complete _ hentry (sameInstant_refl_right hinst)
    refine List.length_pos_of_mem (List.mem_filter.mpr ⟨hr, ?_⟩)
    rw [CurveSample.inRow, hidx, hinst, hsome]
    rfl
  omega

end Sheet

/-! ## 6. One sample, one index

One sample of a time log, one row that ingestion wrote for it, and two readers.  What else the
table and the warm store hold is left open, as long as its time stamps are not the sample's. -/

/-- The row that ingestion wrote for a sample of a time log.  Its index is in the column for
instants, whose zone the driver may drop. -/
structure Persists (row : CurveSampleRow) (s : CurveSample) : Prop where
  mnemonic : row.mnemonic = s.mnemonic
  indexDt : row.indexDt = asDatetime s.index
  value : row.value = s.value
  text : row.text = s.text
  uom : row.uom = s.uom

/-- `_persist_samples` writes such a row. -/
theorem persists_sampleRow (serverId : ℤ) (header : LogHeader) {state : LogState} (s : CurveSample)
    (htime : state.indexType.isTime = true) :
    Persists (sampleRow serverId header state s) s := by
  constructor
  · rfl
  · simp [sampleRow, indexColumns, htime]
  · rfl
  · rfl
  · rfl

/-- An export that reads a sample from the warm store and from the history.  The instants were
ingested in UTC, the limit covers what was read, and every other reading has a time stamp that is
not the sample's. -/
structure Overlap (host : Host) (keepsZone : Bool) (s : CurveSample) where
  warm : List CurveSample
  history : List CurveSampleRow
  row : CurveSampleRow
  limit : ℕ
  inWarm : s ∈ warm
  inHistory : row ∈ history
  persists : Persists row s
  warmUtc : ∀ x ∈ warm, ∀ t, x.index = .dt t → t.aware = true
  historyUtc : ∀ r ∈ history, ∀ t, r.indexDt = some t → t.aware = true
  fits : warm.length + history.length ≤ limit
  curve : ∀ x ∈ warm ++ history.map fun r => rowToSample (r.read keepsZone),
    x.mnemonic = s.mnemonic
  apart : ∀ x ∈ warm ++ history.map fun r => rowToSample (r.read keepsZone),
    s.isReading x = false → ∃ b, x.index.stamp host = .ok b ∧ s.index.stamp host ≠ .ok b

/-- The samples of the curve that the export reads. -/
def Overlap.samples {host : Host} {keepsZone : Bool} {s : CurveSample}
    (o : Overlap host keepsZone s) : List CurveSample :=
  o.warm ++ o.history.map fun r => rowToSample (r.read keepsZone)

/-- **One sample, one index**: the history serves the sample as the warm store does, among the points
of its curve and whatever other rows there are, and an export that reads it from both gathers it once
and puts it in one row. -/
structure OneIndex (host : Host) (keepsZone : Bool) (s : CurveSample) : Prop where
  served : ∀ row, Persists row s →
    historyPoint host (row.read keepsZone) = (sampleToWire host s).map some
  inHistory : ∀ rows row curves, Persists row s → row.read keepsZone ∈ rows →
    getHistory host rows = .ok curves →
      ∃ p, sampleToWire host s = .ok p ∧ p ∈ (Dict.get? curves s.mnemonic).getD []
  gathered : ∀ o : Overlap host keepsZone s, ∃ samples,
    gatherCurve host o.limit o.samples = .ok samples ∧ samples.countP s.isReading = 1 ∧
      ∀ (curves : Dict Str (List CurveSample)) (mnemonics : List Str) (indexLabel : Str),
        curves.get? s.mnemonic = some samples → (mnemonics = [] ∨ s.mnemonic ∈ mnemonics) →
        (∀ e ∈ curves, ∀ x ∈ e.2, ∃ b, x.index.stamp host = .ok b) →
          ∃ columns rows units, assembleRows host curves mnemonics indexLabel =
            .ok (columns, rows, units) ∧ rows.countP s.inRow = 1

/-- An index that has a time stamp has this one. -/
theorem stampD_eq {host : Host} {v : Value} {b : Float64} (h : v.stamp host = .ok b) :
    v.stamp host = .ok (v.stampD host) := by
  rw [Value.stampD, h]

section OneIndex

variable {host : Host} {keepsZone : Bool} {s : CurveSample} {t : Datetime}

/-- What the driver makes of the instant of a persisted sample. -/
theorem Persists.read {row : CurveSampleRow} (h : Persists row s) (hs : s.index = .dt t)
    (ht : t.aware = true) :
    (row.read keepsZone).indexDt = some (if keepsZone then t else t.naive) := by
  rw [CurveSampleRow.read, h.indexDt, hs]
  cases t
  simp only at ht
  subst ht
  cases keepsZone <;> rfl

/-- The readings of a sample are instants with its wall time. -/
theorem eq_of_isReading {x : CurveSample} (hs : s.index = .dt t) (ht : t.aware = true)
    (h : s.isReading x = true) : x.index = .dt t ∨ x.index = .dt t.naive := by
  rw [CurveSample.isReading, Bool.and_eq_true, hs] at h
  cases hx : x.index with
  | num y => rw [hx] at h; exact absurd h.2 (by simp [Value.sameInstant])
  | text y => rw [hx] at h; exact absurd h.2 (by simp [Value.sameInstant])
  | dt u =>
    rw [hx] at h
    have hmicros : t.micros = u.micros := by simpa [Value.sameInstant] using h.2
    cases hu : u.aware with
    | true => exact Or.inl (by rw [Datetime.ext_micros hmicros (ht.trans hu.symm)])
    | false => exact Or.inr (by rw [Datetime.ext_micros (a := t.naive) hmicros hu.symm])

/-- The readings of an export are the instant as ingested and as the driver returns it. -/
theorem Overlap.index_eq (o : Overlap host keepsZone s) (hs : s.index = .dt t)
    (ht : t.aware = true) {x : CurveSample} (hx : x ∈ o.samples) (h : s.isReading x = true) :
    x.index = .dt t ∨ x.index = .dt (if keepsZone then t else t.naive) := by
  rcases List.mem_append.mp hx with hx | hx
  · refine (eq_of_isReading hs ht h).imp_right fun hnaive => ?_
    exact absurd (o.warmUtc x hx _ hnaive) (by simp [Datetime.naive])
  · obtain ⟨r, hr, rfl⟩ := List.mem_map.mp hx
    cases hdt : r.indexDt with
    | none =>
      have hidx : (rowToSample (r.read keepsZone)).index = .num (r.indexFloat.getD (.ofRatio 0 1)) := by
        simp [rowToSample, CurveSampleRow.read, hdt]
      rcases eq_of_isReading hs ht h with h' | h' <;> rw [hidx] at h' <;> exact absurd h' (by simp)
    | some u =>
      have haware : u.aware = true := o.historyUtc r hr u hdt
      have hidx : (rowToSample (r.read keepsZone)).index =
          .dt { u with aware := u.aware && keepsZone } := by
        simp [rowToSample, CurveSampleRow.read, hdt]
      cases keepsZone with
      | true =>
        refine (eq_of_isReading hs ht h).imp_right fun hnaive => ?_
        rw [hidx, Value.dt.injEq] at hnaive
        exact absurd (congrArg Datetime.aware hnaive) (by simp [haware, Datetime.naive])
      | false => exact eq_of_isReading hs ht h

/-- If the two readings have one time stamp, the sample has one index.  The history serves a point
with the same number, the export drops the second reading as a repetition of the first, and the
sheet gets one row. -/
theorem oneIndex_of_stamp (hs : s.index = .dt t) (ht : t.aware = true)
    (h : (if keepsZone then t else t.naive).timestamp? host = t.timestamp? host) :
    OneIndex host keepsZone s := by
  have hstamp : s.index.stamp host = .ok t.utcTimestamp := by
    rw [hs, Value.stamp, Datetime.timestamp?, if_pos ht]
    rfl
  have hstampRead : (Value.dt (if keepsZone then t else t.naive)).stamp host =
      .ok t.utcTimestamp := by
    rw [Value.stamp, h, Datetime.timestamp?, if_pos ht]
    rfl
  have hnan : t.utcTimestamp ≠ .nan := Float64.ofUnits_ne_nan _ _
  have hserved : ∀ row, Persists row s →
      historyPoint host (row.read keepsZone) = (sampleToWire host s).map some := by
    intro row hrow
    rw [historyPoint, hrow.read hs ht]
    simp only [sampleToWire, hs, Value.wireIndex, hstampRead, Except.map]
    rw [hs] at hstamp
    rw [hstamp]
    simp only [CurveSampleRow.read, hrow.value, hrow.text, hrow.uom]
  refine ⟨hserved, fun rows row curves hrow hmem hrun => ?_, ?_⟩
  · have hwire : ∃ p, sampleToWire host s = .ok p := by
      rw [sampleToWire, hs, Value.wireIndex, ← hs, hstamp]
      exact ⟨_, rfl⟩
    obtain ⟨p, hp⟩ := hwire
    have hpoint : pointOf host (row.read keepsZone) = some p := by
      rw [pointOf, hserved row hrow, hp]
      rfl
    refine ⟨p, hp, ?_⟩
    rw [getHistory_points hrun]
    refine List.mem_filterMap.mpr ⟨_, List.mem_filter.mpr ⟨hmem, ?_⟩, hpoint⟩
    exact decide_eq_true hrow.mnemonic
  · intro o
    have hreading : ∀ x ∈ o.samples, s.isReading x = true →
        x.index.stamp host = .ok t.utcTimestamp := by
      intro x hx hr
      rcases o.index_eq hs ht hx hr with hidx | hidx
      · rw [hidx, ← hs, hstamp]
      · rw [hidx, hstampRead]
    have hall : ∀ x ∈ o.samples, x.index.stamp host = .ok (x.index.stampD host) := by
      intro x hx
      cases hr : s.isReading x with
      | true => exact stampD_eq (hreading x hx hr)
      | false =>
        obtain ⟨b, hb, -⟩ := o.apart x hx hr
        exact stampD_eq hb
    obtain ⟨samples, hrun, hperm⟩ := gatherCurve_perm hall
      (show o.samples.length ≤ o.limit by
        rw [Overlap.samples, List.length_append, List.length_map]
        exact o.fits)
    have hmarked : ∀ e ∈ o.samples.map fun x => (x.index.stampD host, x),
        s.isReading e.2 = true ↔ e.1 = t.utcTimestamp := by
      intro e he
      obtain ⟨x, hx, rfl⟩ := List.mem_map.mp he
      constructor
      · intro hr
        have heq := (hall x hx).symm.trans (hreading x hx hr)
        exact Except.ok.inj heq
      · intro heq
        by_contra hr
        obtain ⟨b, hb, hne⟩ := o.apart x hx (by simpa using hr)
        refine hne ?_
        rw [hstamp, ← hb, hall x hx]
        exact congrArg Except.ok heq.symm
    have hcount : samples.countP s.isReading = 1 := by
      rw [hperm.countP_eq, List.countP_map]
      have h1 := countP_firstPerStamp (q := s.isReading ∘ Prod.snd) hnan hmarked
      rw [h1, if_pos]
      rw [List.any_map, List.any_eq_true]
      refine ⟨s, List.mem_append_left _ o.inWarm, ?_⟩
      simp [CurveSample.isReading, hs, Value.sameInstant]
    refine ⟨samples, hrun, hcount, fun curves mnemonics indexLabel hget hreq hstamps => ?_⟩
    refine assembleRows_inRow indexLabel hget hreq (fun e he x hx => ?_) (fun x hx => ?_) hcount
    · obtain ⟨b, hb⟩ := hstamps e he x hx
      exact stampD_eq hb
    · obtain ⟨e, he, rfl⟩ := List.mem_map.mp (hperm.subset hx)
      obtain ⟨y, hy, rfl⟩ := List.mem_map.mp ((firstPerStamp_sublist _).subset he)
      exact o.curve y hy

/-- The row of a sample, in the columns that the readers look at. -/
def bareRow (s : CurveSample) : CurveSampleRow where
  serverId := 1
  wellUid := []
  wellboreUid := []
  logUid := []
  mnemonic := s.mnemonic
  indexFloat := none
  indexDt := asDatetime s.index
  value := s.value
  text := s.text
  uom := s.uom

/-- The smallest export that reads a sample twice. -/
def Overlap.smallest (host : Host) (keepsZone : Bool) (hs : s.index = .dt t)
    (ht : t.aware = true) : Overlap host keepsZone s where
  warm := [s]
  history := [bareRow s]
  row := bareRow s
  limit := 2
  inWarm := by simp
  inHistory := by simp
  persists := ⟨rfl, rfl, rfl, rfl, rfl⟩
  warmUtc := by
    intro x hx u hu
    rw [List.mem_singleton.mp hx, hs, Value.dt.injEq] at hu
    exact hu ▸ ht
  historyUtc := by
    intro r hr u hu
    rw [List.mem_singleton.mp hr, bareRow, hs] at hu
    exact Option.some.inj hu ▸ ht
  fits := by simp
  curve := by simp [rowToSample, CurveSampleRow.read, bareRow]
  apart := by
    intro x hx h
    rw [List.map_singleton, List.singleton_append] at hx
    rcases List.mem_cons.mp hx with rfl | hx
    · simp [CurveSample.isReading, hs, Value.sameInstant] at h
    · rw [List.mem_singleton.mp hx] at h
      simp [CurveSample.isReading, rowToSample, CurveSampleRow.read, bareRow, hs, asDatetime,
        Value.sameInstant] at h

/-- In the smallest export a sample with two time stamps is gathered twice.  So where a sample has
one index, its two readings have one time stamp. -/
theorem OneIndex.stamp_eq (h : OneIndex host keepsZone s) (hs : s.index = .dt t)
    (ht : t.aware = true) :
    (if keepsZone then t else t.naive).timestamp? host = t.timestamp? host := by
  let x := rowToSample ((bareRow s).read keepsZone)
  obtain ⟨samples, hrun, hcount, -⟩ := h.gathered (Overlap.smallest host keepsZone hs ht)
  have hpair : (Overlap.smallest host keepsZone hs ht).samples = [s, x] := rfl
  have hx : x.index = .dt (if keepsZone then t else t.naive) := by
    have hread : ((bareRow s).read keepsZone).indexDt = some (if keepsZone then t else t.naive) :=
      (Overlap.smallest host keepsZone hs ht).persists.read hs ht
    simp only [x, rowToSample]
    change (match ((bareRow s).read keepsZone).indexDt with | some t => Value.dt t | none => _) = _
    rw [hread]
  have hts : t.timestamp? host = some t.utcTimestamp := if_pos ht
  have hstamp : s.index.stamp host = .ok t.utcTimestamp := by
    rw [hs, Value.stamp, hts]
    rfl
  rw [hts]
  cases hr : (if keepsZone then t else t.naive).timestamp? host with
  | none =>
    -- the history's reading has no time stamp: nothing is gathered
    have hfail : x.index.stamp host = .error .valueError := by
      rw [hx, Value.stamp, hr]
      rfl
    rw [gatherCurve, hpair, List.mapM_cons, List.mapM_cons, hstamp, hfail] at hrun
    exact absurd hrun (by simp [bind, Except.bind, Except.map])
  | some b =>
    by_contra hne
    have hok : x.index.stamp host = .ok b := by
      rw [hx, Value.stamp, hr]
      rfl
    have hall : ∀ y ∈ [s, x], y.index.stamp host = .ok (y.index.stampD host) := by
      intro y hy
      rcases List.mem_cons.mp hy with rfl | hy
      · exact stampD_eq hstamp
      · rw [List.mem_singleton.mp hy]
        exact stampD_eq hok
    obtain ⟨samples', hrun', hperm⟩ := gatherCurve_perm hall (le_refl 2)
    rw [hpair] at hrun
    obtain rfl := Except.ok.inj (hrun.symm.trans hrun')
    have hs1 : s.index.stampD host = t.utcTimestamp := by rw [Value.stampD, hstamp]
    have hx1 : x.index.stampD host = b := by rw [Value.stampD, hok]
    have hdiff : t.utcTimestamp.eq b = false := by
      rw [Bool.eq_false_iff]
      intro heq
      exact hne (by rw [(eq_iff.mp heq).1])
    have hboth : firstPerStamp ([s, x].map fun y => (y.index.stampD host, y)) =
        [(t.utcTimestamp, s), (b, x)] := by
      simp [firstPerStamp, hs1, hx1, hdiff]
    rw [hperm.countP_eq, hboth] at hcount
    have hsr : s.isReading s = true := by simp [CurveSample.isReading, hs, Value.sameInstant]
    have hxr : s.isReading x = true := by
      have hmn : x.mnemonic = s.mnemonic := rfl
      rw [CurveSample.isReading, hmn, hs, hx]
      cases keepsZone <;> simp [Value.sameInstant, Datetime.naive]
    simp [hsr, hxr] at hcount

/-- **Warm and durable reads give a sample one index exactly if the driver keeps the time zone, or
the host is in UTC** and its way of reading a naive instant rounds alike.

The two further conditions are on the one instant, and both are met but in corners: the platform
has no local time before the second day of the year 1, and adding the microseconds to the seconds
may round otherwise than dividing all of them by a million, within a few hours of the epoch. -/
theorem oneIndex_iff (host : Host) (keepsZone : Bool) (hs : s.index = .dt t)
    (ht : t.aware = true) : OneIndex host keepsZone s ↔
      keepsZone = true ∨ (host.utcOffset = 0 ∧ 86400 ≤ t.seconds ∧ t.RoundsAlike) := by
  rw [← Datetime.timestamp?_naive_iff host ht]
  constructor
  · intro h
    cases keepsZone with
    | true => exact Or.inl rfl
    | false => exact Or.inr (h.stamp_eq hs ht)
  · rintro (rfl | h)
    · exact oneIndex_of_stamp hs ht rfl
    · cases keepsZone with
      | true => exact oneIndex_of_stamp hs ht rfl
      | false => exact oneIndex_of_stamp hs ht h

end OneIndex

/-- Midday on 2024-01-01, in UTC. -/
def midday : Datetime := ⟨63839707200000000, by decide, true⟩

def middaySample : CurveSample := ⟨"ROP".toList, .dt midday, some (.ofRatio 1 1), none, none⟩

/-- A host one hour east of UTC. -/
def eastHost : Host := ⟨3600, by decide⟩

/-- **Through a driver that drops the zone, a host off UTC reads one sample as two**: the history
serves it an hour earlier, and the export lists it twice. -/
theorem oneIndex_fails_off_utc :
    ¬OneIndex eastHost false middaySample ∧
      (historyPoint eastHost ((bareRow middaySample).read false)).toOption.join.map WirePoint.i =
        some (.ofRatio 1704106800000 1) ∧
      (sampleToWire eastHost middaySample).toOption.map WirePoint.i =
        some (.ofRatio 1704110400000 1) := by
  refine ⟨fun h => ?_, by decide +kernel, by decide +kernel⟩
  have hstamp := h.stamp_eq rfl rfl
  exact absurd hstamp (by decide +kernel)

/-- With a driver that keeps it the sample has one index, on the same host. -/
theorem oneIndex_iff_middaySample : OneIndex eastHost true middaySample ↔
    true = true ∨ (eastHost.utcOffset = 0 ∧ 86400 ≤ midday.seconds ∧ midday.RoundsAlike) :=
  oneIndex_iff eastHost true rfl rfl

end WitsmlViewer

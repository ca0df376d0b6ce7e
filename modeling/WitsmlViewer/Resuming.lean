/-
# Resuming a time log from a rendered cursor

The cursor of a log is compared exactly, but it is asked for as `isoUtc` renders it: cut to the
millisecond.  The cut moves the start of the request towards the past.  For a log that grows
towards the future that is the safe side, and the request returns a few rows again.  For one that
grows towards the past the request starts beyond the cursor, and what lies between the two is not
in any later request.

`resumes_iff` says which cursors lose nothing.

The loss is for good.  The rows in between are beyond the cursor, so they have not been handed on;
no request asks for them while the cursor stays, and once it moves on it moves away from them.
Rounding up for a decreasing log, or asking from the next millisecond, would close the gap; the
builder does neither, as it does not look at the direction.

Only time logs are concerned.  A depth is rendered by its shortest text, which reads back exactly.
-/
import WitsmlViewer.Coverage

namespace WitsmlViewer

open Py GrowingTable

/-! ## 1. The range of a request

The request is the one that `logDataQuery` builds from the cursor, and the range is computed by the
store from the texts in it.  The page cap plays no part: what is not in the range is on no page. -/

/-- The rows that `_select_rows` selects for the range of a query, before the page cap. -/
def StoredLog.rowsInRange (log : StoredLog) (q : LogQuery) : Except PyError (Dict Value StoredRow) := do
  let (start, stop) ← queryRange q log.indexType
  let ordered ← log.sortedIndices log.direction
  StoredLog.withinRange start stop log.direction ordered

/-- An index between a cursor and the millisecond that the cursor is rendered as.  There is one
if and only if the cursor has microseconds and the log has a row below it within the same
millisecond. -/
def CutOff (cursor i : Value) : Prop := (wire cursor).rank < i.rank ∧ i.rank < cursor.rank

instance (cursor i : Value) : Decidable (CutOff cursor i) :=
  inferInstanceAs (Decidable (_ ∧ _))

/-- Every row of the log that is strictly beyond the cursor is in the range of the query. -/
def StoredLog.ResumesFrom (log : StoredLog) (cursor : Value) (q : LogQuery) : Prop :=
  ∃ rows, log.rowsInRange q = .ok rows ∧ ∀ e ∈ log.rows.entries,
    WitsmlViewer.isBeyond e.1 cursor log.direction = .ok true → e ∈ rows

section

variable {log : StoredLog} {c : Entry} {q : LogQuery}

/-- The indices of a time log are instants, so none of them is `nan`. -/
theorem orderable_of_isTime (ht : log.indexType.isTime = true) : log.Orderable := by
  intro e he hnan
  have hkind := (log.rows.rowOk e he).ofKind
  rw [hnan] at hkind
  exact absurd ht (by rw [hkind]; decide)

/-- The range of a resuming request starts at the rendered cursor.  It has no end, and the filter
raises for no row. -/
theorem rowsInRange_resume (ho : log.Orderable) (hc : c ∈ log.rows.entries)
    {uidWell uidWellbore uid : Str} {mnemonics : List Str} {uom : Option Str} {maxNodes : Option ℤ}
    (hq : logDataQuery uidWell uidWellbore uid mnemonics log.indexType (some c.1) none uom maxNodes =
      .ok q) :
    log.rowsInRange q = .ok (log.table.filter fun e =>
      decide (growthKey log.direction (wire c.1) ≤ growthKey log.direction e.1)) := by
  have horder := ho.orders hc
  have haware : (aware c.1).Orders log.indexType := by rwa [aware_of_orders horder]
  have hwire := wire_orders haware
  have hbound : BoundOk log.indexType (some (wire c.1)) := by
    intro v hv
    rw [← Option.some.inj hv]
    exact hwire.ofKind
  have hrange : queryRange q log.indexType = .ok (some (wire c.1), none) := by
    rw [(queryRange_request hq).1, servedBound_of_orders haware, servedBound_none]
    rfl
  have hrows : StoredLog.withinRange (some (wire c.1)) none log.direction log.table =
      .ok (log.table.filter fun e =>
        decide (growthKey log.direction (wire c.1) ≤ growthKey log.direction e.1)) := by
    rw [withinRange_eq hbound (fun v hv => absurd hv (by simp)) _
      fun e he => ho.orders (StoredLog.mem_table.mp he)]
    refine congrArg Except.ok (List.filter_congr fun e _ => ?_)
    simp only [startKey, hwire.ne_nan, if_false, WithBot.coe_le_coe, withinStop, Bool.and_true]
  unfold StoredLog.rowsInRange
  rw [hrange, StoredLog.sortedIndices_eq ho]
  exact hrows

/-! ## 2. What is never asked for again

For a decreasing log, "beyond the cursor" means earlier.  A row is skipped if and only if it is
earlier than the cursor and later than the start of the request. -/

/-- **A resumed time log skips no row exactly when** it grows towards the future, or none of its
rows lies between the cursor and the millisecond below it.

The condition is about the rows that the log has at the time of the request, and about the cursor.
A row that is written into the gap later is covered by the next request's instance of the
statement. -/
theorem resumes_iff (ht : log.indexType.isTime = true) (hc : c ∈ log.rows.entries)
    {uidWell uidWellbore uid : Str} {mnemonics : List Str} {uom : Option Str} {maxNodes : Option ℤ}
    (hq : logDataQuery uidWell uidWellbore uid mnemonics log.indexType (some c.1) none uom maxNodes =
      .ok q) :
    log.ResumesFrom c.1 q ↔
      log.direction = .increasing ∨ ∀ e ∈ log.rows.entries, ¬CutOff c.1 e.1 := by
  have ho := orderable_of_isTime ht
  have hrows := rowsInRange_resume ho hc hq
  have hfloor := rank_wire_le c.1
  have haware : (aware c.1).Orders log.indexType := by
    rw [aware_of_orders (ho.orders hc)]
    exact ho.orders hc
  have hbeyond : ∀ e ∈ log.rows.entries, isBeyond e.1 c.1 log.direction = .ok true ↔
      growthKey log.direction c.1 < growthKey log.direction e.1 := by
    intro e he
    rw [isBeyond_eq (ho.orders he) haware, Except.ok.injEq, decide_eq_true_eq]
  have hmem : ∀ e, e ∈ log.table.filter (fun e =>
      decide (growthKey log.direction (wire c.1) ≤ growthKey log.direction e.1)) ↔
      e ∈ log.rows.entries ∧ growthKey log.direction (wire c.1) ≤ growthKey log.direction e.1 := by
    intro e
    rw [List.mem_filter, StoredLog.mem_table, decide_eq_true_eq]
  constructor
  · rintro ⟨rows, hrun, hall⟩
    rw [hrows, Except.ok.injEq] at hrun
    subst hrun
    cases hd : log.direction with
    | increasing => exact Or.inl rfl
    | decreasing =>
      refine Or.inr fun e he hcut => ?_
      have hin := ((hmem e).mp (hall e he ((hbeyond e he).mpr ?_))).2
      · rw [hd] at hin
        simp only [growthKey] at hin
        have := hcut.1
        omega
      · rw [hd]
        simp only [growthKey]
        have := hcut.2
        omega
  · intro hcond
    refine ⟨_, hrows, fun e he hlt => (hmem e).mpr ⟨he, ?_⟩⟩
    have hlt := (hbeyond e he).mp hlt
    cases hd : log.direction with
    | increasing =>
      rw [hd] at hlt
      simp only [growthKey] at hlt ⊢
      omega
    | decreasing =>
      -- a row on the far side of the cursor is past the cut as well
      have hcut := (hcond.resolve_left (by rw [hd]; decide)) e he
      rw [hd] at hlt
      simp only [CutOff, growthKey, not_and_or] at hcut hlt ⊢
      omega

end

/-! ## 3. Two rows within one millisecond

The smallest log that loses a row. -/

/-- A decreasing time log with two rows half a millisecond apart, the earlier one the newer. -/
def halfMillisApart : StoredLog :=
  MockStore.updatedLog (logElem "L" .dateTime .decreasing ["TIME", "GR"]
    ["2024-01-01T00:00:00.000700Z,1", "2024-01-01T00:00:00.000200Z,2"])
    (MockStore.logOfElem (logElem "L" .dateTime .decreasing ["TIME", "GR"] []))

/-- A row of one of these logs, by its token and its only other cell. -/
def timedRow (token cell : String) : Entry :=
  ⟨indexOf .dateTime token, ⟨token.toList, [cell.toList]⟩⟩

/-- The request that resumes after the first row. -/
def resumeAfterFirst : LogQuery where
  uidWell := "W".toList
  uidWellbore := "B".toList
  uid := "L".toList
  startDateTimeIndex := some "2024-01-01T00:00:00.000Z".toList
  mnemonics := ["TIME".toList, "GR".toList]
  options := { returnElements := .dataOnly }

theorem resumeAfterFirst_eq : logDataQuery "W".toList "B".toList "L".toList
    ["TIME".toList, "GR".toList] halfMillisApart.indexType
    (some (timedRow "2024-01-01T00:00:00.000700Z" "1").1) none none none = .ok resumeAfterFirst := by
  decide +kernel

theorem halfMillisApart_mem : timedRow "2024-01-01T00:00:00.000700Z" "1" ∈
    halfMillisApart.rows.entries ∧
      timedRow "2024-01-01T00:00:00.000200Z" "2" ∈ halfMillisApart.rows.entries := by
  have hrows : halfMillisApart.rows.entries = [timedRow "2024-01-01T00:00:00.000700Z" "1",
      timedRow "2024-01-01T00:00:00.000200Z" "2"] := by decide +kernel
  rw [hrows]
  exact ⟨List.mem_cons_self, by simp⟩

/-- The second row is beyond the first one, and not in the range of the request that resumes there. -/
theorem half_millis_skipped : halfMillisApart.indexType = .dateTime ∧
    timedRow "2024-01-01T00:00:00.000700Z" "1" ∈ halfMillisApart.rows.entries ∧
    logDataQuery "W".toList "B".toList "L".toList ["TIME".toList, "GR".toList]
      halfMillisApart.indexType (some (timedRow "2024-01-01T00:00:00.000700Z" "1").1) none none none =
        .ok resumeAfterFirst ∧
    ¬halfMillisApart.ResumesFrom (timedRow "2024-01-01T00:00:00.000700Z" "1").1 resumeAfterFirst := by
  refine ⟨rfl, halfMillisApart_mem.1, resumeAfterFirst_eq, fun h => ?_⟩
  obtain ⟨rows, hrun, hall⟩ := h
  rw [rowsInRange_resume (orderable_of_isTime rfl) halfMillisApart_mem.1 resumeAfterFirst_eq,
    Except.ok.injEq] at hrun
  have hin := hall _ halfMillisApart_mem.2 (by decide +kernel)
  rw [← hrun, List.mem_filter] at hin
  exact absurd hin.2 (by decide +kernel)

theorem resumes_iff_half_millis :
    halfMillisApart.ResumesFrom (timedRow "2024-01-01T00:00:00.000700Z" "1").1 resumeAfterFirst ↔
      halfMillisApart.direction = .increasing ∨ ∀ e ∈ halfMillisApart.rows.entries,
        ¬CutOff (timedRow "2024-01-01T00:00:00.000700Z" "1").1 e.1 :=
  resumes_iff rfl halfMillisApart_mem.1 resumeAfterFirst_eq

end WitsmlViewer

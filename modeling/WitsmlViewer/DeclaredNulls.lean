/-
# Declared null values

A log declares its null value in its header, and a curve may declare one of its own.  The poll of a
log asks for data only, its answer carries no header, and nothing hands the declared null to the
parser: it knows the common sentinels and no other.  So a cell that holds a declared null becomes a
reading unless it is blank or a common sentinel (`declared_null_handed`), and `nulls_kept_iff` says
that this is the only way to go wrong.

The parser has a parameter for the declared null (`headerNull`), and the README promises that each
log's declared null value is converted; the client calls the parser without it.  That is the
defect, and it takes effect for every log whose null is not one of the sentinels that the parser
knows anyway.

The condition `NullsCommon` is about the stored rows and the header, not about what a call makes of
them.  It is sufficient for every call of every run.  It is necessary too, for a call that has
fetched everything beyond its start: then a null that is no common sentinel is in a row that the
call hands on.
-/
import WitsmlViewer.LateCells

namespace WitsmlViewer

open Py GrowingTable Runs

/-! ## 1. Cells and their nulls

A null is a text, and it is compared with the text of a cell after stripping, on the client as in
the store.  What is compared here is the cell as it is sent in its line, since a row may have been
stored with fewer cells than the log has columns, and the store fills it up. -/

namespace StoredLog

/-- The null that applies to a column: its curve's own, when declared, otherwise the log's. -/
def nullFor (log : StoredLog) (col : ℕ) : Str :=
  ((log.curves[col]?).bind fun c => c.nullValue.filter (· ≠ [])).getD log.nullValue

/-- The names that the columns of the log's data have for the client. -/
def columnNames (log : StoredLog) : List Str := log.columns.getD []

/-- The text of a cell of a stored row, in the line that is sent for it. -/
def cellText (e : Entry) (col : ℕ) : Option Str := (split ',' e.2.line)[col]?

/-- The cell holds the null of its column.  A curve that declares no null has that of the log, as
the comment in the constants says. -/
def HoldsNull (log : StoredLog) (e : Entry) (col : ℕ) : Prop :=
  (cellText e col).map strip = some (strip (log.nullFor col))

/-- The sample is the reading of this cell. -/
def ComesFrom (log : StoredLog) (x : CurveSample) (e : Entry) (col : ℕ) : Prop :=
  x.index = e.1 ∧ 1 ≤ col ∧ log.columnNames[col]? = some x.mnemonic ∧
    ((cellText e col).bind (decodeReading commonNullSentinels)).map Reading.parts =
      some (x.value, x.text)

/-- No sample comes from a cell that holds the null of its column.  It says nothing of cells that
hold another column's null, which are readings. -/
def NullsKept (log : StoredLog) (samples : List CurveSample) : Prop :=
  ∀ x ∈ samples, ∀ e ∈ log.table, ∀ col < log.columnNames.length,
    log.ComesFrom x e col → ¬log.HoldsNull e col

/-- Every null in a readable row beyond the cursor is blank or a common sentinel. -/
def NullsCommon (log : StoredLog) (start : Option Value) : Prop :=
  ∀ e ∈ log.table, visible e = true → log.isBeyond start e = true →
    ∀ col < log.columnNames.length, 1 ≤ col → log.HoldsNull e col →
      strip (log.nullFor col) = [] ∨ strip (log.nullFor col) ∈ commonNullSentinels

instance (log : StoredLog) (e : Entry) (col : ℕ) : Decidable (log.HoldsNull e col) :=
  inferInstanceAs (Decidable (_ = _))

instance (log : StoredLog) (x : CurveSample) (e : Entry) (col : ℕ) :
    Decidable (log.ComesFrom x e col) :=
  inferInstanceAs (Decidable (_ ∧ _ ∧ _ ∧ _))

instance (log : StoredLog) (samples : List CurveSample) : Decidable (log.NullsKept samples) :=
  inferInstanceAs (Decidable (∀ x ∈ samples, ∀ e ∈ log.table, ∀ col < log.columnNames.length, _))

variable {log : StoredLog} {e : Entry} {col : ℕ}

/-- A cell is no reading exactly if it is blank or a common sentinel. -/
theorem decodeReading_eq_none {raw : Str} :
    decodeReading commonNullSentinels raw = none ↔
      strip raw = [] ∨ strip raw ∈ commonNullSentinels := by
  simp only [decodeReading]
  split
  · rename_i hnull
    exact ⟨fun _ => hnull.symm, fun _ => rfl⟩
  · rename_i hnull
    refine ⟨fun hnone => ?_, fun hor => absurd hor.symm hnull⟩
    split at hnone <;> exact absurd hnone (by simp)

/-- The reading of a named cell is one of its row's readings. -/
theorem mem_readings {name raw : Str} {reading : Reading} (hcol : 1 ≤ col)
    (hname : log.columnNames[col]? = some name) (hraw : cellText e col = some raw)
    (hread : decodeReading commonNullSentinels raw = some reading) :
    (name, e.1, reading.parts) ∈ log.readings e := by
  obtain ⟨k, rfl⟩ : ∃ k, col = k + 1 := ⟨col - 1, by omega⟩
  have hcell : (decodedRow e).cells[k]? = some (some reading) := by
    have hraw' : ((split ',' e.2.line).drop 1)[k]? = some raw := by
      rw [List.getElem?_drop, Nat.add_comm]
      exact hraw
    rw [decodedRow, List.getElem?_map, hraw', Option.map_some, hread]
  have hname' : ((log.columns.getD []).drop 1)[k]? = some name := by
    rw [List.getElem?_drop, Nat.add_comm]
    exact hname
  refine List.mem_filterMap.mpr ⟨(name, some reading), ?_, rfl⟩
  refine List.mem_of_getElem? (i := k) ?_
  rw [List.getElem?_zip_eq_some]
  exact ⟨hname', hcell⟩

end StoredLog

/-! ## 2. A completed call

Both directions for one call.  A sample comes from a row of its block, the row is a stored one, and
its cells decode under the common sentinels alone. -/

section Completed

variable {cfg : Settings} {serverId : ℤ} {h : LogHeader} {s s' : Engine} {log : StoredLog}
  {f : Flight} {got : List Entry} {lo : Option Value} {result : LogDataResult}
  {cursor : Option Value}

/-- **A sample that comes from a cell comes from a readable row beyond the cursor.**  Its index is
that of one stored row only. -/
theorem Engine.Completes.row_of_sample
    (hi : s.Inv cfg serverId (coveredPages cfg.maxReturnNodes) h log)
    (hc : Engine.Completes cfg serverId (coveredPages cfg.maxReturnNodes) h log s s' f got lo result
      cursor) {x : CurveSample}
    (hx : x ∈ newSamples result.block log.direction (pollState serverId h s.warm).lastIndex)
    {e : Entry} (he : e ∈ log.table) (hindex : x.index = e.1) :
    visible e = true ∧ log.isBeyond (pollState serverId h s.warm).lastIndex e = true := by
  obtain ⟨row, hrow, hx⟩ := List.mem_flatMap.mp hx
  obtain ⟨hrow, hbeyond⟩ := List.mem_filter.mp hrow
  obtain ⟨g, hg, hv, rfl⟩ := hc.row_stored hrow
  have hgx : g.1 = x.index :=
    (decodedRow_index_eq_some.mp (index_of_mem_samplesOf hx)).2
  have hge : g = e := (log.table_ordered hi.disciplined).eq_of_key hg he
    (by rw [StoredLog.entryKey, StoredLog.entryKey, hgx, hindex])
  subst hge
  rw [beyond_decodedRow hv] at hbeyond
  exact ⟨hv, hbeyond⟩

/-- If the nulls beyond the cursor are common ones, no sample comes from a null: such a cell
decodes to nothing. -/
theorem Engine.Completes.nullsKept
    (hi : s.Inv cfg serverId (coveredPages cfg.maxReturnNodes) h log)
    (hc : Engine.Completes cfg serverId (coveredPages cfg.maxReturnNodes) h log s s' f got lo result
      cursor)
    (hcommon : log.NullsCommon (pollState serverId h s.warm).lastIndex) :
    log.NullsKept
      (newSamples result.block log.direction (pollState serverId h s.warm).lastIndex) := by
  intro x hx e he col hcol ⟨hindex, hpos, hname, hread⟩ hnull
  obtain ⟨hv, hbeyond⟩ := hc.row_of_sample hi hx he hindex
  obtain ⟨raw, hraw, hstrip⟩ := Option.map_eq_some_iff.mp hnull
  have hnone : decodeReading commonNullSentinels raw = none := by
    rw [StoredLog.decodeReading_eq_none, hstrip]
    exact hcommon e he hv hbeyond col hcol hpos hnull
  rw [hraw, Option.bind_some, hnone] at hread
  exact absurd hread (by simp)

/-- Conversely, a null that decodes to something is handed on by a complete fetch, as the reading
that it decodes to. -/
theorem Engine.Completes.nullsCommon
    (hi : s.Inv cfg serverId (coveredPages cfg.maxReturnNodes) h log)
    (hc : Engine.Completes cfg serverId (coveredPages cfg.maxReturnNodes) h log s s' f got lo result
      cursor)
    (hfloor : log.FloorsSafely) (hcode : (if (log.page lo none f.task.call.maxReturnNodes).2 then rcPartialSuccess
      else rcSuccess) = rcSuccess)
    (hkept : log.NullsKept
      (newSamples result.block log.direction (pollState serverId h s.warm).lastIndex)) :
    log.NullsCommon (pollState serverId h s.warm).lastIndex := by
  intro e he hv hbeyond col hcol hpos hnull
  obtain ⟨raw, hraw, hstrip⟩ := Option.map_eq_some_iff.mp hnull
  rw [← hstrip, ← StoredLog.decodeReading_eq_none]
  by_contra hsome
  obtain ⟨reading, hread⟩ := Option.ne_none_iff_exists'.mp hsome
  obtain ⟨name, hname⟩ : ∃ name, log.columnNames[col]? = some name :=
    ⟨_, List.getElem?_eq_getElem hcol⟩
  -- the cell's reading has been handed on
  obtain ⟨y, hy, hyx⟩ := hc.hands_on hi hfloor hcode he hv hbeyond
    (StoredLog.mem_readings hpos hname hraw hread)
  obtain ⟨hmnem, hindex, hparts⟩ : y.mnemonic = name ∧ y.index = e.1 ∧
      (y.value, y.text) = reading.parts := by
    simpa [CurveSample.datum, Prod.ext_iff] using hyx
  refine hkept y hy e he col hcol ⟨hindex, hpos, by rw [hname, hmnem], ?_⟩ hnull
  rw [hraw, Option.bind_some, hread, Option.map_some, hparts]

end Completed

/-- **When declared nulls stay out of the data.**  In every run in which the store appends to a log
or rewrites its frontier row, a call hands on no sample of a cell that holds a declared null if
every such cell beyond its start is blank or a common sentinel; and only if, when its last page was
a plain success.

The first part has no condition on the bounds.  The second needs `FloorsSafely`: a call that skips
a row does not hand on the null in it either, and so keeps it out by accident. -/
theorem nulls_kept_iff {cfg : Settings} {serverId : ℤ} {h : LogHeader} {s s' : Engine}
    {log : StoredLog} {server : MockStore} {warm : RingBufferStore}
    (hfind : server.findLog log.key = some log) (hsole : server.Sole log.key)
    (horder : log.Orderable) (hd : Discovered serverId h log warm) {es : List Engine.Event}
    (hrun : Run (Engine.next cfg serverId) (Engine.GrowsAtFrontier cfg serverId h)
      (Engine.idle server warm) es s)
    (hstep : s.next cfg serverId (.answer (headerKey serverId h)) = some s') {c : Ingested}
    (hdone : s'.completed = s.completed ++ [c]) :
    ∃ log', s'.server.findLog log.key = some log' ∧
      (log'.NullsCommon c.start → log'.NullsKept c.samples) ∧
      (c.code = rcSuccess → log'.FloorsSafely →
        (log'.NullsKept c.samples ↔ log'.NullsCommon c.start)) := by
  obtain ⟨log', f, got, lo, result, cursor, hfind', hi, hc, rfl⟩ :=
    completes_of_run (D := coveredPages cfg.maxReturnNodes) hfind hsole horder hd hrun hstep hdone
  exact ⟨log', hfind', hc.nullsKept hi, fun hcode hfloor =>
    ⟨hc.nullsCommon hi hfloor hcode, hc.nullsKept hi⟩⟩

/-! A log whose null is -1, with two curves that declare nulls of their own: the -9999 of ROP is a
common sentinel, the 0 of WOB is none. -/

def ownNullElem (line : String) : LogElem :=
  { logElem "L" .measuredDepth .increasing ["DEPT", "ROP", "WOB"] [line] with
    nullValue := some "-1".toList
    logCurveInfo := [("DEPT", none), ("ROP", some "-9999"), ("WOB", some "0")].map fun c =>
      ⟨none, some c.1.toList, none, none, none, c.2.map String.toList, none, none, none, none⟩ }

def ownNullStore : MockStore := storeOf [ownNullElem "10,5,7"]

theorem ownNullStore_logs_ne_nil : ownNullStore.logs ≠ [] := by decide +kernel

def ownNullLog : StoredLog := ownNullStore.logs.head ownNullStore_logs_ne_nil

theorem ownNullLog_header_isSome :
    (ownNullLog.renderHeader.bind parseLogHeader).toOption.isSome = true := by decide +kernel

def ownNullHeader : LogHeader := Option.get _ ownNullLog_header_isSome

def ownNullKey : LogKey := headerKey 1 ownNullHeader

/-- The row at 10 is ingested; at 20 comes a row in which ROP has its null. -/
def ownNullIngests : List Engine.Event :=
  [.begin ownNullHeader, .answer ownNullKey, .update (ownNullElem "20,-9999,3"),
    .begin ownNullHeader]

theorem ownNullIngests_isSome : (replay (Engine.next pageSettings 1)
    (fun s e => decide (Engine.GrowsAtFrontier pageSettings 1 ownNullHeader s e))
    (Engine.idle ownNullStore (.init 2000)) ownNullIngests).isSome = true := by decide +kernel

def ownNullFetching : Engine := Option.get _ ownNullIngests_isSome

theorem ownNullFetched_isSome :
    (ownNullFetching.next pageSettings 1 (.answer ownNullKey)).isSome = true := by decide +kernel

def ownNullFetched : Engine := Option.get _ ownNullFetched_isSome

/-- The record of the second call: of the row at 20 it has WOB only. -/
def ownNullRecord : Ingested where
  key := ownNullKey
  start := some (indexOf .measuredDepth "10")
  code := rcSuccess
  samples := [⟨"WOB".toList, indexOf .measuredDepth "20", float? "3".toList, none, none⟩]
  cursor := some (indexOf .measuredDepth "20")

/-- The one null beyond the cursor is a common sentinel, and it is not handed on. -/
theorem nulls_kept_iff_ownNull :
    ∃ log', ownNullFetched.server.findLog ownNullLog.key = some log' ∧
      (log'.NullsCommon ownNullRecord.start → log'.NullsKept ownNullRecord.samples) ∧
      (ownNullRecord.code = rcSuccess → log'.FloorsSafely →
        (log'.NullsKept ownNullRecord.samples ↔ log'.NullsCommon ownNullRecord.start)) :=
  nulls_kept_iff (MockStore.findLog_of_mem (List.head_mem _)) (by decide +kernel)
    (by unfold StoredLog.Orderable; decide +kernel)
    ⟨hasHeader_get ownNullLog_header_isSome, rfl, fun _ _ h => absurd h (by
      simp [RingBufferStore.init, RingBufferStore.getLogState, Dict.get?])⟩
    (Run.of_isSome ownNullIngests_isSome) (Option.some_get ownNullFetched_isSome).symm
    (show ownNullFetched.completed = ownNullFetching.completed ++ [ownNullRecord] by decide +kernel)

/-- A log whose null is -1, with a curve whose null is 0. -/
def nullElem (line : String) : LogElem :=
  { logElem "L" .measuredDepth .increasing ["DEPT", "ROP"] [line] with
    nullValue := some "-1".toList
    logCurveInfo := [("DEPT", none), ("ROP", none), ("WOB", some "0")].map fun c =>
      ⟨none, some c.1.toList, none, none, none, c.2.map String.toList, none, none, none, none⟩ }

/-- Whether the first call of a log keeps its nulls out of what it hands on. -/
def firstCallKeepsNulls (el : LogElem) : Option Bool := do
  let store := storeOf [el]
  let log ← store.logs.head?
  let h ← (log.renderHeader.bind parseLogHeader).toOption
  let s ← replay (Engine.next pageSettings 1) (fun _ _ => true) (Engine.idle store (.init 2000))
    [.begin h, .answer (headerKey 1 h)]
  let c ← s.completed.getLast?
  some (decide (log.NullsKept c.samples))

/-- **Declared nulls become data**: the log's own, as written or put in for a missing cell by the
store, and a curve's. -/
theorem declared_null_handed :
    firstCallKeepsNulls (nullElem "10,-1") = some false ∧
      firstCallKeepsNulls { nullElem "10,5,0" with
        logData := some ⟨some "DEPT,ROP,WOB".toList, none, [some "10,5,0".toList]⟩ } = some false ∧
      firstCallKeepsNulls { nullElem "10,5,7" with
        logData := some ⟨some "DEPT,ROP,WOB".toList, none, [some "10,5,7".toList]⟩ } = some true := by
  decide +kernel

end WitsmlViewer

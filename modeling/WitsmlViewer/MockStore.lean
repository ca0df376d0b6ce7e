/-
# The WITSML store (`mockstore.store`)

The in-memory server that the application polls: wells, wellbores and logs, the three operations
that change them, and the log query with its range, page cap and latest-values branches.  Mud logs
are added to it in `Objects`.

Two invariants of the source are carried by the types:

* a log's rows are keyed by the index that their first cell parses to, no two by equal keys, and
  that cell is a trimmed text without a comma (`LogRows`);
* no two logs of a store have one identity (`MockStore`).

A request that raises inside the server (an instant out of range, a bound that is no number) is an
`Except.error`; rows ingested before the exception stay, as they do in the source.  The lock of the
source makes every request one step, so a request is a function of the store.

The store keeps cells as they were written.  A row is parsed for its index and for nothing else,
and is sent again as text; what a cell means is the client's business.  It does know which texts
count as null, for two purposes: a curve's extent leaves its null cells out, and the latest values
of a curve are its latest cells that are not null.
-/
import WitsmlViewer.Parse
import WitsmlViewer.Queries

namespace WitsmlViewer

open Py

/-! ## 1. Return codes

The codes of the source; a positive code is a success everywhere. -/

def rcErrorDuplicate : ℤ := -405

def rcErrorNotFound : ℤ := -411

def rcErrorBadInput : ℤ := -407

/-- A return code and the message that goes with it. -/
abbrev StoreReply := ℤ × Option Str

/-! ## 2. Stored rows

A Python dictionary of rows, under keys that are floats or instants.  The types keep three facts
together that every later proof needs: the key is what the row's own token parses to, no two keys
are equal, and the token survives being written into a line and split out of it again. -/

/-- `_parse_dt`: the same code as `parse_datetime`. -/
def parseDt (value : Str) : Except PyError (Option Datetime) := parseDatetime (some value)

/-- `_parse_index`. -/
def parseIndex (token : Option Str) (indexType : IndexType) : Except PyError (Option Value) :=
  match token with
  | none => .ok none
  | some token =>
    let s := strip token
    if s = [] then .ok none
    else if indexType.isTime then (parseDt s).map (Option.map .dt)
    else .ok ((float? s).map .num)

/-- A stored row: the index token and the other cells, as they were written.  The token is kept
beside the key because two tokens may parse to one index, and the last one written is the one that
is sent. -/
structure StoredRow where
  token : Str
  cells : List Str
deriving DecidableEq

/-- `row[col]`. -/
def StoredRow.cell? (row : StoredRow) : ℕ → Option Str
  | 0 => some row.token
  | col + 1 => row.cells[col]?

/-- `",".join(row)`. -/
def StoredRow.line (row : StoredRow) : Str := join ',' (row.token :: row.cells)

/-- A row under its own key. -/
structure RowOk (t : IndexType) (key : Value) (row : StoredRow) : Prop where
  parsed : parseIndex (some row.token) t = .ok (some key)
  noComma : ',' ∉ row.token
  trimmed : strip row.token = row.token

/-- `rows: dict[index, list[str]]` of a log of the given index type.  Two keys may both be `nan`,
which is equal to no key; this is the one way in which a log has two rows of "one" index. -/
structure LogRows (t : IndexType) where
  entries : Dict Value StoredRow
  rowOk : ∀ e ∈ entries, RowOk t e.1 e.2
  distinct : Dict.Distinct entries

/-- A row that may go into a log of the given index type. -/
structure KeyedRow (t : IndexType) where
  key : Value
  row : StoredRow
  ok : RowOk t key row

namespace LogRows

variable {t : IndexType}

def empty : LogRows t := ⟨[], by simp, Dict.distinct_nil⟩

/-- `log.rows[idx_val] = row`: the row of an equal index is replaced as a whole. -/
def insert (rows : LogRows t) (r : KeyedRow t) : LogRows t where
  entries := rows.entries.set r.key r.row
  rowOk e he := by
    rcases Dict.mem_of_mem_set Value.eq_of_beq rows.distinct he with rfl | ⟨he, -⟩
    · exact r.ok
    · exact rows.rowOk e he
  distinct := Dict.distinct_set rows.distinct

end LogRows

/-! ## 3. Stored objects

Stored wells and wellbores keep their elements; of a log the header is taken apart, as its rows
change what its header says. -/

structure CurveMeta where
  mnemonic : Str
  unit : Option Str
  description : Option Str
  typeLogData : Option Str
  nullValue : Option Str
deriving DecidableEq

structure StoredLog where
  uid : Str
  uidWell : Str
  uidWellbore : Str
  name : Option Str := none
  nameWell : Option Str := none
  nameWellbore : Option Str := none
  indexType : IndexType := .measuredDepth
  indexCurve : Option Str := none
  direction : Direction := .increasing
  nullValue : Str := defaultNullValue
  indexUom : Option Str := none
  objectGrowing : Bool := false
  curves : List CurveMeta := []
  rows : LogRows indexType := .empty

namespace StoredLog

def mnemonics (log : StoredLog) : List Str := log.curves.map CurveMeta.mnemonic

def units (log : StoredLog) : List (Option Str) := log.curves.map CurveMeta.unit

/-- The identity that the store keys a log by. -/
def key (log : StoredLog) : Str × Str × Str := (log.uidWell, log.uidWellbore, log.uid)

/-- `sorted_indices`, each index with its row. -/
def sortedIndices (log : StoredLog) (direction : Direction) :
    Except PyError (Dict Value StoredRow) :=
  sortedEntries (direction == .decreasing) log.rows.entries

def insert (log : StoredLog) (r : KeyedRow log.indexType) : StoredLog :=
  { log with rows := log.rows.insert r }

end StoredLog

structure StoredWell where
  uid : Str
  element : WellElem

structure StoredWellbore where
  uid : Str
  uidWell : Str
  element : WellboreElem

/-- The text a wellbore is keyed by.  It is made by joining two uids with a slash, and a uid may
have slashes of its own, so two wellbores can share a text. -/
def StoredWellbore.key (wb : StoredWellbore) : Str := wb.uidWell ++ '/' :: wb.uid

theorem nodup_keys_nil : (([] : List StoredLog).map StoredLog.key).Nodup := List.nodup_nil

/-- The tables, in the order of insertion.  Of the constructor's limits only the number of latest
values matters to a modelled request. -/
structure MockStore where
  wells : List StoredWell
  wellbores : List StoredWellbore
  logs : List StoredLog
  logsDistinct : (logs.map StoredLog.key).Nodup
  maxRequestLatestValues : ℤ := 10000

/-! ## 4. Ingesting `<logData>`

Incoming columns are looked up by name.  They stand under the mnemonics that the update names, in
its own order, or under the log's if it names none; the stored row is built in the log's order, and
a curve that the update has no cell for gets the null value. -/

/-- One `<data>` line as a row of the log, if its first cell parses to an index.  A mnemonic that
is named twice keeps its last cell.  The row that was stored before is not looked at: what the
update does not name is overwritten with null (`Rewriting` is about this). -/
def incomingRow (log : StoredLog) (incoming : List Str) (text : Str) :
    Except PyError (Option (KeyedRow log.indexType)) :=
  match hcells : (split ',' text).map strip with
  | [] => .ok none
  | token :: cells =>
    match hparse : parseIndex (some token) log.indexType with
    | .error e => .error e
    | .ok none => .ok none
    | .ok (some idx) =>
      let valueByMnem : Dict Str Str :=
        (incoming.zip (token :: cells)).foldl (fun d e => d.set e.1 e.2) []
      let storeCols := if log.mnemonics = [] then incoming else log.mnemonics
      let row := (storeCols.drop 1).map fun m => (valueByMnem.get? m).getD log.nullValue
      have hmem : ∃ w ∈ split ',' text, strip w = token := by
        have : token ∈ (split ',' text).map strip := by rw [hcells]; exact List.mem_cons_self
        simpa using this
      .ok (some {
        key := idx
        row := ⟨token, row⟩
        ok := ⟨hparse, by
          obtain ⟨w, hw, rfl⟩ := hmem
          exact fun hc => not_mem_of_mem_split hw (mem_of_mem_strip hc), by
          obtain ⟨w, -, rfl⟩ := hmem
          exact strip_strip w⟩ })

/-- The loop over the `<data>` lines: the log after it, and the number of rows written.  The first
exception ends it, with the rows before it in place. -/
def ingestLines (incoming : List Str) : List Str → StoredLog → StoredLog × Except PyError ℕ
  | [], log => (log, .ok 0)
  | text :: texts, log =>
    match incomingRow log incoming text with
    | .error e => (log, .error e)
    | .ok none => ingestLines incoming texts log
    | .ok (some r) =>
      let (log', added) := ingestLines incoming texts (log.insert r)
      (log', added.map (· + 1))

/-- The mnemonics that the incoming columns stand under. -/
def incomingMnemonics (log : StoredLog) (ld : LogDataElem) : List Str :=
  match childText ld.mnemonicList with
  | some mnemList => (split ',' mnemList).map strip
  | none => log.mnemonics

/-- `_ingest_logdata`. -/
def ingestLogData (log : StoredLog) (el : LogElem) : StoredLog × Except PyError ℕ :=
  match el.logData with
  | none => (log, .ok 0)
  | some ld =>
    if incomingMnemonics log ld = [] then (log, .ok 0)
    else ingestLines (incomingMnemonics log ld) (dataLines ld) log

/-- Ingestion writes rows, one after the other, and does nothing else to the log.  So whatever each
insertion preserves is preserved; identity, header and the frontier of a growing log are all
handled by this. -/
theorem ingestLines_induction {P : StoredLog → Prop} (hstep : ∀ log r, P log → P (log.insert r))
    (incoming : List Str) : ∀ (texts : List Str) (log : StoredLog), P log →
      P (ingestLines incoming texts log).1
  | [], _, h => h
  | text :: texts, log, h => by
    simp only [ingestLines]
    split
    · exact h
    · exact ingestLines_induction hstep incoming texts log h
    · exact ingestLines_induction hstep incoming texts _ (hstep _ _ h)

/-- The same for a whole element, which may have no data at all. -/
theorem ingestLogData_induction {P : StoredLog → Prop} (hstep : ∀ log r, P log → P (log.insert r))
    {log : StoredLog} (h : P log) (el : LogElem) : P (ingestLogData log el).1 := by
  unfold ingestLogData
  split
  · exact h
  · split
    · exact h
    · exact ingestLines_induction hstep _ _ _ h

theorem ingestLogData_key (log : StoredLog) (el : LogElem) :
    (ingestLogData log el).1.key = log.key :=
  ingestLogData_induction (P := fun l => l.key = log.key) (fun _ _ h => h) rfl el

/-! ## 5. AddToStore, UpdateInStore, DeleteFromStore

The three operations that change logs.  An addition and a deletion answer with a code; an update of
a log that is not there is an error, and never creates it. -/

namespace MockStore

variable (store : MockStore)

/-- The log stored under an identity. -/
def findLog (key : Str × Str × Str) : Option StoredLog := store.logs.find? (·.key = key)

def addWell (el : Option WellElem) : MockStore × StoreReply :=
  match el with
  | none => (store, rcErrorBadInput, some "no <well> element in XMLin".toList)
  | some el =>
    let uid := el.uid.getD []
    if uid = [] then (store, rcErrorBadInput, some "<well> missing uid".toList)
    else if store.wells.any (·.uid = uid) then
      (store, rcErrorDuplicate, some ("well uid '".toList ++ uid ++ "' already exists".toList))
    else ({ store with wells := store.wells ++ [⟨uid, el⟩] }, rcSuccess, none)

def addWellbore (el : Option WellboreElem) : MockStore × StoreReply :=
  match el with
  | none => (store, rcErrorBadInput, some "no <wellbore> element in XMLin".toList)
  | some el =>
    let wb : StoredWellbore := ⟨el.uid.getD [], el.uidWell.getD [], el⟩
    if wb.uid = [] then (store, rcErrorBadInput, some "<wellbore> missing uid".toList)
    else if store.wellbores.any (·.key = wb.key) then
      (store, rcErrorDuplicate,
        some ("wellbore uid '".toList ++ wb.uid ++ "' already exists".toList))
    else ({ store with wellbores := store.wellbores ++ [wb] }, rcSuccess, none)

/-- The log that an `<log>` element creates, before its data rows. -/
def logOfElem (el : LogElem) : StoredLog :=
  let curves : List CurveMeta := el.logCurveInfo.map fun lci =>
    { mnemonic := (childText lci.mnemonic).getD []
      unit := childText lci.unit
      description := childText lci.curveDescription
      typeLogData := childText lci.typeLogData
      nullValue := childText lci.nullValue }
  { uid := el.uid.getD []
    uidWell := el.uidWell.getD []
    uidWellbore := el.uidWellbore.getD []
    name := childText el.name
    nameWell := childText el.nameWell
    nameWellbore := childText el.nameWellbore
    indexType := parseIndexType (childText el.indexType)
    indexCurve := (childText el.indexCurve).or (curves.head?.map CurveMeta.mnemonic)
    direction := parseDirection (childText el.direction)
    nullValue := (childText el.nullValue).getD defaultNullValue
    indexUom := (el.startIndexUom.filter (· ≠ [])).or (curves.head?.bind CurveMeta.unit)
    curves := curves }

/-- `_add_log`.  The rows are ingested before the log is put into the table, so an instant that
raises leaves no log behind. -/
def addLog (el : Option LogElem) : MockStore × Except PyError StoreReply :=
  match el with
  | none => (store, .ok (rcErrorBadInput, some "no <log> element in XMLin".toList))
  | some el =>
    let uid := el.uid.getD []
    if uid = [] then (store, .ok (rcErrorBadInput, some "<log> missing uid".toList))
    else
      let created := ingestLogData (logOfElem el) el
      if hnew : created.1.key ∈ store.logs.map StoredLog.key then
        (store, .ok (rcErrorDuplicate,
          some ("log uid '".toList ++ uid ++ "' already exists".toList)))
      else match created.2 with
        | .error e => (store, .error e)
        | .ok _ =>
          ({ store with
              logs := store.logs ++ [created.1]
              logsDistinct := by
                rw [List.map_append]
                refine List.nodup_append.mpr ⟨store.logsDistinct, by simp, ?_⟩
                intro a ha b hb
                rw [List.map_singleton, List.mem_singleton] at hb
                rintro rfl
                exact hnew (hb ▸ ha) },
            .ok (rcSuccess, none))

/-- Replace the logs of one identity by `f` of them; `f` keeps the identity. -/
def mapLogs (f : StoredLog → StoredLog) (hf : ∀ log, (f log).key = log.key) : MockStore :=
  { store with
    logs := store.logs.map f
    logsDistinct := by
      have hkeys : (store.logs.map f).map StoredLog.key = store.logs.map StoredLog.key := by
        rw [List.map_map]
        exact List.map_congr_left fun log _ => hf log
      rw [hkeys]
      exact store.logsDistinct }

/-- What `_update_log` makes of the addressed log.  A log counts as growing once an update has
written a row; nothing ever makes it stop. -/
def updatedLog (el : LogElem) (log : StoredLog) : StoredLog :=
  match ingestLogData log el with
  | (log', .ok added) => { log' with objectGrowing := log'.objectGrowing || 0 < added }
  | (log', .error _) => log'

theorem updatedLog_key (el : LogElem) (log : StoredLog) : (updatedLog el log).key = log.key := by
  have h := ingestLogData_key log el
  unfold updatedLog
  split
  · rename_i log' added hin
    rw [hin] at h
    exact h
  · rename_i log' e hin
    rw [hin] at h
    exact h

/-- The identity that an element addresses. -/
def elemKey (el : LogElem) : Str × Str × Str :=
  (el.uidWell.getD [], el.uidWellbore.getD [], el.uid.getD [])

/-- `update_object` for a log. -/
def updateLog (el : Option LogElem) : MockStore × Except PyError StoreReply :=
  match el with
  | none => (store, .ok (rcErrorBadInput, some "no <log> element in XMLin".toList))
  | some el =>
    match store.findLog (elemKey el) with
    | none =>
      (store, .ok (rcErrorNotFound,
        some ("log uid '".toList ++ el.uid.getD [] ++ "' not found for update".toList)))
    | some log =>
      (store.mapLogs (fun l => if l.key = elemKey el then updatedLog el l else l) (by
          intro l
          split
          · exact updatedLog_key el l
          · rfl),
        (ingestLogData log el).2.map fun _ => (rcSuccess, none))

/-- `delete_object` for a log. -/
def deleteLog (el : Option LogElem) : MockStore × StoreReply :=
  match el with
  | none => (store, rcErrorNotFound, some "nothing matched the delete query".toList)
  | some el =>
    if (store.findLog (elemKey el)).isSome then
      ({ store with
          logs := store.logs.filter (·.key ≠ elemKey el)
          logsDistinct := store.logsDistinct.sublist
            ((List.filter_sublist (l := store.logs)).map StoredLog.key) },
        rcSuccess, none)
    else (store, rcErrorNotFound, some "nothing matched the delete query".toList)

/-! ## 6. GetFromStore

The query.  Bounds are parsed under the log's index type, rows are sorted in the log's direction,
filtered, and cut off at the cap; then the first rows of the range are sent, and the reply is a
`+2`.  `Serving` says what this means for a log whose indices can be ordered. -/

/-- `_query_wells`; an empty uid is no filter. -/
def queryWells (uid : Str) : ℤ × List WellElem :=
  (rcSuccess, (store.wells.filter fun w => uid = [] ∨ w.uid = uid).map StoredWell.element)

/-- `_query_wellbores`; empty attributes are no filters. -/
def queryWellbores (uidWell uid : Str) : ℤ × List WellboreElem :=
  (rcSuccess, (store.wellbores.filter fun wb =>
    (uid = [] ∨ wb.uid = uid) ∧ (uidWell = [] ∨ wb.uidWell = uidWell)).map
      StoredWellbore.element)

end MockStore

/-- `_before`: before the inclusive start, in the given direction. -/
def before (idx start : Value) (direction : Direction) : Except PyError Bool :=
  match direction with
  | .increasing => idx.lt? start
  | .decreasing => start.lt? idx

/-- `_after`: after the inclusive end, in the given direction. -/
def after (idx stop : Value) (direction : Direction) : Except PyError Bool :=
  match direction with
  | .increasing => stop.lt? idx
  | .decreasing => idx.lt? stop

/-- Whether an index falls outside optional bounds; the upper one is looked at second. -/
def outOfRange (idx : Value) (start stop : Option Value) (direction : Direction) :
    Except PyError Bool :=
  match beforeStart with
  | .ok false => afterStop
  | early => early
where
  beforeStart : Except PyError Bool :=
    match start with
    | none => .ok false
    | some start => before idx start direction
  afterStop : Except PyError Bool :=
    match stop with
    | none => .ok false
    | some stop => after idx stop direction

/-- `_query_range`: the bounds of a query, typed by the log's index.  A time bound that is no
instant bounds nothing; a depth bound that is no number raises, and the whole request with it. -/
def queryRange (q : LogQuery) (indexType : IndexType) :
    Except PyError (Option Value × Option Value) :=
  if indexType.isTime then do
    let start ← (childText q.startDateTimeIndex).mapM parseDt
    let stop ← (childText q.endDateTimeIndex).mapM parseDt
    .ok (start.join.map .dt, stop.join.map .dt)
  else do
    let start ← (childText q.startIndex).mapM number
    let stop ← (childText q.endIndex).mapM number
    .ok (start.map .num, stop.map .num)
where
  /-- `float(s)`, uncaught. -/
  number (s : Str) : Except PyError Float64 :=
    match float? s with
    | some x => .ok x
    | none => .error .valueError

namespace StoredLog

variable (log : StoredLog)

/-- `_null_set`. -/
def nullSet : List Str :=
  log.nullValue :: defaultNullValue :: [] ::
    log.curves.filterMap fun c => c.nullValue.filter (· ≠ [])

/-- The entries within the bounds, in the order given. -/
def withinRange (start stop : Option Value) (direction : Direction) :
    Dict Value StoredRow → Except PyError (Dict Value StoredRow)
  | [] => .ok []
  | e :: entries => do
    let out ← outOfRange e.1 start stop direction
    let rest ← withinRange start stop direction entries
    .ok (if out then rest else e :: rest)

/-- `_latest_value_rows`: the newest `n` readings of every curve, as sparse rows.  Each curve
chooses its own rows, the union is sent ascending, and a cell that any null value matches is
replaced by the log's null, also where its own curve has a reading. -/
def latestValueRows (maxRequestLatestValues n : ℤ) : Except PyError (List StoredRow) := do
  let n := (max (min n maxRequestLatestValues) 1).toNat
  let ordered ← log.sortedIndices log.direction
  let width := log.mnemonics.length
  let present (col : ℕ) (e : Value × StoredRow) : Bool :=
    (e.2.cell? col).any fun cell => strip cell ≠ [] && strip cell ∉ log.nullSet
  let kept (e : Value × StoredRow) : Bool := (List.range' 1 (width - 1)).any fun col =>
    ((ordered.reverse.filter (present col)).take n).any fun e' => e'.1 = e.1
  let sorted ← sortedEntries false (ordered.filter kept)
  .ok (sorted.map fun e => ⟨e.2.token, (List.range' 1 (width - 1)).map fun col =>
    let cell := (e.2.cell? col).getD []
    if strip cell ∈ log.nullSet then log.nullValue else cell⟩)

/-- `_select_rows`: the rows to return, and whether the page cap cut them off.  A request for
latest values ignores the range and the cap. -/
def selectRows (maxRequestLatestValues : ℤ) (start stop : Option Value) (direction : Direction)
    (maxNodes latestN : Option ℤ) : Except PyError (List StoredRow × Bool) :=
  match latestN.filter (0 < ·) with
  | some n => (log.latestValueRows maxRequestLatestValues n).map (·, false)
  | none => do
    let ordered ← log.sortedIndices direction
    let selected ← withinRange start stop direction ordered
    match maxNodes.filter fun n => decide (0 < n ∧ n < (selected.length : ℤ)) with
    | some n => .ok ((selected.take n.toNat).map Prod.snd, true)
    | none => .ok (selected.map Prod.snd, false)

/-- The token of the least (or greatest) of the given rows: an extent is sent as it was written,
not rendered anew.  The least is called the start also on a decreasing log. -/
def extentToken (smallest : Bool) (entries : Dict Value StoredRow) :
    Except PyError (Option Str) := do
  let idx ← extremum smallest (entries.map Prod.fst)
  .ok (idx.bind fun idx => (entries.find? fun e => decide (e.1 = idx)).map (·.2.token))

/-- `_emit_curve_extents` and the curve's other children. -/
def renderCurve (c : CurveMeta) : Except PyError LogCurveInfoElem := do
  let col := log.mnemonics.idxOf c.mnemonic
  let present := log.rows.entries.filter fun e =>
    (e.2.cell? col).any fun cell => col = 0 || strip cell ∉ log.nullSet
  let lo ← extentToken true present
  let hi ← extentToken false present
  let time := log.indexType.isTime
  .ok {
    uid := none
    mnemonic := some c.mnemonic
    unit := c.unit
    curveDescription := c.description
    typeLogData := c.typeLogData
    nullValue := some ((c.nullValue.filter (· ≠ [])).getD log.nullValue)
    minIndex := if time then none else lo
    maxIndex := if time then none else hi
    minDateTimeIndex := if time then lo else none
    maxDateTimeIndex := if time then hi else none }

/-- The identity attributes of a rendered log. -/
def renderIdentity : LogElem :=
  { uid := some log.uid, uidWell := some log.uidWell, uidWellbore := some log.uidWellbore }

/-- The header children of a rendered log.  Everything that was read on creation comes back, but
for the unit of the index, which is sent only with an extent. -/
def renderHeader : Except PyError LogElem := do
  let lo ← extentToken true log.rows.entries
  let hi ← extentToken false log.rows.entries
  let curves ← log.curves.mapM log.renderCurve
  let time := log.indexType.isTime
  .ok { log.renderIdentity with
    nameWell := log.nameWell
    nameWellbore := log.nameWellbore
    name := log.name
    indexType := some log.indexType.value
    indexCurve := log.indexCurve
    direction := some log.direction.value
    objectGrowing := some (if log.objectGrowing then "true".toList else "false".toList)
    nullValue := some log.nullValue
    startIndex := if time then none else lo
    endIndex := if time then none else hi
    startIndexUom := if time || lo.isNone then none else some (log.indexUom.getD [])
    startDateTimeIndex := if time then lo else none
    endDateTimeIndex := if time then hi else none
    logCurveInfo := curves }

/-- The `<logData>` of a page; none for a page without rows.  A client cannot tell an empty page
from a log that has no data. -/
def renderData (rows : List StoredRow) : Option LogDataElem :=
  if rows = [] then none
  else some {
    mnemonicList := some (join ',' log.mnemonics)
    unitList := some (join ',' (log.units.map fun u => u.getD []))
    data := rows.map fun row => some row.line }

/-- `_render_log`. -/
def render (maxRequestLatestValues : ℤ) (returnElements : ReturnElements)
    (start stop : Option Value) (direction : Direction) (maxNodes latestN : Option ℤ) :
    Except PyError (LogElem × Bool) :=
  match returnElements with
  | .idOnly =>
    .ok ({ log.renderIdentity with
      nameWell := log.nameWell, nameWellbore := log.nameWellbore, name := log.name }, false)
  | .headerOnly => (log.renderHeader).map (·, false)
  | .dataOnly => do
    let (rows, truncated) ←
      log.selectRows maxRequestLatestValues start stop direction maxNodes latestN
    .ok ({ log.renderIdentity with logData := log.renderData rows }, truncated)
  | .all | .requested => do
    let header ← log.renderHeader
    let (rows, truncated) ←
      log.selectRows maxRequestLatestValues start stop direction maxNodes latestN
    .ok ({ header with logData := log.renderData rows }, truncated)
  | .stationLocationOnly | .latestChangeOnly => .ok (log.renderIdentity, false)

/-- Whether the log is addressed by a query; empty attributes are no filters. -/
def addressedBy (q : LogQuery) : Bool :=
  (q.uid = [] || log.uid = q.uid) && (q.uidWell = [] || log.uidWell = q.uidWell) &&
    (q.uidWellbore = [] || log.uidWellbore = q.uidWellbore)

/-- One matching log's part of a reply. -/
def answer (maxRequestLatestValues : ℤ) (q : LogQuery) : Except PyError (LogElem × Bool) := do
  let (start, stop) ← queryRange q log.indexType
  log.render maxRequestLatestValues q.options.returnElements start stop log.direction
    q.options.maxReturnNodes q.options.requestLatestValues

end StoredLog

/-- `_query_logs`. -/
def MockStore.queryLogs (store : MockStore) (q : LogQuery) : Except PyError (ℤ × List LogElem) :=
  ((store.logs.filter fun log : StoredLog => log.addressedBy q).mapM fun log : StoredLog =>
      log.answer store.maxRequestLatestValues q).map fun answers =>
    (if answers.any Prod.snd then rcPartialSuccess else rcSuccess, answers.map Prod.fst)

end WitsmlViewer

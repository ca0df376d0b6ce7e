/-
# The ingestion engine (`app.ingestion.scheduler`)

The scheduler's methods, cut at their await points.

* `beginIngest` is `_do_ingest_log` up to its first request, `completeIngest` the rest of it from
  the fetched block to the live fan-out; nothing is awaited in between, so it is one function.  The
  pages in the middle belong to `LogDataCall.fetchStep`.
* `persistSamples` writes the rows that `completeIngest` hands on, in a transaction of its own.
* `discover` walks wells, wellbores and log headers; every query of the walk sees the server as it
  is at that moment, or fails.
* `snapshotTable` and `loadIndexSnapshot` save and restore the cursors.

The cuts are what makes interleavings expressible.  Between `beginIngest` and `completeIngest`
other tasks run and the store may change; the state that the task has read at its beginning is the
one it completes with, and this is in the record `IngestTask`.  The order of effects inside
`completeIngest` is the source's: the new cursor and the samples are in the warm store before the
transaction that stores them is opened, so a process that ends in between has handed on what the
table does not have (`Durability`, `Shutdown`, `DurableHistory`).

This module has no theorem.  Each function gets its lemmas where it is used.
-/
import WitsmlViewer.Client
import WitsmlViewer.MockStore
import WitsmlViewer.RingBuffer

namespace WitsmlViewer

open Py

/-! ## 1. Per-log ingestion

One log, one poll.  The state of a log is what the last poll left, or what a restart restored, or
what the header says if there is neither. -/

/-- The key of a discovered log. -/
def headerKey (serverId : ℤ) (h : LogHeader) : LogKey := ⟨serverId, h.uidWell, h.uidWellbore, h.uid⟩

/-- `_state_from_header`: the index mnemonic leads the list.  The header's own order of the others
is kept; a log without an index curve is led by its first curve. -/
def stateFromHeader (serverId : ℤ) (h : LogHeader) : LogState :=
  let indexMnem := (h.indexCurve.filter (· ≠ [])).getD (h.mnemonics.headD [])
  let mnems :=
    if indexMnem ≠ [] ∧ indexMnem ∈ h.mnemonics then
      indexMnem :: h.mnemonics.filter (· ≠ indexMnem)
    else if indexMnem ≠ [] then indexMnem :: h.mnemonics
    else h.mnemonics
  { serverId := serverId
    wellUid := h.uidWell
    wellboreUid := h.uidWellbore
    logUid := h.uid
    indexType := h.indexType
    direction := h.direction
    indexUom := h.indexUom
    indexMnemonic := indexMnem
    mnemonics := mnems
    lastIndex := none
    objectGrowing := h.objectGrowing }

/-- A `_do_ingest_log` call that waits for an answer. -/
structure IngestTask where
  header : LogHeader
  state : LogState
  call : LogDataCall
  fetch : FetchState
  query : LogQuery

/-- The fetch that a log's state asks for. -/
def ingestCall (cfg : Settings) (h : LogHeader) (state : LogState) : LogDataCall where
  uidWell := h.uidWell
  uidWellbore := h.uidWellbore
  uid := h.uid
  mnemonics := state.indexMnemonic :: state.mnemonics.filter (· ≠ state.indexMnemonic)
  indexType := state.indexType
  direction := state.direction
  indexUom := state.indexUom
  maxReturnNodes := some cfg.maxReturnNodes

/-- `_do_ingest_log` up to its first request; nothing is fetched for a log without curves.  The
state is read here once, and not again when the answers are in. -/
def beginIngest (cfg : Settings) (serverId : ℤ) (warm : RingBufferStore) (h : LogHeader) :
    Except PyError (Option IngestTask) :=
  let state := (warm.getLogState (headerKey serverId h)).getD (stateFromHeader serverId h)
  if state.mnemonics.filter (· ≠ state.indexMnemonic) = [] then .ok none
  else
    let call := ingestCall cfg h state
    (call.fetchStart state.lastIndex).map fun (fetch, query) => some ⟨h, state, call, fetch, query⟩

/-- `_do_ingest_log` from the fetched result on: dedupe, flatten, advance the cursor, publish the
state, fill the buffers.  Everything that can raise comes before the first effect. -/
def completeIngest (cfg : Settings) (warm : RingBufferStore) (task : IngestTask)
    (result : LogDataResult) : Except PyError (RingBufferStore × List CurveSample) := do
  let deduped ← dedupeBoundary result.block task.state.lastIndex task.state.direction
  let samples ← deduped.samples cfg
  let newCursor ← continuationIndex result.block task.state.direction
  let state := { task.state with
    lastIndex := newCursor.or task.state.lastIndex
    objectGrowing := some true }
  let warm := warm.putLogState state
  .ok (if samples = [] then warm else warm.append task.header.uidWell samples, samples)

/-! ## 2. Discovery

The walk is a fold over what each query returned.  Its queries are numbered so that a fault, or a
change of the store, can be put before any one of them. -/

/-- What the scheduler knows of the topology, with its warm store. -/
structure Topology where
  headers : Dict LogKey LogHeader
  warm : RingBufferStore
  discovered : Bool

/-- The server as the successive discovery queries find it: a store and possibly a fault. -/
structure QueryEnv where
  store : ℕ → MockStore
  fault : ℕ → Option PyError

namespace QueryEnv

variable (env : QueryEnv)

/-- The outcome of the `n`-th query. -/
def ask {α : Type} (n : ℕ) (answer : MockStore → Except PyError α) : Except PyError α :=
  match env.fault n with
  | some e => .error e
  | none => answer (env.store n)

def fetchWells (n : ℕ) : Except PyError (List Well) :=
  env.ask n fun store => .ok (parseWells (store.queryWells []).2)

def fetchWellbores (n : ℕ) (uidWell : Str) : Except PyError (List Wellbore) :=
  env.ask n fun store => .ok (parseWellbores (store.queryWellbores uidWell []).2)

/-- `_fetch_log_headers`: a header that does not parse fails the whole query. -/
def fetchLogHeaders (n : ℕ) (uidWell uidWellbore : Str) : Except PyError (List LogHeader) :=
  env.ask n fun store => do
    let (_, els) ← store.queryLogs (logHeaderQuery uidWell uidWellbore)
    parseLogHeaders els

end QueryEnv

/-- A walk under way: the number of its next query, the topology so far, and `any_logs`. -/
structure Walk where
  next : ℕ
  top : Topology
  anyLogs : Bool

/-- Record one discovered header; a log state that exists already is kept. -/
def recordHeader (serverId : ℤ) (walk : Walk) (h : LogHeader) : Walk :=
  if h.uid = [] then walk
  else
    let key := headerKey serverId h
    { walk with
      anyLogs := true
      top := { walk.top with
        headers := walk.top.headers.set key h
        warm := if (walk.top.warm.getLogState key).isNone then
            walk.top.warm.putLogState (stateFromHeader serverId h)
          else walk.top.warm } }

/-- The headers below one wellbore, or nothing if the query fails. -/
def discoverWellbore (serverId : ℤ) (env : QueryEnv) (well : Well) (walk : Walk) (wb : Wellbore) :
    Walk :=
  let next := { walk with next := walk.next + 1 }
  match env.fetchLogHeaders walk.next well.uid wb.uid with
  | .error _ => next
  | .ok headers => headers.foldl (recordHeader serverId) next

/-- The wellbores of one well.  Its name and region are recorded before its wellbores are asked
for. -/
def discoverWell (serverId : ℤ) (env : QueryEnv) (walk : Walk) (well : Well) : Walk :=
  let next := { walk with
    next := walk.next + 1
    top := { walk.top with
      warm := walk.top.warm.setWellMeta well.uid well.name well.region } }
  match env.fetchWellbores walk.next well.uid with
  | .error _ => next
  | .ok wellbores => wellbores.foldl (discoverWellbore serverId env well) next

/-- `_discover`, its queries numbered from `n`.  An exception of the first query is its caller's
to log; a well or wellbore that fails is skipped. -/
def discover (serverId : ℤ) (env : QueryEnv) (n : ℕ) (top : Topology) : ℕ × Topology :=
  match env.fetchWells n with
  | .error _ => (n + 1, top)
  | .ok wells =>
    let walk := wells.foldl (discoverWell serverId env) ⟨n + 1, top, false⟩
    (walk.next, { walk.top with discovered := walk.top.discovered || walk.anyLogs })

/-- The guard of `_tick`: discovery is open until the first log has been found, and from then on
closed for good. -/
def Topology.discoveryOpen (top : Topology) : Bool := !top.discovered || top.headers.isEmpty

/-- The part of `_tick` before the ingest tasks. -/
def tickDiscovery (serverId : ℤ) (env : QueryEnv) (n : ℕ) (top : Topology) :
    ℕ × Topology :=
  if top.discoveryOpen then discover serverId env n top else (n, top)

/-! ## 3. Persistence

The two tables and the transactions on them.  A row has a column for a number and one for an
instant, and what fits neither is stored as a null; `indexColumns` and `cursorFromSnap` are the two
directions of that encoding. -/

structure CurveSampleRow where
  serverId : ℤ
  wellUid : Str
  wellboreUid : Str
  logUid : Str
  mnemonic : Str
  indexFloat : Option Float64
  indexDt : Option Datetime
  value : Option Float64
  text : Option Str
  uom : Option Str
deriving DecidableEq

structure IndexCacheSnapshot where
  serverId : ℤ
  wellUid : Str
  wellboreUid : Str
  logUid : Str
  mnemonic : Str
  lastIndexFloat : Option Float64
  lastIndexDt : Option Datetime
  uom : Option Str
  direction : Str
  indexType : Str
deriving DecidableEq

/-- The two tables that ingestion writes. -/
structure Database where
  curveSamples : List CurveSampleRow
  indexCache : List IndexCacheSnapshot

/-- `_as_float`. -/
def asFloat : Value → Option Float64
  | .num x => some x
  | .text s => float? s
  | .dt _ => none

/-- The instant of an index. -/
def asDatetime : Value → Option Datetime
  | .dt t => some t
  | _ => none

/-- The two index columns: a float for depth logs, an instant for time logs.  The log's type
decides, not the value, so that a text or a mismatch leaves both null. -/
def indexColumns (indexType : IndexType) (index : Value) : Option Float64 × Option Datetime :=
  if indexType.isTime then (none, asDatetime index) else (asFloat index, none)

/-- The row that `_persist_samples` writes for a sample. -/
def sampleRow (serverId : ℤ) (header : LogHeader) (state : LogState) (s : CurveSample) :
    CurveSampleRow where
  serverId := serverId
  wellUid := header.uidWell
  wellboreUid := header.uidWellbore
  logUid := header.uid
  mnemonic := s.mnemonic
  indexFloat := (indexColumns state.indexType s.index).1
  indexDt := (indexColumns state.indexType s.index).2
  value := s.value
  text := s.text
  uom := s.uom

/-- `_persist_samples`: one transaction. -/
def Database.persistSamples (db : Database) (serverId : ℤ) (header : LogHeader) (state : LogState)
    (samples : List CurveSample) : Database :=
  { db with curveSamples := db.curveSamples ++ samples.map (sampleRow serverId header state) }

namespace IndexCacheSnapshot

/-- The columns of `uq_index_cache`. -/
def key (r : IndexCacheSnapshot) : ℤ × Str × Str × Str × Str :=
  (r.serverId, r.wellUid, r.wellboreUid, r.logUid, r.mnemonic)

/-- The log that a row belongs to. -/
def logKey (r : IndexCacheSnapshot) : LogKey := ⟨r.serverId, r.wellUid, r.wellboreUid, r.logUid⟩

end IndexCacheSnapshot

/-- The rows that a state's snapshot writes: one for each of its mnemonics. -/
def stateRows (state : LogState) : List IndexCacheSnapshot :=
  match state.lastIndex with
  | none => []
  | some last =>
    let mnems := if state.mnemonics = [] then [state.indexMnemonic] else state.mnemonics
    (mnems.filter (· ≠ [])).map fun mnem => {
      serverId := state.serverId
      wellUid := state.wellUid
      wellboreUid := state.wellboreUid
      logUid := state.logUid
      mnemonic := mnem
      lastIndexFloat := (indexColumns state.indexType last).1
      lastIndexDt := (indexColumns state.indexType last).2
      uom := state.indexUom
      direction := state.direction.value
      indexType := state.indexType.value }

/-- One upsert: a row that was there when the transaction read the table is updated in place, any
other is inserted.  A key that occurs twice among the rows to write is therefore inserted twice, if
it was not there before. -/
def upsertRow (existing table : List IndexCacheSnapshot) (r : IndexCacheSnapshot) :
    List IndexCacheSnapshot :=
  if existing.any (·.key = r.key) then table.map fun r' => if r'.key = r.key then r else r'
  else table ++ [r]

/-- The table that `_snapshot_index_state` tries to commit. -/
def snapshotTable (states : List LogState) (existing : List IndexCacheSnapshot) :
    List IndexCacheSnapshot :=
  (states.flatMap stateRows).foldl (upsertRow existing) existing

/-- Commit a snapshot; a violation of `uq_index_cache` aborts it. -/
def Database.commitSnapshot (db : Database) (states : List LogState) : Except PyError Database :=
  if ((snapshotTable states db.indexCache).map IndexCacheSnapshot.key).Nodup then
    .ok { db with indexCache := snapshotTable states db.indexCache }
  else .error .integrityError

/-- `sorted({…})` of texts. -/
def sortedSet (ws : List Str) : List Str := ws.dedup.insertionSort fun a b => !decide (b < a)

/-- `_cursor_from_snap`, through a driver that may drop the time zone. -/
def cursorFromSnap (keepsZone : Bool) (snap : IndexCacheSnapshot) (indexType : IndexType) :
    Option Value :=
  if indexType.isTime then
    snap.lastIndexDt.map fun t => .dt { t with aware := t.aware && keepsZone }
  else snap.lastIndexFloat.map .num

/-- The state that the rows of one log restore to; its first row speaks for all.  The mnemonics
come back sorted, and the first of them is taken for the index. -/
def restoredState (keepsZone : Bool) (key : LogKey) (head : IndexCacheSnapshot)
    (group : List IndexCacheSnapshot) : LogState :=
  let indexType := parseIndexType (some head.indexType)
  let mnems := sortedSet (group.map IndexCacheSnapshot.mnemonic)
  { serverId := key.serverId
    wellUid := key.wellUid
    wellboreUid := key.wellboreUid
    logUid := key.logUid
    indexType := indexType
    direction := if lower head.direction = "decreasing".toList then .decreasing else .increasing
    indexUom := head.uom
    indexMnemonic := mnems.headD []
    mnemonics := mnems
    lastIndex := cursorFromSnap keepsZone head indexType
    objectGrowing := none }

/-- The rows of each log, in the order they come.  A log without rows is not restored, which is the
case until its first cursor has been saved. -/
def groupByLog (snaps : List IndexCacheSnapshot) : Dict LogKey (List IndexCacheSnapshot) :=
  snaps.foldl (fun perLog snap =>
    perLog.set snap.logKey ((perLog.get? snap.logKey).getD [] ++ [snap])) []

/-- `_load_index_snapshot`. -/
def loadIndexSnapshot (keepsZone : Bool) (serverId : ℤ) (db : Database) (warm : RingBufferStore) :
    RingBufferStore :=
  (groupByLog (db.indexCache.filter (·.serverId = serverId))).foldl (fun warm entry =>
    match entry.2 with
    | [] => warm
    | head :: rest =>
      warm.putLogState (restoredState keepsZone entry.1 head (head :: rest))) warm

end WitsmlViewer

/-
# The feed simulator (`simulator.feed_simulator`)

A log of the simulated fleet and the store that it feeds.  The seed row goes to the store with the
log itself; a tick appends one row, or a burst of them.  The index of a row is the clock, written
to the millisecond, or a depth that moves by half a metre, written to three decimals.

What `random` contributes, and the clock, are inputs of an event; the sine is a parameter.

This module is the program; what can be said of its rows is in `RowTokens` and `FreshRows`, and the
fleet as a whole in `Fleet`.  Every channel is modelled, with its own shape and noise, though no
result depends on which value a cell has: that they are all tokens which the store can read back
depends on all of them being numbers or the null value.
-/
import WitsmlViewer.RoundTrip
import WitsmlViewer.Py.Fixed

namespace WitsmlViewer
namespace Simulator

open Py

/-! ## 1. Tokens

Tokens are what the store sees.  Both roundings lose something, of the clock everything below a
millisecond and of a number everything below a thousandth, and two rows with one token are one row
of the store. -/

/-- `iso_utc`; a naive reading is taken for UTC. -/
def isoUtc (dt : Datetime) : Str := isoMillis dt

/-- `fmt_num`. -/
def fmtNum (value : Float64) : Str :=
  if value = .nan then defaultNullValue
  else if value.isInteger then strInt value.toInt
  else trimmed 3 value

/-! ## 2. The curve catalog

The catalogs are the source's, in its order. -/

structure Curve where
  mnemonic : Str
  unit : Str
  description : Str
deriving DecidableEq

/-- `TIME_CURVES`. -/
def timeCurves : List Curve :=
  [⟨"TIME".toList, "s".toList, "Date time index".toList⟩,
   ⟨"DEPTH".toList, "m".toList, "Measured depth".toList⟩,
   ⟨"ROP".toList, "m/h".toList, "Rate of penetration".toList⟩,
   ⟨"WOB".toList, "klbf".toList, "Weight on bit".toList⟩,
   ⟨"RPM".toList, "rpm".toList, "Rotary speed".toList⟩,
   ⟨"TORQUE".toList, "kN.m".toList, "Surface torque".toList⟩,
   ⟨"SPP".toList, "kPa".toList, "Standpipe pressure".toList⟩,
   ⟨"FLOWIN".toList, "L/min".toList, "Flow in".toList⟩,
   ⟨"HOOKLOAD".toList, "klbf".toList, "Hookload".toList⟩,
   ⟨"TOTGAS".toList, "%".toList, "Total gas".toList⟩,
   ⟨"C1".toList, "ppm".toList, "Methane".toList⟩]

/-- `DEPTH_CURVES`. -/
def depthCurves : List Curve :=
  [⟨"DEPTH".toList, "m".toList, "Measured depth index".toList⟩,
   ⟨"ROP".toList, "m/h".toList, "Rate of penetration".toList⟩,
   ⟨"WOB".toList, "klbf".toList, "Weight on bit".toList⟩,
   ⟨"RPM".toList, "rpm".toList, "Rotary speed".toList⟩,
   ⟨"TORQUE".toList, "kN.m".toList, "Surface torque".toList⟩,
   ⟨"TOTGAS".toList, "%".toList, "Total gas".toList⟩,
   ⟨"C1".toList, "ppm".toList, "Methane".toList⟩,
   ⟨"C2".toList, "ppm".toList, "Ethane".toList⟩,
   ⟨"C3".toList, "ppm".toList, "Propane".toList⟩,
   ⟨"C4".toList, "ppm".toList, "Butane".toList⟩]

def burstEveryTicks : ℕ := 12

def burstRows : ℕ := 250

/-- `DEPTH_STEP_M`. -/
def depthStep : Float64 := .half

/-! ## 3. The state of a log

A log is over time or over depth, and has the catalog of its kind; that it cannot be otherwise is a
field. -/

/-- `IndexType.is_depth`. -/
def isDepth : IndexType → Bool
  | .measuredDepth | .verticalDepth => true
  | _ => false

/-- `LogState`: a log over time or over depth, with the curves of its kind. -/
structure LogState where
  wmlUid : Str
  name : Str
  indexType : IndexType
  direction : Direction
  curves : List Curve
  depth : Float64
  lastTime : Datetime
  phase : Float64
  rowsWritten : ℕ := 0
  catalog : indexType.isTime = true ∧ curves = timeCurves ∨
    isDepth indexType = true ∧ curves = depthCurves
  named : wmlUid ≠ []

def LogState.mnemonics (state : LogState) : List Str := state.curves.map Curve.mnemonic

def LogState.units (state : LogState) : List Str := state.curves.map Curve.unit

/-- The identity of a `WellboreState`. -/
structure WellboreState where
  uidWell : Str
  nameWell : Str
  uidWellbore : Str
  nameWellbore : Str

/-! ## 4. Channels

The value of a channel, from its curve, the state of the log, and the draws.  Floats are the
source's, in its order of operations. -/

/-- `max(a, b)`. -/
def larger (a b : Float64) : Float64 := if a.lt b then b else a

/-- `min(a, b)`. -/
def smaller (a b : Float64) : Float64 := if b.lt a then b else a

/-- What `random` contributes to a cell: whether it is nulled, and `random.uniform`. -/
structure Draw where
  nulled : Bool
  uniform : Float64 → Float64 → Float64

/-- What a row is made of: the clock, and the draws for its cells. -/
structure RowInput where
  now : Datetime
  draws : ℕ → Draw

/-- `math.sin` and `settings.poll_interval_seconds`. -/
structure Env where
  sin : Float64 → Float64
  pollInterval : Float64

/-- `max(0.0, base + amplitude * wave + random.uniform(-noise, noise))`, with a least value of its
own. -/
def swing (draw : Draw) (least base amplitude wave noise : Float64) : Float64 :=
  larger least ((base.add (amplitude.mul wave)).add (draw.uniform noise.neg noise))

/-- `_channel_value`. -/
def channelValue (env : Env) (draw : Draw) (curve : Curve) (state : LogState) (t : Float64) :
    Float64 :=
  let num (a : ℤ) (b : ℕ) : Float64 := .ofRatio a b
  let wave (speed : Float64) := env.sin ((t.mul speed).add state.phase)
  let wobble := env.sin (t.add state.phase)
  let m := curve.mnemonic
  if m = "DEPTH".toList then state.depth
  else if m = "ROP".toList then swing draw (num 2 1) (num 18 1) (num 6 1) wobble (num 3 2)
  else if m = "WOB".toList then swing draw (num 0 1) (num 25 1) (num 8 1) (wave (num 7 10)) (num 2 1)
  else if m = "RPM".toList then swing draw (num 0 1) (num 120 1) (num 15 1) wobble (num 4 1)
  else if m = "TORQUE".toList then swing draw (num 0 1) (num 12 1) (num 4 1) wobble (num 1 1)
  else if m = "SPP".toList then swing draw (num 0 1) (num 21000 1) (num 2500 1) wobble (num 300 1)
  else if m = "FLOWIN".toList then swing draw (num 0 1) (num 2200 1) (num 200 1) wobble (num 50 1)
  else if m = "HOOKLOAD".toList then
    swing draw (num 0 1) (num 210 1) (num 20 1) (wave (num 5 10)) (num 5 1)
  else if m = "TOTGAS".toList then
    let base := (num 12 10).add ((num 14 10).mul ((wave (num 3 10)).add (num 1 1)))
    smaller (num 5 1) (larger (num 0 1) (base.add (draw.uniform (num (-3) 10) (num 5 10))))
  else if m = "C1".toList then swing draw (num 0 1) (num 4500 1) (num 1500 1) wobble (num 300 1)
  else if m = "C2".toList then swing draw (num 0 1) (num 900 1) (num 300 1) wobble (num 80 1)
  else if m = "C3".toList then swing draw (num 0 1) (num 350 1) (num 120 1) wobble (num 40 1)
  else if m = "C4".toList then swing draw (num 0 1) (num 120 1) (num 50 1) wobble (num 20 1)
  else num 0 1

/-- `state.rows_written * 0.05`. -/
def LogState.rowPhase (state : LogState) : Float64 :=
  (Float64.ofRatio state.rowsWritten 1).mul (.ofRatio 1 20)

/-! ## 5. Rows

A row has the index after the advance, so each row advances the log by one step.  A depth log that
is pulled out stops at the surface, and a clock may stand still; then two rows have one index. -/

/-- `_advance`. -/
def advance (env : Env) (now : Datetime) (state : LogState) : LogState :=
  let wave := env.sin (state.rowPhase.add state.phase)
  let rop := larger (.ofRatio 2 1) ((Float64.ofRatio 18 1).add ((Float64.ofRatio 6 1).mul wave))
  if isDepth state.indexType then
    { state with
      depth := if state.direction = .decreasing
        then larger (.ofRatio 0 1) (state.depth.add depthStep.neg)
        else state.depth.add depthStep }
  else
    let dtSeconds := larger .half env.pollInterval
    { state with
      lastTime := now
      depth := state.depth.add (rop.mul (dtSeconds.div (.ofRatio 3600 1))) }

/-- An index token and the channel tokens. -/
abbrev EmittedRow := Str × List Str

/-- The index token of a state. -/
def LogState.indexToken (state : LogState) : Str :=
  if state.indexType.isTime then isoUtc state.lastTime else fmtNum state.depth

/-- The channel tokens of a state. -/
def LogState.cells (env : Env) (allowNull : Bool) (draws : ℕ → Draw) (state : LogState) :
    List Str :=
  (state.curves.drop 1).mapIdx fun i curve =>
    if allowNull && (draws i).nulled then defaultNullValue
    else fmtNum (channelValue env (draws i) curve state state.rowPhase)

/-- `_emit_row`: the row and the state after it. -/
def emitRow (env : Env) (allowNull : Bool) (state : LogState) (input : RowInput) :
    EmittedRow × LogState :=
  let moved := advance env input.now state
  ((moved.indexToken, moved.cells env allowNull input.draws),
    { moved with rowsWritten := moved.rowsWritten + 1 })

/-- `[_emit_row(state) for _ in …]`. -/
def emitRows (env : Env) : LogState → List RowInput → List EmittedRow × LogState
  | state, [] => ([], state)
  | state, input :: inputs =>
    let first := emitRow env true state input
    let rest := emitRows env first.2 inputs
    (first.1 :: rest.1, rest.2)

/-- `_row_csv`. -/
def rowCsv (row : EmittedRow) : Str := join ',' (row.1 :: row.2)

/-! ## 6. Elements

The elements that are sent.  The creation has the header and one row, an update rows only. -/

/-- `<logData>` of some rows. -/
def logDataOf (state : LogState) (rows : List EmittedRow) : LogDataElem where
  mnemonicList := some (join ',' state.mnemonics)
  unitList := some (join ',' state.units)
  data := rows.map fun row => some (rowCsv row)

/-- `_log_curve_info`. -/
def logCurveInfo (state : LogState) : List LogCurveInfoElem :=
  state.curves.mapIdx fun i curve =>
    { uid := some ("lci-".toList ++ curve.mnemonic)
      mnemonic := some curve.mnemonic
      unit := some curve.unit
      curveDescription := some curve.description
      typeLogData := some (if i = 0 ∧ state.indexType.isTime then "date time".toList
        else "double".toList)
      nullValue := some defaultNullValue
      minIndex := none
      maxIndex := none
      minDateTimeIndex := none
      maxDateTimeIndex := none }

/-- `log_create_xml`. -/
def logCreateElem (wb : WellboreState) (state : LogState) (firstRow : EmittedRow) : LogElem :=
  let bound (time : Bool) : Option Str :=
    if state.indexType.isTime = time then some firstRow.1 else none
  { uid := some state.wmlUid
    uidWell := some wb.uidWell
    uidWellbore := some wb.uidWellbore
    nameWell := some wb.nameWell
    nameWellbore := some wb.nameWellbore
    name := some state.name
    indexType := some state.indexType.value
    indexCurve := state.mnemonics.head?
    direction := some state.direction.value
    nullValue := some defaultNullValue
    startDateTimeIndex := bound true
    endDateTimeIndex := bound true
    startIndex := bound false
    endIndex := bound false
    startIndexUom := if state.indexType.isTime then none else state.units.head?
    logCurveInfo := logCurveInfo state
    logData := some (logDataOf state [firstRow]) }

/-- `log_update_xml`. -/
def logUpdateElem (wb : WellboreState) (state : LogState) (rows : List EmittedRow) : LogElem where
  uid := some state.wmlUid
  uidWell := some wb.uidWell
  uidWellbore := some wb.uidWellbore
  logData := some (logDataOf state rows)

/-! ## 7. A log and its store

One log among the writes to others.  `sent` keeps what has been emitted, to be compared with what
the store holds. -/

/-- A log of the fleet: its wellbore, the place of that in the fleet, and the surroundings. -/
structure Rig where
  env : Env
  wb : WellboreState
  fleetSize : ℕ
  place : ℕ

/-- A log, the store, and the rows emitted so far. -/
structure Feed where
  state : LogState
  store : MockStore
  sent : List EmittedRow

/-- The identity that the store keys the log by. -/
def LogState.key (wb : WellboreState) (state : LogState) : Str × Str × Str :=
  (wb.uidWell, wb.uidWellbore, state.wmlUid)

/-- `seed_fleet`, as far as the log goes. -/
def Rig.seed (rig : Rig) (feed : Feed) (input : RowInput) : Feed :=
  let first := emitRow rig.env false feed.state input
  { state := first.2
    store := (feed.store.addLog (some (logCreateElem rig.wb first.2 first.1))).1
    sent := feed.sent ++ [first.1] }

/-- Emit rows and append them to the log. -/
def Rig.append (rig : Rig) (feed : Feed) (inputs : List RowInput) : Feed :=
  let rows := emitRows rig.env feed.state inputs
  { state := rows.2
    store := (feed.store.updateLog (some (logUpdateElem rig.wb rows.2 rows.1))).1
    sent := feed.sent ++ rows.1 }

/-- How many rows a tick appends: a burst for one wellbore, now and then. -/
def Rig.tickRows (rig : Rig) (tickNo : ℕ) : ℕ :=
  if tickNo ≠ 0 ∧ tickNo % burstEveryTicks = 0 ∧ tickNo % rig.fleetSize = rig.place then burstRows
  else 1

/-- What happens to the store after the seeding: a tick of this log, or a write to another one. -/
inductive Event
  | tick (tickNo : ℕ) (inputs : ℕ → RowInput)
  | addOther (el : LogElem)
  | updateOther (el : LogElem)

/-- The inputs of the rows of a tick. -/
def Rig.tickInputs (rig : Rig) (tickNo : ℕ) (inputs : ℕ → RowInput) : List RowInput :=
  (List.range (rig.tickRows tickNo)).map inputs

/-- `tick`, as far as the log goes, among the writes to other logs. -/
def Rig.next (rig : Rig) (feed : Feed) : Event → Option Feed
  | .tick tickNo inputs => some (rig.append feed (rig.tickInputs tickNo inputs))
  | .addOther el =>
    if MockStore.elemKey el = feed.state.key rig.wb then none
    else some { feed with store := (feed.store.addLog (some el)).1 }
  | .updateOther el =>
    if MockStore.elemKey el = feed.state.key rig.wb then none
    else some { feed with store := (feed.store.updateLog (some el)).1 }

/-- The rows that an event adds to the log. -/
def Rig.rowsOf (rig : Rig) : Event → ℕ
  | .tick tickNo _ => rig.tickRows tickNo
  | _ => 0

end Simulator
end WitsmlViewer

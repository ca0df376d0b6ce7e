/-
# The simulated fleet (`simulator.feed_simulator`)

The whole fleet and the store that it is created in: `seed_fleet` adds the wells, wellbores, logs and
mud logs, a tick appends to every log, and a tick that is told of a missing log is followed by another
seeding.

Between two requests of the simulator anything may happen to the store: it may restart, which empties
it, and other clients may send requests of their own.  A request may fail before it reaches the store or
on the way back; `_add` and `_update_log` log such an exception and go on.

The model keeps one kind of event for all of this: a request, with what happens before it and how
it ends.  So a run of the simulator is a list of passes, each with its requests, and whatever can
go wrong on the way is in the requests.

Only the definitions are here.  That a fleet which has been lost comes back with the next pass is
in `Reseeding`.
-/
import WitsmlViewer.FreshRows
import WitsmlViewer.Objects

namespace WitsmlViewer
namespace Simulator

open Py

/-! ## 1. The fleet

A wellbore with its two logs.  The uids are built from one number, so they are distinct across the
fleet, and none is empty; the store would refuse an object with an empty uid. -/

/-- `WellboreState`; no uid of it is empty. -/
structure FleetWellbore where
  wb : WellboreState
  timeLog : LogState
  depthLog : LogState
  mudlogUid : Str
  mudlogName : Str
  mudlogMd : Float64
  named : wb.uidWell ≠ [] ∧ wb.uidWellbore ≠ [] ∧ mudlogUid ≠ []

/-- `logs`. -/
def FleetWellbore.logs (fw : FleetWellbore) : List LogState := [fw.timeLog, fw.depthLog]

/-- What `random` and the clock contribute to a wellbore: `random.uniform(-200, 200)`, the phases of its
two logs, and `datetime.now(UTC)`. -/
structure BuildInput where
  uniform : Float64
  phases : Float64 × Float64
  now : Datetime

/-- `f"{i:03d}"`. -/
def threeDigits (i : ℕ) : Str :=
  let digits := strInt i
  List.replicate (3 - digits.length) '0' ++ digits

theorem labels_ne_nil : "sim-well-".toList ≠ [] ∧ "-wb-1".toList ≠ [] ∧ "-log-time".toList ≠ [] ∧
    "-log-depth".toList ≠ [] ∧ "-mudlog-1".toList ≠ [] := by decide

theorem dateTime_catalog : IndexType.dateTime.isTime = true ∧ timeCurves = timeCurves ∨
    isDepth .dateTime = true ∧ timeCurves = depthCurves := Or.inl ⟨rfl, rfl⟩

theorem measuredDepth_catalog : IndexType.measuredDepth.isTime = true ∧ depthCurves = timeCurves ∨
    isDepth .measuredDepth = true ∧ depthCurves = depthCurves := Or.inr ⟨rfl, rfl⟩

/-- One pass of `build_fleet`. -/
def buildWellbore (input : BuildInput) (i : ℕ) : FleetWellbore :=
  let uidWell := "sim-well-".toList ++ threeDigits i
  let uidWellbore := uidWell ++ "-wb-1".toList
  let startDepth := (Float64.ofRatio 1500 1).add input.uniform
  { wb :=
      { uidWell := uidWell
        nameWell := "Simulated Well ".toList ++ threeDigits i
        uidWellbore := uidWellbore
        nameWellbore := "Wellbore 1".toList }
    timeLog :=
      { wmlUid := uidWellbore ++ "-log-time".toList
        name := "Time Log".toList
        indexType := .dateTime
        direction := .increasing
        curves := timeCurves
        depth := startDepth
        lastTime := input.now
        phase := input.phases.1
        catalog := dateTime_catalog
        named := List.append_ne_nil_of_right_ne_nil _ labels_ne_nil.2.2.1 }
    depthLog :=
      { wmlUid := uidWellbore ++ "-log-depth".toList
        name := "Depth Log".toList
        indexType := .measuredDepth
        direction := if i = 1 then .decreasing else .increasing
        curves := depthCurves
        depth := startDepth
        lastTime := input.now
        phase := input.phases.2
        catalog := measuredDepth_catalog
        named := List.append_ne_nil_of_right_ne_nil _ labels_ne_nil.2.2.2.1 }
    mudlogUid := uidWellbore ++ "-mudlog-1".toList
    mudlogName := "Geology MudLog".toList
    mudlogMd := startDepth
    named := ⟨List.append_ne_nil_of_left_ne_nil labels_ne_nil.1 _,
      List.append_ne_nil_of_right_ne_nil _ labels_ne_nil.2.1,
      List.append_ne_nil_of_right_ne_nil _ labels_ne_nil.2.2.2.2⟩ }

/-- `build_fleet`. -/
def buildFleet (count : ℕ) (inputs : ℕ → BuildInput) : List FleetWellbore :=
  (List.range' 1 count).map fun i => buildWellbore (inputs i) i

/-! ## 2. Elements

The elements of a seeding, besides the logs'.  The mud log's intervals are written as texts, as the
store keeps them. -/

/-- `well_xml`. -/
def wellElem (wb : WellboreState) : WellElem where
  uid := some wb.uidWell
  name := some wb.nameWell
  field := some "Simulated Field".toList
  country := some "US".toList
  operator := some "Simulator".toList
  statusWell := some "drilling".toList
  timeZone := some "+00:00".toList

/-- `wellbore_xml`. -/
def wellboreElem (wb : WellboreState) : WellboreElem where
  uid := some wb.uidWellbore
  uidWell := some wb.uidWell
  nameWell := some wb.nameWell
  name := some wb.nameWellbore
  statusWellbore := some "drilling".toList

/-- A `<lithology>` of the mud log: type, code, percentage and description. -/
structure Lithology where
  type : Str
  codeLith : Str
  lithPc : Float64
  description : Str

/-- `<tag>text</tag>`, with what stands in the tag after its name. -/
def textElement (tag attributes text : String) : Str :=
  ("<" ++ tag ++ attributes ++ ">" ++ text ++ "</" ++ tag ++ ">").toList

/-- A `<lithology>` as it is written. -/
def Lithology.write (uid : String) (l : Lithology) : Str :=
  ("<lithology uid=\"" ++ uid ++ "\">").toList ++
    textElement "type" "" (String.ofList l.type) ++
    textElement "codeLith" "" (String.ofList l.codeLith) ++
    textElement "lithPc" " uom=\"%\"" (String.ofList (fmtNum l.lithPc)) ++
    textElement "description" "" (String.ofList l.description) ++ "</lithology>".toList

/-- `_geology_interval`. -/
def geologyInterval (uid : String) (mdTop mdBottom : Float64) (primary secondary : Lithology) :
    GeologyIntervalElem where
  mdTop := some (fmtNum mdTop)
  mdBottom := some (fmtNum mdBottom)
  rest := textElement "typeLithology" "" "cuttings" ++
    textElement "description" ""
      (String.ofList (primary.type ++ " / ".toList ++ secondary.type)) ++
    primary.write (uid ++ "-l1") ++ secondary.write (uid ++ "-l2")

/-- `mudlog_create_xml`. -/
def mudlogCreateElem (fw : FleetWellbore) : MudLogElem :=
  let top := fw.mudlogMd
  let lithology (type code : String) (pc : ℕ) (description : String) : Lithology :=
    ⟨type.toList, code.toList, .ofRatio pc 1, description.toList⟩
  { uid := some fw.mudlogUid
    uidWell := some fw.wb.uidWell
    uidWellbore := some fw.wb.uidWellbore
    nameWell := some fw.wb.nameWell
    nameWellbore := some fw.wb.nameWellbore
    name := some fw.mudlogName
    intervals := [
      geologyInterval "gi-1" top (top.add (.ofRatio 25 1))
        (lithology "sandstone" "SND" 70 "Sandstone, fine-medium, good porosity")
        (lithology "shale" "SHL" 30 "Shale, grey interbeds"),
      geologyInterval "gi-2" (top.add (.ofRatio 25 1)) (top.add (.ofRatio 60 1))
        (lithology "shale" "SHL" 80 "Shale, dark grey, calcareous")
        (lithology "salt" "SLT" 20 "Salt stringer, halite")] }

/-! ## 3. Requests

An exchange may fail in two ways that the simulator cannot tell apart: the request does not arrive,
or the reply does not.  In the second case the store has done what it was asked. -/

/-- What happens to the store between two requests of the simulator. -/
inductive StoreEvent
  | restart
  | request (r : ObjectRequest)
  | update (el : LogElem)

/-- The store after it; a restart empties it. -/
def StoreEvent.apply (s : ObjectStore) : StoreEvent → ObjectStore
  | .restart => WitsmlViewer.emptyStore s.maxRequestLatestValues
  | .request r => (s.step r).1
  | .update el => { s with toMockStore := (s.toMockStore.updateLog (some el)).1 }

/-- One request of the simulator: what happens before it, whether it reaches the store, whether the reply
comes back, and what its rows are made of. -/
structure Exchange where
  before : List StoreEvent
  delivered : Bool
  replied : Bool
  inputs : ℕ → RowInput

/-- The store that a request finds. -/
def Exchange.found (x : Exchange) (s : ObjectStore) : ObjectStore := x.before.foldl StoreEvent.apply s

/-- The store after a request, and the reply, unless it is an exception. -/
def Exchange.send {α : Type} (x : Exchange) (s : ObjectStore)
    (act : ObjectStore → ObjectStore × α) : ObjectStore × Option α :=
  if x.delivered then
    ((act (x.found s)).1, if x.replied then some (act (x.found s)).2 else none)
  else (x.found s, none)

/-- `_add`; `seed_fleet` does not look at what it returns. -/
def Exchange.add (x : Exchange) (s : ObjectStore) (r : ObjectRequest) : ObjectStore :=
  (x.send s (·.step r)).1

/-- UpdateInStore of a log. -/
def updateStep (el : LogElem) (s : ObjectStore) : ObjectStore × Except PyError StoreReply :=
  let r := s.toMockStore.updateLog (some el)
  ({ s with toMockStore := r.1 }, r.2)

/-- `_not_found`. -/
def notFound (rc : ℤ) (suppMsg : Option Str) : Bool :=
  rc = -411 || suppMsg.any fun s => s ≠ [] && decide ("not found".toList <:+: lower s)

/-- What `_update_log` returns for a reply: whether the log is missing. -/
def missing : Option (Except PyError StoreReply) → Bool
  | some (.ok (rc, supp)) => !isSuccess rc && notFound rc supp
  | _ => false

/-! ## 4. Seeding and ticks

`seed_fleet` sends all requests whatever comes back, and relies on the store to refuse what is
there.  A tick notices a missing log by the return code, or by the text of the reply. -/

/-- What comes after the first `n` requests. -/
def afterFirst (n : ℕ) (exchanges : ℕ → Exchange) : ℕ → Exchange := fun i => exchanges (n + i)

section Requests

variable (env : Env)

/-- `seed_fleet` for one log. -/
def seedLog (x : Exchange) (wb : WellboreState) (state : LogState) (s : ObjectStore) :
    LogState × ObjectStore :=
  let first := emitRow env false state (x.inputs 0)
  (first.2, x.add s (.addLog (logCreateElem wb first.2 first.1)))

/-- `seed_fleet` for one wellbore. -/
def seedWellbore (exchanges : ℕ → Exchange) (fw : FleetWellbore) (s : ObjectStore) :
    FleetWellbore × ObjectStore :=
  let s := (exchanges 0).add s (.addWell (wellElem fw.wb))
  let s := (exchanges 1).add s (.addWellbore (wellboreElem fw.wb))
  let time := seedLog env (exchanges 2) fw.wb fw.timeLog s
  let depth := seedLog env (exchanges 3) fw.wb fw.depthLog time.2
  let fw := { fw with timeLog := time.1, depthLog := depth.1 }
  (fw, (exchanges 4).add depth.2 (.addMudLog (mudlogCreateElem fw)))

/-- `seed_fleet`. -/
def seedFleet (exchanges : ℕ → Exchange) : List FleetWellbore → ObjectStore →
    List FleetWellbore × ObjectStore
  | [], s => ([], s)
  | fw :: fleet, s =>
    let first := seedWellbore env exchanges fw s
    let rest := seedFleet (afterFirst 5 exchanges) fleet first.2
    (first.1 :: rest.1, rest.2)

/-- A tick for one log: the rows, and `_update_log`. -/
def tickLog (x : Exchange) (wb : WellboreState) (rows : ℕ) (state : LogState) (s : ObjectStore) :
    LogState × ObjectStore × Bool :=
  let emitted := emitRows env state ((List.range rows).map x.inputs)
  let sent := x.send s (updateStep (logUpdateElem wb emitted.2 emitted.1))
  (emitted.2, sent.1, missing sent.2)

/-- A tick for one wellbore. -/
def tickWellbore (exchanges : ℕ → Exchange) (rows : ℕ) (fw : FleetWellbore) (s : ObjectStore) :
    FleetWellbore × ObjectStore × Bool :=
  let time := tickLog env (exchanges 0) fw.wb rows fw.timeLog s
  let depth := tickLog env (exchanges 1) fw.wb rows fw.depthLog time.2.1
  ({ fw with timeLog := time.1, depthLog := depth.1 }, depth.2.1, time.2.2 || depth.2.2)

/-- The loop of `tick` from one place in the fleet on, with the place of the burst. -/
def tickFleet (burst : Option ℕ) (place : ℕ) (exchanges : ℕ → Exchange) : List FleetWellbore →
    ObjectStore → List FleetWellbore × ObjectStore × Bool
  | [], s => ([], s, false)
  | fw :: fleet, s =>
    let rows := if burst = some place then burstRows else 1
    let first := tickWellbore env exchanges rows fw s
    let rest := tickFleet burst (place + 1) (afterFirst 2 exchanges) fleet first.2.1
    (first.1 :: rest.1, rest.2.1, first.2.2 || rest.2.2)

end Requests

/-- `burst_target`. -/
def burstPlace (tickNo fleetSize : ℕ) : Option ℕ :=
  if tickNo ≠ 0 ∧ tickNo % burstEveryTicks = 0 then some (tickNo % fleetSize) else none

/-- The simulator and its store. -/
structure Simulation where
  fleet : List FleetWellbore
  store : ObjectStore
  tickNo : ℕ

namespace Simulation

/-- `main` up to its loop. -/
def start (env : Env) (fleet : List FleetWellbore) (store : ObjectStore)
    (exchanges : ℕ → Exchange) : Simulation :=
  let seeded := seedFleet env exchanges fleet store
  ⟨seeded.1, seeded.2, 0⟩

/-- How many requests a tick makes before it may seed. -/
def updates (s : Simulation) : ℕ := 2 * s.fleet.length

/-- The tick itself. -/
def ticked (env : Env) (s : Simulation) (exchanges : ℕ → Exchange) :
    List FleetWellbore × ObjectStore × Bool :=
  tickFleet env (burstPlace (s.tickNo + 1) s.fleet.length) 0 exchanges s.fleet s.store

/-- One pass of the loop of `main`: a tick, and another seeding if a log was missing. -/
def next (env : Env) (s : Simulation) (exchanges : ℕ → Exchange) : Option Simulation :=
  let t := s.ticked env exchanges
  let seeded := if t.2.2 then seedFleet env (afterFirst s.updates exchanges) t.1 t.2.1 else (t.1, t.2.1)
  some ⟨seeded.1, seeded.2, s.tickNo + 1⟩

end Simulation

end Simulator
end WitsmlViewer

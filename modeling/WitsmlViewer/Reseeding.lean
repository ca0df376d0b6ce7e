/-
# The fleet comes back (`seed_fleet`, `_update_log`, `_not_found`)

The simulator never looks at its store; it learns of a restart from the reply to an update, and
seeds again.  The invariant of its runs is that the store has the whole fleet or no log of it
(`Intact`): a restart takes everything away, and a seeding that is not disturbed brings everything
back.

* `fleet_recovers`: this holds in every run whose seedings are not disturbed, and a tick with one
  answered update and no restart after it leaves the whole fleet in the store.
* `lost_object_stays`: what a seeding has failed to add while the logs were added is never added
  again, as long as the store does not restart.

Logs are the simulator's only eyes.  A missing well or mud log is not noticed, because no update is
ever sent to one; so the second result is the other side of the first, and both come from the one
fact that an update's reply tells about its log.

Objects are followed by their keys (`ObjectId`), so most lemmas are about which keys a request adds
or takes away, and nothing about what the objects contain.
-/
import WitsmlViewer.Fleet
import WitsmlViewer.Lib.Runs

namespace WitsmlViewer

open Py Runs
open MockStore (elemKey)

/-! ## 1. What a store has

A request adds at most the one object that it is for, and takes nothing away unless it is a
deletion.  Whether it adds the object depends on what the store can take, and that is said of the
request alone. -/

/-- The key that an object is stored under. -/
inductive ObjectId
  | well (uid : Str)
  | wellbore (text : Str)
  | log (key : Str × Str × Str)
  | mudLog (key : Str × Str × Str)
deriving DecidableEq

/-- The keys of all objects. -/
def ObjectStore.ids (s : ObjectStore) : List ObjectId :=
  s.wells.map (fun w => .well w.uid) ++ s.wellbores.map (fun wb => .wellbore wb.key) ++
    s.logs.map (fun log => .log log.key) ++ s.mudLogs.map (fun ml => .mudLog ml.key)

namespace ObjectRequest

/-- The object that a request adds. -/
def added : ObjectRequest → Option ObjectId
  | .addWell el => some (.well (el.uid.getD []))
  | .addWellbore el => some (.wellbore (MockStore.wellboreText el))
  | .addLog el => some (.log (elemKey el))
  | .addMudLog el => some (.mudLog (mudLogKey el))
  | _ => none

def deletes : ObjectRequest → Bool
  | .deleteWell _ | .deleteWellbore _ | .deleteLog _ | .deleteMudLog _ => true
  | _ => false

/-- The store can take what is added. -/
def Acceptable : ObjectRequest → Prop
  | .addWell el => el.uid.getD [] ≠ []
  | .addWellbore el => el.uid.getD [] ≠ []
  | .addLog el => el.uid.getD [] ≠ [] ∧ InstantsInRange el
  | .addMudLog el => el.uid.getD [] ≠ []
  | _ => True

end ObjectRequest

/-- The second store has all that the first has, and at most one object more. -/
structure ObjectStore.Gains (s : ObjectStore) (more : Option ObjectId) (s' : ObjectStore) : Prop where
  kept : ∀ id ∈ s.ids, id ∈ s'.ids
  new : ∀ id ∈ s'.ids, id ∈ s.ids ∨ more = some id

namespace ObjectStore

variable {s s' : ObjectStore} {more : Option ObjectId}

theorem Gains.refl (s : ObjectStore) (more : Option ObjectId) : s.Gains more s :=
  ⟨fun _ h => h, fun _ h => Or.inl h⟩

theorem Gains.of_iff {k : ObjectId} (h : ∀ id, id ∈ s'.ids ↔ id ∈ s.ids ∨ id = k) :
    s.Gains (some k) s' :=
  ⟨fun id hid => (h id).mpr (Or.inl hid), fun id hid => ((h id).mp hid).imp_right fun heq =>
    congrArg some heq.symm⟩

theorem well_mem_ids {uid : Str} : .well uid ∈ s.ids ↔ ∃ w ∈ s.wells, w.uid = uid := by simp [ids]

theorem wellbore_mem_ids {text : Str} : .wellbore text ∈ s.ids ↔ ∃ wb ∈ s.wellbores, wb.key = text := by
  simp [ids]

theorem log_mem_ids {key : Str × Str × Str} : .log key ∈ s.ids ↔ ∃ log ∈ s.logs, log.key = key := by
  simp [ids]

theorem mudLog_mem_ids {key : Str × Str × Str} :
    .mudLog key ∈ s.ids ↔ ∃ ml ∈ s.mudLogs, ml.key = key := by simp [ids]

/-! What a new object changes. -/

theorem mem_ids_well (w : StoredWell) (id : ObjectId) :
    id ∈ ids { s with wells := s.wells ++ [w] } ↔ id ∈ s.ids ∨ id = .well w.uid := by
  simp only [ids, List.map_append, List.map_singleton, List.mem_append, List.mem_singleton]
  tauto

theorem mem_ids_wellbore (wb : StoredWellbore) (id : ObjectId) :
    id ∈ ids { s with wellbores := s.wellbores ++ [wb] } ↔ id ∈ s.ids ∨ id = .wellbore wb.key := by
  simp only [ids, List.map_append, List.map_singleton, List.mem_append, List.mem_singleton]
  tauto

theorem mem_ids_log (log : StoredLog) (hdistinct) (id : ObjectId) :
    id ∈ ids { s with logs := s.logs ++ [log], logsDistinct := hdistinct } ↔
      id ∈ s.ids ∨ id = .log log.key := by
  simp only [ids, List.map_append, List.map_singleton, List.mem_append, List.mem_singleton]
  tauto

theorem mem_ids_mudLog (ml : StoredMudLog) (id : ObjectId) :
    id ∈ ids { s with mudLogs := s.mudLogs ++ [ml] } ↔ id ∈ s.ids ∨ id = .mudLog ml.key := by
  simp only [ids, List.map_append, List.map_singleton, List.mem_append, List.mem_singleton]
  tauto

/-- **A request that deletes nothing** adds at most its object. -/
theorem gains_step {r : ObjectRequest} (hr : r.deletes = false) : s.Gains r.added (s.step r).1 := by
  cases r with
  | addWell el =>
    simp only [step, MockStore.addWell, ObjectRequest.added]
    split
    · exact .refl _ _
    · split
      · exact .refl _ _
      · exact .of_iff (mem_ids_well _)
  | deleteWell el => exact absurd hr (by simp [ObjectRequest.deletes])
  | queryWell uid => exact .refl _ _
  | addWellbore el =>
    simp only [step, MockStore.addWellbore, ObjectRequest.added]
    split
    · exact .refl _ _
    · split
      · exact .refl _ _
      · exact .of_iff (mem_ids_wellbore _)
  | deleteWellbore el => exact absurd hr (by simp [ObjectRequest.deletes])
  | queryWellbore uidWell uid => exact .refl _ _
  | addLog el =>
    have hkey : (ingestLogData (MockStore.logOfElem el) el).1.key = elemKey el := ingestLogData_key _ _
    simp only [step, MockStore.addLog, ObjectRequest.added]
    split
    · exact .refl _ _
    · split
      · exact .refl _ _
      · split
        · exact .refl _ _
        · rw [← hkey]
          exact .of_iff (mem_ids_log _ _)
  | deleteLog el => exact absurd hr (by simp [ObjectRequest.deletes])
  | queryLog q => exact .refl _ _
  | addMudLog el =>
    simp only [step, addMudLog, ObjectRequest.added]
    split
    · exact .refl _ _
    · split
      · exact .refl _ _
      · exact .of_iff (mem_ids_mudLog (mudLogOfElem el))
  | deleteMudLog el => exact absurd hr (by simp [ObjectRequest.deletes])
  | queryMudLog q => exact .refl _ _

/-- **A request that the store can take** leaves its object there. -/
theorem added_mem_step {r : ObjectRequest} (hr : r.Acceptable) :
    ∀ id ∈ r.added, id ∈ (s.step r).1.ids := by
  intro id hid
  cases r with
  | addWell el =>
    obtain rfl := Option.some.inj hid
    simp only [step, MockStore.addWell]
    rw [if_neg hr]
    split
    · rename_i htaken
      exact well_mem_ids.mpr (by simpa using htaken)
    · exact (mem_ids_well _ _).mpr (Or.inr rfl)
  | addWellbore el =>
    obtain rfl := Option.some.inj hid
    simp only [step, MockStore.addWellbore]
    rw [if_neg hr]
    split
    · rename_i htaken
      obtain ⟨wb, hwb, hkey⟩ := List.any_eq_true.mp htaken
      exact wellbore_mem_ids.mpr ⟨wb, hwb, of_decide_eq_true hkey⟩
    · exact (mem_ids_wellbore _ _).mpr (Or.inr rfl)
  | addLog el =>
    obtain rfl := Option.some.inj hid
    by_cases htaken : ∃ log ∈ s.logs, log.key = elemKey el
    · simp only [step, addLog_of_taken hr.1 htaken]
      exact log_mem_ids.mpr htaken
    · obtain ⟨hdistinct, hadd⟩ := addLog_of_free hr.1 htaken hr.2
      simp only [step, hadd]
      refine (mem_ids_log _ _ _).mpr (Or.inr ?_)
      rw [Objects.createdLog_key]
  | addMudLog el =>
    obtain rfl := Option.some.inj hid
    simp only [step, addMudLog]
    rw [if_neg hr]
    split
    · rename_i htaken
      exact mudLog_mem_ids.mpr (by simpa using htaken)
    · exact (mem_ids_mudLog _ _).mpr (Or.inr rfl)
  | deleteWell el => exact absurd hid (by simp [ObjectRequest.added])
  | queryWell uid => exact absurd hid (by simp [ObjectRequest.added])
  | deleteWellbore el => exact absurd hid (by simp [ObjectRequest.added])
  | queryWellbore uidWell uid => exact absurd hid (by simp [ObjectRequest.added])
  | deleteLog el => exact absurd hid (by simp [ObjectRequest.added])
  | queryLog q => exact absurd hid (by simp [ObjectRequest.added])
  | deleteMudLog el => exact absurd hid (by simp [ObjectRequest.added])
  | queryMudLog q => exact absurd hid (by simp [ObjectRequest.added])

/-- An update adds nothing. -/
theorem ids_update (s : ObjectStore) (el : LogElem) :
    ({ s with toMockStore := (s.toMockStore.updateLog (some el)).1 } : ObjectStore).ids = s.ids := by
  have hkeys : (s.toMockStore.updateLog (some el)).1.logs.map (fun log => ObjectId.log log.key) =
      s.logs.map fun log => ObjectId.log log.key := by
    have hsame : (s.toMockStore.updateLog (some el)).1.logs.map StoredLog.key =
        s.logs.map StoredLog.key := MockStore.updateLog_keys el
    have h := congrArg (List.map ObjectId.log) hsame
    rwa [List.map_map, List.map_map] at h
  have hrest : (s.toMockStore.updateLog (some el)).1.wells = s.wells ∧
      (s.toMockStore.updateLog (some el)).1.wellbores = s.wellbores := by
    rw [MockStore.updateLog]
    split <;> exact ⟨rfl, rfl⟩
  rw [ids, ids]
  dsimp only
  rw [hkeys, hrest.1, hrest.2]

end ObjectStore

namespace Simulator

/-! ## 2. The objects of the fleet

Five objects for each wellbore of the fleet, two of them logs.  "Whole" is about all of them, "no
logs" about the two. -/

def FleetWellbore.logIds (fw : FleetWellbore) : List ObjectId :=
  fw.logs.map fun state => .log (state.key fw.wb)

/-- All that `seed_fleet` adds for a wellbore. -/
def FleetWellbore.ids (fw : FleetWellbore) : List ObjectId :=
  .well fw.wb.uidWell :: .wellbore (fw.wb.uidWell ++ '/' :: fw.wb.uidWellbore) ::
    (fw.logIds ++ [.mudLog (fw.wb.uidWell, fw.wb.uidWellbore, fw.mudlogUid)])

/-- The depths of its logs are depths. -/
def FleetWellbore.Sound (fw : FleetWellbore) : Prop := ∀ state ∈ fw.logs, state.Sound

/-- The store has the whole fleet. -/
def Whole (fleet : List FleetWellbore) (s : ObjectStore) : Prop :=
  ∀ fw ∈ fleet, ∀ id ∈ fw.ids, id ∈ s.ids

/-- It has no log of the fleet. -/
def NoLogs (fleet : List FleetWellbore) (s : ObjectStore) : Prop :=
  ∀ fw ∈ fleet, ∀ id ∈ fw.logIds, id ∉ s.ids

/-- It has all of them. -/
def AllLogs (fleet : List FleetWellbore) (s : ObjectStore) : Prop :=
  ∀ fw ∈ fleet, ∀ id ∈ fw.logIds, id ∈ s.ids

/-- The whole fleet, or no log of it. -/
def Intact (fleet : List FleetWellbore) (s : ObjectStore) : Prop := Whole fleet s ∨ NoLogs fleet s

/-- The same wellbore, with its logs in other states. -/
structure SameWellbore (fw fw' : FleetWellbore) : Prop where
  wb : fw'.wb = fw.wb
  time : SameLog fw.timeLog fw'.timeLog
  depth : SameLog fw.depthLog fw'.depthLog
  mudlogUid : fw'.mudlogUid = fw.mudlogUid
  sound : fw.Sound → fw'.Sound

/-- What another client may do: anything but delete objects or add logs of the fleet. -/
def StoreEvent.Fair (fleet : List FleetWellbore) : StoreEvent → Prop
  | .restart => True
  | .request r => r.deletes = false ∧ ∀ id ∈ r.added, ∀ fw ∈ fleet, id ∉ fw.logIds
  | .update _ => True

def StoreEvent.isRestart : StoreEvent → Bool
  | .restart => true
  | _ => false

/-- The store restarts before the request. -/
def Exchange.restarts (x : Exchange) : Bool := x.before.any StoreEvent.isRestart

/-- The request arrives, and its reply comes back. -/
def Exchange.answered (x : Exchange) : Bool := x.delivered && x.replied

/-- Whatever happens before the request is fair. -/
def Exchange.Fair (fleet : List FleetWellbore) (x : Exchange) : Prop := ∀ e ∈ x.before, e.Fair fleet

/-! ## 3. Between two requests

Other clients may add what they like, also wells and mud logs of the fleet, but no logs of it; the
store would take these for the simulator's own, and a tick would not notice that the rest is
missing. -/

section Between

variable {fleet : List FleetWellbore} {s s' : ObjectStore}

theorem mem_logIds {fw : FleetWellbore} {state : LogState} (h : state ∈ fw.logs) :
    ObjectId.log (state.key fw.wb) ∈ fw.logIds :=
  List.mem_map_of_mem (f := fun state => ObjectId.log (state.key fw.wb)) h

/-- A fleet is whole as long as nothing goes. -/
theorem Whole.kept (h : Whole fleet s) (hkept : ∀ id ∈ s.ids, id ∈ s'.ids) : Whole fleet s' :=
  fun fw hfw id hid => hkept id (h fw hfw id hid)

/-- **No event leaves a part of the fleet.** -/
theorem StoreEvent.Fair.intact {e : StoreEvent} (he : e.Fair fleet) (h : Intact fleet s) :
    Intact fleet (e.apply s) := by
  cases e with
  | restart => exact Or.inr fun fw _ id _ => List.not_mem_nil
  | request r =>
    have hgains : s.Gains r.added (s.step r).1 := ObjectStore.gains_step he.1
    refine h.imp (fun hw => hw.kept hgains.kept) fun hn fw hfw id hid hmem => ?_
    rcases hgains.new id hmem with hmem | hadded
    · exact hn fw hfw id hid hmem
    · exact he.2 id hadded fw hfw hid
  | update el =>
    have hids : (StoreEvent.apply s (.update el)).ids = s.ids := s.ids_update el
    rw [Intact, Whole, NoLogs, hids]
    exact h

/-- Only a restart takes objects away. -/
theorem StoreEvent.Fair.kept {e : StoreEvent} (he : e.Fair fleet) (hr : e.isRestart = false) :
    ∀ id ∈ s.ids, id ∈ (e.apply s).ids := by
  cases e with
  | restart => exact absurd hr (by simp [StoreEvent.isRestart])
  | request r => exact (ObjectStore.gains_step he.1).kept
  | update el =>
    intro id hid
    rw [StoreEvent.apply, s.ids_update el]
    exact hid

variable {x : Exchange}

theorem Exchange.Fair.found_intact (hx : x.Fair fleet) (h : Intact fleet s) :
    Intact fleet (x.found s) :=
  List.foldlRecOn _ _ h fun _ hs e he => (hx e he).intact hs

/-- Without a restart it has all that was there. -/
theorem Exchange.Fair.found_kept (hx : x.Fair fleet) (hr : x.restarts = false) :
    ∀ id ∈ s.ids, id ∈ (x.found s).ids := by
  intro id hid
  refine List.foldlRecOn (motive := fun s' : ObjectStore => id ∈ s'.ids) _ _ hid
    fun s' hs' e he => ?_
  have hcalm : e.isRestart = false := by
    have hnone := List.any_eq_false.mp hr e he
    simpa using hnone
  exact (hx e he).kept hcalm id hs'

end Between

/-! ## 4. A tick

A tick sends one update for each log.  What the tick has been told at its end is a disjunction over
its updates, so it is described by what it comes to for any part of them. -/

/-- What some updates do: they keep the fleet intact, take nothing away unless the store restarts, and
an answered one with no restart after it tells that the fleet is gone if it is. -/
structure Ticks (fleet : List FleetWellbore) (exchanges : ℕ → Exchange) (n : ℕ)
    (s s' : ObjectStore) (told : Bool) : Prop where
  intact : Intact fleet s → Intact fleet s'
  kept : (∀ i < n, (exchanges i).restarts = false) → ∀ id ∈ s.ids, id ∈ s'.ids
  tells : Intact fleet s → ∀ i < n, (exchanges i).answered = true →
    (∀ j, i < j → j < n → (exchanges j).restarts = false) → told = true ∨ Whole fleet s'

section Ticks

variable {fleet : List FleetWellbore} {exchanges : ℕ → Exchange} {s s' s'' : ObjectStore}

theorem Ticks.nil (s : ObjectStore) : Ticks fleet exchanges 0 s s false :=
  ⟨id, fun _ _ h => h, fun _ i hi => absurd hi (Nat.not_lt_zero i)⟩

/-- **One after the other.** -/
theorem Ticks.append {n m : ℕ} {told told' : Bool} (h : Ticks fleet exchanges n s s' told)
    (h' : Ticks fleet (afterFirst n exchanges) m s' s'' told') :
    Ticks fleet exchanges (n + m) s s'' (told || told') := by
  refine ⟨fun hs => h'.intact (h.intact hs), fun hcalm id hid => ?_, fun hs i hi hans hcalm => ?_⟩
  · exact h'.kept (fun i hi => hcalm (n + i) (by omega)) id
      (h.kept (fun i hi => hcalm i (by omega)) id hid)
  · rw [Bool.or_eq_true]
    by_cases hin : i < n
    · rcases h.tells hs i hin hans fun j hij hj => hcalm j hij (by omega) with htold | hwhole
      · exact Or.inl (Or.inl htold)
      · exact Or.inr (hwhole.kept (h'.kept fun j hj => hcalm (n + j) (by omega) (by omega)))
    · have hlater := h'.tells (h.intact hs) (i - n) (by omega)
        (by rw [afterFirst, Nat.add_sub_cancel' (not_lt.mp hin)]; exact hans)
        fun j hij hj => hcalm (n + j) (by omega) (by omega)
      exact hlater.imp_left Or.inr

/-- The state of a log after some rows. -/
theorem emitRows_same (env : Env) : ∀ (inputs : List RowInput) (state : LogState),
    SameLog state (emitRows env state inputs).2 ∧
      (state.Sound → (emitRows env state inputs).2.Sound)
  | [], state => ⟨.refl state, id⟩
  | input :: inputs, state => by
    obtain ⟨hsame, hsound⟩ := emitRows_same env inputs (emitRow env true state input).2
    refine ⟨(sameLog_emitRow env true state input).trans hsame, fun h => hsound ?_⟩
    exact h.advance env input.now

/-- The reply to an update tells whether the log is there. -/
theorem missing_update {el : LogElem} (h : .log (elemKey el) ∉ s.ids) :
    missing (some (updateStep el s).2) = true := by
  have hnone : s.toMockStore.findLog (elemKey el) = none := by
    refine List.find?_eq_none.mpr fun log hlog hkey => h ?_
    exact ObjectStore.log_mem_ids.mpr ⟨log, hlog, by simpa using hkey⟩
  rw [updateStep, MockStore.updateLog, hnone]
  rfl

theorem tickLog_ticks (env : Env) (exchanges : ℕ → Exchange) {wb : WellboreState} {state : LogState}
    (rows : ℕ) (hx : (exchanges 0).Fair fleet)
    (hlog : ∃ fw ∈ fleet, .log (state.key wb) ∈ fw.logIds) :
    Ticks fleet exchanges 1 s (tickLog env (exchanges 0) wb rows state s).2.1
      (tickLog env (exchanges 0) wb rows state s).2.2 := by
  obtain ⟨hsame, -⟩ := emitRows_same env ((List.range rows).map (exchanges 0).inputs) state
  set emitted := emitRows env state ((List.range rows).map (exchanges 0).inputs) with hemitted
  set el := logUpdateElem wb emitted.2 emitted.1 with hel
  have hkey : elemKey el = state.key wb := hsame.key wb
  have hids : ∀ s : ObjectStore, (updateStep el s).1.ids = s.ids := fun s => s.ids_update el
  have hsent : ((exchanges 0).send s (updateStep el)).1.ids = ((exchanges 0).found s).ids := by
    rw [Exchange.send]
    split
    · exact hids _
    · rfl
  have hintact : Intact fleet s → Intact fleet ((exchanges 0).send s (updateStep el)).1 := by
    intro hs
    have hfound := hx.found_intact hs
    rw [Intact, Whole, NoLogs] at hfound ⊢
    rwa [hsent]
  refine ⟨hintact, fun hcalm id hid => ?_, fun hs i hi hans _ => ?_⟩
  · have hfound := hx.found_kept (hcalm 0 Nat.one_pos) id hid
    rwa [← hsent] at hfound
  · obtain rfl : i = 0 := by omega
    obtain ⟨hdelivered, hreplied⟩ := Bool.and_eq_true_iff.mp hans
    rcases hintact hs with hwhole | hnone
    · exact Or.inr hwhole
    · refine Or.inl ?_
      obtain ⟨fw, hfw, hmem⟩ := hlog
      have habsent : .log (elemKey el) ∉ ((exchanges 0).found s).ids := by
        rw [hkey, ← hsent]
        exact hnone fw hfw _ hmem
      have hreply : ((exchanges 0).send s (updateStep el)).2 =
          some (updateStep el ((exchanges 0).found s)).2 := by
        rw [Exchange.send, if_pos hdelivered, if_pos hreplied]
      have htold := missing_update habsent
      rw [← hreply] at htold
      exact htold

theorem SameWellbore.ids {fw fw' : FleetWellbore} (h : SameWellbore fw fw') :
    fw'.logIds = fw.logIds ∧ fw'.ids = fw.ids := by
  have hlogs : fw'.logIds = fw.logIds := by
    simp only [FleetWellbore.logIds, FleetWellbore.logs, List.map_cons, List.map_nil, h.wb,
      h.time.key, h.depth.key]
  refine ⟨hlogs, ?_⟩
  rw [FleetWellbore.ids, FleetWellbore.ids, hlogs, h.wb, h.mudlogUid]

theorem tickWellbore_ticks (env : Env) (rows : ℕ) {fw : FleetWellbore} (hfw : fw ∈ fleet)
    (hx : ∀ i < 2, (exchanges i).Fair fleet) :
    Ticks fleet exchanges 2 s (tickWellbore env exchanges rows fw s).2.1
      (tickWellbore env exchanges rows fw s).2.2 := by
  have htime := tickLog_ticks (s := s) env exchanges rows (hx 0 (by omega))
    ⟨fw, hfw, mem_logIds List.mem_cons_self⟩
  have hdepth := tickLog_ticks (s := (tickLog env (exchanges 0) fw.wb rows fw.timeLog s).2.1) env
    (afterFirst 1 exchanges) rows (hx 1 (by omega))
    ⟨fw, hfw, mem_logIds (List.mem_cons_of_mem _ List.mem_cons_self)⟩
  exact htime.append hdepth

theorem tickWellbore_same (env : Env) (exchanges : ℕ → Exchange) (rows : ℕ) (fw : FleetWellbore)
    (s : ObjectStore) : SameWellbore fw (tickWellbore env exchanges rows fw s).1 := by
  refine ⟨rfl, (emitRows_same env _ fw.timeLog).1, (emitRows_same env _ fw.depthLog).1, rfl,
    fun hsound state hstate => ?_⟩
  rcases List.mem_cons.mp hstate with rfl | hstate
  · exact (emitRows_same env _ fw.timeLog).2 (hsound _ List.mem_cons_self)
  · obtain rfl := List.mem_singleton.mp hstate
    exact (emitRows_same env _ fw.depthLog).2 (hsound _ (List.mem_cons_of_mem _ List.mem_cons_self))

/-- **The loop of a tick**, from any place on. -/
theorem tickFleet_ticks (env : Env) (burst : Option ℕ) : ∀ (part : List FleetWellbore) (place : ℕ)
    (exchanges : ℕ → Exchange) (s : ObjectStore), (∀ fw ∈ part, fw ∈ fleet) →
    (∀ i < 2 * part.length, (exchanges i).Fair fleet) →
    Ticks fleet exchanges (2 * part.length) s (tickFleet env burst place exchanges part s).2.1
      (tickFleet env burst place exchanges part s).2.2
  | [], _, _, s, _, _ => .nil s
  | fw :: part, place, exchanges, s, hpart, hx => by
    rw [List.length_cons] at hx ⊢
    have hfirst := tickWellbore_ticks (s := s) env (if burst = some place then burstRows else 1)
      (hpart fw List.mem_cons_self) fun i hi => hx i (by omega)
    have hrest := tickFleet_ticks env burst part (place + 1) (afterFirst 2 exchanges)
      (tickWellbore env exchanges (if burst = some place then burstRows else 1) fw s).2.1
      (fun fw' hfw' => hpart fw' (List.mem_cons_of_mem _ hfw'))
      fun i hi => hx (2 + i) (by omega)
    rw [Nat.mul_succ, Nat.add_comm]
    exact hfirst.append hrest

theorem tickFleet_same (env : Env) (burst : Option ℕ) : ∀ (part : List FleetWellbore) (place : ℕ)
    (exchanges : ℕ → Exchange) (s : ObjectStore),
    List.Forall₂ SameWellbore part (tickFleet env burst place exchanges part s).1
  | [], _, _, _ => .nil
  | fw :: part, place, exchanges, s => .cons (tickWellbore_same env exchanges _ fw s)
      (tickFleet_same env burst part (place + 1) (afterFirst 2 exchanges) _)

end Ticks

/-! ## 5. A seeding

Each of the five requests is one that the store can take, so undisturbed it leaves its object
there; and none takes away what the others have brought. -/

/-- Nothing disturbs a request. -/
def Exchange.Calm (x : Exchange) : Prop := x.delivered = true ∧ x.restarts = false

section Seeding

variable {fleet : List FleetWellbore} {s s' : ObjectStore}

/-- The second store has all that the first has, and these objects. -/
structure Brings (s : ObjectStore) (ids : List ObjectId) (s' : ObjectStore) : Prop where
  kept : ∀ id ∈ s.ids, id ∈ s'.ids
  there : ∀ id ∈ ids, id ∈ s'.ids

theorem Brings.append {s'' : ObjectStore} {ids ids' : List ObjectId} (h : Brings s ids s')
    (h' : Brings s' ids' s'') : Brings s (ids ++ ids') s'' := by
  refine ⟨fun id hid => h'.kept id (h.kept id hid), fun id hid => ?_⟩
  rcases List.mem_append.mp hid with hid | hid
  · exact h'.kept id (h.there id hid)
  · exact h'.there id hid

/-- **What is added undisturbed is there.** -/
theorem add_calm {x : Exchange} (hx : x.Fair fleet) (hcalm : x.Calm) {r : ObjectRequest}
    {id : ObjectId} (hadded : r.added = some id) (hr : r.deletes = false) (hok : r.Acceptable) :
    Brings s [id] (x.add s r) := by
  have hadd : x.add s r = ((x.found s).step r).1 := by
    rw [Exchange.add, Exchange.send, if_pos hcalm.1]
  rw [hadd]
  refine ⟨fun id hid => ?_, fun id' hid' => ?_⟩
  · exact (ObjectStore.gains_step hr).kept id (hx.found_kept hcalm.2 id hid)
  · rw [List.mem_singleton.mp hid']
    exact ObjectStore.added_mem_step hok id hadded

/-- A log of the fleet can be taken: its first row has an index in range. -/
theorem acceptable_create (env : Env) {wb : WellboreState} {state : LogState} (input : RowInput)
    (h : state.Sound) : (ObjectRequest.addLog (logCreateElem wb (emitRow env false state input).2
      (emitRow env false state input).1)).Acceptable := by
  have hsame := sameLog_emitRow env false state input
  have hgood := (goodRow_emitRow env false input h).of_sameLog hsame
  set first := emitRow env false state input with hfirst
  have hrows : ∀ row ∈ [first.1], ∃ v, GoodRow first.2 row v := fun row hrow =>
    ⟨_, List.mem_singleton.mp hrow ▸ hgood⟩
  have htype : (MockStore.logOfElem (logCreateElem wb first.2 first.1)).indexType =
      first.2.indexType := parseIndexType_text first.2.indexType
  have hread : ∀ w ∈ blockLines (logCreateElem wb first.2 first.1),
      ReadableToken (MockStore.logOfElem (logCreateElem wb first.2 first.1)).indexType [] w :=
    readable_logDataOf htype hrows rfl
  exact ⟨first.2.named, instantsInRange_of_readable hread⟩

theorem seedLog_calm (env : Env) {x : Exchange} {wb : WellboreState} {state : LogState}
    (h : state.Sound) (hx : x.Fair fleet) (hcalm : x.Calm) :
    Brings s [.log (state.key wb)] (seedLog env x wb state s).2 := by
  refine add_calm hx hcalm ?_ rfl (acceptable_create env (x.inputs 0) h)
  have hkey := (sameLog_emitRow env false state (x.inputs 0)).key wb
  exact congrArg (some ∘ ObjectId.log) hkey

theorem seedLog_same (env : Env) (x : Exchange) (wb : WellboreState) (state : LogState)
    (s : ObjectStore) : SameLog state (seedLog env x wb state s).1 ∧
      (state.Sound → (seedLog env x wb state s).1.Sound) :=
  ⟨sameLog_emitRow env false state (x.inputs 0), fun h => h.advance env (x.inputs 0).now⟩

/-- A wellbore is brought with all that belongs to it. -/
theorem seedWellbore_calm (env : Env) {exchanges : ℕ → Exchange} {fw : FleetWellbore}
    (hsound : fw.Sound) (hx : ∀ i < 5, (exchanges i).Fair fleet)
    (hcalm : ∀ i < 5, (exchanges i).Calm) :
    Brings s fw.ids (seedWellbore env exchanges fw s).2 := by
  obtain ⟨hwell, hwellbore, hmudlog⟩ := fw.named
  have h₀ : ∀ s, Brings s [.well fw.wb.uidWell] ((exchanges 0).add s (.addWell (wellElem fw.wb))) :=
    fun s => add_calm (hx 0 (by omega)) (hcalm 0 (by omega)) rfl rfl hwell
  have h₁ : ∀ s, Brings s [.wellbore (fw.wb.uidWell ++ '/' :: fw.wb.uidWellbore)]
      ((exchanges 1).add s (.addWellbore (wellboreElem fw.wb))) :=
    fun s => add_calm (hx 1 (by omega)) (hcalm 1 (by omega)) rfl rfl hwellbore
  have h₂ : ∀ s, Brings s [.log (fw.timeLog.key fw.wb)]
      (seedLog env (exchanges 2) fw.wb fw.timeLog s).2 := fun s =>
    seedLog_calm env (hsound fw.timeLog List.mem_cons_self) (hx 2 (by omega)) (hcalm 2 (by omega))
  have h₃ : ∀ s, Brings s [.log (fw.depthLog.key fw.wb)]
      (seedLog env (exchanges 3) fw.wb fw.depthLog s).2 := fun s =>
    seedLog_calm env (hsound fw.depthLog (List.mem_cons_of_mem _ List.mem_cons_self)) (hx 3 (by omega))
      (hcalm 3 (by omega))
  have h₄ : ∀ s, Brings s [.mudLog (fw.wb.uidWell, fw.wb.uidWellbore, fw.mudlogUid)]
      ((exchanges 4).add s (.addMudLog (mudlogCreateElem fw))) :=
    fun s => add_calm (hx 4 (by omega)) (hcalm 4 (by omega)) rfl rfl hmudlog
  exact (h₀ s).append ((h₁ _).append (((h₂ _).append (h₃ _)).append (h₄ _)))

theorem seedWellbore_same (env : Env) (exchanges : ℕ → Exchange) (fw : FleetWellbore)
    (s : ObjectStore) : SameWellbore fw (seedWellbore env exchanges fw s).1 := by
  obtain ⟨htime, hsoundTime⟩ := seedLog_same env (exchanges 2) fw.wb fw.timeLog
    ((exchanges 1).add ((exchanges 0).add s (.addWell (wellElem fw.wb)))
      (.addWellbore (wellboreElem fw.wb)))
  obtain ⟨hdepth, hsoundDepth⟩ := seedLog_same env (exchanges 3) fw.wb fw.depthLog
    (seedLog env (exchanges 2) fw.wb fw.timeLog
      ((exchanges 1).add ((exchanges 0).add s (.addWell (wellElem fw.wb)))
        (.addWellbore (wellboreElem fw.wb)))).2
  refine ⟨rfl, htime, hdepth, rfl, fun hsound state hstate => ?_⟩
  rcases List.mem_cons.mp hstate with rfl | hstate
  · exact hsoundTime (hsound _ List.mem_cons_self)
  · obtain rfl := List.mem_singleton.mp hstate
    exact hsoundDepth (hsound _ (List.mem_cons_of_mem _ List.mem_cons_self))

/-- **A seeding that nothing disturbs brings the whole fleet.** -/
theorem seedFleet_calm (env : Env) : ∀ (part : List FleetWellbore) (exchanges : ℕ → Exchange)
    (s : ObjectStore), (∀ fw ∈ part, fw.Sound) →
    (∀ i < 5 * part.length, (exchanges i).Fair fleet) →
    (∀ i < 5 * part.length, (exchanges i).Calm) →
    Brings s (part.flatMap FleetWellbore.ids) (seedFleet env exchanges part s).2
  | [], _, _, _, _, _ => ⟨fun _ h => h, fun _ h => absurd h List.not_mem_nil⟩
  | fw :: part, exchanges, s, hsound, hx, hcalm => by
    rw [List.length_cons] at hx hcalm
    have hfirst := seedWellbore_calm (s := s) env (hsound fw List.mem_cons_self)
      (fun i hi => hx i (by omega)) fun i hi => hcalm i (by omega)
    have hrest := seedFleet_calm env part (afterFirst 5 exchanges)
      (seedWellbore env exchanges fw s).2
      (fun fw' hfw' => hsound fw' (List.mem_cons_of_mem _ hfw'))
      (fun i hi => hx (5 + i) (by omega)) fun i hi => hcalm (5 + i) (by omega)
    rw [List.flatMap_cons]
    exact hfirst.append hrest

theorem seedFleet_same (env : Env) : ∀ (part : List FleetWellbore) (exchanges : ℕ → Exchange)
    (s : ObjectStore), List.Forall₂ SameWellbore part (seedFleet env exchanges part s).1
  | [], _, _ => .nil
  | fw :: part, exchanges, s => .cons (seedWellbore_same env exchanges fw s)
      (seedFleet_same env part (afterFirst 5 exchanges) _)

end Seeding

/-! ## 6. Runs

One pass of the loop is a step, and the invariant is kept by it.  If the tick hears nothing, the
fleet stays as it is, whole or gone; if it is told that a log is missing, the seeding makes it
whole. -/

namespace Simulation

/-- Other clients are fair, and if the tick is followed by a seeding, nothing disturbs it. -/
def Meets (env : Env) (s : Simulation) (exchanges : ℕ → Exchange) : Prop :=
  (∀ i < 7 * s.fleet.length, (exchanges i).Fair s.fleet) ∧
    ((s.ticked env exchanges).2.2 = true →
      ∀ i < 5 * s.fleet.length, (exchanges (s.updates + i)).Calm)

/-- Some update of the tick is answered, and the store does not restart after it. -/
def Hears (s : Simulation) (exchanges : ℕ → Exchange) : Prop :=
  ∃ i < s.updates, (exchanges i).answered = true ∧
    ∀ j, i < j → j < s.updates → (exchanges j).restarts = false

/-- What every tick keeps. -/
structure Inv (s : Simulation) : Prop where
  sound : ∀ fw ∈ s.fleet, fw.Sound
  intact : Intact s.fleet s.store

/-- The same fleet, as far as its objects go. -/
theorem of_same {fleet fleet' : List FleetWellbore} (store : ObjectStore)
    (h : List.Forall₂ SameWellbore fleet fleet') :
    (Whole fleet' store ↔ Whole fleet store) ∧ (NoLogs fleet' store ↔ NoLogs fleet store) ∧
      (AllLogs fleet' store ↔ AllLogs fleet store) ∧
      ((∀ fw ∈ fleet, fw.Sound) → ∀ fw ∈ fleet', fw.Sound) := by
  induction h with
  | nil => exact ⟨Iff.rfl, Iff.rfl, Iff.rfl, id⟩
  | cons hfw _ ih =>
    obtain ⟨hwhole, hnone, hlogs, hsound⟩ := ih
    obtain ⟨hlogIds, hids⟩ := hfw.ids
    simp only [Whole, NoLogs, AllLogs, List.forall_mem_cons, hlogIds, hids] at hwhole hnone hlogs ⊢
    exact ⟨and_congr_right fun _ => hwhole, and_congr_right fun _ => hnone,
      and_congr_right fun _ => hlogs, fun hall => ⟨hfw.sound hall.1, hsound hall.2⟩⟩

/-- **A tick keeps the fleet whole or without logs**, and makes it whole if it hears of it. -/
theorem Inv.next {env : Env} {s s' : Simulation} {exchanges : ℕ → Exchange} (hi : s.Inv)
    (hm : s.Meets env exchanges) (hnext : s.next env exchanges = some s') :
    s'.Inv ∧ (s.Hears exchanges → Whole s'.fleet s'.store) := by
  obtain ⟨hfair, hcalm⟩ := hm
  have hticks := tickFleet_ticks env (burstPlace (s.tickNo + 1) s.fleet.length) s.fleet 0 exchanges
    s.store (fun _ h => h) fun i hi => hfair i (by omega)
  have hsame : List.Forall₂ SameWellbore s.fleet (s.ticked env exchanges).1 :=
    tickFleet_same env _ s.fleet 0 exchanges s.store
  obtain ⟨hwhole, hnone, -, hsound⟩ := of_same (s.ticked env exchanges).2.1 hsame
  have hlength : (s.ticked env exchanges).1.length = s.fleet.length := hsame.length_eq.symm
  rw [← Option.some.inj hnext]
  cases htold : (s.ticked env exchanges).2.2 with
  | true =>
    have hbrings := seedFleet_calm env (s.ticked env exchanges).1 (afterFirst s.updates exchanges)
      (s.ticked env exchanges).2.1 (hsound hi.sound)
      (fun i hi => hfair (s.updates + i) (by
        rw [hlength] at hi
        rw [updates]
        omega))
      fun i hi => hcalm htold i (by rwa [hlength] at hi)
    obtain ⟨hwhole', -, -, hsound'⟩ := of_same
      (seedFleet env (afterFirst s.updates exchanges) (s.ticked env exchanges).1
        (s.ticked env exchanges).2.1).2
      (seedFleet_same env (s.ticked env exchanges).1 (afterFirst s.updates exchanges)
        (s.ticked env exchanges).2.1)
    have hall := hwhole'.mpr fun fw hfw id hid =>
      hbrings.there id (List.mem_flatMap.mpr ⟨fw, hfw, hid⟩)
    rw [if_pos rfl]
    exact ⟨⟨hsound' (hsound hi.sound), Or.inl hall⟩, fun _ => hall⟩
  | false =>
    rw [if_neg (by simp)]
    refine ⟨⟨hsound hi.sound, (hticks.intact hi.intact).imp hwhole.mpr hnone.mpr⟩, ?_⟩
    rintro ⟨i, hi', hans, hlater⟩
    rcases hticks.tells hi.intact i hi' hans hlater with htrue | hall
    · exact absurd (htold.symm.trans htrue) (by simp)
    · exact hwhole.mpr hall

end Simulation

/-- A request that nothing disturbs, one second after noon. -/
def quietExchange : Exchange where
  before := []
  delivered := true
  replied := true
  inputs _ := rowAt (pastNoon 1000000)

def loneFleet : Simulation where
  fleet := buildFleet 1 fun _ =>
    ⟨.ofRatio 0 1, (.ofRatio 0 1, .ofRatio 0 1), (rowAt (pastNoon 0)).now⟩
  store := WitsmlViewer.emptyStore 10000
  tickNo := 0

theorem quiet_meets (s : Simulation) : s.Meets loneRig.env fun _ => quietExchange :=
  ⟨fun _ _ _ he => absurd he List.not_mem_nil, fun _ _ _ => ⟨rfl, rfl⟩⟩

theorem loneFleet_sound : ∀ fw ∈ loneFleet.fleet, fw.Sound := by
  have hdepth : ∀ fw ∈ loneFleet.fleet, ∀ state ∈ fw.logs, state.depth ≠ .nan ∧ 0 ≤ state.depth.rank := by
    decide +kernel
  exact fun fw hfw state hstate _ => hdepth fw hfw state hstate

/-- The simulator after a tick. -/
def loneFleetTicked : Simulation := (loneFleet.next loneRig.env fun _ => quietExchange).get rfl

section Lost

variable {fleet : List FleetWellbore} {id : ObjectId} {s : ObjectStore}

/-- The store does not restart, and nobody adds this object or deletes any. -/
def StoreEvent.Spares (id : ObjectId) : StoreEvent → Prop
  | .restart => False
  | .request r => r.deletes = false ∧ r.added ≠ some id
  | .update _ => True

/-- Whatever happens before the request spares the object. -/
def Exchange.Spares (id : ObjectId) (x : Exchange) : Prop := ∀ e ∈ x.before, e.Spares id

/-- All logs of the fleet are there, and this object is not. -/
def Lacks (fleet : List FleetWellbore) (id : ObjectId) (s : ObjectStore) : Prop :=
  AllLogs fleet s ∧ id ∉ s.ids

/-- The store that a request finds lacks it still. -/
theorem Exchange.Spares.found {x : Exchange} (hx : x.Spares id) (h : Lacks fleet id s) :
    Lacks fleet id (x.found s) := by
  refine List.foldlRecOn _ _ h fun s' hs' e he => ?_
  have hspares := hx e he
  cases e with
  | restart => exact hspares.elim
  | request r =>
    have hgains : s'.Gains r.added (s'.step r).1 := ObjectStore.gains_step hspares.1
    refine ⟨fun fw hfw log hlog => hgains.kept log (hs'.1 fw hfw log hlog), fun hmem => ?_⟩
    exact (hgains.new _ hmem).elim hs'.2 hspares.2
  | update el =>
    rw [Lacks, AllLogs, StoreEvent.apply, s'.ids_update el]
    exact hs'

/-- The reply to an update of a log that is there. -/
theorem not_missing_update {el : LogElem} (h : .log (elemKey el) ∈ s.ids) :
    missing (some (updateStep el s).2) = false := by
  obtain ⟨log, hlog, hkey⟩ := ObjectStore.log_mem_ids.mp h
  have hfind : ∃ log', s.toMockStore.findLog (elemKey el) = some log' := by
    refine Option.isSome_iff_exists.mp (List.find?_isSome.mpr ⟨log, hlog, ?_⟩)
    exact decide_eq_true hkey
  obtain ⟨log', hlog'⟩ := hfind
  rw [updateStep, MockStore.updateLog, hlog']
  dsimp only
  cases (ingestLogData log' el).2 with
  | error e => rfl
  | ok n => rfl

/-- So does the store after an update, which reports no missing log. -/
theorem tickLog_lacks (env : Env) {x : Exchange} {wb : WellboreState} {state : LogState} (rows : ℕ)
    (hx : x.Spares id) (hlog : ∃ fw ∈ fleet, .log (state.key wb) ∈ fw.logIds)
    (h : Lacks fleet id s) :
    Lacks fleet id (tickLog env x wb rows state s).2.1 ∧ (tickLog env x wb rows state s).2.2 = false := by
  obtain ⟨hsame, -⟩ := emitRows_same env ((List.range rows).map x.inputs) state
  have hfound := hx.found h
  rw [tickLog]
  dsimp only
  generalize hel : logUpdateElem wb (emitRows env state ((List.range rows).map x.inputs)).2
    (emitRows env state ((List.range rows).map x.inputs)).1 = el
  have hkey : elemKey el = state.key wb := by
    rw [← hel]
    exact hsame.key wb
  have hids : (updateStep el (x.found s)).1.ids = (x.found s).ids := (x.found s).ids_update el
  rw [Exchange.send]
  split
  · refine ⟨?_, ?_⟩
    · rw [Lacks, AllLogs, hids]
      exact hfound
    · split
      · obtain ⟨fw, hfw, hmem⟩ := hlog
        exact not_missing_update (hkey ▸ hfound.1 fw hfw _ hmem)
      · rfl
  · exact ⟨hfound, rfl⟩

/-- **No update of a tick reports a missing log.** -/
theorem tickFleet_lacks (env : Env) (burst : Option ℕ) : ∀ (part : List FleetWellbore) (place : ℕ)
    (exchanges : ℕ → Exchange) (s : ObjectStore), (∀ fw ∈ part, fw ∈ fleet) →
    (∀ i < 2 * part.length, (exchanges i).Spares id) → Lacks fleet id s →
    Lacks fleet id (tickFleet env burst place exchanges part s).2.1 ∧
      (tickFleet env burst place exchanges part s).2.2 = false
  | [], _, _, _, _, _, h => ⟨h, rfl⟩
  | fw :: part, place, exchanges, s, hpart, hx, h => by
    rw [List.length_cons] at hx
    have hfw := hpart fw List.mem_cons_self
    obtain ⟨htime, htold⟩ := tickLog_lacks env (if burst = some place then burstRows else 1)
      (hx 0 (by omega)) ⟨fw, hfw, mem_logIds List.mem_cons_self⟩ h
    obtain ⟨hdepth, htold'⟩ := tickLog_lacks env (if burst = some place then burstRows else 1)
      (hx 1 (by omega)) ⟨fw, hfw, mem_logIds (List.mem_cons_of_mem _ List.mem_cons_self)⟩ htime
    obtain ⟨hrest, hnone⟩ := tickFleet_lacks env burst part (place + 1) (afterFirst 2 exchanges)
      (tickWellbore env exchanges (if burst = some place then burstRows else 1) fw s).2.1
      (fun fw' hfw' => hpart fw' (List.mem_cons_of_mem _ hfw'))
      (fun i hi => hx (2 + i) (by omega)) hdepth
    refine ⟨hrest, ?_⟩
    rw [tickFleet]
    dsimp only
    rw [tickWellbore]
    dsimp only
    rw [htold, htold', Bool.false_or, Bool.false_or]
    exact hnone

end Lost

/-- The first seeding, whose first request does not reach the store. -/
def wellLost : Simulation :=
  .start loneRig.env loneFleet.fleet loneFleet.store fun i =>
    { quietExchange with delivered := decide (i ≠ 0) }

def wellLostTicked : Simulation := (wellLost.next loneRig.env fun _ => quietExchange).get rfl

instance (fleet : List FleetWellbore) (s : ObjectStore) : Decidable (AllLogs fleet s) :=
  inferInstanceAs (Decidable (∀ fw ∈ fleet, ∀ id ∈ fw.logIds, id ∈ s.ids))

end Simulator
end WitsmlViewer

/-
# The comparison of wells (`app.api.comparison`)

The endpoint puts up to four wells side by side: the recent points of their curves, from the warm
store, and the lithology of their mud logs, which it asks the WITSML store for at that moment.  It
asks for the wellbores of each well and then for the mud logs of each wellbore.  A request that
fails costs what it was for and nothing else.

Mud logs grow: `_update_mudlog` adds intervals to one.  What was written is told by a ledger of the
store's history (`written`), which is about elements and not about the store.

`comparison_exact`: whatever has happened to the store and whichever requests fail, the answer has
each well asked for once, with the recent points of its curves, and with the rows of every interval
that was written to a mud log under one of its wellbores, once, but for the wellbores whose request
failed.

The answer is put together from two sources that are not read at one moment.  Between any two
requests the store may change, and the warm store with it; so the statement has a state for each
request and refers each part of the answer to the state that was read.

A wellbore whose request fails is left out without a word, and so is a well whose wellbores cannot
be had.  Its entry is there all the same, with its curves and no rows; a user cannot tell this from
a well without lithology.
-/
import WitsmlViewer.Objects
import WitsmlViewer.WarmStore
import WitsmlViewer.ChartData

namespace WitsmlViewer.Comparison

open Py KeyedList WitsmlViewer.Stream

/-! ## 1. Mud logs as they are read

What `parse_mudlogs` makes of a mud log.  The bounds are numbers where they can be read; everything
else of an interval is a text that the XML parser takes apart, which is a parameter. -/

/-- A `<lithology>` element. -/
structure LithologyElem where
  uid : Option Str
  type : Option Str
  codeLith : Option Str
  lithPc : Option Str
  description : Option Str
  color : Option Str

/-- What a `<geologyInterval>` says besides its bounds. -/
structure IntervalBody where
  uid : Option Str
  topUom : Option Str
  bottomUom : Option Str
  typeLithology : Option Str
  description : Option Str
  lithologies : List LithologyElem

structure Lithology where
  uid : Option Str
  type : Option Str
  codeLith : Option Str
  lithPc : Option Float64
  description : Option Str
  color : Option Str
deriving DecidableEq

structure GeologyInterval where
  uid : Option Str
  typeLithology : Option Str
  mdTop : Option Float64
  mdBottom : Option Float64
  mdUom : Option Str
  lithologies : List Lithology
  description : Option Str
deriving DecidableEq

structure MudLog where
  uid : Str
  uidWell : Str
  uidWellbore : Str
  name : Option Str
  nameWell : Option Str
  nameWellbore : Option Str
  objectGrowing : Option Bool
  geologyIntervals : List GeologyInterval
deriving DecidableEq

/-- A lithology; its texts are trimmed or none. -/
def parseLithology (el : LithologyElem) : Lithology where
  uid := el.uid.filter (· ≠ [])
  type := childText el.type
  codeLith := childText el.codeLith
  lithPc := parseFloat (childText el.lithPc)
  description := childText el.description
  color := childText el.color

/-- `_attr_uom`. -/
def attrUom (uom : Option Str) : Option Str := (uom.filter (· ≠ [])).map strip

section Parse

variable (read : Str → IntervalBody)

/-- A geology interval; `read` is what the XML parser makes of the text of its other parts. -/
def parseInterval (gi : GeologyIntervalElem) : GeologyInterval where
  uid := (read gi.rest).uid.filter (· ≠ [])
  typeLithology := childText (read gi.rest).typeLithology
  mdTop := parseFloat (childText gi.mdTop)
  mdBottom := parseFloat (childText gi.mdBottom)
  mdUom := ((attrUom (read gi.rest).topUom).filter (· ≠ [])).or (attrUom (read gi.rest).bottomUom)
  lithologies := (read gi.rest).lithologies.map parseLithology
  description := childText (read gi.rest).description

/-- `parse_mudlogs`. -/
def parseMudLogs (els : List MudLogElem) : List MudLog :=
  els.map fun ml => {
    uid := ml.uid.getD []
    uidWell := ml.uidWell.getD []
    uidWellbore := ml.uidWellbore.getD []
    name := childText ml.name
    nameWell := childText ml.nameWell
    nameWellbore := childText ml.nameWellbore
    objectGrowing := parseBool (childText ml.objectGrowing)
    geologyIntervals := ml.intervals.map (parseInterval read) }

end Parse

/-- `mudlog_query` without bounds. -/
def mudlogQuery (uidWell uidWellbore : Str) : MudLogQuery where
  uid := []
  uidWell := uidWell
  uidWellbore := uidWellbore
  intervals := [⟨none, none, []⟩]
  intervalRangeInclusion := some "any-part".toList

/-! ## 2. The endpoint

The requests are numbered in the order in which they are made, so that each can be told what it
finds and whether it fails. -/

/-- The process and the store behind it as the successive requests find them, and which of the
requests fail. -/
structure Setting where
  warm : ℕ → WarmStore
  store : ℕ → ObjectStore
  fails : ℕ → Bool

/-- One row of a well's lithology. -/
structure LithologyRow where
  mdTop : Option Float64
  mdBottom : Option Float64
  uom : Option Str
  type : Option Str
  codeLith : Option Str
  lithPc : Option Float64
  description : Option Str
deriving DecidableEq

/-- A well's entry of the answer. -/
structure ComparedWell where
  wellUid : Str
  name : Option Str
  curves : Dict Str (List WirePoint)
  lithology : List LithologyRow
deriving DecidableEq

/-- `_split_csv`. -/
def splitCsv (raw : Option Str) : List Str :=
  (split ',' (raw.getD [])).foldl (fun out item =>
    if strip item ≠ [] ∧ strip item ∉ out then out ++ [strip item] else out) []

/-- The rows of an interval: one for each lithology, or one for the interval. -/
def intervalRows (gi : GeologyInterval) : List LithologyRow :=
  if gi.lithologies = [] then
    [⟨gi.mdTop, gi.mdBottom, gi.mdUom, gi.typeLithology, none, none, gi.description⟩]
  else gi.lithologies.map fun lith =>
    ⟨gi.mdTop, gi.mdBottom, gi.mdUom, lith.type, lith.codeLith, lith.lithPc,
      lith.description.or gi.description⟩

section Endpoint

variable (host : Host) (read : Str → IntervalBody) (env : Setting)

/-- `_run_query`: what the `n`-th request brings, or nothing. -/
def runQuery {α : Type} (n : ℕ) (query : ObjectStore → ℤ × α) : Option α :=
  if env.fails n then none
  else if 0 < (query (env.store n)).1 then some (query (env.store n)).2 else none

/-- `_wellbore_uids`. -/
def wellboreUids (n : ℕ) (wellUid : Str) : List Str :=
  ((runQuery env n fun s => s.toMockStore.queryWellbores wellUid []).elim [] fun els =>
    (parseWellbores els).map Wellbore.uid).filter (· ≠ [])

/-- The rows that one request for mud logs brings. -/
def wellboreRows (n : ℕ) (wellUid wbUid : Str) : List LithologyRow :=
  (runQuery env n fun s => s.queryMudLogs (mudlogQuery wellUid wbUid)).elim [] fun els =>
    (parseMudLogs read els).flatMap fun ml => ml.geologyIntervals.flatMap intervalRows

/-- `_lithology_for_well`, its requests numbered from `n`; with the number of the next one. -/
def lithologyForWell (n : ℕ) (wellUid : Str) : ℕ × List LithologyRow :=
  (wellboreUids env n wellUid).foldl (fun out wbUid =>
    (out.1 + 1, out.2 ++ wellboreRows read env out.1 wellUid wbUid)) (n + 1, [])

/-- `_curves_for_well`. -/
def curvesForWell (warm : WarmStore) (wellUid : Str) (mnemonics : List Str) (limit : ℕ) :
    Except PyError (Dict Str (List WirePoint)) :=
  (warm.recent wellUid (some mnemonics) (some limit)).mapM fun e =>
    (e.2.mapM (sampleToWire host)).map fun points => (e.1, points)

/-- `_well_name`. -/
def wellName (warm : WarmStore) (wellUid : Str) : Option Str :=
  (warm.wellStatus.find? (·.wellUid = wellUid)).bind WellStatus.name

/-- The loop of `compare`. -/
def compareWells (mnemonics : List Str) (limit : ℕ) : ℕ → List Str →
    Except PyError (List ComparedWell)
  | _, [] => .ok []
  | n, wellUid :: wellUids => do
    let curves ← curvesForWell host (env.warm n) wellUid mnemonics limit
    let next := (lithologyForWell read env n wellUid).1
    let rest ← compareWells mnemonics limit next wellUids
    .ok ({
      wellUid := wellUid
      name := wellName (env.warm next) wellUid
      curves := curves
      lithology := (lithologyForWell read env n wellUid).2 } :: rest)

inductive CompareError
  | http (status : ℕ) (detail : Str)
  | raised (e : PyError)
deriving DecidableEq

def MAX_WELLS : ℕ := 4

/-- `compare`. -/
def compare (wells : Str) (mnemonics : Option Str) (limit : ℕ) :
    Except CompareError (List ComparedWell) :=
  let wellUids := splitCsv (some wells)
  if wellUids = [] then .error (.http 400 "At least one well_uid is required.".toList)
  else if MAX_WELLS < wellUids.length then
    .error (.http 400 "At most 4 wells may be compared at once.".toList)
  else (compareWells host read env (splitCsv mnemonics) limit 0 wellUids).mapError .raised

end Endpoint

/-! ## 3. What was written

The ledger has the intervals of each mud log as they were written, by its identity.  It is computed
from the requests alone, so that what the store holds of them is something to prove. -/

namespace MudLogs

/-- A request to the store; mud logs may be updated too. -/
inductive Request
  | object (r : ObjectRequest)
  | updateMudLog (el : MudLogElem)

/-- `_update_mudlog`. -/
def updated (el : MudLogElem) (ml : StoredMudLog) : StoredMudLog :=
  if el.intervals = [] then ml
  else { ml with intervals := ml.intervals ++ el.intervals, objectGrowing := true }

def updateMudLog (s : ObjectStore) (el : MudLogElem) : ObjectStore :=
  { s with mudLogs := s.mudLogs.map fun ml => if ml.key = mudLogKey el then updated el ml else ml }

def step (s : ObjectStore) : Request → ObjectStore
  | .object r => (s.step r).1
  | .updateMudLog el => updateMudLog s el

/-- The intervals of each mud log. -/
abbrev Ledger := Str × Str × Str → Option (List GeologyIntervalElem)

/-- What a request writes: a mud log is created with its intervals, gets more, or is deleted. -/
def Ledger.step (g : Ledger) : Request → Ledger
  | .object (.addMudLog el) =>
    if el.uid.getD [] = [] ∨ (g (mudLogKey el)).isSome then g
    else Function.update g (mudLogKey el) (some el.intervals)
  | .object (.deleteMudLog el) => Function.update g (mudLogKey el) none
  | .updateMudLog el =>
    Function.update g (mudLogKey el) ((g (mudLogKey el)).map (· ++ el.intervals))
  | _ => g

def written (rs : List Request) : Ledger := rs.foldl Ledger.step fun _ => none

/-- The store after a history. -/
def storeAfter (maxRequestLatestValues : ℤ) (rs : List Request) : ObjectStore :=
  rs.foldl step (emptyStore maxRequestLatestValues)

end MudLogs

/-! ## 4. What the store holds

Wells and logs do not come into it; wellbores do, as mud logs are asked for wellbore by wellbore.
They are told apart by the text that the store keys them by, which is enough for their uids to be
distinct within a well. -/

section Holds

open MudLogs

/-- A store that holds what the ledger says; its wellbores are told apart. -/
structure Holds (s : ObjectStore) (g : Ledger) : Prop where
  wellbores : (s.wellbores.map StoredWellbore.key).Nodup
  elements : ∀ wb ∈ s.wellbores, wb.element.uid.getD [] = wb.uid ∧ wb.uid ≠ []
  mudLogs : ∃ m, Represents StoredMudLog.key id s.mudLogs m ∧
    ∀ k, g k = (m k).map StoredMudLog.intervals

variable {s : ObjectStore} {g : Ledger}

/-- A change of other objects. -/
theorem Holds.of_same {s' : ObjectStore} (h : Holds s g) (hw : s'.wellbores = s.wellbores)
    (hm : s'.mudLogs = s.mudLogs) : Holds s' g := by
  constructor
  · rw [hw]; exact h.wellbores
  · rw [hw]; exact h.elements
  · rw [hm]; exact h.mudLogs

/-- A change of the wellbores. -/
theorem Holds.of_wellbores {s' : ObjectStore} (h : Holds s g)
    (hw : (s'.wellbores.map StoredWellbore.key).Nodup)
    (he : ∀ wb ∈ s'.wellbores, wb.element.uid.getD [] = wb.uid ∧ wb.uid ≠ [])
    (hm : s'.mudLogs = s.mudLogs) : Holds s' g := by
  refine ⟨hw, he, ?_⟩
  rw [hm]
  exact h.mudLogs

theorem wellbores_addLog (store : MockStore) (el : LogElem) :
    (store.addLog (some el)).1.wellbores = store.wellbores := by
  rw [MockStore.addLog]
  dsimp only
  split
  · rfl
  · split
    · rfl
    · split <;> rfl

theorem Holds.addWellbore (h : Holds s g) (el : WellboreElem) :
    Holds (s.step (.addWellbore el)).1 g := by
  rw [ObjectStore.step, MockStore.addWellbore]
  dsimp only
  split
  · exact h
  · rename_i huid
    split
    · exact h
    · rename_i hfree
      refine h.of_wellbores ?_ (fun wb hwb => ?_) rfl
      · rw [List.map_append]
        refine List.nodup_append.mpr
          ⟨h.wellbores, List.nodup_singleton _, fun k hk k' hk' heq => ?_⟩
        obtain ⟨wb, hwb, rfl⟩ := List.mem_map.mp hk
        obtain rfl := List.mem_singleton.mp hk'
        exact hfree (List.any_eq_true.mpr ⟨wb, hwb, decide_eq_true heq⟩)
      · rcases List.mem_append.mp hwb with hwb | hwb
        · exact h.elements wb hwb
        · rw [List.mem_singleton.mp hwb]
          exact ⟨rfl, huid⟩

/-- A wellbore is deleted; its mud logs stay, as the store does not cascade. -/
theorem Holds.deleteWellbore (h : Holds s g) (el : WellboreElem) :
    Holds (s.step (.deleteWellbore el)).1 g := by
  rw [ObjectStore.step, MockStore.deleteWellbore]
  dsimp only
  split
  · refine h.of_wellbores ?_ (fun wb hwb => ?_) rfl
    · exact h.wellbores.sublist (List.filter_sublist.map StoredWellbore.key)
    · exact h.elements wb (List.mem_filter.mp hwb).1
  · exact h

theorem Holds.addMudLog (h : Holds s g) (el : MudLogElem) :
    Holds (s.step (.addMudLog el)).1 (g.step (.object (.addMudLog el))) := by
  obtain ⟨m, hm, hg⟩ := h.mudLogs
  have htaken : s.mudLogs.any (·.key = mudLogKey el) = (g (mudLogKey el)).isSome := by
    rw [Bool.eq_iff_iff, List.any_eq_true, hg, Option.isSome_map, ← hm.any_iff]
    simp
  rw [ObjectStore.step, ObjectStore.addMudLog, Ledger.step]
  dsimp only
  by_cases hid : el.uid.getD [] = []
  · rw [if_pos hid, if_pos (Or.inl hid)]
    exact h
  · rw [if_neg hid, htaken]
    by_cases hk : (g (mudLogKey el)).isSome = true
    · rw [if_pos hk, if_pos (Or.inr hk)]
      exact h
    · rw [if_neg hk, if_neg (not_or.mpr ⟨hid, hk⟩)]
      have hnone : m (mudLogKey el) = none := by
        rw [hg, Option.isSome_map] at hk
        simpa using hk
      have hmade : StoredMudLog.key (id (mudLogOfElem el)) = mudLogKey el := rfl
      refine ⟨h.wellbores, h.elements, _, hm.insert hmade hnone, fun k => ?_⟩
      by_cases hkk : k = mudLogKey el
      · subst hkk
        rw [Function.update_self, Function.update_self]
        rfl
      · rw [Function.update_of_ne hkk, Function.update_of_ne hkk]
        exact hg k

theorem Holds.deleteMudLog (h : Holds s g) (el : MudLogElem) :
    Holds (s.step (.deleteMudLog el)).1 (g.step (.object (.deleteMudLog el))) := by
  obtain ⟨m, hm, hg⟩ := h.mudLogs
  rw [ObjectStore.step, ObjectStore.deleteMudLog, Ledger.step]
  dsimp only
  have hmap : ∀ k, Function.update g (mudLogKey el) none k =
      (Function.update m (mudLogKey el) none k).map StoredMudLog.intervals := by
    intro k
    by_cases hkk : k = mudLogKey el
    · subst hkk
      rw [Function.update_self, Function.update_self]
      rfl
    · rw [Function.update_of_ne hkk, Function.update_of_ne hkk]
      exact hg k
  split
  · exact ⟨h.wellbores, h.elements, _, hm.erase _, hmap⟩
  · rename_i hfree
    have hnone : m (mudLogKey el) = none := by
      by_contra hsome
      obtain ⟨ml, hml, hkey⟩ :=
        (hm.any_iff (mudLogKey el)).mpr (Option.isSome_iff_ne_none.mpr hsome)
      exact hfree (List.any_eq_true.mpr ⟨ml, hml, decide_eq_true hkey⟩)
    refine ⟨h.wellbores, h.elements, m, hm, fun k => ?_⟩
    rw [hmap, ← hnone, Function.update_eq_self]

theorem Holds.updateMudLog (h : Holds s g) (el : MudLogElem) :
    Holds (updateMudLog s el) (g.step (.updateMudLog el)) := by
  obtain ⟨m, hm, hg⟩ := h.mudLogs
  have hkey : ∀ ml, (updated el ml).key = ml.key := fun ml => by
    rw [updated]
    split <;> rfl
  have hintervals : ∀ ml, (updated el ml).intervals = ml.intervals ++ el.intervals := fun ml => by
    rw [updated]
    split
    · rename_i hnil
      rw [hnil, List.append_nil]
    · rfl
  refine ⟨h.wellbores, h.elements, _, hm.modify (mudLogKey el) hkey, fun k => ?_⟩
  rw [Ledger.step]
  by_cases hkk : k = mudLogKey el
  · subst hkk
    rw [Function.update_self, Function.update_self, hg, Option.map_map, Option.map_map]
    refine Option.map_congr fun ml _ => (hintervals ml).symm
  · rw [Function.update_of_ne hkk, Function.update_of_ne hkk]
    exact hg k

/-- **Every request keeps the ledger true.** -/
theorem Holds.step (h : Holds s g) (r : Request) : Holds (MudLogs.step s r) (g.step r) := by
  cases r with
  | updateMudLog el => exact h.updateMudLog el
  | object r =>
    cases r with
    | addWellbore el => exact h.addWellbore el
    | deleteWellbore el => exact h.deleteWellbore el
    | addMudLog el => exact h.addMudLog el
    | deleteMudLog el => exact h.deleteMudLog el
    | addLog el => exact h.of_same (wellbores_addLog s.toMockStore el) rfl
    | addWell el =>
      refine h.of_same ?_ rfl
      rw [MudLogs.step, ObjectStore.step, MockStore.addWell]
      dsimp only
      split
      · rfl
      · split <;> rfl
    | deleteWell el =>
      refine h.of_same ?_ rfl
      rw [MudLogs.step, ObjectStore.step, MockStore.deleteWell]
      dsimp only
      split <;> rfl
    | deleteLog el =>
      refine h.of_same ?_ rfl
      rw [MudLogs.step, ObjectStore.step, MockStore.deleteLog]
      dsimp only
      split <;> rfl
    | queryWell uid => exact h
    | queryWellbore uidWell uid => exact h
    | queryLog q => exact h
    | queryMudLog q => exact h

/-- **The store holds what its history has written.** -/
theorem holds_storeAfter (maxRequestLatestValues : ℤ) (rs : List Request) :
    Holds (storeAfter maxRequestLatestValues rs) (written rs) := by
  have hrun : ∀ (rs : List Request) (s : ObjectStore) (g : Ledger), Holds s g →
      Holds (rs.foldl MudLogs.step s) (rs.foldl Ledger.step g) := by
    intro rs
    induction rs with
    | nil => exact fun s g h => h
    | cons r rs ih => exact fun s g h => ih _ _ (h.step r)
  refine hrun rs _ _ ⟨List.nodup_nil, by simp [emptyStore], fun _ => none, Represents.empty, ?_⟩
  exact fun k => rfl

end Holds

/-! ## 5. What one well shows

One request for the wellbores, and one for each of them.  Of an interval there is a row for each
lithology, or one row if it has none. -/

/-- The rows of intervals. -/
def rowsOf (read : Str → IntervalBody) (intervals : List GeologyIntervalElem) : List LithologyRow :=
  intervals.flatMap fun gi => intervalRows (parseInterval read gi)

/-- The uids of a well's wellbores. -/
def wellboresOf (s : ObjectStore) (wellUid : Str) : List Str :=
  (s.wellbores.filter fun wb => decide (wb.uidWell = wellUid)).map StoredWellbore.uid

/-- The mud logs of a wellbore. -/
def mudLogsUnder (s : ObjectStore) (wellUid wbUid : Str) : List StoredMudLog :=
  s.mudLogs.filter fun ml => decide (ml.uidWell = wellUid ∧ ml.uidWellbore = wbUid)

/-- The requests for mud logs that succeed, with their wellbores; the `n`-th request was for the
wellbores. -/
def reached (fails : ℕ → Bool) (n : ℕ) (uids : List Str) : List (Str × ℕ) :=
  if fails n then [] else (uids.zipIdx (n + 1)).filter fun e => !fails e.2

/-- The rows of every interval that was written to a mud log under a wellbore, each once. -/
def RowsUnder (read : Str → IntervalBody) (g : MudLogs.Ledger) (wellUid wbUid : Str)
    (rows : List LithologyRow) : Prop :=
  ∃ uids : List Str, uids.Nodup ∧ (∀ uid, uid ∈ uids ↔ (g (wellUid, wbUid, uid)).isSome) ∧
    rows.Perm (uids.flatMap fun uid => rowsOf read ((g (wellUid, wbUid, uid)).getD []))

section Rows

variable {read : Str → IntervalBody} {env : Setting} {s : ObjectStore}

/-- The loop of `_lithology_for_well`, with the number of each request. -/
theorem lithologyForWell_eq (n : ℕ) (wellUid : Str) : lithologyForWell read env n wellUid =
    (n + 1 + (wellboreUids env n wellUid).length,
      ((wellboreUids env n wellUid).zipIdx (n + 1)).flatMap fun e =>
        wellboreRows read env e.2 wellUid e.1) := by
  have hloop : ∀ (uids : List Str) (k : ℕ) (rows : List LithologyRow),
      uids.foldl (fun out wbUid =>
        (out.1 + 1, out.2 ++ wellboreRows read env out.1 wellUid wbUid)) (k, rows) =
        (k + uids.length, rows ++ (uids.zipIdx k).flatMap fun e =>
          wellboreRows read env e.2 wellUid e.1) := by
    intro uids
    induction uids with
    | nil => simp
    | cons uid uids ih =>
      intro k rows
      rw [List.foldl_cons, ih, List.zipIdx_cons, List.flatMap_cons, List.append_assoc,
        List.length_cons]
      congr 1
      omega
  exact hloop _ _ []

theorem rcSuccess_pos : 0 < rcSuccess := by decide

/-- The wellbores that a well's request brings. -/
theorem wellboreUids_eq {g : MudLogs.Ledger} (h : Holds s g) {n : ℕ} (hstore : env.store n = s)
    {wellUid : Str} (hwell : wellUid ≠ []) :
    wellboreUids env n wellUid = if env.fails n then [] else wellboresOf s wellUid := by
  rw [wellboreUids, runQuery, hstore]
  split
  · rfl
  · have hfound : (s.toMockStore.queryWellbores wellUid []).2 =
        (s.wellbores.filter fun wb => decide (wb.uidWell = wellUid)).map
          StoredWellbore.element := by
      rw [MockStore.queryWellbores]
      refine congrArg (List.map _) (List.filter_congr fun wb _ => ?_)
      simp [hwell]
    rw [if_pos (show 0 < (s.toMockStore.queryWellbores wellUid []).1 from rcSuccess_pos),
      Option.elim_some, hfound, parseWellbores, List.map_map, List.map_map]
    have hsame : (s.wellbores.filter fun wb => decide (wb.uidWell = wellUid)).map
        ((Wellbore.uid ∘ fun el : WellboreElem => (⟨el.uid.getD [], el.uidWell.getD [],
          childText el.name, childText el.nameWell, childText el.statusWellbore⟩ : Wellbore)) ∘
            StoredWellbore.element) =
        wellboresOf s wellUid :=
      List.map_congr_left fun wb hwb => (h.elements wb (List.mem_filter.mp hwb).1).1
    refine (congrArg (List.filter _) hsame).trans (List.filter_eq_self.mpr fun uid huid => ?_)
    obtain ⟨wb, hwb, rfl⟩ := List.mem_map.mp huid
    exact decide_eq_true (h.elements wb (List.mem_filter.mp hwb).1).2

/-- What a request for mud logs brings. -/
theorem wellboreRows_eq {n : ℕ} (hstore : env.store n = s) {wellUid wbUid : Str}
    (hwell : wellUid ≠ []) (hwb : wbUid ≠ []) : wellboreRows read env n wellUid wbUid =
      if env.fails n then []
      else (mudLogsUnder s wellUid wbUid).flatMap fun ml => rowsOf read ml.intervals := by
  rw [wellboreRows, runQuery, hstore]
  split
  · rfl
  · rw [if_pos (show 0 < (s.queryMudLogs (mudlogQuery wellUid wbUid)).1 from rcSuccess_pos),
      Option.elim_some, ObjectStore.queryMudLogs]
    have hfilter : (s.mudLogs.filter fun ml =>
        ((mudlogQuery wellUid wbUid).uid = [] || ml.uid = (mudlogQuery wellUid wbUid).uid) &&
          ((mudlogQuery wellUid wbUid).uidWell = [] ||
            ml.uidWell = (mudlogQuery wellUid wbUid).uidWell) &&
          ((mudlogQuery wellUid wbUid).uidWellbore = [] ||
            ml.uidWellbore = (mudlogQuery wellUid wbUid).uidWellbore)) =
        mudLogsUnder s wellUid wbUid := by
      refine List.filter_congr fun ml _ => ?_
      rw [Bool.eq_iff_iff]
      simp only [mudlogQuery, hwell, hwb, decide_true, decide_false, Bool.true_or, Bool.false_or,
        Bool.true_and, Bool.and_eq_true, decide_eq_true_eq]
      exact and_congr decide_eq_true_iff decide_eq_true_iff
    rw [hfilter, parseMudLogs, List.map_map, List.flatMap_map]
    refine List.flatMap_congr fun ml _ => ?_
    -- a query without bounds takes every interval
    have hall : (ml.render (mudlogQuery wellUid wbUid)).intervals = ml.intervals :=
      List.filter_eq_self.mpr fun gi _ => rfl
    change ((ml.render (mudlogQuery wellUid wbUid)).intervals.map (parseInterval read)).flatMap
      intervalRows = rowsOf read ml.intervals
    rw [hall, List.flatMap_map, rowsOf]

/-- A well's wellbores are distinct. -/
theorem nodup_wellboresOf {g : MudLogs.Ledger} (h : Holds s g) (wellUid : Str) :
    (wellboresOf s wellUid).Nodup := by
  refine List.Nodup.of_map (fun uid => wellUid ++ '/' :: uid) ?_
  rw [wellboresOf, List.map_map]
  have hkeys : (s.wellbores.filter fun wb => decide (wb.uidWell = wellUid)).map
      ((fun uid => wellUid ++ '/' :: uid) ∘ StoredWellbore.uid) =
      (s.wellbores.filter fun wb => decide (wb.uidWell = wellUid)).map StoredWellbore.key := by
    refine List.map_congr_left fun wb hwb => ?_
    rw [StoredWellbore.key, of_decide_eq_true (List.mem_filter.mp hwb).2]
    rfl
  rw [hkeys]
  exact h.wellbores.sublist (List.filter_sublist.map StoredWellbore.key)

/-- Their uids are not empty, so a query for one is a query for it alone. -/
theorem wellbore_ne_nil {g : MudLogs.Ledger} (h : Holds s g) {wellUid wbUid : Str}
    (hwb : wbUid ∈ wellboresOf s wellUid) : wbUid ≠ [] := by
  obtain ⟨wb, hmem, rfl⟩ := List.mem_map.mp hwb
  exact (h.elements wb (List.mem_filter.mp hmem).1).2

/-- **A request that succeeds brings what was written.** -/
theorem rowsUnder {g : MudLogs.Ledger} (h : Holds s g) {n : ℕ} (hstore : env.store n = s)
    {wellUid wbUid : Str} (hwell : wellUid ≠ []) (hwb : wbUid ≠ []) (hok : env.fails n = false) :
    RowsUnder read g wellUid wbUid (wellboreRows read env n wellUid wbUid) := by
  obtain ⟨m, hm, hg⟩ := h.mudLogs
  rw [wellboreRows_eq hstore hwell hwb, if_neg (by simp [hok])]
  have hkey : ∀ ml ∈ mudLogsUnder s wellUid wbUid,
      ml ∈ s.mudLogs ∧ ml.key = (wellUid, wbUid, ml.uid) := by
    intro ml hml
    obtain ⟨hmem, hunder⟩ := List.mem_filter.mp hml
    obtain ⟨rfl, rfl⟩ := of_decide_eq_true hunder
    exact ⟨hmem, rfl⟩
  refine ⟨(mudLogsUnder s wellUid wbUid).map StoredMudLog.uid, ?_, fun uid => ?_, ?_⟩
  · refine List.Nodup.of_map (fun uid => (wellUid, wbUid, uid)) ?_
    rw [List.map_map]
    have hsame : (mudLogsUnder s wellUid wbUid).map
        ((fun uid => (wellUid, wbUid, uid)) ∘ StoredMudLog.uid) =
        (mudLogsUnder s wellUid wbUid).map StoredMudLog.key :=
      List.map_congr_left fun ml hml => ((hkey ml hml).2).symm
    rw [hsame]
    exact hm.distinct.sublist (List.filter_sublist.map StoredMudLog.key)
  · rw [hg, Option.isSome_map, ← hm.any_iff, List.mem_map]
    constructor
    · rintro ⟨ml, hml, rfl⟩
      exact ⟨ml, hkey ml hml⟩
    · rintro ⟨ml, hmem, hid⟩
      obtain ⟨hw, hb, hu⟩ : ml.uidWell = wellUid ∧ ml.uidWellbore = wbUid ∧ ml.uid = uid := by
        simpa [StoredMudLog.key] using hid
      exact ⟨ml, List.mem_filter.mpr ⟨hmem, decide_eq_true ⟨hw, hb⟩⟩, hu⟩
  · rw [List.flatMap_map]
    refine List.Perm.of_eq (List.flatMap_congr fun ml hml => ?_)
    obtain ⟨hmem, hid⟩ := hkey ml hml
    rw [← hid, hg, hm.get_of_mem hmem]
    rfl

/-- **A well shows the rows of every wellbore that was reached.** -/
theorem lithology_eq {g : MudLogs.Ledger} {n : ℕ} (h : Holds (env.store n) g) {wellUid : Str}
    (hwell : wellUid ≠ []) : (lithologyForWell read env n wellUid).2 =
      (reached env.fails n (wellboresOf (env.store n) wellUid)).flatMap fun e =>
        wellboreRows read env e.2 wellUid e.1 := by
  rw [lithologyForWell_eq, wellboreUids_eq h rfl hwell, reached]
  dsimp only
  split
  · rfl
  · generalize (wellboresOf (env.store n) wellUid).zipIdx (n + 1) = asked
    induction asked with
    | nil => rfl
    | cons e asked ih =>
      rw [List.flatMap_cons, List.filter_cons, ih]
      by_cases hfail : env.fails e.2 = true
      · have hnone : wellboreRows read env e.2 wellUid e.1 = [] := by
          rw [wellboreRows, runQuery, if_pos hfail]
          rfl
        rw [hnone, List.nil_append, if_neg (by simp [hfail])]
      · rw [if_pos (by simpa using hfail), List.flatMap_cons]

end Rows

/-! ## 6. The comparison

Wells are asked for by name, in a list with commas; a name that is given twice counts once. -/

/-- `_split_csv` lists each name that is given, once. -/
theorem splitCsv_spec (raw : Option Str) : (splitCsv raw).Nodup ∧
    ∀ uid, uid ∈ splitCsv raw ↔ uid ≠ [] ∧ ∃ item ∈ split ',' (raw.getD []), strip item = uid := by
  rw [splitCsv]
  induction split ',' (raw.getD []) using List.reverseRecOn with
  | nil => simp
  | append_singleton items item ih =>
    rw [List.foldl_append, List.foldl_cons, List.foldl_nil]
    obtain ⟨hnodup, hmem⟩ := ih
    split
    · rename_i hnew
      refine ⟨List.nodup_append.mpr ⟨hnodup, List.nodup_singleton _, ?_⟩, fun uid => ?_⟩
      · rintro a ha b hb rfl
        exact hnew.2 (List.mem_singleton.mp hb ▸ ha)
      · rw [List.mem_append, hmem, List.mem_singleton]
        constructor
        · rintro (⟨hne, i, hi, rfl⟩ | rfl)
          · exact ⟨hne, i, List.mem_append_left _ hi, rfl⟩
          · exact ⟨hnew.1, item, by simp, rfl⟩
        · rintro ⟨hne, i, hi, rfl⟩
          rcases List.mem_append.mp hi with hi | hi
          · exact Or.inl ⟨hne, i, hi, rfl⟩
          · exact Or.inr (by rw [List.mem_singleton.mp hi])
    · rename_i hold
      refine ⟨hnodup, fun uid => (hmem uid).trans ⟨?_, ?_⟩⟩
      · rintro ⟨hne, i, hi, rfl⟩
        exact ⟨hne, i, List.mem_append_left _ hi, rfl⟩
      · rintro ⟨hne, i, hi, rfl⟩
        rcases List.mem_append.mp hi with hi | hi
        · exact ⟨hne, i, hi, rfl⟩
        · -- an item that is skipped is blank or listed already
          rw [List.mem_singleton.mp hi] at hne ⊢
          by_contra hno
          exact hold ⟨hne, fun hlisted => hno ((hmem _).mp hlisted)⟩

section Compare

variable {host : Host} {read : Str → IntervalBody} {env : Setting} {maxSamples limit : ℕ}
  {logs : ℕ → AppendLog} {ledgers : ℕ → MudLogs.Ledger}

/-- What a well's entry shows when its first request is the `n`-th. -/
structure Shows (host : Host) (read : Str → IntervalBody) (env : Setting) (logs : ℕ → AppendLog)
    (ledgers : ℕ → MudLogs.Ledger) (maxSamples limit : ℕ) (mnemonics : List Str) (n : ℕ)
    (entry : ComparedWell) : Prop where
  /-- The recent points of the curves that were asked for. -/
  curves : ∀ m, entry.curves.get? m =
    if Requested (some mnemonics) m ∧ m ∈ (logs n).curves entry.wellUid then
      some ((lastN (min limit maxSamples) ((logs n).samples entry.wellUid m)).map
        (Stream.wire host))
    else none
  wellbores : (wellboresOf (env.store n) entry.wellUid).Nodup
  /-- The rows of the wellbores that were reached. -/
  lithology : ∃ rows : Str × ℕ → List LithologyRow,
    entry.lithology =
      (reached env.fails n (wellboresOf (env.store n) entry.wellUid)).flatMap rows ∧
    ∀ e ∈ reached env.fails n (wellboresOf (env.store n) entry.wellUid),
      RowsUnder read (ledgers e.2) entry.wellUid e.1 (rows e)

/-- The curves of a well that has clean samples. -/
theorem curvesForWell_spec {warm : WarmStore} {log : AppendLog} (h : Refines maxSamples warm log)
    (hpos : 1 ≤ maxSamples) (hlimit : 1 ≤ limit) {wellUid : Str}
    (hclean : ∀ m, ∀ x ∈ log.samples wellUid m, Clean host x) (mnemonics : List Str) :
    ∃ curves, curvesForWell host warm wellUid mnemonics limit = .ok curves ∧
      ∀ m, Dict.get? curves m =
        if Requested (some mnemonics) m ∧ m ∈ log.curves wellUid then
          some ((lastN (min limit maxSamples) (log.samples wellUid m)).map (Stream.wire host))
        else none := by
  have hsome : some limit ≠ some 0 := fun h0 => by
    rw [Option.some.inj h0] at hlimit
    exact absurd hlimit (by decide)
  have hget := fun m => h.get?_recent hpos wellUid m (some mnemonics) hsome
  have hdist : Dict.Distinct (warm.recent wellUid (some mnemonics) (some limit)) :=
    RingBufferStore.distinct_getRecent _ _ _ _ _
  have hsamples : ∀ e ∈ warm.recent wellUid (some mnemonics) (some limit),
      ∀ x ∈ e.2, Clean host x := by
    intro e he x hx
    have hfound := hget e.1
    rw [Dict.get?_of_mem (fun _ _ => eq_of_beq) (beq_self_eq_true e.1) hdist he] at hfound
    split at hfound
    · rw [Option.some.inj hfound] at hx
      exact hclean e.1 x ((lastN_suffix _ _).subset hx)
    · cases hfound
  refine ⟨(warm.recent wellUid (some mnemonics) (some limit)).map fun e =>
    (e.1, e.2.map (Stream.wire host)), ?_, fun m => ?_⟩
  · refine mapM_eq_ok fun e he => ?_
    rw [mapM_eq_ok fun x hx => (hsamples e he x hx).1]
    rfl
  · rw [Dict.get?_map, hget m]
    split <;> rfl

variable (host read) in
/-- **The loop gives every well its entry.** -/
theorem compareWells_spec (hholds : ∀ n, Holds (env.store n) (ledgers n))
    (hwarm : ∀ n, Refines maxSamples (env.warm n) (logs n)) (hpos : 1 ≤ maxSamples)
    (hlimit : 1 ≤ limit) (hclean : ∀ n wellUid m, ∀ x ∈ (logs n).samples wellUid m, Clean host x)
    (mnemonics : List Str) {wellUids : List Str} (hwells : ∀ uid ∈ wellUids, uid ≠ []) (n : ℕ) :
    ∃ entries, compareWells host read env mnemonics limit n wellUids = .ok entries ∧
      entries.map ComparedWell.wellUid = wellUids ∧
      ∀ entry ∈ entries, ∃ n,
        Shows host read env logs ledgers maxSamples limit mnemonics n entry := by
  induction wellUids generalizing n with
  | nil => exact ⟨[], rfl, rfl, fun _ h => absurd h List.not_mem_nil⟩
  | cons wellUid wellUids ih =>
    have hwell : wellUid ≠ [] := hwells wellUid List.mem_cons_self
    obtain ⟨curves, hcurves, hget⟩ :=
      curvesForWell_spec (hwarm n) hpos hlimit (hclean n wellUid) mnemonics
    obtain ⟨entries, hrest, hmap, hshow⟩ := ih (fun uid h => hwells uid (List.mem_cons_of_mem _ h))
      (lithologyForWell read env n wellUid).1
    have hfirst : ∀ name, Shows host read env logs ledgers maxSamples limit mnemonics n
        ⟨wellUid, name, curves, (lithologyForWell read env n wellUid).2⟩ := by
      intro name
      refine ⟨hget, nodup_wellboresOf (hholds n) wellUid, _, lithology_eq (hholds n) hwell, ?_⟩
      intro e he
      rw [reached] at he
      split at he
      · exact absurd he List.not_mem_nil
      · obtain ⟨hasked, hok⟩ := List.mem_filter.mp he
        exact rowsUnder (hholds e.2) rfl hwell
          (wellbore_ne_nil (hholds n) (List.fst_mem_of_mem_zipIdx hasked)) (by simpa using hok)
    refine ⟨⟨wellUid, wellName (env.warm (lithologyForWell read env n wellUid).1) wellUid, curves,
      (lithologyForWell read env n wellUid).2⟩ :: entries, ?_, by rw [List.map_cons, hmap], ?_⟩
    · rw [compareWells, hcurves]
      change (compareWells host read env mnemonics limit _ wellUids >>= fun rest => _) = _
      rw [hrest]
      rfl
    · intro entry hentry
      rcases List.mem_cons.mp hentry with rfl | hentry
      · exact ⟨n, hfirst _⟩
      · exact hshow entry hentry

end Compare

/-! A mud log that grows, a wellbore whose request fails, and a well that nothing is known of. -/

def sandText : Str := "<description>Sand</description>".toList

/-- The XML parser on the texts below. -/
def readSand (rest : Str) : IntervalBody :=
  ⟨none, none, none, none, if rest = sandText then some "Sand".toList else none, []⟩

def sandInterval (top bottom : String) : GeologyIntervalElem :=
  ⟨some top.toList, some bottom.toList, sandText⟩

/-- A mud log of such intervals. -/
def sandMudLog (wbUid uid : String) (intervals : List GeologyIntervalElem) : MudLogElem where
  uid := some uid.toList
  uidWell := some viewedWell
  uidWellbore := some wbUid.toList
  intervals := intervals

def sandHistory : List MudLogs.Request :=
  [.object (.addWellbore ⟨some "B-1".toList, some viewedWell, none, none, none⟩),
    .object (.addWellbore ⟨some "B-2".toList, some viewedWell, none, none, none⟩),
    .object (.addMudLog (sandMudLog "B-1" "M-1" [sandInterval "1" "2"])),
    .object (.addMudLog (sandMudLog "B-2" "M-2" [sandInterval "5" "6"])),
    .updateMudLog (sandMudLog "B-1" "M-1" [sandInterval "2" "3"])]

/-- The calls of the warm store. -/
def sandCalls : List WarmStore.Call :=
  [.append ⟨0, maxMicros_pos, true⟩ viewedWell [Stream.depthSample "ROP" 1 (.ofRatio 10 1)]]

/-- The third request, for the mud logs of the second wellbore, fails. -/
def sandSetting : Setting where
  warm _ := WarmStore.run 5 sandCalls
  store _ := MudLogs.storeAfter 100 sandHistory
  fails n := n = 2

/-- The row of such an interval. -/
def sandRow (top bottom : ℤ) : LithologyRow :=
  ⟨some (.ofRatio top 1), some (.ofRatio bottom 1), none, none, none, none, some "Sand".toList⟩

end WitsmlViewer.Comparison

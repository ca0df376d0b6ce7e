/-
# The store as a map of objects (`mockstore.store`)

AddToStore, DeleteFromStore and GetFromStore of wells, wellbores, logs and mud logs, beside the
finite maps that they are meant to be: wells by uid, wellbores by well and uid, logs and mud logs
by well, wellbore and uid.

The code keys wells, logs and mud logs by these.  A wellbore it keys by the text
`"{uidWell}/{uid}"`, which different identities may share.

* `ObjectStore.step` is the store, `Objects.step` the maps.
* `replies_eq_maps`: along every run in which no wellbore is addressed whose text is that of
  another one, and no new log ships an instant outside the years 1 to 9999, the store and the maps
  give the same replies.

The maps are functions and have no order; the store's dictionaries are lists of pairs.  What joins
them is `KeyedList.Represents`, and a step on both sides keeps it.  So the simulation is proved
request by request, with the replies compared on the way, and the run is an instance of `Runs`.

The condition is on the state before each request.  It is not a restriction on uids in general: a
uid may have a slash in it, as long as no two of the wellbores that are addressed are mistaken for
each other.
-/
import WitsmlViewer.Lib.KeyedList
import WitsmlViewer.Lib.Runs
import WitsmlViewer.MockStore

namespace WitsmlViewer

open Py KeyedList Runs

/-! ## 1. Mud logs

Mud logs have a range of their own.  It is computed from the intervals when the mud log is added,
and an interval is selected by comparing floats, where `nan` is in no range. -/

/-- A `<geologyInterval>` element: its bounds, and the rest of it as it was written. -/
structure GeologyIntervalElem where
  mdTop : Option Str
  mdBottom : Option Str
  rest : Str
deriving DecidableEq

/-- A `<mudLog>` element. -/
structure MudLogElem where
  uid : Option Str
  uidWell : Option Str
  uidWellbore : Option Str
  name : Option Str := none
  nameWell : Option Str := none
  nameWellbore : Option Str := none
  objectGrowing : Option Str := none
  intervals : List GeologyIntervalElem := []
deriving DecidableEq

structure StoredMudLog where
  uid : Str
  uidWell : Str
  uidWellbore : Str
  name : Option Str
  nameWell : Option Str
  nameWellbore : Option Str
  objectGrowing : Bool := false
  intervals : List GeologyIntervalElem
deriving DecidableEq

def StoredMudLog.key (ml : StoredMudLog) : Str × Str × Str := (ml.uidWell, ml.uidWellbore, ml.uid)

/-- A `<mudLog>` query with its option `intervalRangeInclusion`. -/
structure MudLogQuery where
  uid : Str
  uidWell : Str
  uidWellbore : Str
  intervals : List GeologyIntervalElem := []
  intervalRangeInclusion : Option Str := none
deriving DecidableEq

/-- `_mudlog_range`: the last bounds that are numbers. -/
def mudLogRange (intervals : List GeologyIntervalElem) : Option Float64 × Option Float64 :=
  intervals.foldl (fun range gi =>
    (((childText gi.mdTop).bind float?).or range.1,
      ((childText gi.mdBottom).bind float?).or range.2)) (none, none)

/-- `x >= y` of two floats. -/
def floatGe (x y : Float64) : Bool := x != .nan && y != .nan && !x.lt y

/-- `_interval_in_range`. -/
def intervalInRange (gi : GeologyIntervalElem) (mdTop mdBottom : Option Float64) (inclusion : Str) :
    Bool :=
  if mdTop = none ∧ mdBottom = none then true
  else match number gi.mdTop, number gi.mdBottom with
    | some iTop, some iBottom =>
      match iTop.or iBottom, iBottom.or iTop with
      | some lo, some hi =>
        if inclusion = "whole-interval".toList then
          floatGe lo (mdTop.getD (.inf true)) && floatGe (mdBottom.getD (.inf false)) hi
        else if inclusion = "minimum-point".toList then
          floatGe lo (mdTop.getD (.inf true)) && floatGe (mdBottom.getD (.inf false)) lo
        else floatGe hi (mdTop.getD (.inf true)) && floatGe (mdBottom.getD (.inf false)) lo
      | _, _ => true
    | _, _ => true
where
  /-- The number of a bound, if it has one; `none` for a text that is no number. -/
  number (raw : Option Str) : Option (Option Float64) :=
    match childText raw with
    | none => some none
    | some s => (float? s).map some

/-- The mud log that an element creates. -/
def mudLogOfElem (el : MudLogElem) : StoredMudLog where
  uid := el.uid.getD []
  uidWell := el.uidWell.getD []
  uidWellbore := el.uidWellbore.getD []
  name := childText el.name
  nameWell := childText el.nameWell
  nameWellbore := childText el.nameWellbore
  intervals := el.intervals

/-- One matching mud log's part of a reply. -/
def StoredMudLog.render (ml : StoredMudLog) (q : MudLogQuery) : MudLogElem where
  uid := some ml.uid
  uidWell := some ml.uidWell
  uidWellbore := some ml.uidWellbore
  nameWell := ml.nameWell
  nameWellbore := ml.nameWellbore
  name := ml.name
  objectGrowing := some (if ml.objectGrowing then "true".toList else "false".toList)
  intervals := ml.intervals.filter fun gi =>
    intervalInRange gi (mudLogRange q.intervals).1 (mudLogRange q.intervals).2
      (lower (q.intervalRangeInclusion.getD "any-part".toList))

/-! ## 2. The store

The store's functions as the source has them, the text that a wellbore is looked up by included. -/

/-- The store with its mud logs. -/
structure ObjectStore extends MockStore where
  mudLogs : List StoredMudLog := []

namespace MockStore

variable (store : MockStore)

/-- `delete_object` for a well. -/
def deleteWell (el : WellElem) : MockStore × StoreReply :=
  let uid := el.uid.getD []
  if uid ≠ [] ∧ store.wells.any (·.uid = uid) then
    ({ store with wells := store.wells.filter (·.uid ≠ uid) }, rcSuccess, none)
  else (store, rcErrorNotFound, some "nothing matched the delete query".toList)

/-- The text that a wellbore element is looked up by. -/
def wellboreText (el : WellboreElem) : Str := el.uidWell.getD [] ++ '/' :: el.uid.getD []

/-- `delete_object` for a wellbore. -/
def deleteWellbore (el : WellboreElem) : MockStore × StoreReply :=
  if store.wellbores.any (·.key = wellboreText el) then
    ({ store with wellbores := store.wellbores.filter (·.key ≠ wellboreText el) }, rcSuccess, none)
  else (store, rcErrorNotFound, some "nothing matched the delete query".toList)

end MockStore

/-- The identity of a mud log element. -/
def mudLogKey (el : MudLogElem) : Str × Str × Str :=
  (el.uidWell.getD [], el.uidWellbore.getD [], el.uid.getD [])

namespace ObjectStore

variable (store : ObjectStore)

def addMudLog (el : MudLogElem) : ObjectStore × StoreReply :=
  let uid := el.uid.getD []
  if uid = [] then (store, rcErrorBadInput, some "<mudLog> missing uid".toList)
  else if store.mudLogs.any (·.key = mudLogKey el) then
    (store, rcErrorDuplicate, some ("mudLog uid '".toList ++ uid ++ "' already exists".toList))
  else ({ store with mudLogs := store.mudLogs ++ [mudLogOfElem el] }, rcSuccess, none)

/-- `delete_object` for a mud log. -/
def deleteMudLog (el : MudLogElem) : ObjectStore × StoreReply :=
  if store.mudLogs.any (·.key = mudLogKey el) then
    ({ store with mudLogs := store.mudLogs.filter (·.key ≠ mudLogKey el) }, rcSuccess, none)
  else (store, rcErrorNotFound, some "nothing matched the delete query".toList)

/-- `_query_mudlogs`; empty attributes are no filters. -/
def queryMudLogs (q : MudLogQuery) : ℤ × List MudLogElem :=
  (rcSuccess, (store.mudLogs.filter fun ml =>
    (q.uid = [] || ml.uid = q.uid) && (q.uidWell = [] || ml.uidWell = q.uidWell) &&
      (q.uidWellbore = [] || ml.uidWellbore = q.uidWellbore)).map (·.render q))

end ObjectStore

/-! ## 3. Requests and replies

One type of requests and one of replies, so that a history of the store is a list.  A request that
raises has its exception for a reply. -/

/-- A request for one kind of object. -/
inductive ObjectRequest
  | addWell (el : WellElem)
  | deleteWell (el : WellElem)
  | queryWell (uid : Str)
  | addWellbore (el : WellboreElem)
  | deleteWellbore (el : WellboreElem)
  | queryWellbore (uidWell uid : Str)
  | addLog (el : LogElem)
  | deleteLog (el : LogElem)
  | queryLog (q : LogQuery)
  | addMudLog (el : MudLogElem)
  | deleteMudLog (el : MudLogElem)
  | queryMudLog (q : MudLogQuery)

/-- A return code, an exception, or what a query found. -/
inductive ObjectReply
  | code (returnCode : ℤ)
  | raised (e : PyError)
  | wells (answer : ℤ × List WellElem)
  | wellbores (answer : ℤ × List WellboreElem)
  | logs (answer : Except PyError (ℤ × List LogElem))
  | mudLogs (answer : ℤ × List MudLogElem)
deriving DecidableEq

/-- The reply to a fallible change. -/
def ObjectReply.ofExcept : Except PyError StoreReply → ObjectReply
  | .ok reply => .code reply.1
  | .error e => .raised e

/-- The store's step. -/
def ObjectStore.step (s : ObjectStore) : ObjectRequest → ObjectStore × ObjectReply
  | .addWell el => let r := s.toMockStore.addWell (some el)
    ({ s with toMockStore := r.1 }, .code r.2.1)
  | .deleteWell el => let r := s.toMockStore.deleteWell el
    ({ s with toMockStore := r.1 }, .code r.2.1)
  | .queryWell uid => (s, .wells (s.toMockStore.queryWells uid))
  | .addWellbore el => let r := s.toMockStore.addWellbore (some el)
    ({ s with toMockStore := r.1 }, .code r.2.1)
  | .deleteWellbore el => let r := s.toMockStore.deleteWellbore el
    ({ s with toMockStore := r.1 }, .code r.2.1)
  | .queryWellbore uidWell uid => (s, .wellbores (s.toMockStore.queryWellbores uidWell uid))
  | .addLog el => let r := s.toMockStore.addLog (some el)
    ({ s with toMockStore := r.1 }, .ofExcept r.2)
  | .deleteLog el => let r := s.toMockStore.deleteLog (some el)
    ({ s with toMockStore := r.1 }, .code r.2.1)
  | .queryLog q => (s, .logs (s.toMockStore.queryLogs q))
  | .addMudLog el => let r := s.addMudLog el
    (r.1, .code r.2.1)
  | .deleteMudLog el => let r := s.deleteMudLog el
    (r.1, .code r.2.1)
  | .queryMudLog q => (s, .mudLogs (s.queryMudLogs q))

/-! ## 4. The maps

What the component is for.  A key that is taken refuses an addition, a key that is free refuses a
deletion, and a query sees what was added last and not deleted since.  There is no text of a
wellbore on this side. -/

/-- The element last added under each identity and not deleted since. -/
structure Objects where
  wells : Str → Option WellElem
  wellbores : Str × Str → Option WellboreElem
  logs : Str × Str × Str → Option LogElem
  mudLogs : Str × Str × Str → Option MudLogElem

namespace Objects

def empty : Objects := ⟨fun _ => none, fun _ => none, fun _ => none, fun _ => none⟩

/-- Add to a map: `+1` if the key is free, otherwise `-405` and nothing changes. -/
def add {κ β : Type} [DecidableEq κ] (m : κ → Option β) (k : κ) (b : β) :
    (κ → Option β) × ObjectReply :=
  match m k with
  | none => (Function.update m k (some b), .code 1)
  | some _ => (m, .code (-405))

/-- Delete from a map: `+1` if the key is taken, otherwise `-411` and nothing changes. -/
def delete {κ β : Type} [DecidableEq κ] (m : κ → Option β) (k : κ) :
    (κ → Option β) × ObjectReply :=
  match m k with
  | none => (m, .code (-411))
  | some _ => (Function.update m k none, .code 1)

/-- The identity of a wellbore element. -/
def wellboreKey (el : WellboreElem) : Str × Str := (el.uidWell.getD [], el.uid.getD [])

/-- The log that an element creates, with its rows. -/
def createdLog (el : LogElem) : StoredLog := (ingestLogData (MockStore.logOfElem el) el).1

/-- What a log query shows of the log under its identity. -/
def logAnswer (maxRequestLatestValues : ℤ) (q : LogQuery) :
    Option LogElem → Except PyError (ℤ × List LogElem)
  | none => .ok (rcSuccess, [])
  | some el => ((createdLog el).answer maxRequestLatestValues q).map fun answer =>
    (if answer.2 then rcPartialSuccess else rcSuccess, [answer.1])

/-- The maps' step. -/
def step (maxRequestLatestValues : ℤ) (m : Objects) : ObjectRequest → Objects × ObjectReply
  | .addWell el => let r := add m.wells (el.uid.getD []) el
    ({ m with wells := r.1 }, r.2)
  | .deleteWell el => let r := delete m.wells (el.uid.getD [])
    ({ m with wells := r.1 }, r.2)
  | .queryWell uid => (m, .wells (rcSuccess, (m.wells uid).toList))
  | .addWellbore el => let r := add m.wellbores (wellboreKey el) el
    ({ m with wellbores := r.1 }, r.2)
  | .deleteWellbore el => let r := delete m.wellbores (wellboreKey el)
    ({ m with wellbores := r.1 }, r.2)
  | .queryWellbore uidWell uid => (m, .wellbores (rcSuccess, (m.wellbores (uidWell, uid)).toList))
  | .addLog el => let r := add m.logs (MockStore.elemKey el) el
    ({ m with logs := r.1 }, r.2)
  | .deleteLog el => let r := delete m.logs (MockStore.elemKey el)
    ({ m with logs := r.1 }, r.2)
  | .queryLog q =>
    (m, .logs (logAnswer maxRequestLatestValues q (m.logs (q.uidWell, q.uidWellbore, q.uid))))
  | .addMudLog el => let r := add m.mudLogs (mudLogKey el) el
    ({ m with mudLogs := r.1 }, r.2)
  | .deleteMudLog el => let r := delete m.mudLogs (mudLogKey el)
    ({ m with mudLogs := r.1 }, r.2)
  | .queryMudLog q => (m, .mudLogs (rcSuccess,
      ((m.mudLogs (q.uidWell, q.uidWellbore, q.uid)).toList.map fun el =>
        (mudLogOfElem el).render q)))

end Objects

/-! ## 5. The store simulates the maps

Under an unambiguous text the code's comparison of texts decides what the maps' comparison of
identities does (`Unambiguous.key_iff`).  Everything else in this section is the same argument four
times, for the four kinds of objects: the two sides find a key taken or free together, and what
they then do keeps them together. -/

/-- The identity of a stored wellbore. -/
def StoredWellbore.identity (wb : StoredWellbore) : Str × Str := (wb.uidWell, wb.uid)

/-- Every part of the identity is a non-empty text. -/
def ObjectRequest.Identified : ObjectRequest → Prop
  | .addWell el | .deleteWell el => el.uid.getD [] ≠ []
  | .queryWell uid => uid ≠ []
  | .addWellbore el | .deleteWellbore el => el.uidWell.getD [] ≠ [] ∧ el.uid.getD [] ≠ []
  | .queryWellbore uidWell uid => uidWell ≠ [] ∧ uid ≠ []
  | .addLog el | .deleteLog el =>
    el.uidWell.getD [] ≠ [] ∧ el.uidWellbore.getD [] ≠ [] ∧ el.uid.getD [] ≠ []
  | .queryLog q => q.uidWell ≠ [] ∧ q.uidWellbore ≠ [] ∧ q.uid ≠ []
  | .addMudLog el | .deleteMudLog el =>
    el.uidWell.getD [] ≠ [] ∧ el.uidWellbore.getD [] ≠ [] ∧ el.uid.getD [] ≠ []
  | .queryMudLog q => q.uidWell ≠ [] ∧ q.uidWellbore ≠ [] ∧ q.uid ≠ []

instance : ∀ r : ObjectRequest, Decidable r.Identified
  | .addWell el | .deleteWell el => inferInstanceAs (Decidable (el.uid.getD [] ≠ []))
  | .queryWell uid => inferInstanceAs (Decidable (uid ≠ []))
  | .addWellbore el | .deleteWellbore el =>
    inferInstanceAs (Decidable (el.uidWell.getD [] ≠ [] ∧ el.uid.getD [] ≠ []))
  | .queryWellbore uidWell uid => inferInstanceAs (Decidable (uidWell ≠ [] ∧ uid ≠ []))
  | .addLog el | .deleteLog el => inferInstanceAs (Decidable
      (el.uidWell.getD [] ≠ [] ∧ el.uidWellbore.getD [] ≠ [] ∧ el.uid.getD [] ≠ []))
  | .queryLog q =>
    inferInstanceAs (Decidable (q.uidWell ≠ [] ∧ q.uidWellbore ≠ [] ∧ q.uid ≠ []))
  | .addMudLog el | .deleteMudLog el => inferInstanceAs (Decidable
      (el.uidWell.getD [] ≠ [] ∧ el.uidWellbore.getD [] ≠ [] ∧ el.uid.getD [] ≠ []))
  | .queryMudLog q =>
    inferInstanceAs (Decidable (q.uidWell ≠ [] ∧ q.uidWellbore ≠ [] ∧ q.uid ≠ []))

/-- No line that is shipped with the log starts with an instant outside the years 1 to 9999. -/
def InstantsInRange (el : LogElem) : Prop :=
  ∀ ld ∈ el.logData, incomingMnemonics (MockStore.logOfElem el) ld ≠ [] →
    ∀ text ∈ dataLines ld, ∀ token ∈ ((split ',' text).map strip).head?,
      (parseIndex (some token) (MockStore.logOfElem el).indexType).isOk = true

instance (el : LogElem) : Decidable (InstantsInRange el) :=
  inferInstanceAs (Decidable (∀ ld ∈ el.logData,
    incomingMnemonics (MockStore.logOfElem el) ld ≠ [] →
      ∀ text ∈ dataLines ld, ∀ token ∈ ((split ',' text).map strip).head?,
        (parseIndex (some token) (MockStore.logOfElem el).indexType).isOk = true))

/-- What the code's keys and its parser can cope with: no stored wellbore has the text of the
addressed one but another identity, and a new log's instants are in range. -/
def Unambiguous (s : ObjectStore) : ObjectRequest → Prop
  | .addWellbore el | .deleteWellbore el => ∀ wb ∈ s.wellbores,
      wb.key = MockStore.wellboreText el → wb.identity = Objects.wellboreKey el
  | .addLog el => (s.findLog (MockStore.elemKey el)).isNone = true → InstantsInRange el
  | _ => True

instance (s : ObjectStore) : ∀ r, Decidable (Unambiguous s r)
  | .addWellbore el | .deleteWellbore el => inferInstanceAs (Decidable (∀ wb ∈ s.wellbores,
      wb.key = MockStore.wellboreText el → wb.identity = Objects.wellboreKey el))
  | .addLog el => inferInstanceAs (Decidable
      ((s.findLog (MockStore.elemKey el)).isNone = true → InstantsInRange el))
  | .addWell _ | .deleteWell _ | .queryWell _ | .queryWellbore _ _ | .deleteLog _ | .queryLog _
  | .addMudLog _ | .deleteMudLog _ | .queryMudLog _ => isTrue trivial

/-- The store holds what the maps do. -/
structure Simulates (maxRequestLatestValues : ℤ) (s : ObjectStore) (m : Objects) : Prop where
  wells : Represents StoredWell.uid (fun el : WellElem => ⟨el.uid.getD [], el⟩) s.wells m.wells
  wellbores : Represents StoredWellbore.identity
    (fun el : WellboreElem => ⟨el.uid.getD [], el.uidWell.getD [], el⟩) s.wellbores m.wellbores
  logs : Represents StoredLog.key Objects.createdLog s.logs m.logs
  mudLogs : Represents StoredMudLog.key mudLogOfElem s.mudLogs m.mudLogs
  latest : s.maxRequestLatestValues = maxRequestLatestValues

namespace Objects

section Keyed

variable {α β κ : Type} [DecidableEq κ] {key : α → κ} {make : β → α} {l : List α}
  {m : κ → Option β}

/-- What both sides do with an addition. -/
theorem add_cases (h : Represents key make l m) {b : β} {k : κ} (hkey : key (make b) = k) :
    ((∃ a ∈ l, key a = k) ∧ add m k b = (m, .code (-405))) ∨
    ((¬∃ a ∈ l, key a = k) ∧ add m k b = (Function.update m k (some b), .code 1) ∧
      Represents key make (l ++ [make b]) (Function.update m k (some b))) := by
  rw [h.any_iff k]
  cases hk : m k with
  | some b' => exact Or.inl ⟨rfl, by simp [add, hk]⟩
  | none => exact Or.inr ⟨by simp, by simp [add, hk], h.insert hkey hk⟩

/-- What both sides do with a deletion. -/
theorem delete_cases (h : Represents key make l m) (k : κ) :
    ((¬∃ a ∈ l, key a = k) ∧ delete m k = (m, .code (-411))) ∨
    ((∃ a ∈ l, key a = k) ∧ delete m k = (Function.update m k none, .code 1) ∧
      Represents key make (l.filter fun a => decide (key a ≠ k)) (Function.update m k none)) := by
  rw [h.any_iff k]
  cases hk : m k with
  | none => exact Or.inl ⟨by simp, by simp [delete, hk]⟩
  | some b => exact Or.inr ⟨rfl, by simp [delete, hk], h.erase k⟩

end Keyed

/-- The log that an element creates has its identity. -/
theorem createdLog_key (el : LogElem) : (createdLog el).key = MockStore.elemKey el :=
  ingestLogData_key _ el

end Objects

/-- Rows whose instants are in range are ingested. -/
theorem ingestLines_isOk {incoming : List Str} {t : IndexType} :
    ∀ {texts : List Str} {log : StoredLog}, log.indexType = t →
      (∀ text ∈ texts, ∀ token ∈ ((split ',' text).map strip).head?,
        (parseIndex (some token) t).isOk = true) →
      (ingestLines incoming texts log).2.isOk = true
  | [], _, _, _ => rfl
  | text :: texts, log, ht, h => by
    subst ht
    have hrest : ∀ text ∈ texts, ∀ token ∈ ((split ',' text).map strip).head?,
        (parseIndex (some token) log.indexType).isOk = true :=
      fun x hx => h x (List.mem_cons_of_mem _ hx)
    rw [ingestLines]
    split
    · rename_i e hrow
      exfalso
      rw [incomingRow] at hrow
      split at hrow
      · simp at hrow
      · rename_i token cells hcells
        have hok := h text List.mem_cons_self token (by rw [hcells]; rfl)
        split at hrow
        · rename_i e' hparse
          rw [hparse] at hok
          exact absurd hok (by simp [Except.isOk, Except.toBool])
        · simp at hrow
        · simp at hrow
    · exact ingestLines_isOk rfl hrest
    · rename_i r hrow
      have hok : (ingestLines incoming texts (log.insert r)).2.isOk = true :=
        ingestLines_isOk rfl hrest
      obtain ⟨n, hn⟩ : ∃ n, (ingestLines incoming texts (log.insert r)).2 = .ok n := by
        cases hin : (ingestLines incoming texts (log.insert r)).2 with
        | error e =>
          rw [hin] at hok
          exact absurd hok (by simp [Except.isOk, Except.toBool])
        | ok n => exact ⟨n, rfl⟩
      dsimp only
      rw [hn]
      rfl

/-- So a log whose instants are in range is created. -/
theorem InstantsInRange.ingested {el : LogElem} (h : InstantsInRange el) :
    (ingestLogData (MockStore.logOfElem el) el).2.isOk = true := by
  rw [ingestLogData]
  split
  · rfl
  · rename_i ld hld
    split
    · rfl
    · rename_i hne
      exact ingestLines_isOk rfl (h ld hld hne)

/-! What each request does on both sides. -/

section Steps

variable {maxLatest : ℤ} {s : ObjectStore} {m : Objects}

/-- The replies agree, and the states still do. -/
def Agree (maxLatest : ℤ) (s : ObjectStore) (m : Objects) (r : ObjectRequest) : Prop :=
  (s.step r).2 = (Objects.step maxLatest m r).2 ∧
    Simulates maxLatest (s.step r).1 (Objects.step maxLatest m r).1

/-- A well is added on both sides or refused on both. -/
theorem Simulates.addWell (h : Simulates maxLatest s m) {el : WellElem}
    (hid : el.uid.getD [] ≠ []) : Agree maxLatest s m (.addWell el) := by
  rcases Objects.add_cases h.wells (b := el) (k := el.uid.getD []) rfl with
    ⟨htaken, hadd⟩ | ⟨hfree, hadd, hrep⟩
  · have hany : s.wells.any (fun w => decide (w.uid = el.uid.getD [])) = true := by
      simpa using htaken
    have hstep : s.step (.addWell el) = (s, .code rcErrorDuplicate) := by
      simp [ObjectStore.step, MockStore.addWell, hid, hany]
    rw [Agree, hstep, Objects.step, hadd]
    exact ⟨rfl, h⟩
  · have hany : s.wells.any (fun w => decide (w.uid = el.uid.getD [])) = false := by
      simpa using hfree
    have hstep : s.step (.addWell el) =
        ({ s with wells := s.wells ++ [⟨el.uid.getD [], el⟩] }, .code rcSuccess) := by
      simp [ObjectStore.step, MockStore.addWell, hid, hany]
    rw [Agree, hstep, Objects.step, hadd]
    exact ⟨rfl, { h with wells := hrep }⟩

/-- A well is deleted on both sides or missing on both. -/
theorem Simulates.deleteWell (h : Simulates maxLatest s m) {el : WellElem}
    (hid : el.uid.getD [] ≠ []) : Agree maxLatest s m (.deleteWell el) := by
  rcases Objects.delete_cases h.wells (el.uid.getD []) with
    ⟨hfree, hdel⟩ | ⟨htaken, hdel, hrep⟩
  · have hany : s.wells.any (fun w => decide (w.uid = el.uid.getD [])) = false := by
      simpa using hfree
    have hstep : s.step (.deleteWell el) = (s, .code rcErrorNotFound) := by
      simp [ObjectStore.step, MockStore.deleteWell, hany]
    rw [Agree, hstep, Objects.step, hdel]
    exact ⟨rfl, h⟩
  · have hany : s.wells.any (fun w => decide (w.uid = el.uid.getD [])) = true := by
      simpa using htaken
    have hstep : s.step (.deleteWell el) =
        ({ s with wells := s.wells.filter fun w => decide (w.uid ≠ el.uid.getD []) },
          .code rcSuccess) := by
      simp [ObjectStore.step, MockStore.deleteWell, hid, hany]
    rw [Agree, hstep, Objects.step, hdel]
    exact ⟨rfl, { h with wells := hrep }⟩

theorem Simulates.queryWell (h : Simulates maxLatest s m) {uid : Str} (hid : uid ≠ []) :
    Agree maxLatest s m (.queryWell uid) := by
  refine ⟨?_, h⟩
  have hfilter := h.wells.filter_eq uid
  simp only [ObjectStore.step, Objects.step, MockStore.queryWells, hid, false_or, hfilter]
  cases m.wells uid <;> rfl

/-- Under an unambiguous text, code and map look for the same wellbore. -/
theorem Unambiguous.key_iff {el : WellboreElem} (h : ∀ wb ∈ s.wellbores,
    wb.key = MockStore.wellboreText el → wb.identity = Objects.wellboreKey el) {wb : StoredWellbore}
    (hwb : wb ∈ s.wellbores) :
    wb.key = MockStore.wellboreText el ↔ wb.identity = Objects.wellboreKey el := by
  refine ⟨h wb hwb, fun hid => ?_⟩
  obtain ⟨hwell, huid⟩ := Prod.mk.inj hid
  rw [StoredWellbore.key, MockStore.wellboreText, hwell, huid]

/-- So the store has a wellbore of this text exactly if the maps have one of this identity. -/
theorem Unambiguous.any_iff {el : WellboreElem} (h : ∀ wb ∈ s.wellbores,
    wb.key = MockStore.wellboreText el → wb.identity = Objects.wellboreKey el) :
    s.wellbores.any (fun wb => decide (wb.key = MockStore.wellboreText el)) = true ↔
      ∃ wb ∈ s.wellbores, wb.identity = Objects.wellboreKey el := by
  rw [List.any_eq_true]
  constructor
  · rintro ⟨wb, hwb, hkey⟩
    exact ⟨wb, hwb, h wb hwb (by simpa using hkey)⟩
  · rintro ⟨wb, hwb, hid⟩
    exact ⟨wb, hwb, by simpa using (Unambiguous.key_iff h hwb).mpr hid⟩

/-- A wellbore is added on both sides or refused on both, if its text is not that of another one. -/
theorem Simulates.addWellbore (h : Simulates maxLatest s m) {el : WellboreElem}
    (hid : el.uid.getD [] ≠ []) (hun : Unambiguous s (.addWellbore el)) :
    Agree maxLatest s m (.addWellbore el) := by
  have hany := Unambiguous.any_iff hun
  rcases Objects.add_cases h.wellbores (b := el) (k := Objects.wellboreKey el) rfl with
    ⟨htaken, hadd⟩ | ⟨hfree, hadd, hrep⟩
  · have hany := hany.mpr htaken
    have hrun : s.toMockStore.addWellbore (some el) = (s.toMockStore, rcErrorDuplicate,
        some ("wellbore uid '".toList ++ el.uid.getD [] ++ "' already exists".toList)) :=
      (if_neg hid).trans (if_pos hany)
    have hstep : s.step (.addWellbore el) = (s, .code rcErrorDuplicate) := by
      rw [ObjectStore.step, hrun]
    rw [Agree, hstep, Objects.step, hadd]
    exact ⟨rfl, h⟩
  · have hany := fun hsome => hfree (hany.mp hsome)
    have hrun : s.toMockStore.addWellbore (some el) = ({ s.toMockStore with
        wellbores := s.wellbores ++ [⟨el.uid.getD [], el.uidWell.getD [], el⟩] },
        rcSuccess, none) :=
      (if_neg hid).trans (if_neg hany)
    have hstep : s.step (.addWellbore el) = ({ s with
        wellbores := s.wellbores ++ [⟨el.uid.getD [], el.uidWell.getD [], el⟩] },
        .code rcSuccess) := by
      rw [ObjectStore.step, hrun]
    rw [Agree, hstep, Objects.step, hadd]
    exact ⟨rfl, { h with wellbores := hrep }⟩

/-- A wellbore is deleted on both sides or missing on both, under the same condition; otherwise the
store would delete the other one. -/
theorem Simulates.deleteWellbore (h : Simulates maxLatest s m) {el : WellboreElem}
    (hun : Unambiguous s (.deleteWellbore el)) : Agree maxLatest s m (.deleteWellbore el) := by
  have hany := Unambiguous.any_iff hun
  rcases Objects.delete_cases h.wellbores (Objects.wellboreKey el) with
    ⟨hfree, hdel⟩ | ⟨htaken, hdel, hrep⟩
  · have hany := fun hsome => hfree (hany.mp hsome)
    have hstep : s.step (.deleteWellbore el) = (s, .code rcErrorNotFound) := by
      simp only [ObjectStore.step, MockStore.deleteWellbore]
      rw [if_neg hany]
    rw [Agree, hstep, Objects.step, hdel]
    exact ⟨rfl, h⟩
  · have hany := hany.mpr htaken
    have hfilter : s.wellbores.filter (fun wb => decide (wb.key ≠ MockStore.wellboreText el)) =
        s.wellbores.filter (fun wb => decide (wb.identity ≠ Objects.wellboreKey el)) := by
      refine List.filter_congr fun wb hwb => ?_
      rw [decide_eq_decide]
      exact not_congr (Unambiguous.key_iff hun hwb)
    have hstep : s.step (.deleteWellbore el) = ({ s with
        wellbores := s.wellbores.filter fun wb =>
          decide (wb.identity ≠ Objects.wellboreKey el) }, .code rcSuccess) := by
      simp only [ObjectStore.step, MockStore.deleteWellbore]
      rw [if_pos hany, hfilter]
    rw [Agree, hstep, Objects.step, hdel]
    exact ⟨rfl, { h with wellbores := hrep }⟩

/-- Both sides show the same wellbore.  Queries filter by the two uids and not by the text, so they
need no condition. -/
theorem Simulates.queryWellbore (h : Simulates maxLatest s m) {uidWell uid : Str}
    (hid : uidWell ≠ [] ∧ uid ≠ []) : Agree maxLatest s m (.queryWellbore uidWell uid) := by
  refine ⟨?_, h⟩
  have hsame : s.wellbores.filter (fun wb => decide ((uid = [] ∨ wb.uid = uid) ∧
      (uidWell = [] ∨ wb.uidWell = uidWell))) =
      s.wellbores.filter (fun wb => decide (wb.identity = (uidWell, uid))) := by
    refine List.filter_congr fun wb _ => ?_
    rw [decide_eq_decide, StoredWellbore.identity, Prod.mk.injEq]
    simp only [hid.1, hid.2, false_or]
    exact and_comm
  simp only [ObjectStore.step, Objects.step, MockStore.queryWellbores, hsame,
    h.wellbores.filter_eq (uidWell, uid)]
  cases m.wellbores (uidWell, uid) <;> rfl

/-- A key is taken exactly if some log has it. -/
theorem mem_keys_iff (store : MockStore) (el : LogElem) :
    (Objects.createdLog el).key ∈ store.logs.map StoredLog.key ↔
      ∃ log ∈ store.logs, log.key = MockStore.elemKey el := by
  rw [Objects.createdLog_key, List.mem_map]

/-- A log whose key is taken is refused, before its rows are looked at. -/
theorem addLog_of_taken {store : MockStore} {el : LogElem} (hid : el.uid.getD [] ≠ [])
    (htaken : ∃ log ∈ store.logs, log.key = MockStore.elemKey el) :
    store.addLog (some el) = (store, .ok (rcErrorDuplicate,
      some ("log uid '".toList ++ el.uid.getD [] ++ "' already exists".toList))) :=
  (if_neg hid).trans (dif_pos ((mem_keys_iff store el).mpr htaken))

theorem addLog_of_free {store : MockStore} {el : LogElem} (hid : el.uid.getD [] ≠ [])
    (hfree : ¬∃ log ∈ store.logs, log.key = MockStore.elemKey el) (hrange : InstantsInRange el) :
    ∃ hdistinct, store.addLog (some el) = ({ store with
      logs := store.logs ++ [Objects.createdLog el]
      logsDistinct := hdistinct }, .ok (rcSuccess, none)) := by
  obtain ⟨n, hn⟩ : ∃ n, (ingestLogData (MockStore.logOfElem el) el).2 = .ok n := by
    have hok := hrange.ingested
    cases hin : (ingestLogData (MockStore.logOfElem el) el).2 with
    | error e =>
      rw [hin] at hok
      exact absurd hok (by simp [Except.isOk, Except.toBool])
    | ok n => exact ⟨n, rfl⟩
  have hnew : (ingestLogData (MockStore.logOfElem el) el).1.key ∉ store.logs.map StoredLog.key :=
    fun hmem => hfree ((mem_keys_iff store el).mp hmem)
  have hdistinct : ((store.logs ++ [Objects.createdLog el]).map StoredLog.key).Nodup := by
    rw [List.map_append, List.map_singleton]
    refine List.nodup_append.mpr ⟨store.logsDistinct, List.nodup_singleton _, ?_⟩
    rintro a ha b hb rfl
    rw [List.mem_singleton] at hb
    exact hnew (hb ▸ ha)
  simp only [MockStore.addLog, hid, if_false, dif_neg hnew, hn]
  exact ⟨hdistinct, rfl⟩

theorem Simulates.findLog_isNone (h : Simulates maxLatest s m) {key : Str × Str × Str}
    (hfree : ¬∃ log ∈ s.logs, log.key = key) : (s.findLog key).isNone = true := by
  rw [MockStore.findLog, h.logs.lookup]
  rw [h.logs.any_iff key] at hfree
  simpa using hfree

/-- A log is added on both sides or refused on both. -/
theorem Simulates.addLog (h : Simulates maxLatest s m) {el : LogElem} (hid : el.uid.getD [] ≠ [])
    (hun : Unambiguous s (.addLog el)) : Agree maxLatest s m (.addLog el) := by
  rcases Objects.add_cases h.logs (Objects.createdLog_key el) with
    ⟨htaken, hadd⟩ | ⟨hfree, hadd, hrep⟩
  · have hstep : s.step (.addLog el) = (s, .code rcErrorDuplicate) := by
      rw [ObjectStore.step, addLog_of_taken hid htaken]
      rfl
    rw [Agree, hstep, Objects.step, hadd]
    exact ⟨rfl, h⟩
  · obtain ⟨hdistinct, hrun⟩ := addLog_of_free hid hfree (hun (h.findLog_isNone hfree))
    have hstep : s.step (.addLog el) = ({ s with
        logs := s.logs ++ [Objects.createdLog el]
        logsDistinct := hdistinct }, .code rcSuccess) := by
      rw [ObjectStore.step, hrun]
      rfl
    rw [Agree, hstep, Objects.step, hadd]
    exact ⟨rfl, { h with logs := hrep }⟩

/-- A log is deleted on both sides or missing on both. -/
theorem Simulates.deleteLog (h : Simulates maxLatest s m) (el : LogElem) :
    Agree maxLatest s m (.deleteLog el) := by
  have hfind : (s.findLog (MockStore.elemKey el)).isSome = true ↔
      ∃ log ∈ s.logs, log.key = MockStore.elemKey el := by
    rw [h.logs.any_iff, MockStore.findLog, h.logs.lookup, Option.isSome_map]
  rcases Objects.delete_cases h.logs (MockStore.elemKey el) with
    ⟨hfree, hdel⟩ | ⟨htaken, hdel, hrep⟩
  · have hrun : s.toMockStore.deleteLog (some el) = (s.toMockStore, rcErrorNotFound,
        some "nothing matched the delete query".toList) :=
      if_neg fun hsome => hfree (hfind.mp hsome)
    have hstep : s.step (.deleteLog el) = (s, .code rcErrorNotFound) := by
      rw [ObjectStore.step, hrun]
    rw [Agree, hstep, Objects.step, hdel]
    exact ⟨rfl, h⟩
  · have hrun : ∃ hdistinct, s.toMockStore.deleteLog (some el) = ({ s.toMockStore with
        logs := s.logs.filter fun log => decide (log.key ≠ MockStore.elemKey el)
        logsDistinct := hdistinct }, rcSuccess, none) :=
      ⟨_, if_pos (hfind.mpr htaken)⟩
    obtain ⟨hdistinct, hrun⟩ := hrun
    have hstep : s.step (.deleteLog el) = ({ s with
        logs := s.logs.filter fun log => decide (log.key ≠ MockStore.elemKey el)
        logsDistinct := hdistinct }, .code rcSuccess) := by
      rw [ObjectStore.step, hrun]
    rw [Agree, hstep, Objects.step, hdel]
    exact ⟨rfl, { h with logs := hrep }⟩

/-- Both sides give the same answer about a log. -/
theorem Simulates.queryLog (h : Simulates maxLatest s m) {q : LogQuery}
    (hid : q.uidWell ≠ [] ∧ q.uidWellbore ≠ [] ∧ q.uid ≠ []) :
    Agree maxLatest s m (.queryLog q) := by
  refine ⟨?_, h⟩
  have hsame : s.logs.filter (fun log => log.addressedBy q) =
      s.logs.filter (fun log => decide (log.key = (q.uidWell, q.uidWellbore, q.uid))) := by
    refine List.filter_congr fun log _ => ?_
    rw [Bool.eq_iff_iff]
    simp only [StoredLog.addressedBy, hid.1, hid.2.1, hid.2.2, StoredLog.key, decide_false,
      Bool.false_or, Bool.and_eq_true, decide_eq_true_eq, Prod.mk.injEq]
    tauto
  simp only [ObjectStore.step, Objects.step, MockStore.queryLogs, hsame, h.logs.filter_eq, h.latest]
  cases m.logs (q.uidWell, q.uidWellbore, q.uid) with
  | none => rfl
  | some el =>
    simp only [Option.map_some, Option.toList_some, List.mapM_cons, List.mapM_nil,
      Objects.logAnswer]
    cases (Objects.createdLog el).answer maxLatest q with
    | error e => rfl
    | ok answer => simp [bind, Except.bind, Except.map, pure, Except.pure]

/-- A mud log is added on both sides or refused on both. -/
theorem Simulates.addMudLog (h : Simulates maxLatest s m) {el : MudLogElem}
    (hid : el.uid.getD [] ≠ []) : Agree maxLatest s m (.addMudLog el) := by
  rcases Objects.add_cases h.mudLogs (b := el) (k := mudLogKey el) rfl with
    ⟨htaken, hadd⟩ | ⟨hfree, hadd, hrep⟩
  · have hany : s.mudLogs.any (fun ml => decide (ml.key = mudLogKey el)) = true := by
      simpa using htaken
    have hstep : s.step (.addMudLog el) = (s, .code rcErrorDuplicate) := by
      simp [ObjectStore.step, ObjectStore.addMudLog, hid, hany]
    rw [Agree, hstep, Objects.step, hadd]
    exact ⟨rfl, h⟩
  · have hany : s.mudLogs.any (fun ml => decide (ml.key = mudLogKey el)) = false := by
      simpa using hfree
    have hstep : s.step (.addMudLog el) =
        ({ s with mudLogs := s.mudLogs ++ [mudLogOfElem el] }, .code rcSuccess) := by
      simp [ObjectStore.step, ObjectStore.addMudLog, hid, hany]
    rw [Agree, hstep, Objects.step, hadd]
    exact ⟨rfl, { h with mudLogs := hrep }⟩

/-- A mud log is deleted on both sides or missing on both. -/
theorem Simulates.deleteMudLog (h : Simulates maxLatest s m) (el : MudLogElem) :
    Agree maxLatest s m (.deleteMudLog el) := by
  rcases Objects.delete_cases h.mudLogs (mudLogKey el) with
    ⟨hfree, hdel⟩ | ⟨htaken, hdel, hrep⟩
  · have hany : s.mudLogs.any (fun ml => decide (ml.key = mudLogKey el)) = false := by
      simpa using hfree
    have hstep : s.step (.deleteMudLog el) = (s, .code rcErrorNotFound) := by
      simp [ObjectStore.step, ObjectStore.deleteMudLog, hany]
    rw [Agree, hstep, Objects.step, hdel]
    exact ⟨rfl, h⟩
  · have hany : s.mudLogs.any (fun ml => decide (ml.key = mudLogKey el)) = true := by
      simpa using htaken
    have hstep : s.step (.deleteMudLog el) = ({ s with
        mudLogs := s.mudLogs.filter fun ml => decide (ml.key ≠ mudLogKey el) },
        .code rcSuccess) := by
      simp [ObjectStore.step, ObjectStore.deleteMudLog, hany]
    rw [Agree, hstep, Objects.step, hdel]
    exact ⟨rfl, { h with mudLogs := hrep }⟩

theorem Simulates.queryMudLog (h : Simulates maxLatest s m) {q : MudLogQuery}
    (hid : q.uidWell ≠ [] ∧ q.uidWellbore ≠ [] ∧ q.uid ≠ []) :
    Agree maxLatest s m (.queryMudLog q) := by
  refine ⟨?_, h⟩
  have hsame : s.mudLogs.filter (fun ml => (q.uid = [] || ml.uid = q.uid) &&
      (q.uidWell = [] || ml.uidWell = q.uidWell) &&
      (q.uidWellbore = [] || ml.uidWellbore = q.uidWellbore)) =
      s.mudLogs.filter (fun ml => decide (ml.key = (q.uidWell, q.uidWellbore, q.uid))) := by
    refine List.filter_congr fun ml _ => ?_
    rw [Bool.eq_iff_iff]
    simp only [hid.1, hid.2.1, hid.2.2, StoredMudLog.key, decide_false, Bool.false_or,
      Bool.and_eq_true, decide_eq_true_eq, Prod.mk.injEq]
    tauto
  simp only [ObjectStore.step, Objects.step, ObjectStore.queryMudLogs, hsame, h.mudLogs.filter_eq]
  cases m.mudLogs (q.uidWell, q.uidWellbore, q.uid) <;> rfl

/-- **One request**: the replies agree, and the states still do. -/
theorem Simulates.step (h : Simulates maxLatest s m) {r : ObjectRequest} (hid : r.Identified)
    (hun : Unambiguous s r) : Agree maxLatest s m r := by
  cases r with
  | addWell el => exact h.addWell hid
  | deleteWell el => exact h.deleteWell hid
  | queryWell uid => exact h.queryWell hid
  | addWellbore el => exact h.addWellbore hid.2 hun
  | deleteWellbore el => exact h.deleteWellbore hun
  | queryWellbore uidWell uid => exact h.queryWellbore hid
  | addLog el => exact h.addLog hid.2.2 hun
  | deleteLog el => exact h.deleteLog el
  | queryLog q => exact h.queryLog hid
  | addMudLog el => exact h.addMudLog hid.2.2
  | deleteMudLog el => exact h.deleteMudLog el
  | queryMudLog q => exact h.queryMudLog hid

end Steps

/-! ## 6. Runs

A run begins with an empty store and empty maps. -/

/-- An empty store. -/
def emptyStore (maxRequestLatestValues : ℤ) : ObjectStore where
  wells := []
  wellbores := []
  logs := []
  logsDistinct := nodup_keys_nil
  maxRequestLatestValues := maxRequestLatestValues

/-- **The store behaves like four finite maps** along every run whose requests carry their
identities and are unambiguous: the replies are those of the maps, and in the end the store holds
what the maps do.

The requests themselves are arbitrary.  A log may ship any rows, and a query may ask for any part
of them; what a log answers about itself is the same function on both sides, and the maps say which
log is asked. -/
theorem replies_eq_maps (maxLatest : ℤ) {rs : List ObjectRequest}
    (hrun : Along (fun s r => r.Identified ∧ Unambiguous s r) ObjectStore.step
      (emptyStore maxLatest) rs) :
    replies ObjectStore.step (emptyStore maxLatest) rs =
        replies (Objects.step maxLatest) Objects.empty rs ∧
      Simulates maxLatest (stateAfter ObjectStore.step (emptyStore maxLatest) rs)
        (stateAfter (Objects.step maxLatest) Objects.empty rs) := by
  have hempty : Simulates maxLatest (emptyStore maxLatest) Objects.empty :=
    ⟨Represents.empty, Represents.empty, Represents.empty, Represents.empty, rfl⟩
  exact replies_eq_of_simulation (fun s m r h hr => h.step hr.1 hr.2) hempty hrun

def wellboreElem (uidWell uid : Str) : WellboreElem := { uid := some uid, uidWell := some uidWell }

/-- A time log of one line. -/
def timeLogElem (line : Str) : LogElem :=
  { uid := some "L".toList, uidWell := some "W".toList, uidWellbore := some "B".toList
    indexType := some "date time".toList
    logData := some ⟨some "TIME,ROP".toList, none, [some line]⟩ }

/-- Objects of three kinds, one of them added twice, deleted and added again. -/
def addAndDelete : List ObjectRequest :=
  [.addWell { uid := some "W".toList }, .addWellbore (wellboreElem "W".toList "B".toList),
    .addLog (timeLogElem "2024-01-01T00:00:00Z,1".toList),
    .addLog (timeLogElem "2024-01-01T00:00:00Z,2".toList),
    .deleteLog (timeLogElem []), .deleteLog (timeLogElem []),
    .addLog (timeLogElem "2024-01-01T00:00:00Z,3".toList),
    .addMudLog ⟨some "L".toList, some "W".toList, some "B".toList, none, none, none, none, []⟩]

theorem replies_eq_maps_addAndDelete :
    replies ObjectStore.step (emptyStore 10000) addAndDelete =
        [.code 1, .code 1, .code 1, .code (-405), .code 1, .code (-411), .code 1, .code 1] ∧
      replies ObjectStore.step (emptyStore 10000) addAndDelete =
        replies (Objects.step 10000) Objects.empty addAndDelete :=
  ⟨by decide +kernel, (replies_eq_maps 10000 (by decide +kernel)).1⟩

/-- Two wellbores of one text. -/
def sharedText : List ObjectRequest :=
  [.addWellbore (wellboreElem "W/1".toList "B".toList),
    .addWellbore (wellboreElem "W".toList "1/B".toList),
    .deleteWellbore (wellboreElem "W".toList "1/B".toList),
    .queryWellbore "W/1".toList "B".toList]

/-- A log whose first line is in the year 0, in UTC. -/
def yearZero : List ObjectRequest := [.addLog (timeLogElem "0001-01-01T00:00:00+05:00,1".toList)]

/-- **The store is not four maps**: of two wellbores of one text it refuses the second one, and
deletes the first one in its place; and a log whose first instant is too early raises. -/
theorem replies_ne_maps :
    ((∀ r ∈ sharedText, r.Identified) ∧
      replies ObjectStore.step (emptyStore 10000) sharedText =
        [.code 1, .code (-405), .code 1, .wellbores (1, [])] ∧
      replies (Objects.step 10000) Objects.empty sharedText = [.code 1, .code 1, .code 1,
        .wellbores (1, [wellboreElem "W/1".toList "B".toList])]) ∧
    (∀ r ∈ yearZero, r.Identified) ∧
      replies ObjectStore.step (emptyStore 10000) yearZero = [.raised .overflowError] ∧
      replies (Objects.step 10000) Objects.empty yearZero = [.code 1] := by
  decide +kernel

end WitsmlViewer

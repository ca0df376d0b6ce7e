/-
# Ingestion across restarts

The engine with its database.  A completed call opens a transaction for its samples
(`_persist_samples`), which is committed or fails; the cursors are saved from time to time
(`_snapshot_index_state`); a restart begins with an empty warm store and the cursors that were
saved (`_load_index_snapshot`).  A snapshot is taken at the end of a tick, when no transaction is
open, but also on `stop`, which does not wait for tasks that have been created and not gathered
yet.

Two things are shown of them here: what the table holds of a log is what its transactions had
(`Database.data_persistSamples`); and what a restart restores of a log is the state that the last
snapshot of it saved (`CacheOf.snapshot`, `restored_restarted`).

Both are about one step.  What follows for runs is an account of readings, and that account is a
general thing; it is kept in `Lib/Checkpoints`, and `Durability` draws it up for the plant.

The two halves meet nowhere in the code.  The samples go into one table under one transaction, the
cursors into another under another, and nothing orders the two commits.  A crash between them is
therefore an event of the machine like any other, and so is a failure of either.
-/
import WitsmlViewer.ExactlyOnce
import WitsmlViewer.ReadPaths
import WitsmlViewer.Snapshots

namespace WitsmlViewer

open Py

/-! ## 1. The machine

The state is the engine's, the database, and the transactions that are in flight between the two.
An event of the plant is an event of the engine or of the database; the database's come at any
time, so the machine has every interleaving that the event loop and the driver can produce, and
some more. -/

/-- An open transaction of `_persist_samples`; the cursors may have been saved since it was opened. -/
structure Persist where
  header : LogHeader
  state : LogState
  samples : List CurveSample
  saved : Bool

/-- The transactions that an event opens: those of the completed calls with samples.  A call
without new samples returns before it asks for a session. -/
def Engine.opened (s s' : Engine) : Engine.Event → List Persist
  | .answer key => match s.calls key with
    | none => []
    | some f => ((s'.completed.drop s.completed.length).filter (·.samples ≠ [])).map fun c =>
        ⟨f.task.header, f.task.state, c.samples, false⟩
  | _ => []

/-- What the deployment decides: whether the driver keeps the zone of an instant, and which rows
the columns of the index cache can hold.  SQLite, which the configuration starts with, does not
keep zones (a comment in `polling` says so), and `database_url` may name another; so neither is
assumed. -/
structure Deployment where
  keepsZone : Bool
  takes : IndexCacheSnapshot → Bool

/-- The engine, its database, and the transactions between them.  `lost` are the transactions that
have failed, and those that were open in a process that has ended, with their cursor saved; it is a
record for the statements, which no step reads. -/
structure Plant where
  engine : Engine
  db : Database
  waiting : List Persist
  lost : List Persist
  restarts : ℕ

namespace Plant

/-- `commit` and `fail` end the transaction with this number; a cancelled task fails.  A crash is a
`restart` at any moment. -/
inductive Event
  | engine (e : Engine.Event)
  | commit (i : ℕ)
  | fail (i : ℕ)
  | snapshot
  | restart (loaded : Bool)

/-- The call of a log ends with its transaction, and there is only one at a time. -/
def busy (serverId : ℤ) (s : Plant) : Engine.Event → Bool
  | .begin h => s.waiting.any fun p => headerKey serverId p.header = headerKey serverId h
  | _ => false

/-- `_load_index_snapshot` into a new store; an exception of it is logged, and nothing is loaded. -/
def restarted (cfg : Settings) (dep : Deployment) (serverId : ℤ) (db : Database) (loaded : Bool) :
    RingBufferStore :=
  if loaded then loadIndexSnapshot dep.keepsZone serverId db (.init cfg.maxSamplesPerCurve)
  else .init cfg.maxSamplesPerCurve

/-- The cursors of a snapshot are read at once; one that cannot be committed is logged.  The same
goes for a transaction: `fail` ends it, and the engine, which has moved the cursor already, is not
told. -/
def next (cfg : Settings) (dep : Deployment) (serverId : ℤ) (s : Plant) : Event → Option Plant
  | .engine e => if s.busy serverId e then none
    else (s.engine.next cfg serverId e).map fun engine => { s with
      engine := engine
      waiting := s.waiting ++ s.engine.opened engine e }
  | .commit i => s.waiting[i]?.map fun p => { s with
      db := s.db.persistSamples serverId p.header p.state p.samples
      waiting := s.waiting.eraseIdx i }
  | .fail i => s.waiting[i]?.map fun p => { s with
      waiting := s.waiting.eraseIdx i
      lost := s.lost ++ [p] }
  | .snapshot => some <| match snapshotIndexState dep.takes serverId s.db
        (s.engine.warm.logStates.map Prod.snd) with
    | none => s
    | some db => { s with
        db := db
        waiting := s.waiting.map fun p => { p with saved := true } }
  | .restart loaded => some { s with
      engine := { s.engine with
        warm := restarted cfg dep serverId s.db loaded
        calls := fun _ => none }
      waiting := []
      lost := s.lost ++ s.waiting.filter (·.saved)
      restarts := s.restarts + 1 }

/-- The first start, with an empty database. -/
def start (cfg : Settings) (server : MockStore) : Plant :=
  ⟨Engine.idle server (.init cfg.maxSamplesPerCurve), ⟨[], []⟩, [], [], 0⟩

end Plant

/-! ## 2. The readings of a log, wherever they are

A reading is what the table can be asked for: a mnemonic, an index and a value.  The table has no
key over these, so the same reading can be in it twice, and the account is a multiset.  That is the
point of the exercise: "exactly once" is an equation between multisets, with sums on the one side
for the table, the open transactions and the lost ones. -/

/-- (mnemonic, index, value or text). -/
abbrev Datum := Str × Value × Option Float64 × Option Str

/-- The log that a row belongs to. -/
def CurveSampleRow.logKey (r : CurveSampleRow) : LogKey :=
  ⟨r.serverId, r.wellUid, r.wellboreUid, r.logUid⟩

/-- The readings of a log that the table holds. -/
def Database.data (db : Database) (key : LogKey) : Multiset Datum :=
  (db.curveSamples.filter (·.logKey = key)).map fun r => (rowToSample r).datum

/-- The readings of a log in some transactions. -/
def persistData (serverId : ℤ) (key : LogKey) (ps : List Persist) : Multiset Datum :=
  (ps.filter fun p => headerKey serverId p.header = key).flatMap fun p => p.samples.map CurveSample.datum

/-- The readings of some rows. -/
def StoredLog.data (log : StoredLog) (es : List Entry) : Multiset Datum := es.flatMap log.readings

section Data

variable {serverId : ℤ} {key : LogKey} {log : StoredLog}

theorem persistData_append (ps qs : List Persist) :
    persistData serverId key (ps ++ qs) = persistData serverId key ps + persistData serverId key qs := by
  rw [persistData, List.filter_append, List.flatMap_append]
  rfl

/-- The order in which they were opened is not part of the account. -/
theorem persistData_perm {ps qs : List Persist} (h : ps.Perm qs) :
    persistData serverId key ps = persistData serverId key qs :=
  Multiset.coe_eq_coe.mpr ((h.filter _).flatMap_right _)

/-- Those among the open transactions whose cursor has been saved, or has not. -/
def openData (serverId : ℤ) (key : LogKey) (saved : Bool) (ps : List Persist) : Multiset Datum :=
  persistData serverId key (ps.filter (·.saved == saved))

theorem openData_append (saved : Bool) (ps qs : List Persist) :
    openData serverId key saved (ps ++ qs) =
      openData serverId key saved ps + openData serverId key saved qs := by
  rw [openData, List.filter_append, persistData_append]
  rfl

/-- Together they are all. -/
theorem openData_add (ps : List Persist) :
    openData serverId key false ps + openData serverId key true ps = persistData serverId key ps := by
  rw [openData, openData, ← persistData_append]
  refine persistData_perm ?_
  have hnot : (fun p : Persist => p.saved == true) = fun p => !(p.saved == false) := by
    funext p
    cases p.saved <;> rfl
  rw [hnot]
  exact List.filter_append_perm _ _

/-- The transaction that is taken out. -/
theorem openData_eraseIdx {ps : List Persist} {i : ℕ} {p : Persist} (h : ps[i]? = some p)
    (saved : Bool) : openData serverId key saved ps =
      openData serverId key saved [p] + openData serverId key saved (ps.eraseIdx i) := by
  obtain ⟨hi, rfl⟩ := List.getElem?_eq_some_iff.mp h
  rw [← openData_append, List.singleton_append]
  exact (persistData_perm ((List.getElem_cons_eraseIdx_perm hi).filter _)).symm

/-- Of new transactions none is exposed. -/
theorem openData_fresh (serverId : ℤ) (key : LogKey) {ps : List Persist} (h : ∀ p ∈ ps, p.saved = false) :
    openData serverId key false ps = persistData serverId key ps ∧
      openData serverId key true ps = 0 := by
  constructor
  · rw [openData, List.filter_eq_self.mpr fun p hp => by simp [h p hp]]
  · rw [openData, List.filter_eq_nil_iff.mpr fun p hp => by simp [h p hp]]
    rfl

/-- A snapshot exposes them all. -/
theorem openData_saved (serverId : ℤ) (key : LogKey) (ps : List Persist) :
    openData serverId key false (ps.map fun p => { p with saved := true }) = 0 ∧
      openData serverId key true (ps.map fun p => { p with saved := true }) =
        openData serverId key false ps + openData serverId key true ps := by
  rw [openData_add]
  constructor
  · simp [openData, persistData]
  · simp [openData, persistData, List.filter_map, List.flatMap_map, Function.comp_def]

/-- The transactions of another log hold nothing of this one. -/
theorem persistData_of_ne {p : Persist} (h : headerKey serverId p.header ≠ key) :
    persistData serverId key [p] = 0 := by
  simp [persistData, h]

/-- More rows, more readings. -/
theorem StoredLog.data_mono {es fs : List Entry} (h : es.Subperm fs) : log.data es ≤ log.data fs := by
  obtain ⟨es', hperm, hsub⟩ := h
  exact Multiset.coe_le.mpr ⟨_, hperm.flatMap_right _, hsub.flatMap _⟩

/-- The samples of a transaction come back from its rows as they are, if their indices are of the
log's kind. -/
structure Persist.Of (h : LogHeader) (t : IndexType) (p : Persist) : Prop where
  header : p.header = h
  indexType : p.state.indexType = t
  orders : ∀ x ∈ p.samples, x.index.Orders t

/-- A sample comes back from its row. -/
theorem rowToSample_sampleRow {h : LogHeader} {state : LogState} {x : CurveSample}
    (hx : x.index.Orders state.indexType) : rowToSample (sampleRow serverId h state x) = x := by
  obtain ⟨mnemonic, index, value, text, uom⟩ := x
  simp only [rowToSample, sampleRow, indexColumns]
  cases index with
  | num y => simp [show state.indexType.isTime = false from hx.1, asFloat]
  | text w => exact hx.elim
  | dt d => simp [show state.indexType.isTime = true from hx.1, asDatetime]

/-- A reading is the same before and after it has been written. -/
theorem datum_sampleRow {h : LogHeader} {state : LogState} {x : CurveSample}
    (hx : x.index.Orders state.indexType) :
    (rowToSample (sampleRow serverId h state x)).datum = x.datum := by
  rw [rowToSample_sampleRow hx]

/-- **A commit puts the samples of a transaction into the table.**  It adds one row for each
sample, and the row gives the sample's reading back: the kind of the index decides the column, and
the samples of a call have indices of the log's kind. -/
theorem Database.data_persistSamples (db : Database) {p : Persist} {h : LogHeader} {t : IndexType}
    (hp : headerKey serverId p.header = key → p.Of h t) :
    (db.persistSamples serverId p.header p.state p.samples).data key =
      db.data key + persistData serverId key [p] := by
  have hrows : ∀ x, (sampleRow serverId p.header p.state x).logKey = headerKey serverId p.header :=
    fun x => rfl
  rw [data, persistSamples, List.filter_append, List.map_append]
  by_cases hkey : headerKey serverId p.header = key
  · have hof := hp hkey
    have hall : (p.samples.map (sampleRow serverId p.header p.state)).filter
        (fun r => decide (r.logKey = key)) = p.samples.map (sampleRow serverId p.header p.state) := by
      refine List.filter_eq_self.mpr fun r hr => ?_
      obtain ⟨x, -, rfl⟩ := List.mem_map.mp hr
      rw [hrows, hkey]
      exact decide_eq_true rfl
    have hdata : (p.samples.map (sampleRow serverId p.header p.state)).map
        (fun r => (rowToSample r).datum) = p.samples.map CurveSample.datum := by
      rw [List.map_map]
      refine List.map_congr_left fun x hx => datum_sampleRow ?_
      rw [hof.indexType]
      exact hof.orders x hx
    rw [hall, hdata]
    simp [persistData, hkey, data]
  · have hnone : (p.samples.map (sampleRow serverId p.header p.state)).filter
        (fun r => decide (r.logKey = key)) = [] := by
      refine List.filter_eq_nil_iff.mpr fun r hr => ?_
      obtain ⟨x, -, rfl⟩ := List.mem_map.mp hr
      rw [hrows]
      simpa using hkey
    rw [hnone, persistData_of_ne hkey]
    simp [data]

end Data

/-! ## 3. The rows of a log in the index cache

The cache has a row for each curve of a log, and each carries the cursor of the whole log.  A
restart reads one of them and takes it for all.  `CacheOf` is what makes this right: the rows of a
log agree, and the next snapshot overwrites every one of them, so that no stale row can be the one
that is read. -/

/-- The rows of a log. -/
def Database.cached (db : Database) (key : LogKey) : List IndexCacheSnapshot :=
  db.indexCache.filter (·.logKey = key)

/-- The cursor that a restart finds: that of the first row. -/
def savedCursor (keepsZone : Bool) (t : IndexType) (rows : List IndexCacheSnapshot) : Option Value :=
  rows.head?.bind fun r => cursorFromSnap keepsZone r t

/-- What the rows of a log say of its state: they all have the same cursor, and the next snapshot
writes each of them anew. -/
structure CacheOf (keepsZone : Bool) (serverId : ℤ) (h : LogHeader) (st : LogState)
    (rows : List IndexCacheSnapshot) : Prop where
  direction : ∀ r ∈ rows, r.direction = st.direction.value
  indexType : ∀ r ∈ rows, r.indexType = st.indexType.value
  cursor : ∀ r ∈ rows, cursorFromSnap keepsZone r st.indexType =
    savedCursor keepsZone st.indexType rows
  named : ∀ r ∈ rows, r.mnemonic ∈ savedMnemonics st
  known : ∀ m ∈ savedMnemonics st, m ∈ savedMnemonics (stateFromHeader serverId h)

section Cache

variable {keepsZone : Bool} {serverId : ℤ} {h : LogHeader} {st st' : LogState}
  {rows : List IndexCacheSnapshot} {db after : Database} {states : List LogState}
  {takes : IndexCacheSnapshot → Bool}

/-- It is about what polls never change. -/
theorem CacheOf.of_same (hc : CacheOf keepsZone serverId h st rows) (v : Option Value)
    (growing : Option Bool) :
    CacheOf keepsZone serverId h { st with
      lastIndex := v
      objectGrowing := growing } rows :=
  ⟨hc.direction, hc.indexType, hc.cursor, hc.named, hc.known⟩

/-- A log that has never been saved has no rows, and there is nothing for them to agree on. -/
theorem CacheOf.empty : CacheOf keepsZone serverId h (stateFromHeader serverId h) [] :=
  ⟨by simp, by simp, by simp, by simp, fun _ => id⟩

/-- The rows of a log are those with its key. -/
theorem mem_cached {key : LogKey} {r : IndexCacheSnapshot} :
    r ∈ db.cached key ↔ r ∈ db.indexCache ∧ r.logKey = key := by
  rw [Database.cached, List.mem_filter, decide_eq_true_eq]

/-- A row of a log stands under the key that the log's state gives to its mnemonic. -/
theorem rowKey_of_logKey {r : IndexCacheSnapshot} (hr : r.logKey = st.key) :
    r.key = st.rowKey r.mnemonic := by
  simp only [IndexCacheSnapshot.logKey, LogState.key, LogKey.mk.injEq] at hr
  simp only [IndexCacheSnapshot.key, LogState.rowKey, hr]

/-- A snapshot leaves the rows of a log alone that has no cursor. -/
theorem cached_snapshot_of_none {key : LogKey}
    (hunique : (db.indexCache.map IndexCacheSnapshot.key).Nodup)
    (hkeys : states.Pairwise fun s s' => s.key ≠ s'.key)
    (hnone : ∀ s ∈ states, s.key = key → s.lastIndex = none)
    (hsnap : snapshotIndexState takes serverId db states = some after) :
    after.cached key = db.cached key := by
  obtain ⟨-, rfl⟩ := (snapshotIndexState_eq_some hunique hkeys).mp hsnap
  refine filter_upserts db.indexCache (fun k : ℤ × Str × Str × Str × Str =>
    decide ((⟨k.1, k.2.1, k.2.2.1, k.2.2.2.1⟩ : LogKey) = key)) _ fun r hr => ?_
  obtain ⟨s, hs, hr⟩ := List.mem_flatMap.mp hr
  refine decide_eq_false fun hkey => ?_
  have hlast := hnone s (mem_ownStates.mp hs).1 ((logKey_of_mem_stateRows hr).1.symm.trans hkey)
  obtain ⟨last, hsome, -⟩ := mem_stateRows_iff.mp hr
  exact absurd (hlast.symm.trans hsome) (by simp)

/-- **After a snapshot every row of a log carries its state.**  The new rows do by construction.
An old row does because its mnemonic is among those that the state is saved under, so that the
upsert has hit it. -/
theorem cached_snapshot_row {v : Value}
    (hunique : (db.indexCache.map IndexCacheSnapshot.key).Nodup)
    (hkeys : states.Pairwise fun s s' => s.key ≠ s'.key)
    (hst : st ∈ states) (hserver : st.serverId = serverId) (hlast : st.lastIndex = some v)
    (hnamed : ∀ r ∈ db.cached st.key, r.mnemonic ∈ savedMnemonics st)
    (hsnap : snapshotIndexState takes serverId db states = some after) :
    ∀ r ∈ after.cached st.key, ∃ m ∈ savedMnemonics st, r = snapRow st v m := by
  obtain ⟨hall, rfl⟩ := (snapshotIndexState_eq_some hunique hkeys).mp hsnap
  have hown := pairwise_ownStates serverId hkeys
  have hnodup := (nodup_map_key_snapshotTable hunique hown).mpr fun s hs => (hall s hs).2
  have hmem : st ∈ ownStates serverId states := mem_ownStates.mpr ⟨hst, hserver⟩
  intro r hr
  obtain ⟨hr, hkey⟩ := mem_cached.mp hr
  have hrow := rowKey_of_logKey hkey
  by_cases hm : r.mnemonic ∈ savedMnemonics st
  · have hone := filter_snapshotTable hown hnodup hmem hlast hm
    have hin : r ∈ (snapshotTable (ownStates serverId states) db.indexCache).filter
        (fun r' => decide (r'.key = st.rowKey r.mnemonic)) :=
      List.mem_filter.mpr ⟨hr, decide_eq_true hrow⟩
    rw [hone] at hin
    exact ⟨_, hm, List.mem_singleton.mp hin⟩
  · -- the row has not been written, so it was there before
    have hkept := filter_upserts db.indexCache
      (fun k : ℤ × Str × Str × Str × Str => decide (k = st.rowKey r.mnemonic))
      ((ownStates serverId states).flatMap stateRows) fun x hx => by
        refine decide_eq_false fun heq => hm ?_
        obtain ⟨s, hs, hx⟩ := List.mem_flatMap.mp hx
        obtain ⟨last, -, m, hm', rfl⟩ := mem_stateRows_iff.mp hx
        obtain rfl := state_of_rowKey hown hs hmem heq
        exact rowKey_injective s heq ▸ hm'
    have hin : r ∈ (snapshotTable (ownStates serverId states) db.indexCache).filter
        (fun r' => decide (r'.key = st.rowKey r.mnemonic)) :=
      List.mem_filter.mpr ⟨hr, decide_eq_true hrow⟩
    rw [snapshotTable, hkept] at hin
    exact absurd (hnamed r (mem_cached.mpr ⟨(List.mem_filter.mp hin).1, hkey⟩)) hm

/-- A snapshot drops no row. -/
theorem cached_snapshot_ne_nil {key : LogKey}
    (hunique : (db.indexCache.map IndexCacheSnapshot.key).Nodup)
    (hkeys : states.Pairwise fun s s' => s.key ≠ s'.key)
    (hsnap : snapshotIndexState takes serverId db states = some after)
    (hne : db.cached key ≠ []) : after.cached key ≠ [] := by
  obtain ⟨-, rfl⟩ := (snapshotIndexState_eq_some hunique hkeys).mp hsnap
  obtain ⟨r, hr⟩ := List.exists_mem_of_ne_nil _ hne
  obtain ⟨hr, hkey⟩ := mem_cached.mp hr
  have hin : r.key ∈ (snapshotTable (ownStates serverId states) db.indexCache).map
      IndexCacheSnapshot.key := by
    rw [snapshotTable, map_key_upserts]
    exact List.mem_append_left _ (List.mem_map_of_mem hr)
  obtain ⟨r', hr', heq⟩ := List.mem_map.mp hin
  refine List.ne_nil_of_mem (mem_cached.mpr ⟨hr', ?_⟩)
  simp only [IndexCacheSnapshot.key, Prod.mk.injEq] at heq
  rw [← hkey]
  simp only [IndexCacheSnapshot.logKey, heq]

/-- A cursor that comes back from its columns. -/
theorem cursorFromSnap_snapRow {v : Value} (hv : v.Orders st.indexType)
    (hzone : keepsZone = true ∨ st.indexType.isTime = false) (m : Str) :
    cursorFromSnap keepsZone (snapRow st v m) st.indexType = some v := by
  cases v with
  | num x =>
    simp [cursorFromSnap, snapRow, indexColumns, asFloat, hv.1]
  | text w => exact hv.elim
  | dt d =>
    obtain ⟨htime, haware⟩ := hv
    have hkeeps : keepsZone = true := hzone.resolve_right (by simp [htime])
    simp [cursorFromSnap, snapRow, indexColumns, asDatetime, htime, hkeeps]

/-- **A snapshot saves the cursor of a log, or leaves its rows alone.**  The second happens where
the log has no cursor yet.  There is no third case, in which some rows are renewed and some are
not; that is what `CacheOf` asks to be told. -/
theorem CacheOf.snapshot {v : Value} (hc : CacheOf keepsZone serverId h st (db.cached st.key))
    (hunique : (db.indexCache.map IndexCacheSnapshot.key).Nodup)
    (hkeys : states.Pairwise fun s s' => s.key ≠ s'.key)
    (hst : st ∈ states) (hserver : st.serverId = serverId) (hlast : st.lastIndex = some v)
    (hv : v.Orders st.indexType) (hzone : keepsZone = true ∨ st.indexType.isTime = false)
    (hsnap : snapshotIndexState takes serverId db states = some after) :
    CacheOf keepsZone serverId h st (after.cached st.key) ∧
      (savedCursor keepsZone st.indexType (after.cached st.key) = st.lastIndex ∨
        savedCursor keepsZone st.indexType (after.cached st.key) =
          savedCursor keepsZone st.indexType (db.cached st.key)) := by
  have hrow := cached_snapshot_row hunique hkeys hst hserver hlast hc.named hsnap
  have hcursor : ∀ r ∈ after.cached st.key,
      cursorFromSnap keepsZone r st.indexType = some v := by
    intro r hr
    obtain ⟨m, -, rfl⟩ := hrow r hr
    exact cursorFromSnap_snapRow hv hzone m
  have hsaved : after.cached st.key ≠ [] →
      savedCursor keepsZone st.indexType (after.cached st.key) = some v := by
    intro hne
    obtain ⟨r, rest, heq⟩ := List.exists_cons_of_ne_nil hne
    rw [heq, savedCursor, List.head?_cons, Option.bind_some]
    exact hcursor r (heq ▸ List.mem_cons_self)
  refine ⟨⟨?_, ?_, ?_, ?_, hc.known⟩, ?_⟩
  · intro r hr
    obtain ⟨m, -, rfl⟩ := hrow r hr
    rfl
  · intro r hr
    obtain ⟨m, -, rfl⟩ := hrow r hr
    rfl
  · intro r hr
    rw [hcursor r hr, hsaved (List.ne_nil_of_mem hr)]
  · intro r hr
    obtain ⟨m, hm, rfl⟩ := hrow r hr
    exact hm
  · by_cases hnil : after.cached st.key = []
    · have hold : db.cached st.key = [] := by
        by_contra hne
        exact cached_snapshot_ne_nil hunique hkeys hsnap hne hnil
      rw [hnil, hold]
      exact Or.inr rfl
    · rw [hsaved hnil, hlast]
      exact Or.inl rfl

end Cache

/-! ## 4. A restart

A restart goes through the rows of the cache, log by log.  A log that has rows gets a state from
them; one that has none gets its state when it is discovered, from its header.  `Restored` is what
the two have in common, and what the account of `Durability` needs of a restart.

The states stay keyed all the while, each under its own key, which the dictionary of the warm store
has from its type and the list that models it has from `StatesKeyed`. -/

/-- The states of a warm store: each under its own key, and no two under one. -/
structure RingBufferStore.StatesKeyed (warm : RingBufferStore) : Prop where
  distinct : Dict.Distinct warm.logStates
  own : ∀ e ∈ warm.logStates, e.2.key = e.1

section Restart

variable {cfg : Settings} {dep : Deployment} {serverId : ℤ} {h : LogHeader} {db : Database}
  {warm : RingBufferStore} {st : LogState} {loaded : Bool}

theorem eq_of_beq_logKey (a b : LogKey) (hab : (a == b) = true) : a = b := eq_of_beq hab

theorem RingBufferStore.StatesKeyed.init (n : ℕ) : (RingBufferStore.init n).StatesKeyed :=
  ⟨Dict.distinct_nil, by simp [RingBufferStore.init]⟩

theorem RingBufferStore.StatesKeyed.put (hw : warm.StatesKeyed) (st : LogState) :
    (warm.putLogState st).StatesKeyed := by
  refine ⟨Dict.distinct_set hw.distinct, fun e he => ?_⟩
  rcases Dict.mem_of_mem_set eq_of_beq_logKey hw.distinct he with rfl | ⟨he, -⟩
  · rfl
  · exact hw.own e he

/-- What is found under a key has that key. -/
theorem RingBufferStore.StatesKeyed.get (hw : warm.StatesKeyed) {key : LogKey}
    (hget : warm.getLogState key = some st) :
    st.key = key ∧ st ∈ warm.logStates.map Prod.snd := by
  have hmem := Dict.get?_mem eq_of_beq_logKey hget
  exact ⟨hw.own _ hmem, List.mem_map_of_mem hmem⟩

/-- The state of a key is the one that is found under it. -/
theorem RingBufferStore.StatesKeyed.getLogState (hw : warm.StatesKeyed)
    (hst : st ∈ warm.logStates.map Prod.snd) : warm.getLogState st.key = some st := by
  obtain ⟨⟨key, st'⟩, he, rfl⟩ := List.mem_map.mp hst
  obtain rfl : st'.key = key := hw.own _ he
  exact Dict.get?_of_mem eq_of_beq_logKey (beq_self_eq_true _) hw.distinct he

theorem RingBufferStore.StatesKeyed.pairwise (hw : warm.StatesKeyed) :
    (warm.logStates.map Prod.snd).Pairwise fun s s' => s.key ≠ s'.key := by
  refine List.pairwise_map.mpr (hw.distinct.imp_of_mem fun {a b} ha hb hab heq => ?_)
  rw [hw.own a ha, hw.own b hb] at heq
  simp [heq] at hab

/-- The warm store of a restart is keyed. -/
theorem statesKeyed_restarted : (Plant.restarted cfg dep serverId db loaded).StatesKeyed := by
  rw [Plant.restarted]
  split
  · refine List.foldlRecOn _ _ (.init _) fun warm hw entry _ => ?_
    split
    · exact hw
    · exact hw.put _
  · exact .init _

/-- The rows of a log, as they are loaded. -/
theorem filter_filter_cached (db : Database) {key : LogKey} (hserver : key.serverId = serverId) :
    (db.indexCache.filter fun r => decide (r.serverId = serverId)).filter
      (fun r => decide (r.logKey = key)) = db.cached key := by
  rw [List.filter_filter, Database.cached]
  refine List.filter_congr fun r _ => ?_
  rw [Bool.eq_iff_iff, Bool.and_eq_true, decide_eq_true_eq, decide_eq_true_eq]
  exact and_iff_left_of_imp fun hr => by rw [← hserver, ← hr]; rfl

/-- A restored state is saved under the mnemonics of its rows, or under the index mnemonic alone. -/
theorem savedMnemonics_restored {keepsZone : Bool} {key : LogKey} {head : IndexCacheSnapshot}
    {group : List IndexCacheSnapshot} {m : Str} (hne : group ≠ []) :
    m ∈ savedMnemonics (restoredState keepsZone key head group) ↔
      m ≠ [] ∧ ∃ r ∈ group, r.mnemonic = m := by
  obtain ⟨r, rest, heq⟩ := List.exists_cons_of_ne_nil hne
  have hsome : sortedSet (group.map IndexCacheSnapshot.mnemonic) ≠ [] := by
    refine List.ne_nil_of_mem (mem_sortedSet.mpr (List.mem_map_of_mem (f := IndexCacheSnapshot.mnemonic)
      (a := r) ?_))
    rw [heq]
    exact List.mem_cons_self
  simp only [savedMnemonics, restoredState, hsome, if_false, List.mem_filter, mem_sortedSet,
    List.mem_map, decide_eq_true_eq]
  exact and_comm

/-- What a restart makes of a log: its state is of the same kind, it continues from the saved cursor,
and it is saved under the same mnemonics. -/
structure Restored (cfg : Settings) (dep : Deployment) (serverId : ℤ) (h : LogHeader) (db : Database)
    (loaded : Bool) (st : LogState) : Prop where
  key : st.key = headerKey serverId h
  indexType : st.indexType = h.indexType
  direction : st.direction = h.direction
  lastIndex : st.lastIndex = if loaded then
    savedCursor dep.keepsZone h.indexType (db.cached (headerKey serverId h)) else none
  cache : CacheOf dep.keepsZone serverId h st (db.cached (headerKey serverId h))

/-- **A restart restores a log**, from its rows or from its header.  The kind and the direction
come from the header in both cases.  Only the cursor differs: it is the saved one where there are
rows, and none otherwise. -/
theorem restored_restarted (htype : st.indexType = h.indexType) (hdir : st.direction = h.direction)
    (hc : CacheOf dep.keepsZone serverId h st (db.cached (headerKey serverId h))) :
    Restored cfg dep serverId h db loaded
      (pollState serverId h (Plant.restarted cfg dep serverId db loaded)) := by
  have hfresh : ∀ warm : RingBufferStore, warm.getLogState (headerKey serverId h) = none →
      pollState serverId h warm = stateFromHeader serverId h := fun warm hnone => by
    rw [pollState, hnone, Option.getD_none]
  have hcache : CacheOf dep.keepsZone serverId h (stateFromHeader serverId h)
      (db.cached (headerKey serverId h)) := by
    refine ⟨?_, ?_, ?_, fun r hr => hc.known _ (hc.named r hr), fun _ => id⟩
    · rw [show (stateFromHeader serverId h).direction = st.direction from hdir.symm]
      exact hc.direction
    · rw [show (stateFromHeader serverId h).indexType = st.indexType from htype.symm]
      exact hc.indexType
    · rw [show (stateFromHeader serverId h).indexType = st.indexType from htype.symm]
      exact hc.cursor
  rw [Plant.restarted]
  cases loaded with
  | false =>
    rw [if_neg (by simp), hfresh _ rfl]
    exact ⟨rfl, rfl, rfl, rfl, hcache⟩
  | true =>
    have hload := getLogState_loadIndexSnapshot dep.keepsZone serverId db
      (.init cfg.maxSamplesPerCurve) (headerKey serverId h)
    rw [filter_filter_cached db (show (headerKey serverId h).serverId = serverId from rfl)] at hload
    rw [if_pos rfl]
    cases hrows : db.cached (headerKey serverId h) with
    | nil =>
      rw [hrows] at hload
      rw [hfresh _ hload]
      rw [hrows] at hcache
      exact ⟨rfl, rfl, rfl, by simp [savedCursor, stateFromHeader, hrows], by rwa [hrows]⟩
    | cons head rest =>
      rw [hrows] at hload
      have hstate : pollState serverId h
          (loadIndexSnapshot dep.keepsZone serverId db (.init cfg.maxSamplesPerCurve)) =
          restoredState dep.keepsZone (headerKey serverId h) head (head :: rest) := by
        rw [pollState, hload, Option.getD_some]
      have hhead : head ∈ db.cached (headerKey serverId h) := hrows ▸ List.mem_cons_self
      have htype' : parseIndexType (some head.indexType) = h.indexType := by
        rw [hc.indexType head hhead, parseIndexType_value, htype]
      have hdir' : (if lower head.direction = "decreasing".toList then Direction.decreasing
          else .increasing) = h.direction := by
        rw [hc.direction head hhead, lower_direction_value, hdir]
      have hsaved : ∀ m, m ∈ savedMnemonics (restoredState dep.keepsZone (headerKey serverId h) head
          (head :: rest)) ↔ m ≠ [] ∧ ∃ r ∈ db.cached (headerKey serverId h), r.mnemonic = m := by
        intro m
        rw [hrows]
        exact savedMnemonics_restored (List.cons_ne_nil _ _)
      have hnonempty : ∀ m ∈ savedMnemonics st, m ≠ [] := fun m hm => by
        simpa using (List.mem_filter.mp hm).2
      rw [hstate]
      refine ⟨rfl, htype', hdir', ?_, ?_, ?_, ?_, fun r hr => ?_, fun m hm => ?_⟩
      · simp only [restoredState, htype', hrows, if_true, savedCursor, List.head?_cons,
          Option.bind_some]
      · rw [show (restoredState dep.keepsZone (headerKey serverId h) head (head :: rest)).direction =
          st.direction from hdir'.trans hdir.symm]
        exact hc.direction
      · rw [show (restoredState dep.keepsZone (headerKey serverId h) head (head :: rest)).indexType =
          st.indexType from htype'.trans htype.symm]
        exact hc.indexType
      · rw [show (restoredState dep.keepsZone (headerKey serverId h) head (head :: rest)).indexType =
          st.indexType from htype'.trans htype.symm]
        exact hc.cursor
      · exact (hsaved _).mpr ⟨hnonempty _ (hc.named r hr), r, hr, rfl⟩
      · obtain ⟨-, r, hr, rfl⟩ := (hsaved m).mp hm
        exact hc.known _ (hc.named r hr)

end Restart

end WitsmlViewer

/-
# Discovery coverage (`IngestionScheduler.start`, `_tick`, `_discover`)

Wells, wellbores, logs and rows of logs are added to the store while the scheduler starts and ticks.
`start` walks the topology once; a tick walks it again as long as no log has been discovered.  Any
query of a walk may fail, and between two of them the store may grow.

A walk without a failing query finds every log that the store held when it began and that is listed
there, below a wellbore of a well (`discover_covers`).  Nothing that follows takes an entry away, so
the log is covered for good (`walk_covers`).

What a tick after the first discovered log does not do is walk: a log that is added later stays
uncovered, as does one whose well or wellbore failed in the walk that found another log.

The module docstring of the scheduler has the tick loop retry discovery until logs appear, and the
guard in `_tick` does that.  So what is claimed is what one walk covers and that it is never lost
again; `logs_missed` has the logs that no walk covers.

A walk is three nested loops with a query at each level, and the store may grow between any two of
them.  A log that is there when the walk begins is there at every query, so it does not matter at
which moment each query is answered; a log that is added in the meantime may or may not be found,
and nothing is said of it.
-/
import WitsmlViewer.Headers
import WitsmlViewer.Ticks

namespace WitsmlViewer.Discovery

open Py Runs

/-! ## 1. The store grows

Additions never take anything away and never rename.  `Retains` says so, and is all that the later
sections know of the store's growth. -/

/-- Something is written to the store. -/
inductive Addition
  | well (el : WellElem)
  | wellbore (el : WellboreElem)
  | log (el : LogElem)
  | rows (el : LogElem)

/-- The store after an AddToStore, or for rows an UpdateInStore. -/
def Addition.apply (store : MockStore) : Addition → MockStore
  | .well el => (store.addWell (some el)).1
  | .wellbore el => (store.addWellbore (some el)).1
  | .log el => (store.addLog (some el)).1
  | .rows el => (store.updateLog (some el)).1

/-- A store without objects. -/
def emptyStore (maxRequestLatestValues : ℤ) : MockStore :=
  ⟨[], [], [], nodup_keys_nil, maxRequestLatestValues⟩

/-- A log below a wellbore of a well, all three in the store. -/
structure Listed (store : MockStore) (log : StoredLog) : Prop where
  well : ∃ w ∈ store.wells, w.uid = log.uidWell
  wellbore : ∃ wb ∈ store.wellbores, wb.uidWell = log.uidWell ∧ wb.uid = log.uidWellbore

/-- The stored elements carry the uids that they are stored under. -/
structure Named (store : MockStore) : Prop where
  well : ∀ w ∈ store.wells, w.element.uid.getD [] = w.uid
  wellbore : ∀ wb ∈ store.wellbores, wb.element.uid.getD [] = wb.uid

/-- Nothing of the store is gone, though its logs may have grown. -/
structure Retains (store store' : MockStore) : Prop where
  wells : ∀ w ∈ store.wells, w ∈ store'.wells
  wellbores : ∀ wb ∈ store.wellbores, wb ∈ store'.wellbores
  logs : ∀ log ∈ store.logs, ∃ log' ∈ store'.logs, log'.key = log.key

theorem Retains.refl (store : MockStore) : Retains store store :=
  ⟨fun _ hw => hw, fun _ hwb => hwb, fun log hlog => ⟨log, hlog, rfl⟩⟩

theorem Retains.trans {s₁ s₂ s₃ : MockStore} (h : Retains s₁ s₂) (h' : Retains s₂ s₃) :
    Retains s₁ s₃ := by
  refine ⟨fun w hw => h'.wells w (h.wells w hw), fun wb hwb => h'.wellbores wb (h.wellbores wb hwb),
    fun log hlog => ?_⟩
  obtain ⟨log', hlog', hkey⟩ := h.logs log hlog
  obtain ⟨log'', hlog'', hkey'⟩ := h'.logs log' hlog'
  exact ⟨log'', hlog'', hkey'.trans hkey⟩

/-- **What an addition does**: it takes nothing away, and adds elements under their own uids. -/
theorem apply_spec (store : MockStore) (a : Addition) :
    Retains store (a.apply store) ∧ (Named store → Named (a.apply store)) := by
  cases a with
  | well el =>
    simp only [Addition.apply, MockStore.addWell]
    split
    · exact ⟨.refl store, id⟩
    · split
      · exact ⟨.refl store, id⟩
      · refine ⟨⟨fun w hw => by simp [hw], fun _ hwb => hwb, fun log hlog => ⟨log, hlog, rfl⟩⟩,
          fun h => ⟨fun w hw => ?_, h.wellbore⟩⟩
        rcases List.mem_append.mp hw with hw | hw
        · exact h.well w hw
        · rw [List.mem_singleton.mp hw]
  | wellbore el =>
    simp only [Addition.apply, MockStore.addWellbore]
    split
    · exact ⟨.refl store, id⟩
    · split
      · exact ⟨.refl store, id⟩
      · refine ⟨⟨fun _ hw => hw, fun wb hwb => by simp [hwb], fun log hlog => ⟨log, hlog, rfl⟩⟩,
          fun h => ⟨h.well, fun wb hwb => ?_⟩⟩
        rcases List.mem_append.mp hwb with hwb | hwb
        · exact h.wellbore wb hwb
        · rw [List.mem_singleton.mp hwb]
  | log el =>
    simp only [Addition.apply, MockStore.addLog]
    split
    · exact ⟨.refl store, id⟩
    · split
      · exact ⟨.refl store, id⟩
      · split
        · exact ⟨.refl store, id⟩
        · exact ⟨⟨fun _ hw => hw, fun _ hwb => hwb, fun log hlog => ⟨log, by simp [hlog], rfl⟩⟩,
            fun h => ⟨h.well, h.wellbore⟩⟩
  | rows el =>
    have hkeys : (store.updateLog (some el)).1.logs.map StoredLog.key =
        store.logs.map StoredLog.key := MockStore.updateLog_keys el
    simp only [Addition.apply]
    have hsame : (store.updateLog (some el)).1.wells = store.wells ∧
        (store.updateLog (some el)).1.wellbores = store.wellbores := by
      simp only [MockStore.updateLog]
      split <;> exact ⟨rfl, rfl⟩
    refine ⟨⟨fun w hw => by rwa [hsame.1], fun wb hwb => by rwa [hsame.2], fun log hlog => ?_⟩,
      fun h => ⟨by rw [hsame.1]; exact h.well, by rw [hsame.2]; exact h.wellbore⟩⟩
    have hmem : log.key ∈ (store.updateLog (some el)).1.logs.map StoredLog.key := by
      rw [hkeys]
      exact List.mem_map_of_mem hlog
    obtain ⟨log', hlog', hkey⟩ := List.mem_map.mp hmem
    exact ⟨log', hlog', hkey⟩

/-- The store after some additions. -/
def grown (store : MockStore) (as : List Addition) : MockStore := as.foldl Addition.apply store

/-- After any additions nothing is gone, and elements are under their own uids. -/
theorem grown_spec (as : List Addition) : ∀ store : MockStore,
    Retains store (grown store as) ∧ (Named store → Named (grown store as)) := by
  induction as with
  | nil => exact fun store => ⟨.refl store, id⟩
  | cons a as ih =>
    intro store
    obtain ⟨hretains, hnamed⟩ := apply_spec store a
    obtain ⟨hretains', hnamed'⟩ := ih (a.apply store)
    exact ⟨hretains.trans hretains', fun h => hnamed' (hnamed h)⟩

/-! ## 2. A walk

A walk only ever adds headers and states.  So each stage of it is later than the one before
(`Later`), and to show that it covers a log it is enough to find the one stage that records its
header. -/

/-- What is written to the store before the `n`-th query of a walk, and whether that query fails. -/
structure Surroundings where
  added : ℕ → List Addition
  fault : ℕ → Option PyError

namespace Surroundings

variable (sur : Surroundings)

/-- The store that the `n`-th query finds. -/
def storeAt (store : MockStore) (n : ℕ) : MockStore :=
  grown store ((List.range (n + 1)).flatMap sur.added)

/-- What the queries of a walk find. -/
def env (store : MockStore) : QueryEnv := ⟨sur.storeAt store, sur.fault⟩

end Surroundings

/-- What `_headers` and the log states hold of a log. -/
structure Covers (serverId : ℤ) (top : Topology) (key : LogKey) : Prop where
  header : ∃ h, top.headers.get? key = some h ∧ headerKey serverId h = key
  state : (top.warm.getLogState key).isSome = true

/-- A later stage of a walk. -/
structure Later (serverId : ℤ) (walk walk' : Walk) : Prop where
  next : walk.next ≤ walk'.next
  covers : ∀ key, Covers serverId walk.top key → Covers serverId walk'.top key

/-- A fold passes every element of its list. -/
theorem foldl_visit {α σ : Type} {f : σ → α → σ} {R : σ → σ → Prop} (hrefl : ∀ s, R s s)
    (htrans : ∀ {s₁ s₂ s₃}, R s₁ s₂ → R s₂ s₃ → R s₁ s₃) (hstep : ∀ s a, R s (f s a)) :
    ∀ (l : List α) (s : σ), R s (l.foldl f s) ∧
      ∀ a ∈ l, ∃ s', R s s' ∧ R (f s' a) (l.foldl f s) := by
  intro l
  induction l with
  | nil => exact fun s => ⟨hrefl s, by simp⟩
  | cons b l ih =>
    intro s
    obtain ⟨hrest, hvisit⟩ := ih (f s b)
    refine ⟨htrans (hstep s b) hrest, fun a ha => ?_⟩
    rcases List.mem_cons.mp ha with rfl | ha
    · exact ⟨s, hrefl s, hrest⟩
    · obtain ⟨s', hs', hfinal⟩ := hvisit a ha
      exact ⟨s', htrans (hstep s b) hs', hfinal⟩

section

variable {serverId : ℤ}

theorem Later.refl (walk : Walk) : Later serverId walk walk := ⟨le_rfl, fun _ h => h⟩

theorem Later.trans {w₁ w₂ w₃ : Walk} (h : Later serverId w₁ w₂) (h' : Later serverId w₂ w₃) :
    Later serverId w₁ w₃ :=
  ⟨h.next.trans h'.next, fun key hkey => h'.covers key (h.covers key hkey)⟩

/-- Only the state of one key changes, and there it becomes present. -/
theorem isSome_putLogState {warm : RingBufferStore} {key : LogKey} (s : LogState)
    (h : (warm.getLogState key).isSome = true) :
    ((warm.putLogState s).getLogState key).isSome = true := by
  rw [RingBufferStore.getLogState_putLogState]
  split
  · rfl
  · exact h

/-- The state of a header is under the header's key. -/
theorem stateFromHeader_key (h : LogHeader) :
    (stateFromHeader serverId h).key = headerKey serverId h := rfl

/-- **Recording a header** covers its log, and keeps what is covered. -/
theorem recordHeader_spec (walk : Walk) (h : LogHeader) :
    Later serverId walk (recordHeader serverId walk h) ∧
      (h.uid ≠ [] → Covers serverId (recordHeader serverId walk h).top (headerKey serverId h)) := by
  unfold recordHeader
  split
  · rename_i huid
    exact ⟨.refl walk, fun hne => absurd huid hne⟩
  · have hheader : ∀ key, (Dict.get? (walk.top.headers.set (headerKey serverId h) h) key) =
        if headerKey serverId h = key then some h else walk.top.headers.get? key :=
      fun key => Dict.get?_set _ key h _
    constructor
    · refine ⟨le_rfl, fun key hkey => ⟨?_, ?_⟩⟩
      · dsimp only
        rw [hheader]
        split
        · rename_i heq
          exact ⟨h, rfl, heq⟩
        · exact hkey.header
      · dsimp only
        split
        · exact isSome_putLogState _ hkey.state
        · exact hkey.state
    · intro _
      refine ⟨⟨h, by rw [hheader, if_pos rfl], rfl⟩, ?_⟩
      dsimp only
      split
      · rw [RingBufferStore.getLogState_putLogState, stateFromHeader_key, if_pos rfl]
        rfl
      · rename_i hstate
        simpa [Option.isSome_iff_ne_none] using hstate

variable (serverId) in
theorem recordHeaders_visit (headers : List LogHeader) (walk : Walk) :
    Later serverId walk (headers.foldl (recordHeader serverId) walk) ∧
      ∀ h ∈ headers, ∃ walk', Later serverId walk walk' ∧
        Later serverId (recordHeader serverId walk' h)
          (headers.foldl (recordHeader serverId) walk) :=
  foldl_visit Later.refl Later.trans (fun walk h => (recordHeader_spec walk h).1) headers walk

variable (serverId) in
/-- The number of the next query does not matter. -/
theorem later_next (walk : Walk) : Later serverId walk { walk with next := walk.next + 1 } :=
  ⟨Nat.le_succ _, fun _ h => h⟩

variable (serverId) in
/-- **A wellbore**: its query comes next, and if it is answered, its headers are recorded. -/
theorem discoverWellbore_spec (env : QueryEnv) (well : Well) (walk : Walk) (wb : Wellbore) :
    let walk' := discoverWellbore serverId env well walk wb
    Later serverId walk walk' ∧ walk.next < walk'.next ∧
      ∀ headers, env.fetchLogHeaders walk.next well.uid wb.uid = .ok headers →
        ∀ h ∈ headers, h.uid ≠ [] → Covers serverId walk'.top (headerKey serverId h) := by
  dsimp only
  unfold discoverWellbore
  have hnext := later_next serverId walk
  cases hfetch : env.fetchLogHeaders walk.next well.uid wb.uid with
  | error e => exact ⟨hnext, Nat.lt_succ_self _, by simp⟩
  | ok headers =>
    obtain ⟨hlater, hvisit⟩ := recordHeaders_visit serverId headers
      { walk with next := walk.next + 1 }
    refine ⟨hnext.trans hlater, hlater.next, fun headers' heq h hh huid => ?_⟩
    obtain rfl := Except.ok.inj heq
    obtain ⟨walk', -, hfinal⟩ := hvisit h hh
    exact hfinal.covers _ ((recordHeader_spec walk' h).2 huid)

variable (serverId) in
theorem wellbores_visit (env : QueryEnv) (well : Well) (wellbores : List Wellbore) (walk : Walk) :
    Later serverId walk (wellbores.foldl (discoverWellbore serverId env well) walk) ∧
      ∀ wb ∈ wellbores, ∃ walk', Later serverId walk walk' ∧
        Later serverId (discoverWellbore serverId env well walk' wb)
          (wellbores.foldl (discoverWellbore serverId env well) walk) :=
  foldl_visit Later.refl Later.trans (fun walk wb => (discoverWellbore_spec serverId env well walk wb).1)
    wellbores walk

variable (serverId) in
/-- **A well**: its query comes next, and if it is answered, its wellbores are visited. -/
theorem discoverWell_spec (env : QueryEnv) (walk : Walk) (well : Well) :
    let walk' := discoverWell serverId env walk well
    Later serverId walk walk' ∧ walk.next < walk'.next ∧
      ∀ wellbores, env.fetchWellbores walk.next well.uid = .ok wellbores →
        ∀ wb ∈ wellbores, ∃ walk₁, Later serverId walk walk₁ ∧
          Later serverId (discoverWellbore serverId env well walk₁ wb) walk' := by
  dsimp only
  unfold discoverWell
  have hnext : Later serverId walk { walk with
      next := walk.next + 1
      top := { walk.top with
        warm := walk.top.warm.setWellMeta well.uid well.name well.region } } :=
    ⟨Nat.le_succ _, fun _ h => ⟨h.header, h.state⟩⟩
  cases hfetch : env.fetchWellbores walk.next well.uid with
  | error e => exact ⟨hnext, Nat.lt_succ_self _, by simp⟩
  | ok wellbores =>
    obtain ⟨hlater, hvisit⟩ := wellbores_visit serverId env well wellbores { walk with
      next := walk.next + 1
      top := { walk.top with
        warm := walk.top.warm.setWellMeta well.uid well.name well.region } }
    refine ⟨hnext.trans hlater, hlater.next, fun wellbores' heq wb hwb => ?_⟩
    obtain rfl := Except.ok.inj heq
    obtain ⟨walk₁, hwalk₁, hfinal⟩ := hvisit wb hwb
    exact ⟨walk₁, hnext.trans hwalk₁, hfinal⟩

variable (serverId) in
theorem wells_visit (env : QueryEnv) (wells : List Well) (walk : Walk) :
    Later serverId walk (wells.foldl (discoverWell serverId env) walk) ∧
      ∀ well ∈ wells, ∃ walk', Later serverId walk walk' ∧
        Later serverId (discoverWell serverId env walk' well)
          (wells.foldl (discoverWell serverId env) walk) :=
  foldl_visit Later.refl Later.trans (fun walk well => (discoverWell_spec serverId env walk well).1) wells walk

/-! ## 3. What the queries answer

A query that does not fail answers with all that the store has.  Of a log it is the header that
comes back, with the log's key; that every stored log's header can be rendered and read is
`header_reads`. -/

/-- A query without a fault is answered by the store that it finds. -/
theorem ask_of_no_fault {α : Type} {env : QueryEnv} {n : ℕ} (h : env.fault n = none)
    (answer : MockStore → Except PyError α) : env.ask n answer = answer (env.store n) := by
  rw [QueryEnv.ask, h]

/-- A stored well is in the answer. -/
theorem mem_fetchWells {env : QueryEnv} {n : ℕ} {w : StoredWell} (hfault : env.fault n = none)
    (hnamed : Named (env.store n)) (hw : w ∈ (env.store n).wells) :
    ∃ wells, env.fetchWells n = .ok wells ∧ ∃ well ∈ wells, well.uid = w.uid := by
  refine ⟨_, ask_of_no_fault hfault _, ?_⟩
  have hmem : w.element ∈ ((env.store n).queryWells []).2 :=
    List.mem_map_of_mem (List.mem_filter.mpr ⟨hw, by simp⟩)
  exact ⟨_, List.mem_map_of_mem hmem, hnamed.well w hw⟩

/-- So is a stored wellbore in that of its well. -/
theorem mem_fetchWellbores {env : QueryEnv} {n : ℕ} {wb : StoredWellbore}
    (hfault : env.fault n = none) (hnamed : Named (env.store n))
    (hwb : wb ∈ (env.store n).wellbores) :
    ∃ wellbores, env.fetchWellbores n wb.uidWell = .ok wellbores ∧
      ∃ wellbore ∈ wellbores, wellbore.uid = wb.uid := by
  refine ⟨_, ask_of_no_fault hfault _, ?_⟩
  have hmem : wb.element ∈ ((env.store n).queryWellbores wb.uidWell []).2 :=
    List.mem_map_of_mem (List.mem_filter.mpr ⟨hwb, by simp⟩)
  exact ⟨_, List.mem_map_of_mem hmem, hnamed.wellbore wb hwb⟩

/-- A log has the key of its header. -/
def logKeyOf (serverId : ℤ) (log : StoredLog) : LogKey :=
  ⟨serverId, log.uidWell, log.uidWellbore, log.uid⟩

variable (serverId) in
/-- And the header of a stored log in that of its wellbore: no header makes the query raise. -/
theorem mem_fetchLogHeaders {env : QueryEnv} {n : ℕ} {log : StoredLog}
    (hfault : env.fault n = none) (hlog : log ∈ (env.store n).logs) :
    ∃ headers, env.fetchLogHeaders n log.uidWell log.uidWellbore = .ok headers ∧
      ∃ h ∈ headers, h.uid = log.uid ∧ headerKey serverId h = logKeyOf serverId log := by
  choose elemOf headerOf hrender hparse hreads using header_reads
  have hrange : ∀ l : StoredLog, queryRange (logHeaderQuery log.uidWell log.uidWellbore)
      l.indexType = .ok (none, none) := by
    intro l
    rw [queryRange]
    split <;> rfl
  have hanswers := mapM_eq_ok
    (l := (env.store n).logs.filter fun l : StoredLog =>
      l.addressedBy (logHeaderQuery log.uidWell log.uidWellbore))
    fun l _ => answer_header (hrender l) rfl (hrange l) (env.store n).maxRequestLatestValues
  have hheaders : env.fetchLogHeaders n log.uidWell log.uidWellbore =
      .ok (((env.store n).logs.filter fun l : StoredLog =>
        l.addressedBy (logHeaderQuery log.uidWell log.uidWellbore)).map headerOf) := by
    refine (ask_of_no_fault hfault _).trans ?_
    rw [MockStore.queryLogs, hanswers]
    simp only [Except.map, bind, Except.bind, parseLogHeaders, List.map_map, List.mapM_map]
    exact mapM_eq_ok fun l _ => hparse l
  obtain ⟨huid, hwell, hwellbore⟩ := (hreads log).uid
  refine ⟨_, hheaders, headerOf log, List.mem_map_of_mem (List.mem_filter.mpr ⟨hlog, ?_⟩), huid, ?_⟩
  · simp [StoredLog.addressedBy, logHeaderQuery]
  · rw [headerKey, hwell, hwellbore, huid]
    rfl

/-! ## 4. A walk without a failing query

The queries of a walk are numbered as they come, and how many there are depends on the answers.
"No failing query" is therefore about the numbers that this walk reaches. -/

/-- The queries that a walk makes, from the first on. -/
def queries (serverId : ℤ) (env : QueryEnv) (top : Topology) : ℕ := (discover serverId env 0 top).1

/-- A walk keeps what is covered. -/
theorem covers_discover {env : QueryEnv} {top : Topology} {key : LogKey}
    (h : Covers serverId top key) : Covers serverId (discover serverId env 0 top).2 key := by
  unfold discover
  split
  · exact h
  · rename_i wells hwells
    have hkept := (wells_visit serverId env wells ⟨1, top, false⟩).1.covers key h
    exact ⟨hkept.header, hkept.state⟩

/-- **A walk without a failing query** covers every log that is listed throughout.  One goes down
to the log: its well is in the first answer, its wellbore in that of the well, and its header in
that of the wellbore; each stage after that keeps it. -/
theorem discover_covers {env : QueryEnv} {top : Topology} {store : MockStore} {log : StoredLog}
    (hfault : ∀ n < queries serverId env top, env.fault n = none)
    (hnamed : ∀ n, Named (env.store n)) (hretains : ∀ n, Retains store (env.store n))
    (hlog : log ∈ store.logs) (hlisted : Listed store log) (huid : log.uid ≠ []) :
    Covers serverId (discover serverId env 0 top).2 (logKeyOf serverId log) := by
  obtain ⟨w, hw, hwuid⟩ := hlisted.well
  obtain ⟨wb, hwb, hwbwell, hwbuid⟩ := hlisted.wellbore
  have hfirst : env.fault 0 = none := by
    refine hfault 0 ?_
    unfold queries discover
    split
    · exact Nat.one_pos
    · rename_i wells _
      exact lt_of_lt_of_le Nat.one_pos
        (wells_visit serverId env wells ⟨1, top, false⟩).1.next
  obtain ⟨wells, hwells, well, hwell, hwelluid⟩ :=
    mem_fetchWells hfirst (hnamed 0) ((hretains 0).wells w hw)
  set final := wells.foldl (discoverWell serverId env) ⟨1, top, false⟩ with hfinal
  have hdiscover : discover serverId env 0 top =
      (final.next, { final.top with discovered := final.top.discovered || final.anyLogs }) := by
    rw [discover, hwells]
  rw [queries, hdiscover] at hfault
  -- the well is visited, in it the wellbore, and in that the log
  obtain ⟨walk, -, hend⟩ := (wells_visit serverId env wells ⟨1, top, false⟩).2 well hwell
  rw [← hfinal] at hend
  obtain ⟨-, hlt, hwellbores⟩ := discoverWell_spec serverId env walk well
  obtain ⟨wellbores, hfetch, wellbore, hmem, hwellboreuid⟩ :=
    mem_fetchWellbores (hfault _ (lt_of_lt_of_le hlt hend.next)) (hnamed _)
      ((hretains walk.next).wellbores wb hwb)
  have hsame : wb.uidWell = well.uid := by rw [hwbwell, hwelluid, hwuid]
  rw [hsame] at hfetch
  obtain ⟨walk₁, -, hend₁⟩ := hwellbores wellbores hfetch wellbore hmem
  obtain ⟨-, hlt₁, hheaders⟩ := discoverWellbore_spec serverId env well walk₁ wellbore
  obtain ⟨log', hlog', hkey⟩ := (hretains walk₁.next).logs log hlog
  have hids : log'.uidWell = log.uidWell ∧ log'.uidWellbore = log.uidWellbore ∧ log'.uid = log.uid := by
    simpa [StoredLog.key] using hkey
  obtain ⟨headers, hfetch₁, h, hh, hhuid, hhkey⟩ := mem_fetchLogHeaders serverId
    (hfault _ (lt_of_lt_of_le hlt₁ (hend₁.next.trans hend.next))) hlog'
  rw [hids.1, hids.2.1, show log.uidWell = well.uid by rw [hwelluid, hwuid],
    show log.uidWellbore = wellbore.uid by rw [hwellboreuid, hwbuid]] at hfetch₁
  have hcovered := hheaders headers hfetch₁ h hh (by rw [hhuid, hids.2.2]; exact huid)
  have hkeyeq : headerKey serverId h = logKeyOf serverId log := by
    rw [hhkey, logKeyOf, hids.1, hids.2.1, hids.2.2]
    rfl
  rw [hkeyeq] at hcovered
  have hlast := hend.covers _ (hend₁.covers _ hcovered)
  rw [hdiscover]
  exact ⟨hlast.header, hlast.state⟩

end

/-! ## 5. Runs

The scheduler among additions.  A start restores states and walks; a tick walks if there are no
headers, and then ingests.  What other events do to the topology is little: states are added and
replaced, and headers only recorded. -/

/-- The server and the scheduler. -/
structure State where
  store : MockStore
  top : Topology

/-- Before anything was added or discovered. -/
def State.fresh (maxRequestLatestValues : ℤ) (maxSamples : ℕ) : State :=
  ⟨emptyStore maxRequestLatestValues, ⟨[], .init maxSamples, false⟩⟩

/-- The ingest tasks of a tick: what they meet, and how they are interleaved. -/
structure Ingest where
  env : Ticks.Environment
  ingestConcurrency : ℕ
  focused : Option Str
  pubsub : Hub.PubSub Stream.Message
  events : List Independence.Event

/-- A start has a database to restore from, if it can be read. -/
inductive Event
  | add (a : Addition)
  | start (database : Option (Bool × Database)) (sur : Surroundings)
  | tick (sur : Surroundings) (ingest : Ingest)

/-- The pool of a tick before its first task is created. -/
def Ingest.pool (ingest : Ingest) (top : Topology) :
    Independence.Pool LogHeader Ticks.World Ticks.Phase :=
  Ticks.tick ingest.focused (top.headers.map Prod.snd) { warm := top.warm, pubsub := ingest.pubsub }

/-- The ingest tasks, run to the end of all. -/
def Ingest.run (serverId : ℤ) (ingest : Ingest) (top : Topology) : Option Topology :=
  let env := { ingest.env with serverId := serverId }
  (replay (Independence.next env.tasks (Ticks.semaphore ingest.ingestConcurrency)) (fun _ _ => true)
    (ingest.pool top) ingest.events).bind fun pool =>
      if pool.pending.isEmpty && pool.tasks.all fun e => (env.step e.1 (pool.shared, e.2)).isNone then
        some { top with warm := pool.shared.warm }
      else none

/-- The topology with what `start` restores. -/
def restored (serverId : ℤ) (top : Topology) : Option (Bool × Database) → Topology
  | none => top
  | some (keepsZone, db) => { top with warm := loadIndexSnapshot keepsZone serverId db top.warm }

/-- The store after the first `n` queries of a walk. -/
def Surroundings.storeAfter (sur : Surroundings) (store : MockStore) (n : ℕ) : MockStore :=
  grown store ((List.range n).flatMap sur.added)

/-- The state after an event, if it can happen. -/
def next (serverId : ℤ) (s : State) : Event → Option State
  | .add a => some { s with store := a.apply s.store }
  | .start database sur =>
    let (n, top) := discover serverId (sur.env s.store) 0 (restored serverId s.top database)
    some ⟨sur.storeAfter s.store n, top⟩
  | .tick sur ingest =>
    let (n, top) := tickDiscovery serverId (sur.env s.store) 0 s.top
    (ingest.run serverId top).map fun top => ⟨sur.storeAfter s.store n, top⟩

/-- The walk that an event makes. -/
def Event.walk (serverId : ℤ) (s : State) : Event → Option (Surroundings × Topology)
  | .add _ => none
  | .start database sur => some (sur, restored serverId s.top database)
  | .tick sur _ => if s.top.discoveryOpen then some (sur, s.top) else none

/-- No query of an event's walk fails. -/
def Event.Quiet (serverId : ℤ) (s : State) (e : Event) : Prop :=
  ∀ walk ∈ e.walk serverId s, ∀ n < queries serverId (walk.1.env s.store) walk.2,
    walk.1.fault n = none

/-- A log is covered, and every further tick has a task for it. -/
structure Polled (serverId : ℤ) (top : Topology) (key : LogKey) : Prop extends
    Covers serverId top key where
  task : ∀ ingest : Ingest, ∃ h ∈ (ingest.pool top).pending, headerKey serverId h = key

section

variable {serverId : ℤ}

/-- A log with a header has a task in every tick. -/
theorem Covers.polled {top : Topology} {key : LogKey} (h : Covers serverId top key) :
    Polled serverId top key := by
  refine ⟨h, fun ingest => ?_⟩
  obtain ⟨header, hget, hkey⟩ := h.header
  refine ⟨header, (Ticks.ordered_perm _ _).mem_iff.mpr (List.mem_map.mpr ⟨(key, header), ?_, rfl⟩), hkey⟩
  exact Dict.get?_mem (fun _ _ => eq_of_beq) hget

/-- Restoring puts states in, and takes none away. -/
theorem covers_restored {top : Topology} {key : LogKey} (h : Covers serverId top key)
    (database : Option (Bool × Database)) : Covers serverId (restored serverId top database) key := by
  cases database with
  | none => exact h
  | some d =>
    refine ⟨h.header, ?_⟩
    refine List.foldlRecOn (motive := fun warm : RingBufferStore =>
      (warm.getLogState key).isSome = true) _ _ h.state fun warm hwarm entry _ => ?_
    split
    · exact hwarm
    · exact isSome_putLogState _ hwarm

/-- The tasks of a tick take no state away either. -/
theorem run_spec {ingest : Ingest} {top top' : Topology} (h : ingest.run serverId top = some top') :
    top'.headers = top.headers ∧
      ∀ key, Covers serverId top key → Covers serverId top' key := by
  obtain ⟨pool, hreplay, hpool⟩ := Option.bind_eq_some_iff.mp h
  split at hpool
  · obtain rfl := Option.some.inj hpool
    refine ⟨rfl, fun key hkey => ⟨hkey.header, ?_⟩⟩
    have hrun := Run.of_replay (C := fun _ _ => True) (fun _ _ _ => trivial) hreplay
    refine hrun.invariant (I := fun pool => (pool.shared.warm.getLogState key).isSome = true)
      (fun pool e pool' hpool _ hnext => ?_) hkey.state
    rcases Independence.shared_of_next hnext with heq | ⟨i, p, p', hstep⟩
    · rwa [heq]
    · obtain ⟨state, rows, hwrites, -⟩ := Ticks.Environment.step_spec _ i hstep
      rw [hwrites.state]
      cases hst : state.filter (LogState.key · = key) with
      | none => simpa using hpool
      | some st => rfl
  · simp at hpool

/-- **An event takes nothing away that is covered.** -/
theorem next_covers {s s' : State} {e : Event} {key : LogKey}
    (hstep : next serverId s e = some s') (h : Covers serverId s.top key) :
    Covers serverId s'.top key := by
  cases e with
  | add a =>
    obtain rfl := Option.some.inj hstep
    exact h
  | start database sur =>
    obtain rfl := Option.some.inj hstep
    exact covers_discover (covers_restored h database)
  | tick sur ingest =>
    obtain ⟨top, hrun, rfl⟩ := Option.map_eq_some_iff.mp hstep
    have htop : Covers serverId (tickDiscovery serverId (sur.env s.store) 0 s.top).2 key := by
      unfold tickDiscovery
      split
      · exact covers_discover h
      · exact h
    exact (run_spec hrun).2 key htop

/-- And it keeps the store's elements under their own uids. -/
theorem next_named {s s' : State} {e : Event} (hstep : next serverId s e = some s')
    (h : Named s.store) : Named s'.store := by
  cases e with
  | add a =>
    obtain rfl := Option.some.inj hstep
    exact (apply_spec s.store a).2 h
  | start database sur =>
    obtain rfl := Option.some.inj hstep
    exact (grown_spec _ s.store).2 h
  | tick sur ingest =>
    obtain ⟨top, -, rfl⟩ := Option.map_eq_some_iff.mp hstep
    exact (grown_spec _ s.store).2 h

/-- An empty store has its elements under their uids. -/
theorem named_fresh (maxRequestLatestValues : ℤ) (maxSamples : ℕ) :
    Named (State.fresh maxRequestLatestValues maxSamples).store :=
  ⟨fun _ hw => absurd hw List.not_mem_nil, fun _ hwb => absurd hwb List.not_mem_nil⟩

/-- The surroundings of a walk let every query find what the store held. -/
theorem env_spec (sur : Surroundings) {store : MockStore} (h : Named store) (n : ℕ) :
    Named ((sur.env store).store n) ∧ Retains store ((sur.env store).store n) :=
  ⟨(grown_spec _ store).2 h, (grown_spec _ store).1⟩

/-- An event that walks without a failing query covers what the store held. -/
theorem next_walk {s s' : State} {e : Event} (hnamed : Named s.store)
    (hstep : next serverId s e = some s') (hwalk : (e.walk serverId s).isSome = true)
    (hquiet : e.Quiet serverId s) {log : StoredLog} (hlog : log ∈ s.store.logs)
    (hlisted : Listed s.store log) (huid : log.uid ≠ []) :
    Covers serverId s'.top (logKeyOf serverId log) := by
  have hcovers : ∀ (sur : Surroundings) (top : Topology),
      (∀ n < queries serverId (sur.env s.store) top, sur.fault n = none) →
      Covers serverId (discover serverId (sur.env s.store) 0 top).2 (logKeyOf serverId log) :=
    fun sur top hfault => discover_covers hfault (fun n => (env_spec sur hnamed n).1)
      (fun n => (env_spec sur hnamed n).2) hlog hlisted huid
  cases e with
  | add a => simp [Event.walk] at hwalk
  | start database sur =>
    obtain rfl := Option.some.inj hstep
    exact hcovers sur _ (hquiet _ rfl)
  | tick sur ingest =>
    obtain ⟨top, hrun, rfl⟩ := Option.map_eq_some_iff.mp hstep
    have hopen : s.top.discoveryOpen = true := by
      by_contra hclosed
      rw [Event.walk, if_neg hclosed] at hwalk
      simp at hwalk
    have hwalked : tickDiscovery serverId (sur.env s.store) 0 s.top =
        discover serverId (sur.env s.store) 0 s.top := if_pos hopen
    refine (run_spec hrun).2 _ ?_
    have hcovered := hcovers sur s.top (hquiet (sur, s.top) (if_pos hopen))
    rwa [← hwalked] at hcovered

/-- An event without a walk leaves the headers alone. -/
theorem next_headers {s s' : State} {e : Event} (hstep : next serverId s e = some s')
    (hwalk : e.walk serverId s = none) : s'.top.headers = s.top.headers := by
  cases e with
  | add a =>
    obtain rfl := Option.some.inj hstep
    rfl
  | start database sur => simp [Event.walk] at hwalk
  | tick sur ingest =>
    obtain ⟨top, hrun, rfl⟩ := Option.map_eq_some_iff.mp hstep
    have hclosed : ¬s.top.discoveryOpen = true := by
      intro hopen
      rw [Event.walk, if_pos hopen] at hwalk
      simp at hwalk
    have hstays : tickDiscovery serverId (sur.env s.store) 0 s.top = (0, s.top) := if_neg hclosed
    have hheaders : top.headers = (tickDiscovery serverId (sur.env s.store) 0 s.top).2.headers :=
      (run_spec hrun).1
    rwa [hstays] at hheaders

/-- **What discovery covers.**  After a start, or a tick that begins before a log was discovered,
whose walk has no failing query, every listed log that the store held is covered, and it is polled
by every tick from then on.  A tick that begins later leaves the headers as they are.

The last sentence is the design, and the reason for the others' condition.  A log that a walk has
missed, because a query failed or because it came too late, is not looked for again in this
process, unless nothing at all had been found. -/
theorem walk_covers {maxRequestLatestValues : ℤ} {maxSamples : ℕ} {es es' : List Event}
    {s s' s'' : State} {e : Event}
    (hbefore : Run (next serverId) (fun _ _ => True) (.fresh maxRequestLatestValues maxSamples) es s)
    (hstep : next serverId s e = some s')
    (hafter : Run (next serverId) (fun _ _ => True) s' es' s'') :
    ((e.walk serverId s).isSome = true → e.Quiet serverId s →
      ∀ log ∈ s.store.logs, Listed s.store log → log.uid ≠ [] →
        Polled serverId s''.top (logKeyOf serverId log)) ∧
    (e.walk serverId s = none → s'.top.headers = s.top.headers) := by
  refine ⟨fun hwalk hquiet log hlog hlisted huid => ?_, next_headers hstep⟩
  have hnamed : Named s.store :=
    hbefore.invariant (fun _ _ _ h _ hnext => next_named hnext h) (named_fresh _ _)
  have hcovered := next_walk hnamed hstep hwalk hquiet hlog hlisted huid
  exact (hafter.invariant (fun _ _ _ h _ hnext => next_covers hnext h) hcovered).polled

end

/-! ## 6. A log that is found, and logs that are not

Each of the conditions has its log. -/

/-- No query fails, and nothing is added. -/
def undisturbed : Surroundings := ⟨fun _ => [], fun _ => none⟩

/-- The tasks of a tick, each of whose requests fails. -/
def failingIngest (events : List Independence.Event) : Ingest where
  env := {
    cfg := pageSettings
    serverId := 1
    host := .utc
    serve := fun _ => .error .transportError
    fault := fun _ _ => none
    commitFails := fun _ => false }
  ingestConcurrency := 5
  focused := none
  pubsub := {}
  events := events

/-- A log of the well `W`, without rows. -/
def addLogEvent (uid : String) : Event :=
  .add (.log (logElem uid .measuredDepth .increasing ["DEPT", "ROP"] []))

def addWellEvent (uid : String) : Event := .add (.well { uid := some uid.toList })

def addWellboreEvent (uidWell : String) : Event :=
  .add (.wellbore { uid := some "B".toList, uidWell := some uidWell.toList })

/-- A log is discovered by a start, and polled in a tick that another log comes too late for. -/
def discoveredBefore : List Event := [addWellEvent "W", addWellboreEvent "W", addLogEvent "L"]

def discoveredAfter : List Event :=
  [addLogEvent "M", .tick undisturbed (failingIngest [.create, .step 0, .step 0])]

theorem discoveredBefore_isSome : (replay (next 1) (fun _ _ => decide True)
    (State.fresh 10000 2000) discoveredBefore).isSome = true := by decide +kernel

/-- The state that the start finds. -/
def beforeStart : State := Option.get _ discoveredBefore_isSome

theorem start_isSome : (next 1 beforeStart (.start none undisturbed)).isSome = true := by
  decide +kernel

def started : State := Option.get _ start_isSome

theorem discoveredAfter_isSome : (replay (next 1) (fun _ _ => decide True) started
    discoveredAfter).isSome = true := by decide +kernel

theorem walk_covers_oneLog : Polled 1 (Option.get _ discoveredAfter_isSome).top
    (logKeyOf 1 (beforeStart.store.logs.head (by decide +kernel))) :=
  (walk_covers (Run.of_isSome discoveredBefore_isSome) (Option.some_get start_isSome).symm
    (Run.of_isSome discoveredAfter_isSome)).1 rfl
      (fun walk hwalk n _ => by
        obtain rfl := Option.some.inj hwalk
        rfl) _ (List.head_mem _)
      ⟨⟨beforeStart.store.wells.head (by decide +kernel), List.head_mem _, by decide +kernel⟩,
        beforeStart.store.wellbores.head (by decide +kernel), List.head_mem _, by decide +kernel⟩
      (by decide +kernel)

/-- A tick without a failing query leaves a log uncovered that the store held when it began. -/
def Missed (es : List Event) (sur : Surroundings) (ingest : Ingest) : Prop :=
  ∃ s s', Run (next 1) (fun _ _ => True) (.fresh 10000 2000) es s ∧
    next 1 s (.tick sur ingest) = some s' ∧ (Event.tick sur ingest).Quiet 1 s ∧
    ∃ log ∈ s.store.logs, log.uid ≠ [] ∧ ¬Covers 1 s'.top (logKeyOf 1 log)

/-- Whether a log that the first state holds has no header in the second one. -/
def uncovered (s s' : State) : Bool :=
  s.store.logs.any fun log => log.uid ≠ [] && (s'.top.headers.get? (logKeyOf 1 log)).isNone

/-- A replay tells whether a log is missed. -/
theorem missed_of_replay {es : List Event} {ingest : Ingest}
    (h : ((replay (next 1) (fun _ _ => true) (.fresh 10000 2000) es).bind fun s =>
      (next 1 s (.tick undisturbed ingest)).map (uncovered s)) = some true) :
    Missed es undisturbed ingest := by
  obtain ⟨s, hs, h⟩ := Option.bind_eq_some_iff.mp h
  obtain ⟨s', hs', huncovered⟩ := Option.map_eq_some_iff.mp h
  obtain ⟨log, hlog, hmissing⟩ := List.any_eq_true.mp huncovered
  simp only [Bool.and_eq_true, decide_eq_true_eq, Option.isNone_iff_eq_none] at hmissing
  refine ⟨s, s', Run.of_replay (fun _ _ _ => trivial) hs, hs', ?_, log, hlog, hmissing.1, ?_⟩
  · intro walk hwalk n _
    simp only [Event.walk] at hwalk
    split at hwalk
    · obtain rfl := Option.some.inj hwalk
      rfl
    · simp at hwalk
  · intro hcovers
    obtain ⟨header, hget, -⟩ := hcovers.header
    rw [hmissing.2] at hget
    simp at hget

/-- A log is missed that is added after the first one was discovered; one whose well failed when
another log was discovered; and one that is listed below no well. -/
theorem logs_missed :
    Missed [addWellEvent "W", addWellboreEvent "W", addLogEvent "L", .start none undisturbed,
      addLogEvent "M"] undisturbed (failingIngest [.create, .step 0, .step 0]) ∧
    Missed [addWellEvent "V", addWellEvent "W", addWellboreEvent "V", addWellboreEvent "W",
      .add (.log { logElem "L" .measuredDepth .increasing ["DEPT", "ROP"] [] with
        uidWell := some "V".toList }), addLogEvent "M",
      .start none { undisturbed with fault := fun n => if n = 3 then some .transportError else none }]
      undisturbed (failingIngest [.create, .step 0, .step 0]) ∧
    Missed [addWellEvent "V", addLogEvent "L", .start none undisturbed] undisturbed
      (failingIngest []) :=
  ⟨missed_of_replay (by decide +kernel), missed_of_replay (by decide +kernel),
    missed_of_replay (by decide +kernel)⟩

end WitsmlViewer.Discovery

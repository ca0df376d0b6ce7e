/-
# What a restart makes of the history (`_persist_samples`, `_load_index_snapshot`)

The table has no constraint that would keep a reading from being inserted twice, and nothing looks
before it inserts.  What keeps it single is the cursor: a call hands on only what lies strictly beyond
it, so as long as the cursor is ahead of the table no reading is inserted that is there already.

Within a process the cursor is always ahead, because it moves before the transaction is opened.  A
restart takes it from the index cache, which is written every twelve ticks and on `stop`, while the
samples are written in every tick.  A crash in between leaves a table that is ahead of the cursor, and
the next poll reads and inserts once more what lies between them.

`history_single`: in every run in which each restart finds cursors that are not behind the table, no
curve of a log has two rows of one index.  The server may answer anything that the live store could
take, too (`Engine.Accepts`); transactions may be lost, and the cursors need not be saved at all if
there is nothing in the table.  Whether rows are missing is another matter (`Shutdown`).
-/
import WitsmlViewer.Shutdown

namespace WitsmlViewer

open Py Runs

/-! ## 1. The promise and the condition

The condition is on restarts: the cursor that a restart finds is not behind any row of the table.
It is met by a stop after the last transaction has been committed, and by a crash before anything
has been committed since the last snapshot.  It is not met by a crash between a commit and the next
snapshot, which may be eleven ticks away.

Two things more are asked of the run.  The answers are such as `SharedCurves` accepts, since an
answer that names a curve twice, or whose rows cannot be ordered, puts an index into one call twice
over.  And a log keeps its index type and direction, as the comparison with the cursor depends on
both. -/

/-- What a row is a reading of: a curve of a log at an index.  Indices are taken as they compare, so
that zero and minus zero are one, and an instant is one in every time zone. -/
def CurveSampleRow.place (r : CurveSampleRow) : LogKey × Str × ℤ :=
  (r.logKey, r.mnemonic, (rowToSample r).index.rank)

/-- **The history is single**: at most one row for each curve of a log and index. -/
def Database.Single (db : Database) : Prop := (db.curveSamples.map CurveSampleRow.place).Nodup

instance (db : Database) : Decidable db.Single :=
  inferInstanceAs (Decidable (db.curveSamples.map CurveSampleRow.place).Nodup)

namespace Process

/-- The cursor that a restart finds for a log. -/
def found (cfg : Settings) (dep : Deployment) (serverId : ℤ) (s : Process) (loaded : Bool)
    (key : LogKey) : Option Value :=
  ((Plant.restarted cfg dep serverId s.db loaded).getLogState key).bind LogState.lastIndex

/-- The answers are such as the live store can take, a log keeps its index type and direction, and no
restart finds a cursor that is behind the table. -/
def Resumes (cfg : Settings) (dep : Deployment) (serverId : ℤ) (kind : LogKey → IndexType × Direction)
    (s : Process) : Event → Prop
  | .exchange (.begin h) => (h.indexType, h.direction) = kind (headerKey serverId h)
  | .exchange (.answer key a) => ∀ f ∈ s.engine.calls key, f.Accepts a
  | .restart loaded => ∀ r ∈ s.db.curveSamples, NotBehind (kind r.logKey).2
      (some (rowToSample r).index) (s.found cfg dep serverId loaded r.logKey)
  | _ => True

end Process

instance (d : Direction) : (a b : Option Value) → Decidable (NotBehind d a b)
  | none, _ => inferInstanceAs (Decidable True)
  | some _, none => inferInstanceAs (Decidable False)
  | some v, some w => inferInstanceAs (Decidable (growthKey d v ≤ growthKey d w))

instance (cfg : Settings) (dep : Deployment) (serverId : ℤ) (kind : LogKey → IndexType × Direction)
    (s : Process) : (e : Process.Event) → Decidable (s.Resumes cfg dep serverId kind e)
  | .exchange (.begin h) =>
    inferInstanceAs (Decidable ((h.indexType, h.direction) = kind (headerKey serverId h)))
  | .exchange (.answer key a) =>
    inferInstanceAs (Decidable (∀ f ∈ s.engine.calls key, f.Accepts a))
  | .restart loaded => inferInstanceAs (Decidable (∀ r ∈ s.db.curveSamples,
      NotBehind (kind r.logKey).2 (some (rowToSample r).index)
        (s.found cfg dep serverId loaded r.logKey)))
  | .commit _ => inferInstanceAs (Decidable True)
  | .tickSnapshot => inferInstanceAs (Decidable True)
  | .stop => inferInstanceAs (Decidable True)
  | .cancel _ => inferInstanceAs (Decidable True)
  | .stopSnapshot => inferInstanceAs (Decidable True)

/-! ## 2. What the process holds of a log

The samples of a log are in the table or on their way to it.  A commit moves them, a cancellation or a
crash drops them, and only a completed call adds to them; so what the log's cursor is ahead of is
never more than it was, but for what the call itself brings. -/

/-- The samples of a log in the table and in the open transactions. -/
def Process.held (serverId : ℤ) (s : Process) (key : LogKey) : List CurveSample :=
  (s.db.curveSamples.filter (·.logKey = key)).map rowToSample ++
    (s.waiting.filter fun p => headerKey serverId p.header = key).flatMap Persist.samples

section Held

variable {serverId : ℤ} {s : Process} {key : LogKey} {i : ℕ} {p : Persist}

/-- A restart leaves what is in the table and drops the rest. -/
theorem Process.held_restart (serverId : ℤ) (s : Process) (engine : Engine) (key : LogKey) :
    Process.held serverId { s with
        engine := engine
        waiting := []
        stopping := false } key =
      (s.db.curveSamples.filter (·.logKey = key)).map rowToSample := by
  simp [Process.held]

/-- **A commit moves the samples of a transaction.** -/
theorem Process.held_commit (hp : s.waiting[i]? = some p)
    (horders : ∀ x ∈ p.samples, x.index.Orders p.state.indexType) (key : LogKey) :
    (Process.held serverId { s with
        db := s.db.persistSamples serverId p.header p.state p.samples
        waiting := s.waiting.eraseIdx i } key).Perm (s.held serverId key) := by
  obtain ⟨hi, rfl⟩ := List.getElem?_eq_some_iff.mp hp
  have hrest := ((List.getElem_cons_eraseIdx_perm hi).filter fun p =>
    decide (headerKey serverId p.header = key)).flatMap_right Persist.samples
  have hrows : ((s.waiting[i].samples.map (sampleRow serverId s.waiting[i].header
      s.waiting[i].state)).filter fun r => decide (r.logKey = key)).map rowToSample =
        if headerKey serverId s.waiting[i].header = key then s.waiting[i].samples else [] := by
    have hkey : ∀ x, (sampleRow serverId s.waiting[i].header s.waiting[i].state x).logKey =
        headerKey serverId s.waiting[i].header := fun x => rfl
    by_cases h : headerKey serverId s.waiting[i].header = key
    · rw [if_pos h, List.filter_eq_self.mpr fun r hr => ?_, List.map_map]
      · exact (List.map_congr_left fun x hx => rowToSample_sampleRow (horders x hx)).trans
          (List.map_id _)
      · obtain ⟨x, -, rfl⟩ := List.mem_map.mp hr
        exact decide_eq_true ((hkey x).trans h)
    · rw [if_neg h, List.filter_eq_nil_iff.mpr fun r hr => ?_, List.map_nil]
      obtain ⟨x, -, rfl⟩ := List.mem_map.mp hr
      rw [hkey]
      simpa using h
  rw [Process.held, Database.persistSamples, Process.held]
  dsimp only
  rw [List.filter_append, List.map_append, hrows, List.append_assoc]
  refine List.Perm.append_left _ (List.Perm.trans ?_ hrest)
  by_cases h : headerKey serverId s.waiting[i].header = key
  · rw [if_pos h, List.filter_cons_of_pos (by simpa using h), List.flatMap_cons]
  · rw [if_neg h, List.filter_cons_of_neg (by simpa using h), List.nil_append]

/-- A cancellation drops them. -/
theorem Process.held_cancel (s : Process) (i : ℕ) (key : LogKey) :
    (Process.held serverId { s with waiting := s.waiting.eraseIdx i } key).Sublist
      (s.held serverId key) := by
  refine List.Sublist.append_left ?_ _
  exact ((List.eraseIdx_sublist s.waiting i).filter _).flatMap _

end Held

/-! ## 3. The invariant

Every cursor is ahead of what is held of its log (`LogState.Covers`).  The rest of the invariant is
there for restarts, which make states out of rows: the rows of the index cache are of the kind of
their log, and their cursors can be ordered. -/

/-- A row of the index cache that restores a state of a kind. -/
structure IndexCacheSnapshot.Of (keepsZone : Bool) (kind : IndexType × Direction)
    (r : IndexCacheSnapshot) : Prop where
  indexType : r.indexType = kind.1.value
  direction : r.direction = kind.2.value
  ordered : ∀ v, cursorFromSnap keepsZone r kind.1 = some v → (aware v).Orders kind.1

/-- The invariant.  `covers` and `fresh` are the point of it; the others say that states and calls
are where their keys say, and are of the kind of their log. -/
structure Process.Ahead (dep : Deployment) (serverId : ℤ) (kind : LogKey → IndexType × Direction)
    (s : Process) : Prop where
  guided : s.engine.Guided
  states : s.engine.warm.StatesKeyed
  addressed : s.engine.Addressed serverId
  kinds : ∀ key st, s.engine.warm.getLogState key = some st → (st.indexType, st.direction) = kind key
  flying : ∀ key f, s.engine.calls key = some f →
    (f.task.state.indexType, f.task.state.direction) = kind key
  covers : ∀ key st, s.engine.warm.getLogState key = some st → st.Covers (s.held serverId key)
  fresh : ∀ key, s.engine.warm.getLogState key = none → s.held serverId key = []
  opened : ∀ p ∈ s.waiting, ∀ x ∈ p.samples, x.index.Orders p.state.indexType
  cache : ∀ r ∈ s.db.indexCache, r.Of dep.keepsZone (kind r.logKey)

section Ahead

variable {cfg : Settings} {dep : Deployment} {serverId : ℤ} {kind : LogKey → IndexType × Direction}
  {s s' : Process} {key : LogKey}

/-- **The table is single** wherever every cursor is ahead. -/
theorem Process.Ahead.single (hi : s.Ahead dep serverId kind) : s.db.Single := by
  refine List.pairwise_map.mpr ?_
  have hparts : s.db.curveSamples.Pairwise fun r r' => (r.logKey, r.mnemonic) =
      (r'.logKey, r'.mnemonic) → (rowToSample r).index.rank ≠ (rowToSample r').index.rank := by
    refine pairwise_of_parts fun k => ?_
    have hdistinct : ((s.held serverId k.1).filter fun x => decide (x.mnemonic = k.2)).Pairwise
        fun x y => x.index.rank ≠ y.index.rank := by
      cases hget : s.engine.warm.getLogState k.1 with
      | none =>
        rw [hi.fresh k.1 hget]
        exact List.Pairwise.nil
      | some st => exact (hi.covers k.1 st hget).distinct k.2
    have htable := hdistinct.sublist ((List.sublist_append_left _ _).filter _)
    rw [List.filter_map, List.filter_filter, List.pairwise_map] at htable
    refine (congrArg (List.Pairwise _) (List.filter_congr fun r _ => ?_)).mpr htable
    rw [Bool.eq_iff_iff, Bool.and_eq_true, decide_eq_true_eq, decide_eq_true_eq, Prod.ext_iff,
      and_comm]
    exact and_congr_left' decide_eq_true_iff.symm
  exact hparts.imp fun hne heq => by
    simp only [CurveSampleRow.place, Prod.mk.injEq] at heq
    exact hne (by rw [heq.1, heq.2.1]) heq.2.2

/-- Nothing but a completed call and a restart changes a state, and where no more is held of a log its
cursor is still ahead. -/
theorem Process.Ahead.of_held (hi : s.Ahead dep serverId kind) (hengine : s'.engine = s.engine)
    (hheld : ∀ key, (s'.held serverId key).Subperm (s.held serverId key))
    (hopened : ∀ p ∈ s'.waiting, p ∈ s.waiting)
    (hcache : ∀ r ∈ s'.db.indexCache, r.Of dep.keepsZone (kind r.logKey)) :
    s'.Ahead dep serverId kind := by
  refine ⟨hengine ▸ hi.guided, hengine ▸ hi.states, hengine ▸ hi.addressed, hengine ▸ hi.kinds,
    hengine ▸ hi.flying, fun key st hget => ?_, fun key hnone => ?_,
    fun p hp => hi.opened p (hopened p hp), hcache⟩
  · rw [hengine] at hget
    exact (hi.covers key st hget).subperm (hheld key)
  · rw [hengine] at hnone
    have hnil := hheld key
    rw [hi.fresh key hnone] at hnil
    exact List.subperm_nil.mp hnil

/-! A snapshot. -/

/-- The rows of a state are of its kind. -/
theorem of_stateRows {keepsZone : Bool} {st : LogState} {r : IndexCacheSnapshot}
    (hordered : ∀ v, st.lastIndex = some v → (aware v).Orders st.indexType) (hr : r ∈ stateRows st) :
    r.Of keepsZone (st.indexType, st.direction) := by
  obtain ⟨last, hlast, m, -, rfl⟩ := mem_stateRows_iff.mp hr
  refine ⟨rfl, rfl, fun v hv => ?_⟩
  have hlast' := hordered last hlast
  cases last with
  | num x =>
    have hdepth : st.indexType.isTime = false := hlast'.1
    simp only [cursorFromSnap, snapRow, indexColumns, hdepth, asFloat] at hv
    obtain rfl : Value.num x = v := by simpa using hv
    exact hlast'
  | text w => exact hlast'.elim
  | dt d =>
    have htime : st.indexType.isTime = true := hlast'.1
    simp only [cursorFromSnap, snapRow, indexColumns, htime, asDatetime, if_true, Option.map_some,
      Option.some.injEq] at hv
    subst hv
    exact ⟨htime, rfl⟩

/-- A snapshot keeps it.  The rows that it writes are of their log's kind, since the states are;
the samples are not touched. -/
theorem Process.Ahead.snapshot (hi : s.Ahead dep serverId kind) :
    (s.snapshot dep serverId).Ahead dep serverId kind := by
  rw [Process.snapshot]
  split
  · exact hi
  · cases hsnap : snapshotIndexState dep.takes serverId s.db
        (s.engine.warm.logStates.map Prod.snd) with
    | none => exact hi
    | some db =>
      have htable := curveSamples_snapshotIndexState hsnap
      refine hi.of_held rfl (fun key => ?_) (fun p hp => hp) fun r hr => ?_
      · rw [Process.held, Process.held]
        dsimp only
        rw [htable]
      · rcases mem_indexCache_snapshot hsnap hr with hold | ⟨st, hst, hr⟩
        · exact hi.cache r hold
        · have hget := hi.states.getLogState hst
          have hof : r.Of dep.keepsZone (st.indexType, st.direction) :=
            of_stateRows (hi.guided.ordered _ st hget) hr
          rwa [hi.kinds _ st hget, ← (logKey_of_mem_stateRows hr).1] at hof

/-! A call. -/

/-- What new transactions add. -/
theorem Process.held_opened (s : Process) (engine : Engine) (ps qs : List Persist) (key : LogKey) :
    Process.held serverId { s with
        engine := engine
        waiting := s.waiting ++ ps
        ingested := qs } key =
      s.held serverId key ++
        (ps.filter fun p => decide (headerKey serverId p.header = key)).flatMap Persist.samples := by
  simp only [Process.held, List.filter_append, List.flatMap_append, List.append_assoc]

/-- A call begins on a state that is there already, or on one that is made from the header.  The
second is of the kind that its log has, by the condition on the run, and nothing is held of such a
log yet. -/
theorem Process.Ahead.begun (hi : s.Ahead dep serverId kind) {h : LogHeader}
    (hkind : (h.indexType, h.direction) = kind (headerKey serverId h)) :
    Process.Ahead dep serverId kind { s with engine := s.engine.begun cfg serverId h } := by
  obtain ⟨hwarm, -, hcalls⟩ := Engine.begun_spec cfg serverId s.engine h
  refine ⟨hi.guided.begun h, hwarm ▸ hi.states, fun key f hf => ?_, hwarm ▸ hi.kinds,
    fun key f hf => ?_, hwarm ▸ hi.covers, hwarm ▸ hi.fresh, hi.opened, hi.cache⟩
  · rcases hcalls key f hf with hf | ⟨rfl, hheader, -⟩
    · exact hi.addressed key f hf
    · exact congrArg (headerKey serverId) hheader
  · rcases hcalls key f hf with hf | ⟨rfl, -, hstate⟩
    · exact hi.flying key f hf
    · rw [hstate, pollState]
      cases hget : s.engine.warm.getLogState (headerKey serverId h) with
      | none => exact hkind
      | some st => exact hi.kinds _ st hget

/-- The state that a call works on is ahead of what is held of its log. -/
theorem Process.Ahead.covers_flight (hi : s.Ahead dep serverId kind) {f : Flight}
    (hf : f.Current key (s.engine.warm.getLogState key)) :
    f.task.state.Covers (s.held serverId key) := by
  cases hget : s.engine.warm.getLogState key with
  | none =>
    rw [hi.fresh key hget]
    exact ⟨by simp, by simp, fun m => List.Pairwise.nil⟩
  | some st =>
    rw [hf.stored st hget]
    exact hi.covers key st hget

/-- **An answer**: the call goes on or ends, or its log's cursor moves past what it brings.  Only
the last case needs an argument.  What the call hands on lies beyond the old cursor, so it is at no
place that is held already (`LogState.Covers.append`); and the new cursor is at or beyond it, so
the log's state is ahead again.  The transaction that is opened holds exactly these samples. -/
theorem Process.Ahead.answered (hi : s.Ahead dep serverId kind) {f : Flight} {a : Answer}
    (hcall : s.engine.calls key = some f) (ha : f.Accepts a) {engine : Engine}
    (hengine : s.engine.answered cfg key f a = engine) :
    Process.Ahead dep serverId kind { s with
      engine := engine
      waiting := s.waiting ++ s.engine.opened engine (.answer key)
      ingested := s.ingested ++ s.engine.opened engine (.answer key) } := by
  obtain ⟨hguided, hcontinues, houtcome⟩ := hi.guided.answered hcall ha hengine
  have hstates : engine.warm.StatesKeyed := by
    rw [← hengine]
    exact (Engine.answered_spec cfg hi.states key f a).1
  have haddressed : engine.Addressed serverId := fun key' f' hf' => by
    obtain ⟨g, hg, hheader, -⟩ := hcontinues key' f' hf'
    rw [hheader]
    exact hi.addressed key' g hg
  have hflying : ∀ key' f', engine.calls key' = some f' →
      (f'.task.state.indexType, f'.task.state.direction) = kind key' := fun key' f' hf' => by
    obtain ⟨g, hg, -, hstate⟩ := hcontinues key' f' hf'
    rw [hstate]
    exact hi.flying key' g hg
  -- only a completed call opens a transaction, and it is of its own log
  rcases houtcome with ⟨hwarm, hcompleted⟩ | ⟨block, cursor, i, hh⟩
  · have hnone : s.engine.opened engine (.answer key) = [] := by
      simp only [Engine.opened, hcall, hcompleted, List.drop_length, List.filter_nil, List.map_nil]
    rw [hnone, List.append_nil, List.append_nil]
    exact ⟨hguided, hstates, haddressed, hwarm ▸ hi.kinds, hflying, hwarm ▸ hi.covers,
      hwarm ▸ hi.fresh, hi.opened, hi.cache⟩
  · have hf := hi.guided.flight key f hcall
    have hget := hh.getLogState hf.keyed
    have hbrought : ∀ key', ((s.engine.opened engine (.answer key)).filter fun p =>
        decide (headerKey serverId p.header = key')).flatMap Persist.samples =
          if key = key' then i.samples else [] := by
      intro key'
      have hcompleted : engine.completed = s.engine.completed ++ [i] := by rw [hh.after]
      simp only [Engine.opened, hcall, hcompleted, List.drop_left]
      by_cases hnil : i.samples = []
      · simp [hnil]
      · by_cases hkey : key = key'
        · simp [hnil, hkey, (hi.addressed key f hcall).trans hkey]
        · simp [hnil, hkey, hi.addressed key f hcall]
    refine ⟨hguided, hstates, haddressed, fun key' st hst => ?_, hflying, fun key' st hst => ?_,
      fun key' hnone => ?_, fun p hp x hx => ?_, hi.cache⟩
    · rw [hget] at hst
      split at hst
      · rename_i hkey
        rw [← Option.some.inj hst, ← hkey]
        exact hi.flying key f hcall
      · exact hi.kinds key' st hst
    · rw [Process.held_opened, hbrought]
      rw [hget] at hst
      split at hst
      · rename_i hkey
        rw [if_pos hkey, ← Option.some.inj hst, ← hkey, hh.samples]
        exact (hi.covers_flight hf).append hh.rows hh.sorted hh.nodup hh.reaches hh.continuation
      · rename_i hkey
        rw [if_neg hkey, List.append_nil]
        exact hi.covers key' st hst
    · rw [Process.held_opened, hbrought]
      rw [hget] at hnone
      split at hnone
      · exact absurd hnone (by simp)
      · rename_i hkey
        rw [if_neg hkey, List.append_nil]
        exact hi.fresh key' hnone
    · rcases List.mem_append.mp hp with hp | hp
      · exact hi.opened p hp x hx
      · have hcompleted : engine.completed = s.engine.completed ++ [i] := by rw [hh.after]
        simp only [Engine.opened, hcall, hcompleted, List.drop_left] at hp
        obtain ⟨c, hc, rfl⟩ := List.mem_map.mp hp
        obtain rfl := List.mem_singleton.mp (List.mem_filter.mp hc).1
        dsimp only at hx ⊢
        rw [hh.samples] at hx
        obtain ⟨r, hr, hindex, -⟩ := mem_newSamples hx
        exact hh.rows r hr _ hindex

/-! A restart. -/

/-- The states that a restart makes are of the kind of their log, with cursors that can be ordered. -/
theorem restarted_of {db : Database} (hcache : ∀ r ∈ db.indexCache, r.Of dep.keepsZone (kind r.logKey))
    {loaded : Bool} {st : LogState}
    (hget : (Plant.restarted cfg dep serverId db loaded).getLogState key = some st) :
    (st.indexType, st.direction) = kind key ∧
      ∀ v, st.lastIndex = some v → (aware v).Orders st.indexType := by
  rw [Plant.restarted] at hget
  split at hget
  · rw [getLogState_loadIndexSnapshot] at hget
    split at hget
    · exact absurd hget (by simp [RingBufferStore.init, RingBufferStore.getLogState, Dict.get?])
    · rename_i head rest hrows
      obtain rfl := Option.some.inj hget
      have hhead : head ∈ (db.indexCache.filter fun r => decide (r.serverId = serverId)).filter
          fun r => decide (r.logKey = key) := hrows ▸ List.mem_cons_self
      obtain ⟨hhead, hkey⟩ := List.mem_filter.mp hhead
      obtain ⟨htype, hdir, hordered⟩ := hcache head (List.mem_filter.mp hhead).1
      rw [of_decide_eq_true hkey] at htype hdir hordered
      have htype' : parseIndexType (some head.indexType) = (kind key).1 := by
        rw [htype, parseIndexType_value]
      refine ⟨?_, fun v hv => ?_⟩
      · simp only [restoredState, htype', hdir, lower_direction_value, Prod.mk.eta]
      · simp only [restoredState, htype'] at hv ⊢
        exact hordered v hv
  · exact absurd hget (by simp [RingBufferStore.init, RingBufferStore.getLogState, Dict.get?])

/-- **A restart whose cursors are not behind the table** is ahead again: what the table holds has
been held before, and nothing is on its way.  A log without rows in the cache finds no cursor at
all, and the condition then says that the table has nothing of it. -/
theorem Process.Ahead.restarted (hi : s.Ahead dep serverId kind) {loaded : Bool}
    (hfound : ∀ r ∈ s.db.curveSamples, NotBehind (kind r.logKey).2 (some (rowToSample r).index)
      (s.found cfg dep serverId loaded r.logKey)) :
    Process.Ahead dep serverId kind { s with
      engine := { s.engine with
        warm := Plant.restarted cfg dep serverId s.db loaded
        calls := fun _ => none }
      waiting := []
      stopping := false } := by
  have hstates : (Plant.restarted cfg dep serverId s.db loaded).StatesKeyed := statesKeyed_restarted
  have hkinds := fun key st (hget : (Plant.restarted cfg dep serverId s.db loaded).getLogState key =
    some st) => restarted_of hi.cache hget
  -- the rows of a log, and where the cursor that is found stands
  have hrows : ∀ key, ∀ x ∈ (s.db.curveSamples.filter fun r => decide (r.logKey = key)).map rowToSample,
      NotBehind (kind key).2 (some x.index) (s.found cfg dep serverId loaded key) := by
    intro key x hx
    obtain ⟨r, hr, rfl⟩ := List.mem_map.mp hx
    obtain ⟨hr, hkey⟩ := List.mem_filter.mp hr
    rw [← of_decide_eq_true hkey]
    exact hfound r hr
  refine ⟨⟨fun key st hget => (hstates.get hget).1, fun key st hget => (hkinds key st hget).2,
    by simp⟩, hstates, fun key f hf => absurd hf (by simp), fun key st hget => (hkinds key st hget).1,
    fun key f hf => absurd hf (by simp), fun key st hget => ?_, fun key hnone => ?_, by simp, hi.cache⟩
  · rw [Process.held_restart]
    have hbehind := hrows key
    rw [Process.found, hget, Option.bind_some] at hbehind
    obtain ⟨hkind, -⟩ := hkinds key st hget
    have hold : ∀ st' : LogState, (st'.indexType, st'.direction) = kind key →
        st'.Covers (s.held serverId key) → st.Covers
          ((s.db.curveSamples.filter fun r => decide (r.logKey = key)).map rowToSample) := by
      intro st' hkind' hcovers
      have htable := hcovers.subperm (List.sublist_append_left _ _).subperm
      obtain ⟨htype, hdir⟩ := Prod.mk.inj (hkind.trans hkind'.symm)
      refine ⟨fun x hx => ?_, fun x hx => ?_, htable.distinct⟩
      · rw [htype]
        exact htable.kind x hx
      · rw [show st.direction = (kind key).2 from congrArg Prod.snd hkind]
        exact hbehind x hx
    cases hbefore : s.engine.warm.getLogState key with
    | none =>
      have hnil := hi.fresh key hbefore
      rw [Process.held, List.append_eq_nil_iff] at hnil
      rw [hnil.1]
      exact ⟨by simp, by simp, fun m => List.Pairwise.nil⟩
    | some st' => exact hold st' (hi.kinds key st' hbefore) (hi.covers key st' hbefore)
  · rw [Process.held_restart]
    by_contra hne
    obtain ⟨x, hx⟩ := List.exists_mem_of_ne_nil _ hne
    have hbehind := hrows key x hx
    rw [Process.found, hnone, Option.bind_none] at hbehind
    exact hbehind

/-! ## 4. Runs

The induction is on the run, from the first start, where the table is empty and every cursor is
ahead of nothing. -/

/-- **Every event keeps the cursors ahead.**  The engine's events are those of `SharedCurves`; a
commit and a cancellation move or drop what is held, a snapshot writes rows of the right kind, and
a restart is where the condition is used. -/
theorem Process.Ahead.next (hi : s.Ahead dep serverId kind) {e : Process.Event}
    (hr : s.Resumes cfg dep serverId kind e) (hnext : s.next cfg dep serverId e = some s') :
    s'.Ahead dep serverId kind := by
  cases e with
  | exchange x =>
    simp only [Process.next] at hnext
    split at hnext
    · exact absurd hnext (by simp)
    · obtain ⟨engine, hengine, rfl⟩ := Option.map_eq_some_iff.mp hnext
      cases x with
      | begin h =>
        simp only [Engine.exchange] at hengine
        split at hengine
        · exact absurd hengine (by simp)
        · obtain rfl := Option.some.inj hengine
          simp only [Engine.Exchange.event, Engine.opened, List.append_nil]
          exact hi.begun hr
      | answer key a =>
        obtain ⟨f, hcall, hengine⟩ := Option.map_eq_some_iff.mp hengine
        exact hi.answered hcall (hr f hcall) hengine
  | commit i =>
    obtain ⟨p, hp, rfl⟩ := Option.map_eq_some_iff.mp hnext
    refine hi.of_held rfl (fun key => ?_) (fun q hq => List.mem_of_mem_eraseIdx hq) hi.cache
    exact (Process.held_commit hp (hi.opened p (List.mem_of_getElem? hp)) key).subperm
  | tickSnapshot =>
    simp only [Process.next] at hnext
    split at hnext
    · rw [← Option.some.inj hnext]
      exact hi.snapshot
    · exact absurd hnext (by simp)
  | stop =>
    simp only [Process.next] at hnext
    split at hnext
    · exact absurd hnext (by simp)
    · rw [← Option.some.inj hnext]
      exact hi.of_held rfl (fun key => List.Subperm.refl _) (fun p hp => hp) hi.cache
  | cancel i =>
    simp only [Process.next] at hnext
    split at hnext
    · obtain ⟨p, -, rfl⟩ := Option.map_eq_some_iff.mp hnext
      exact hi.of_held rfl (fun key => (Process.held_cancel s i key).subperm)
        (fun q hq => List.mem_of_mem_eraseIdx hq) hi.cache
    · exact absurd hnext (by simp)
  | stopSnapshot =>
    simp only [Process.next] at hnext
    split at hnext
    · rw [← Option.some.inj hnext]
      exact hi.snapshot
    · exact absurd hnext (by simp)
  | restart loaded =>
    rw [← Option.some.inj hnext]
    exact hi.restarted hr

/-- **The history is single** in every run, from the first start on, in which the answers can be taken
and no restart finds a cursor that is behind the table.

The argument is one about the cursor alone.  Nothing is inserted that is not strictly beyond it, and
it is never behind what has been inserted: a call moves it before its transaction is opened, and a
restart finds it there by the condition.  So a run may lose transactions, and cursors may be saved
that are too far ahead; neither inserts anything twice. -/
theorem history_single {server : MockStore} {es : List Process.Event}
    (hrun : Run (Process.next cfg dep serverId) (Process.Resumes cfg dep serverId kind)
      (Process.started server (.init cfg.maxSamplesPerCurve) ⟨[], []⟩) es s) : s.db.Single := by
  have hstate : ∀ key st, (Process.started server (.init cfg.maxSamplesPerCurve)
      ⟨[], []⟩).engine.warm.getLogState key ≠ some st := by
    simp [Process.started, Engine.idle, RingBufferStore.init, RingBufferStore.getLogState, Dict.get?]
  have hcall : ∀ key f, (Process.started server (.init cfg.maxSamplesPerCurve)
      ⟨[], []⟩).engine.calls key ≠ some f := by
    simp [Process.started, Engine.idle]
  have hstart : (Process.started server (.init cfg.maxSamplesPerCurve) ⟨[], []⟩).Ahead dep serverId
      kind :=
    ⟨⟨fun key st h => absurd h (hstate key st), fun key st h => absurd h (hstate key st),
      fun key f h => absurd h (hcall key f)⟩, .init _, fun key f h => absurd h (hcall key f),
      fun key st h => absurd h (hstate key st), fun key f h => absurd h (hcall key f),
      fun key st h => absurd h (hstate key st), fun key _ => rfl,
      fun p hp => absurd hp List.not_mem_nil, fun r hr => absurd hr List.not_mem_nil⟩
  exact (hrun.invariant (fun s e s' hi hr hnext => hi.next hr hnext) hstart).single

end Ahead

/-! The logs of `SharedCurves` once more.  All three are ingested and saved on `stop`, and after the
restart one has grown by a row, which comes with the row at its cursor. -/

/-- They are all increasing; the third is by time. -/
def twinKind (key : LogKey) : IndexType × Direction :=
  (if key.logUid = "T".toList then .dateTime else .measuredDepth, .increasing)

def resumedTwin : List Process.Event :=
  twinRun.map .exchange ++ [.commit 2, .commit 0, .commit 0, .stop, .stopSnapshot, .restart true] ++
    (loneRun [loneReply ["DEPT", "ROP"] ["30,6", "40,7"]]).map .exchange ++
    [.commit 0, .tickSnapshot, .restart true]

/-- Every event can happen, and the restart finds each cursor at the end of its rows. -/
theorem resumedTwin_isSome : (replay (Process.next depthSettings depthDeployment 1)
    (fun s e => decide (s.Resumes depthSettings depthDeployment 1 twinKind e)) emptyProcess
      resumedTwin).isSome = true := by
  decide +kernel

def resumedTwinEnd : Process := Option.get _ resumedTwin_isSome

/-- The log that has grown has its new row once, and the row at its cursor once. -/
theorem history_single_resumedTwin :
    ((resumedTwinEnd.db.curveSamples.filter (·.logKey = twinKey "L2")).map rowToSample).map
        CurveSample.index = ["20", "30", "40"].map (indexOf .measuredDepth) ∧
      resumedTwinEnd.db.Single :=
  ⟨by decide +kernel, history_single (Run.of_isSome resumedTwin_isSome)⟩

/-- The rows of one call are committed, the process crashes before the next snapshot, and the server
serves the rows again. -/
def crashedLone : List Process.Event :=
  (loneRun [loneReply ["DEPT", "ROP"] ["10,1", "20,2"]]).map .exchange ++ [.commit 0, .restart true] ++
    (loneRun [loneReply ["DEPT", "ROP"] ["10,1", "20,2"]]).map .exchange ++ [.commit 0]

/-- Every event can happen; nothing is asked of the restart. -/
theorem crashedLone_isSome : (replay (Process.next depthSettings depthDeployment 1)
    (fun _ _ => decide True) emptyProcess crashedLone).isSome = true := by decide +kernel

def crashedLoneEnd : Process := Option.get _ crashedLone_isSome

/-- **A crash between two snapshots doubles the history.** -/
theorem history_doubled :
    Run (Process.next depthSettings depthDeployment 1) (fun _ _ => True) emptyProcess crashedLone
        crashedLoneEnd ∧
      (crashedLoneEnd.db.curveSamples.map rowToSample).map CurveSample.index =
        ["10", "20", "10", "20"].map (indexOf .measuredDepth) ∧ ¬crashedLoneEnd.db.Single :=
  ⟨Run.of_isSome crashedLone_isSome, by decide +kernel, by decide +kernel⟩

end WitsmlViewer

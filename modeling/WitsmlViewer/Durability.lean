/-
# No reading is lost (`_persist_samples`, `_snapshot_index_state`, restarts)

The account of the plant of `Restarts` is a `Checkpoints.Ledger`: the readings up to the cursor of
a log are the ones that have been read, and those up to its saved cursor the ones of the last
checkpoint.  `Plant.Inv.next` shows that every event is a step of that account, or none.

* `nothing_missing`: no reading up to the cursor is missing, except those of lost transactions.
* `exactly_once_restarts`: where no restart rewinds the cursor, each reading is there once.

The first holds in every run.  A crash after a snapshot rewinds the cursor to it, and what lies
beyond is read again; so nothing is missing, but some readings are in the table twice, as nothing
in the table forbids that.  The second says when they are not.

What is lost is lost by a transaction that fails, or by a process that ends after a snapshot has
saved a cursor whose transaction was still open.  `openData` tells these from the transactions that
a crash merely undoes: whether a later restart reads a row again depends only on whether the saved
cursor has passed it.

The log grows in the order of its direction, and its header stays.  Without this there is no set of
readings "up to the cursor"; `ExactlyOnce` has the same condition, for the same reason.
-/
import WitsmlViewer.Lib.Checkpoints
import WitsmlViewer.NewestLast
import WitsmlViewer.Restarts

namespace WitsmlViewer

open Py GrowingTable Runs Checkpoints
open MockStore (elemKey updatedLog)

/-! ## 1. What the engine does to its warm store and its calls

The lemmas here say what an event of the engine does to the three things that the account looks at:
the states, the calls, and the transactions it opens.  Those of `Engine` and `ExactlyOnce` say more
about the first two; what is new is that the states remain keyed and that a transaction is opened
only by a completed call. -/

section Engine

variable {cfg : Settings} {serverId : ℤ} {s s' : Engine}

/-- A completed call puts the log's state back under its key. -/
theorem statesKeyed_completeIngest {warm warm' : RingBufferStore} (hw : warm.StatesKeyed)
    {task : IngestTask} {result : LogDataResult} {samples : List CurveSample}
    (hdone : completeIngest cfg warm task result = .ok (warm', samples)) : warm'.StatesKeyed := by
  obtain ⟨_, -, hdone⟩ := bind_eq_ok.mp hdone
  obtain ⟨_, -, hdone⟩ := bind_eq_ok.mp hdone
  obtain ⟨cursor, -, hdone⟩ := bind_eq_ok.mp hdone
  obtain ⟨rfl, -⟩ := Prod.mk.inj (Except.ok.inj hdone)
  have hput := hw.put { task.state with
    lastIndex := cursor.or task.state.lastIndex
    objectGrowing := some true }
  split
  · exact hput
  · exact ⟨hput.distinct, hput.own⟩

/-- **What an answer does**: to the call it may end or go on, the states stay keyed, and at most this
call is completed. -/
theorem Engine.answered_spec (cfg : Settings) (hw : s.warm.StatesKeyed) (key : LogKey) (f : Flight)
    (a : Answer) :
    (s.answered cfg key f a).warm.StatesKeyed ∧
      (∀ f', (s.answered cfg key f a).calls key = some f' → f'.task.header = f.task.header) ∧
      (∀ key', key' ≠ key → (s.answered cfg key f a).calls key' = s.calls key') ∧
      ((s.answered cfg key f a).completed = s.completed ∨
        ∃ c : Ingested, (s.answered cfg key f a).completed = s.completed ++ [c] ∧ c.key = key) := by
  have hnone : ∀ f', (s.setCall key none).calls key ≠ some f' := fun f' => by
    rw [Engine.setCall_self]
    simp
  have hother : ∀ f' key', key' ≠ key → (s.setCall key f').calls key' = s.calls key' :=
    fun f' key' hne => Engine.setCall_of_ne s f' hne
  rw [Engine.answered]
  split
  · exact ⟨hw, fun f' hf' => absurd hf' (hnone f'), hother none, Or.inl rfl⟩
  · refine ⟨hw, fun f' hf' => ?_, hother _, Or.inl rfl⟩
    rw [Engine.setCall_self] at hf'
    rw [← Option.some.inj hf']
  · split
    · exact ⟨hw, fun f' hf' => absurd hf' (hnone f'), hother none, Or.inl rfl⟩
    · rename_i hdone
      exact ⟨statesKeyed_completeIngest hw hdone, fun f' hf' => absurd hf' (hnone f'), hother none,
        Or.inr ⟨_, rfl, rfl⟩⟩

/-- Calls are known under the key of their header. -/
def Engine.Addressed (serverId : ℤ) (s : Engine) : Prop :=
  ∀ key f, s.calls key = some f → headerKey serverId f.task.header = key

/-- Events keep the states keyed and the calls addressed.  One case for each event; all but the
answer leave the warm store alone. -/
theorem Engine.next_keyed (hw : s.warm.StatesKeyed) (ha : s.Addressed serverId) {e : Engine.Event}
    (hnext : s.next cfg serverId e = some s') : s'.warm.StatesKeyed ∧ s'.Addressed serverId := by
  have hanswered : ∀ key f a, s.calls key = some f →
      (s.answered cfg key f a).warm.StatesKeyed ∧ (s.answered cfg key f a).Addressed serverId := by
    intro key f a hf
    obtain ⟨hw', hcall, hother, -⟩ := Engine.answered_spec cfg hw key f a
    refine ⟨hw', fun key' f' hf' => ?_⟩
    by_cases hkey : key' = key
    · subst hkey
      rw [hcall f' hf']
      exact ha _ f hf
    · rw [hother key' hkey] at hf'
      exact ha key' f' hf'
  cases e with
  | update el =>
    rw [← Option.some.inj hnext]
    exact ⟨hw, ha⟩
  | begin h =>
    simp only [Engine.next] at hnext
    split at hnext
    · exact absurd hnext (by simp)
    · rw [← Option.some.inj hnext, Engine.begun]
      split
      · rename_i task hbegin
        refine ⟨hw, fun key f hf => ?_⟩
        by_cases hkey : key = headerKey serverId h
        · subst hkey
          rw [Engine.setCall_self] at hf
          rw [← Option.some.inj hf]
          exact congrArg (headerKey serverId) (header_of_beginIngest cfg serverId h hbegin)
        · rw [Engine.setCall_of_ne s _ hkey] at hf
          exact ha key f hf
      · exact ⟨hw, ha⟩
  | answer key =>
    obtain ⟨f, hf, rfl⟩ := Option.map_eq_some_iff.mp hnext
    exact hanswered key f _ hf
  | fail key a =>
    simp only [Engine.next] at hnext
    split at hnext
    · obtain ⟨f, hf, rfl⟩ := Option.map_eq_some_iff.mp hnext
      exact hanswered key f a hf
    · exact absurd hnext (by simp)

/-- No transaction is exposed when it is opened. -/
theorem Engine.saved_of_opened (s s' : Engine) (e : Engine.Event) :
    ∀ p ∈ s.opened s' e, p.saved = false := by
  intro p hp
  cases e with
  | update el => exact absurd hp List.not_mem_nil
  | begin h => exact absurd hp List.not_mem_nil
  | fail key a => exact absurd hp List.not_mem_nil
  | answer key =>
    cases hf : s.calls key with
    | none =>
      simp only [Engine.opened, hf] at hp
      exact absurd hp List.not_mem_nil
    | some f =>
      simp only [Engine.opened, hf] at hp
      obtain ⟨c, -, rfl⟩ := List.mem_map.mp hp
      rfl

/-- **An event that does not complete a call of a log opens no transaction of it.**  A transaction
is known by the header it was opened with, and that header by its key; so the transactions of other
logs, which may be opened by the same event loop at the same time, add nothing to the account of
this one. -/
theorem Engine.opened_quiet (hw : s.warm.StatesKeyed) (ha : s.Addressed serverId) {key : LogKey}
    {e : Engine.Event} (hnext : s.next cfg serverId e = some s') (hq : Engine.Quiet key s s') :
    ∀ p ∈ s.opened s' e, headerKey serverId p.header ≠ key := by
  intro p hp
  cases e with
  | update el => exact absurd hp List.not_mem_nil
  | begin h => exact absurd hp List.not_mem_nil
  | fail key' a => exact absurd hp List.not_mem_nil
  | answer key' =>
    obtain ⟨f, hf, rfl⟩ := Option.map_eq_some_iff.mp hnext
    simp only [Engine.opened, hf] at hp
    obtain ⟨c, hc, rfl⟩ := List.mem_map.mp hp
    have hkey : headerKey serverId f.task.header = key' := ha key' f hf
    intro heq
    obtain rfl : key' = key := hkey.symm.trans heq
    obtain ⟨-, -, -, hsame | ⟨c', hmore, hown⟩⟩ :=
      Engine.answered_spec cfg hw key' f (s.server.serve f.task.query)
    · rw [hsame, List.drop_length] at hc
      exact absurd hc (by simp)
    · have hfilter := hq.completed
      rw [hmore, List.filter_append] at hfilter
      simp [hown] at hfilter

end Engine

/-! ## 2. The account of a log

The account has two lines.  What has been read is in the table, in an open transaction or in a lost
one.  What the saved cursor vouches for is in none of the transactions that a crash would undo.
Each event of the plant moves readings between these places, and `Plant.Inv.next` is the list of
the moves: a completed call adds to the first line and opens a transaction, a commit takes it to
the table, a failure to the lost ones, a snapshot brings the second line up to the first, and a
restart brings the first back to the second. -/

/-- The store only appends plain rows to the log, and the log has one header; other logs may change
freely. -/
def Engine.Grows (serverId : ℤ) (h : LogHeader) (s : Engine) : Engine.Event → Prop
  | .update el => elemKey el = h.logKey → ∀ log ∈ s.server.findLog h.logKey, log.AppendsPlain el
  | .begin h' => headerKey serverId h' = headerKey serverId h → h' = h
  | _ => True

instance (serverId : ℤ) (h : LogHeader) (s : Engine) :
    (e : Engine.Event) → Decidable (s.Grows serverId h e)
  | .update el => inferInstanceAs (Decidable (elemKey el = h.logKey →
      ∀ log ∈ s.server.findLog h.logKey, log.AppendsPlain el))
  | .begin h' => inferInstanceAs (Decidable (headerKey serverId h' = headerKey serverId h → h' = h))
  | .answer _ => inferInstanceAs (Decidable True)
  | .fail _ _ => inferInstanceAs (Decidable True)

namespace Plant

/-- The same, for the plant; its own events may come at any time. -/
def Grows (serverId : ℤ) (h : LogHeader) (s : Plant) : Event → Prop
  | .engine e => s.engine.Grows serverId h e
  | _ => True

instance (serverId : ℤ) (h : LogHeader) (s : Plant) : (e : Event) → Decidable (s.Grows serverId h e)
  | .engine e => inferInstanceAs (Decidable (s.engine.Grows serverId h e))
  | .commit _ => inferInstanceAs (Decidable True)
  | .fail _ => inferInstanceAs (Decidable True)
  | .snapshot => inferInstanceAs (Decidable True)
  | .restart _ => inferInstanceAs (Decidable True)

/-- The cursor of a log. -/
def cursor (serverId : ℤ) (h : LogHeader) (s : Plant) : Option Value :=
  (pollState serverId h s.engine.warm).lastIndex

/-- The cursor that a restart would find. -/
def saved (dep : Deployment) (serverId : ℤ) (h : LogHeader) (s : Plant) : Option Value :=
  savedCursor dep.keepsZone h.indexType (s.db.cached (headerKey serverId h))

/-- The account: what has been read are the readings up to the cursor. -/
def ledger (dep : Deployment) (serverId : ℤ) (h : LogHeader) (s : Plant) (log : StoredLog) :
    Ledger Datum where
  all := log.data log.table
  read := log.data (log.upTo (s.cursor serverId h))
  kept := log.data (log.upTo (s.saved dep serverId h))
  waiting := openData serverId (headerKey serverId h) false s.waiting
  exposed := openData serverId (headerKey serverId h) true s.waiting
  table := s.db.data (headerKey serverId h)
  lost := persistData serverId (headerKey serverId h) s.lost
  restarts := s.restarts

/-- The invariant of one log.  It joins the invariant of `ExactlyOnce` for the engine, `CacheOf`
for the rows that a restart will find, and the ledger for the readings. -/
structure Inv (cfg : Settings) (dep : Deployment) (serverId : ℤ) (hn : 2 ≤ cfg.maxReturnNodes)
    (h : LogHeader) (s : Plant) (log : StoredLog) : Prop where
  engine : s.engine.Inv cfg serverId (exactPages hn) h log
  keyed : s.engine.Keyed
  states : s.engine.warm.StatesKeyed
  addressed : s.engine.Addressed serverId
  header : log.indexType = h.indexType ∧ log.direction = h.direction
  unique : (s.db.indexCache.map IndexCacheSnapshot.key).Nodup
  cache : CacheOf dep.keepsZone serverId h (pollState serverId h s.engine.warm)
    (s.db.cached (headerKey serverId h))
  saved : ∀ v, s.saved dep serverId h = some v → ∃ e ∈ log.rows.entries, v = e.1
  waiting : ∀ p ∈ s.waiting, headerKey serverId p.header = headerKey serverId h → p.Of h log.indexType

end Plant

section Events

variable {cfg : Settings} {dep : Deployment} {serverId : ℤ} {hn : 2 ≤ cfg.maxReturnNodes}
  {h : LogHeader} {s s' : Plant} {log : StoredLog}

/-- What the store is allowed to do here is what `ExactlyOnce` allows, with the pages of the mock
store. -/
theorem Engine.Grows.allows {s : Engine} {e : Engine.Event} (hg : s.Grows serverId h e) :
    s.Allows (exactPages hn) serverId h e := by
  cases e with
  | update el => exact hg
  | begin h' => exact hg
  | answer key => trivial
  | fail key a => trivial

/-- The rows up to a cursor are rows. -/
theorem StoredLog.data_upTo_le (log : StoredLog) (c : Option Value) :
    log.data (log.upTo c) ≤ log.data log.table := data_mono List.filter_sublist.subperm

namespace Plant

/-- The state of the log is of its kind. -/
theorem Inv.kind (hi : s.Inv cfg dep serverId hn h log) :
    (pollState serverId h s.engine.warm).indexType = h.indexType ∧
      (pollState serverId h s.engine.warm).direction = h.direction :=
  ⟨hi.engine.tracks.indexType.trans hi.header.1, hi.engine.tracks.direction.trans hi.header.2⟩

/-- **A commit** moves a transaction into the table. -/
theorem Inv.commit (hi : s.Inv cfg dep serverId hn h log) {i : ℕ} {p : Persist}
    (hp : s.waiting[i]? = some p) (hs' : s' = { s with
      db := s.db.persistSamples serverId p.header p.state p.samples
      waiting := s.waiting.eraseIdx i }) :
    s'.Inv cfg dep serverId hn h log ∧
      Step (s.ledger dep serverId h log) (s'.ledger dep serverId h log) := by
  subst hs'
  refine ⟨⟨hi.engine, hi.keyed, hi.states, hi.addressed, hi.header, hi.unique, hi.cache, hi.saved,
    fun q hq => hi.waiting q (List.mem_of_mem_eraseIdx hq)⟩, ?_⟩
  have hstep := Step.commit (l := s.ledger dep serverId h log) _ _ _ _
    (openData_eraseIdx hp false) (openData_eraseIdx hp true)
  rw [openData_add, ← show _ = (s.ledger dep serverId h log).table + _ from
    s.db.data_persistSamples (hi.waiting p (List.mem_of_getElem? hp))] at hstep
  exact hstep

/-- **A failure** loses it. -/
theorem Inv.fail (hi : s.Inv cfg dep serverId hn h log) {i : ℕ} {p : Persist}
    (hp : s.waiting[i]? = some p) (hs' : s' = { s with
      waiting := s.waiting.eraseIdx i
      lost := s.lost ++ [p] }) :
    s'.Inv cfg dep serverId hn h log ∧
      Step (s.ledger dep serverId h log) (s'.ledger dep serverId h log) := by
  subst hs'
  refine ⟨⟨hi.engine, hi.keyed, hi.states, hi.addressed, hi.header, hi.unique, hi.cache, hi.saved,
    fun q hq => hi.waiting q (List.mem_of_mem_eraseIdx hq)⟩, ?_⟩
  have hstep := Step.lose (l := s.ledger dep serverId h log) _ _ _ _
    (openData_eraseIdx hp false) (openData_eraseIdx hp true)
  rw [openData_add, ← show _ = (s.ledger dep serverId h log).lost + _ from
    persistData_append s.lost [p]] at hstep
  exact hstep

/-- **A snapshot** saves how far the log has been read, or leaves its rows alone.  It cannot go
back: the cursor of the state is at or beyond the saved one, as it has only moved on since the last
restart. -/
theorem Inv.saved_snapshot (hi : s.Inv cfg dep serverId hn h log)
    (hzone : dep.keepsZone = true ∨ h.indexType.isTime = false) {after : Database}
    (hsnap : snapshotIndexState dep.takes serverId s.db (s.engine.warm.logStates.map Prod.snd) =
      some after) :
    CacheOf dep.keepsZone serverId h (pollState serverId h s.engine.warm)
        (after.cached (headerKey serverId h)) ∧
      (savedCursor dep.keepsZone h.indexType (after.cached (headerKey serverId h)) =
          s.cursor serverId h ∨
        savedCursor dep.keepsZone h.indexType (after.cached (headerKey serverId h)) =
          s.saved dep serverId h) := by
  have hkeys := hi.states.pairwise
  have hkey := hi.engine.tracks.key
  have hkind := hi.kind.1
  cases hlast : (pollState serverId h s.engine.warm).lastIndex with
  | none =>
    have hsame : after.cached (headerKey serverId h) = s.db.cached (headerKey serverId h) := by
      refine cached_snapshot_of_none hi.unique hkeys (fun st hst hst' => ?_) hsnap
      have hget := hi.states.getLogState hst
      rw [hst'] at hget
      rw [pollState, hget, Option.getD_some] at hlast
      exact hlast
    rw [hsame]
    exact ⟨hi.cache, Or.inr rfl⟩
  | some v =>
    -- a state with a cursor is in the store
    have hst : pollState serverId h s.engine.warm ∈ s.engine.warm.logStates.map Prod.snd := by
      cases hget : s.engine.warm.getLogState (headerKey serverId h) with
      | none =>
        rw [pollState, hget, Option.getD_none] at hlast
        exact absurd hlast (by simp [stateFromHeader])
      | some st =>
        rw [pollState, hget, Option.getD_some]
        exact (hi.states.get hget).2
    have hserver : (pollState serverId h s.engine.warm).serverId = serverId :=
      congrArg LogKey.serverId hkey
    have hord : v.Orders (pollState serverId h s.engine.warm).indexType := by
      obtain ⟨e, he, rfl⟩ := hi.engine.cursor v hlast
      rw [hi.engine.tracks.indexType]
      exact hi.engine.disciplined.orderable.orders he
    have hcache := hi.cache
    rw [← hkey] at hcache
    have hafter := hcache.snapshot hi.unique hkeys hst hserver hlast hord (by rwa [hkind]) hsnap
    rw [hkey, hkind] at hafter
    exact hafter

/-- It is a checkpoint of the account, or nothing.  The transactions that are open at this moment
are exposed from now on: the cursor that vouches for their rows is saved and the rows are not. -/
theorem Inv.snapshot (hi : s.Inv cfg dep serverId hn h log)
    (hzone : dep.keepsZone = true ∨ h.indexType.isTime = false) {after : Database}
    (hsnap : snapshotIndexState dep.takes serverId s.db (s.engine.warm.logStates.map Prod.snd) =
      some after)
    (hs' : s' = { s with
      db := after
      waiting := s.waiting.map fun p => { p with saved := true } }) :
    s'.Inv cfg dep serverId hn h log ∧
      Step (s.ledger dep serverId h log) (s'.ledger dep serverId h log) := by
  have hkeys := hi.states.pairwise
  obtain ⟨hall, hafter⟩ := (snapshotIndexState_eq_some hi.unique hkeys).mp hsnap
  have hunique : (after.indexCache.map IndexCacheSnapshot.key).Nodup := by
    rw [hafter]
    exact (nodup_map_key_snapshotTable hi.unique (pairwise_ownStates serverId hkeys)).mpr
      fun st hst => (hall st hst).2
  have hdata : after.data (headerKey serverId h) = s.db.data (headerKey serverId h) := by
    rw [hafter]
    rfl
  obtain ⟨hcache, hsaved⟩ := hi.saved_snapshot hzone hsnap
  have hentry : ∀ v, savedCursor dep.keepsZone h.indexType (after.cached (headerKey serverId h)) =
      some v → ∃ e ∈ log.rows.entries, v = e.1 := by
    rcases hsaved with hnow | hsame
    · rw [hnow]
      exact hi.engine.cursor
    · rw [hsame]
      exact hi.saved
  subst hs'
  refine ⟨⟨hi.engine, hi.keyed, hi.states, hi.addressed, hi.header, hunique, hcache, hentry, ?_⟩, ?_⟩
  · intro p hp hkey
    obtain ⟨q, hq, rfl⟩ := List.mem_map.mp hp
    obtain ⟨hheader, htype, horders⟩ := hi.waiting q hq hkey
    exact ⟨hheader, htype, horders⟩
  · obtain ⟨hwaiting, hexposed⟩ := openData_saved serverId (headerKey serverId h) s.waiting
    refine cast (congrArg _ ?_) (Step.save (l := s.ledger dep serverId h log)
      (log.data (log.upTo (savedCursor dep.keepsZone h.indexType
        (after.cached (headerKey serverId h))))) (hsaved.imp (fun heq => ?_) fun heq => ?_))
    · exact Ledger.ext rfl rfl rfl hwaiting.symm hexposed.symm hdata.symm rfl rfl
    · rw [heq]
      rfl
    · rw [heq]
      rfl

/-- **A restart** goes back to what had been read when the cursor was saved, or to the beginning.
The open transactions end with the process.  Those whose cursor was saved are lost for good; the
others will be read again. -/
theorem Inv.restart (hi : s.Inv cfg dep serverId hn h log) {loaded : Bool} (hs' : s' = { s with
      engine := { s.engine with
        warm := restarted cfg dep serverId s.db loaded
        calls := fun _ => none }
      waiting := []
      lost := s.lost ++ s.waiting.filter (·.saved)
      restarts := s.restarts + 1 }) :
    s'.Inv cfg dep serverId hn h log ∧
      s'.cursor serverId h = (if loaded then s.saved dep serverId h else none) ∧
      Step (s.ledger dep serverId h log) (s'.ledger dep serverId h log) := by
  obtain ⟨hfind, hsole, hlog, htracks, hordered, hcursor, -⟩ := hi.engine
  have hr : Restored cfg dep serverId h s.db loaded
      (pollState serverId h (restarted cfg dep serverId s.db loaded)) :=
    restored_restarted hi.kind.1 hi.kind.2 hi.cache
  have hentry : ∀ v, (pollState serverId h (restarted cfg dep serverId s.db loaded)).lastIndex =
      some v → ∃ e ∈ log.rows.entries, v = e.1 := by
    intro v hv
    rw [hr.lastIndex] at hv
    split at hv
    · exact hi.saved v hv
    · exact absurd hv (by simp)
  have hread : s'.cursor serverId h = if loaded then s.saved dep serverId h else none := by
    rw [hs']
    exact hr.lastIndex
  refine ⟨?_, hread, ?_⟩
  · subst hs'
    refine ⟨⟨hfind, hsole, hlog, ?_, ?_, hentry, by simp⟩, ⟨?_, by simp⟩, statesKeyed_restarted,
      fun key f hf => absurd hf (by simp), hi.header, hi.unique, hr.cache, hi.saved, by simp⟩
    · exact ⟨htracks.logKey, hr.key, hr.indexType.trans hi.header.1.symm,
        hr.direction.trans hi.header.2.symm⟩
    · intro v hv
      obtain ⟨e, he, rfl⟩ := hentry v hv
      rw [aware_of_orders (hlog.orderable.orders he)]
      exact hlog.orderable.orders he
    · exact fun key st hst => (statesKeyed_restarted.get hst).1
  · have hlost : persistData serverId (headerKey serverId h) (s.lost ++ s.waiting.filter (·.saved)) =
        (s.ledger dep serverId h log).lost + (s.ledger dep serverId h log).exposed := by
      rw [persistData_append]
      refine congrArg _ (congrArg _ (List.filter_congr fun p _ => ?_))
      cases p.saved <;> rfl
    refine cast (congrArg _ ?_) (Step.restart (l := s.ledger dep serverId h log)
      (log.data (log.upTo (if loaded then s.saved dep serverId h else none))) ?_)
    · rw [← hread]
      subst hs'
      exact Ledger.ext rfl rfl rfl rfl rfl rfl hlost.symm rfl
    · cases loaded with
      | true => exact Or.inl rfl
      | false => exact Or.inr (congrArg log.data log.upTo_none)

end Plant

/-! A completed call. -/

section Completed

variable {s s' : Engine} {D : Discipline cfg.maxReturnNodes} {f : Flight} {got : List Entry}
  {lo : Option Value} {result : LogDataResult} {cursor : Option Value}

/-- The new samples of a completed call have indices of the log's kind. -/
theorem Engine.Completes.orders (hi : s.Inv cfg serverId D h log)
    (hc : Engine.Completes cfg serverId D h log s s' f got lo result cursor) :
    ∀ x ∈ newSamples result.block log.direction (pollState serverId h s.warm).lastIndex,
      x.index.Orders log.indexType := by
  intro x hx
  obtain ⟨r, hr, hindex, -⟩ := mem_newSamples hx
  obtain ⟨e, he, -, rfl⟩ := hc.stops.returned.row r hr
  rw [← (decodedRow_index_eq_some.mp hindex).2]
  rcases List.mem_append.mp he with he | he
  · exact hc.underway.orders e he
  · exact (D.orderable hi.disciplined).orders (StoredLog.mem_entries_of_mem_page he)

/-- It opens a transaction for its new samples, if there are any. -/
theorem Engine.Completes.opened (hi : s.Inv cfg serverId D h log)
    (hc : Engine.Completes cfg serverId D h log s s' f got lo result cursor) :
    (∀ p ∈ s.opened s' (.answer (headerKey serverId h)), p.Of h log.indexType) ∧
      persistData serverId (headerKey serverId h) (s.opened s' (.answer (headerKey serverId h))) =
        (newSamples result.block log.direction (pollState serverId h s.warm).lastIndex).map
          CurveSample.datum := by
  obtain ⟨hheader, hstate, -⟩ := hi.call f hc.flies
  have hdrop : s'.completed.drop s.completed.length = [{
      key := headerKey serverId h
      start := (pollState serverId h s.warm).lastIndex
      code := if (log.page lo none f.task.call.maxReturnNodes).2 then rcPartialSuccess else rcSuccess
      samples := newSamples result.block log.direction (pollState serverId h s.warm).lastIndex
      cursor := cursor.or (pollState serverId h s.warm).lastIndex }] := by
    rw [hc.after]
    exact List.drop_left
  have horders := hc.orders hi
  simp only [Engine.opened, hc.flies, hdrop]
  rw [hheader, hstate]
  generalize newSamples result.block log.direction (pollState serverId h s.warm).lastIndex = xs
    at horders ⊢
  by_cases hnil : xs = []
  · subst hnil
    simp [persistData]
  · refine ⟨fun p hp => ?_, ?_⟩
    · obtain ⟨c, hc, rfl⟩ := List.mem_map.mp hp
      rw [List.mem_singleton.mp (List.mem_filter.mp hc).1]
      exact ⟨rfl, hi.tracks.indexType, horders⟩
    · simp [persistData, hnil]

end Completed

namespace Plant

/-- **An event of the engine**: the log grows, or its new samples are handed on, or it is not
concerned.  That there are only these three is `Engine.Inv.next`; what is shown here is that the
account follows, with the transaction that a completed call opens. -/
theorem Inv.event (hi : s.Inv cfg dep serverId hn h log) {e : Engine.Event} {engine : Engine}
    (hg : s.engine.Grows serverId h e) (hnext : s.engine.next cfg serverId e = some engine)
    (hs' : s' = { s with
      engine := engine
      waiting := s.waiting ++ s.engine.opened engine e }) :
    ∃ log', s'.Inv cfg dep serverId hn h log' ∧
      (s'.ledger dep serverId h log' = s.ledger dep serverId h log ∨
        Step (s.ledger dep serverId h log) (s'.ledger dep serverId h log')) := by
  obtain ⟨log', hi', heffect⟩ := hi.engine.next hi.keyed hg.allows hnext
  have hkeyed := hi.keyed.next hnext
  obtain ⟨hstates, haddressed⟩ := Engine.next_keyed hi.states hi.addressed hnext
  refine ⟨log', ?_⟩
  subst hs'
  cases heffect with
  | update el hupdate =>
    have hsame : SameHead log (log.afterUpdate el) := by
      rw [StoredLog.afterUpdate]
      split
      · exact updatedLog_sameHead log el
      · exact SameHead.refl log
    -- nothing that is stored goes, and nothing comes before a stored row
    have hkept : (∀ e ∈ log.table, e ∈ (log.afterUpdate el).table) ∧
        ∀ c : Option Value, (∀ v, c = some v → ∃ e ∈ log.rows.entries, v = e.1) →
          (log.afterUpdate el).upTo c = log.upTo c := by
      rw [StoredLog.afterUpdate]
      split
      · rename_i hk
        have happ : log.AppendsPlain el :=
          hg (hk.symm.trans hi.engine.tracks.logKey) log hi.engine.find
        exact ⟨happ.1.mem.1, fun c hc =>
          StoredLog.upTo_updatedLog hi.engine.disciplined.orderable happ.1 hc⟩
      · exact ⟨fun _ => id, fun _ _ => rfl⟩
    have hdata : ∀ es, (log.afterUpdate el).data es = log.data es := fun es => by
      rw [StoredLog.data, StoredLog.data, StoredLog.readings_of_sameHead hsame]
    have hopened : s.engine.opened engine (.update el) = [] := rfl
    have hwarm : engine.warm = s.engine.warm := by rw [hupdate]
    have hstate : pollState serverId h engine.warm = pollState serverId h s.engine.warm := by
      rw [hwarm]
    refine ⟨⟨hi', hkeyed, hstates, haddressed, ?_, hi.unique, ?_, fun v hv => ?_, ?_⟩, Or.inr ?_⟩
    · rw [hsame.indexType, hsame.direction]
      exact hi.header
    · rw [hstate]
      exact hi.cache
    · obtain ⟨e, he, rfl⟩ := hi.saved v hv
      exact ⟨e, StoredLog.mem_table.mp (hkept.1 e (StoredLog.mem_table.mpr he)), rfl⟩
    · rw [hopened, List.append_nil, hsame.indexType]
      exact hi.waiting
    · have hall : log.data log.table ≤ log.data (log.afterUpdate el).table :=
        StoredLog.data_mono ((log.table_ordered hi.engine.disciplined.orderable).nodup.subperm hkept.1)
      have hcursor := hkept.2 _ hi.engine.cursor
      have hsaved := hkept.2 _ hi.saved
      refine cast (congrArg _ ?_) (Step.grow (l := s.ledger dep serverId h log) _ hall)
      simp only [Plant.saved] at hsaved
      simp only [ledger, Plant.cursor, Plant.saved, hstate, hdata, hcursor, hsaved, hopened,
        List.append_nil]
  | quiet e hq =>
    have hstate : pollState serverId h engine.warm = pollState serverId h s.engine.warm := hq.state_eq
    have hopened := Engine.opened_quiet hi.states hi.addressed hnext hq
    have hnone : persistData serverId (headerKey serverId h) (s.engine.opened engine e) = 0 := by
      rw [persistData, List.filter_eq_nil_iff.mpr fun p hp => by simpa using hopened p hp]
      rfl
    refine ⟨⟨hi', hkeyed, hstates, haddressed, hi.header, hi.unique, ?_, hi.saved, fun p hp hkey => ?_⟩,
      Or.inl ?_⟩
    · rw [hstate]
      exact hi.cache
    · rcases List.mem_append.mp hp with hp | hp
      · exact hi.waiting p hp hkey
      · exact absurd hkey (hopened p hp)
    · obtain ⟨hfresh, hexposed⟩ := openData_fresh serverId (headerKey serverId h)
        (s.engine.saved_of_opened engine e)
      simp only [ledger, Plant.cursor, hstate, openData_append, hfresh, hnone, hexposed, add_zero]
      rfl
  | complete f got lo result cursor hc =>
    obtain ⟨hupTo, -⟩ := hc.upTo hi.engine.disciplined hi.engine
    obtain ⟨hof, hopened⟩ := hc.opened hi.engine
    have hstate : pollState serverId h engine.warm =
        { pollState serverId h s.engine.warm with
          lastIndex := cursor.or (pollState serverId h s.engine.warm).lastIndex
          objectGrowing := some true } := by
      rw [hc.after]
      exact pollState_ingest s.engine.warm h.uidWell hi.engine.tracks.key cursor _
    refine ⟨⟨hi', hkeyed, hstates, haddressed, hi.header, hi.unique, ?_, hi.saved, fun p hp hkey => ?_⟩,
      Or.inr ?_⟩
    · rw [hstate]
      exact hi.cache.of_same _ _
    · rcases List.mem_append.mp hp with hp | hp
      · exact hi.waiting p hp hkey
      · exact hof p hp
    · have hread : log.data (log.upTo (cursor.or (pollState serverId h s.engine.warm).lastIndex)) =
          (s.ledger dep serverId h log).read + persistData serverId (headerKey serverId h)
            (s.engine.opened engine (.answer (headerKey serverId h))) := by
        rw [hopened]
        exact Multiset.coe_eq_coe.mpr hupTo
      obtain ⟨hfresh, hexposed⟩ := openData_fresh serverId (headerKey serverId h)
        (s.engine.saved_of_opened engine (.answer (headerKey serverId h)))
      refine cast (congrArg _ ?_) (Step.hand (l := s.ledger dep serverId h log) _
        (hread ▸ log.data_upTo_le _))
      rw [← hread]
      simp only [ledger, Plant.cursor, hstate, openData_append, hfresh, hexposed, add_zero]
      rfl

/-- **Every event keeps the invariant**, and is a step of the account or none.  The events that are
none are those of other logs, and those that find nothing to do. -/
theorem Inv.next (hi : s.Inv cfg dep serverId hn h log)
    (hzone : dep.keepsZone = true ∨ h.indexType.isTime = false) {e : Event}
    (hg : s.Grows serverId h e) (hnext : s.next cfg dep serverId e = some s') :
    ∃ log', s'.Inv cfg dep serverId hn h log' ∧
      (s'.ledger dep serverId h log' = s.ledger dep serverId h log ∨
        Step (s.ledger dep serverId h log) (s'.ledger dep serverId h log')) := by
  cases e with
  | engine e =>
    simp only [Plant.next] at hnext
    split at hnext
    · exact absurd hnext (by simp)
    · obtain ⟨engine, hengine, hs'⟩ := Option.map_eq_some_iff.mp hnext
      exact hi.event hg hengine hs'.symm
  | commit i =>
    obtain ⟨p, hp, hs'⟩ := Option.map_eq_some_iff.mp hnext
    obtain ⟨hi', hstep⟩ := hi.commit hp hs'.symm
    exact ⟨log, hi', Or.inr hstep⟩
  | fail i =>
    obtain ⟨p, hp, hs'⟩ := Option.map_eq_some_iff.mp hnext
    obtain ⟨hi', hstep⟩ := hi.fail hp hs'.symm
    exact ⟨log, hi', Or.inr hstep⟩
  | snapshot =>
    cases hsnap : snapshotIndexState dep.takes serverId s.db
        (s.engine.warm.logStates.map Prod.snd) with
    | none =>
      rw [Plant.next, hsnap] at hnext
      rw [← Option.some.inj hnext]
      exact ⟨log, hi, Or.inl rfl⟩
    | some after =>
      rw [Plant.next, hsnap] at hnext
      obtain ⟨hi', hstep⟩ := hi.snapshot hzone hsnap (Option.some.inj hnext).symm
      exact ⟨log, hi', Or.inr hstep⟩
  | restart loaded =>
    obtain ⟨hi', -, hstep⟩ := hi.restart (Option.some.inj hnext).symm
    exact ⟨log, hi', Or.inr hstep⟩

end Plant

end Events

/-! ## 3. Runs

A run begins with the first start and an empty database.  The invariant holds there, every event
keeps it, and the two results read it off at the end. -/

section Run

variable {cfg : Settings} {dep : Deployment} {serverId : ℤ} {h : LogHeader} {s : Plant}
  {log : StoredLog} {server : MockStore}

/-- The account is safe at the first start. -/
theorem Plant.inv_start (dep : Deployment) (serverId : ℤ) (hn : 2 ≤ cfg.maxReturnNodes)
    (hfind : server.findLog log.key = some log)
    (hsole : server.Sole log.key)
    (hlog : log.Readable) (hheader : log.HasHeader h) :
    (Plant.start cfg server).Inv cfg dep serverId hn h log ∧
      (Plant.start cfg server).ledger dep serverId h log = ⟨log.data log.table, 0, 0, 0, 0, 0, 0, 0⟩ := by
  obtain ⟨-, htype, hdir⟩ := hheader.spec
  have hd : Discovered serverId h log (.init cfg.maxSamplesPerCurve) :=
    ⟨hheader, rfl, fun _ _ hget => absurd hget (by
      simp [RingBufferStore.init, RingBufferStore.getLogState, Dict.get?])⟩
  refine ⟨⟨hd.inv hfind hsole hlog, ⟨hd.keyed, by simp [start, Engine.idle]⟩, .init _,
    fun key f hf => absurd hf (by simp [start, Engine.idle]), ⟨htype.symm, hdir.symm⟩,
    List.nodup_nil, .empty, fun v hv => absurd hv ?_, by simp [start]⟩, ?_⟩
  · simp [Plant.saved, savedCursor, start, Database.cached]
  · exact Ledger.ext rfl (congrArg log.data log.upTo_none) (congrArg log.data log.upTo_none) rfl rfl
      rfl rfl rfl

/-- What a run has done to the readings of a log: those up to the cursor are in the table, in an open
transaction or in a lost one; those up to the saved cursor depend on no transaction that was opened
later; and a reading is in the table at most once for each start. -/
structure Plant.Accounted (dep : Deployment) (serverId : ℤ) (h : LogHeader) (s : Plant)
    (log : StoredLog) : Prop where
  covered : log.data (log.upTo (s.cursor serverId h)) ≤ s.db.data (headerKey serverId h) +
    persistData serverId (headerKey serverId h) s.waiting +
    persistData serverId (headerKey serverId h) s.lost
  saved : log.data (log.upTo (s.saved dep serverId h)) ≤ s.db.data (headerKey serverId h) +
    openData serverId (headerKey serverId h) true s.waiting +
    persistData serverId (headerKey serverId h) s.lost
  bounded : s.db.data (headerKey serverId h) ≤ (s.restarts + 1) • log.data log.table

/-- A restart finds no open transaction, and the cursor of the log as it was.  After `stop` it
does, if no transaction was open and the snapshot could be committed; `stop` itself waits for
neither. -/
def Plant.Resumes (dep : Deployment) (serverId : ℤ) (h : LogHeader) (s : Plant) : Plant.Event → Prop
  | .restart loaded => s.waiting.isEmpty = true ∧
      (if loaded then s.saved dep serverId h else none) = s.cursor serverId h
  | _ => True

instance (dep : Deployment) (serverId : ℤ) (h : LogHeader) (s : Plant) :
    (e : Plant.Event) → Decidable (s.Resumes dep serverId h e)
  | .restart loaded => inferInstanceAs (Decidable (s.waiting.isEmpty = true ∧
      (if loaded then s.saved dep serverId h else none) = s.cursor serverId h))
  | .engine _ => inferInstanceAs (Decidable True)
  | .commit _ => inferInstanceAs (Decidable True)
  | .fail _ => inferInstanceAs (Decidable True)
  | .snapshot => inferInstanceAs (Decidable True)

/-- Only a restart counts as one. -/
theorem Plant.restarts_next {s' : Plant} {e : Plant.Event}
    (hnext : s.next cfg dep serverId e = some s') :
    s'.restarts = s.restarts ∨ ∃ loaded, e = .restart loaded := by
  cases e with
  | engine e =>
    simp only [Plant.next] at hnext
    split at hnext
    · exact absurd hnext (by simp)
    · obtain ⟨engine, -, rfl⟩ := Option.map_eq_some_iff.mp hnext
      exact Or.inl rfl
  | commit i =>
    obtain ⟨p, -, rfl⟩ := Option.map_eq_some_iff.mp hnext
    exact Or.inl rfl
  | fail i =>
    obtain ⟨p, -, rfl⟩ := Option.map_eq_some_iff.mp hnext
    exact Or.inl rfl
  | snapshot =>
    rw [← Option.some.inj hnext]
    split
    · exact Or.inl rfl
    · exact Or.inl rfl
  | restart loaded => exact Or.inr ⟨loaded, rfl⟩

end Run

/-! The decreasing log again: it is ingested and saved, one row is added, and the process crashes
before the transaction of the next call is committed. -/

def depthIngest (answers : ℕ) : List Plant.Event :=
  (.begin depthLogHeader :: List.replicate answers (.answer depthLogKey)).map .engine

/-- A driver that drops zones, which a depth log does not have. -/
def depthDeployment : Deployment := ⟨false, fun _ => true⟩

/-- The plant at its first start. -/
def depthStart : Plant := Plant.start pageSettings depthStore

/-- The log is ingested and saved, grows, is ingested again, and the process ends with the second
transaction open. -/
def depthCrash : List Plant.Event :=
  depthIngest 2 ++ [.commit 0, .snapshot, .engine (depthUpdate "5,4")] ++ depthIngest 1 ++
    [.restart true] ++ depthIngest 1 ++ [.commit 0]

/-- Every event of it can happen, and the store only grows. -/
theorem depthCrash_isSome : (replay (Plant.next pageSettings depthDeployment 1)
    (fun s e => decide (s.Grows 1 depthLogHeader e)) depthStart depthCrash).isSome = true := by
  decide +kernel

def depthCrashed : Plant := Option.get _ depthCrash_isSome

/-- It is stopped between two ticks. -/
def depthStop : List Plant.Event :=
  depthIngest 2 ++ [.commit 0, .snapshot, .restart true, .engine (depthUpdate "5,4")] ++
    depthIngest 1 ++ [.commit 0]

/-- Every event of it can happen, and the restart finds what it needs. -/
theorem depthStop_isSome : (replay (Plant.next pageSettings depthDeployment 1)
    (fun s e => decide (s.Grows 1 depthLogHeader e ∧ s.Resumes depthDeployment 1 depthLogHeader e))
    depthStart depthStop).isSome = true := by decide +kernel

def depthStopped : Plant := Option.get _ depthStop_isSome

example : ((replay (Plant.next pageSettings depthDeployment 1) (fun _ _ => true) depthStart
    (depthIngest 2 ++ [.fail 0, .snapshot, .restart true])).map fun s =>
      (s.db.curveSamples.length, s.cursor 1 depthLogHeader)) =
    some (0, some (indexOf .measuredDepth "10")) := by decide +kernel

end WitsmlViewer

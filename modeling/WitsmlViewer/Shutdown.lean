/-
# What a saved cursor promises (`stop`, `_snapshot_index_state`, `_persist_samples`)

A call moves the cursor of its log and then hands its samples to a transaction of their own.  The
cursors are saved in another.  Where both go through, a restart continues from a cursor that the
table has caught up with; where the first is cut off and the second is not, there is a hole that no
poll fills any more, since polls ask from the cursor on.

A tick saves the cursors after `gather` has waited for all its tasks, so it finds no transaction open.
`stop` does not wait.  It cancels the tick, and the snapshot that it takes then saves the cursors of
transactions that have been rolled back with their tasks, or that are open still: a tick that is
cancelled while it spaces its tasks out leaves behind those that it has created.

`cursor_covered`: as long as `stop` finds no transaction of a log open, whatever a snapshot has saved
of the log is behind what the table holds of it.  The server may answer anything, and other logs may
be cut off at any time.  Nothing is said of what a restart makes of a hole; `DurableHistory` is about
what it makes of a table that is ahead of its cursor.

The statement is about any answers because the argument never looks at one.  What a call has
ingested may be nonsense; it is still either in the table or not when its cursor is saved.
-/
import WitsmlViewer.Durability
import WitsmlViewer.SharedCurves

namespace WitsmlViewer

open Py Runs

/-! ## 1. The machine

The plant of `Restarts` beside a server that may answer anything, with `stop` as an event of its own.
What it keeps besides the state of the source is a record: the transactions that have been opened, and
for each snapshot that has been committed what it saved and what was there to be saved then. -/

/-- A committed snapshot: the states whose cursors it has saved, the transactions that had been opened
by then, and the rows of the table at that moment. -/
structure SavedCursors where
  states : List LogState
  ingested : List Persist
  table : List CurveSampleRow

/-- `ingested` are all transactions that have been opened, whatever has become of them. -/
structure Process where
  engine : Engine
  db : Database
  waiting : List Persist
  stopping : Bool
  ingested : List Persist
  saved : List SavedCursors

/-- The event of a plant that an exchange is. -/
def Engine.Exchange.event : Engine.Exchange → Engine.Event
  | .begin h => .begin h
  | .answer key _ => .answer key

namespace Process

/-- `commit` and `cancel` end the transaction with this number; only `stop` makes tasks end by
cancellation.  A crash is a `restart` at any moment. -/
inductive Event
  | exchange (x : Engine.Exchange)
  | commit (i : ℕ)
  | tickSnapshot
  | stop
  | cancel (i : ℕ)
  | stopSnapshot
  | restart (loaded : Bool)

/-- The call of a log ends with its transaction, and there is only one at a time. -/
def busy (serverId : ℤ) (s : Process) : Engine.Exchange → Bool
  | .begin h => s.waiting.any fun p => headerKey serverId p.header = headerKey serverId h
  | .answer _ _ => false

/-- `_snapshot_index_state`.  Without a state of the server there is nothing to commit; an exception is
logged by both callers. -/
def snapshot (dep : Deployment) (serverId : ℤ) (s : Process) : Process :=
  let states := s.engine.warm.logStates.map Prod.snd
  if ownStates serverId states = [] then s
  else match snapshotIndexState dep.takes serverId s.db states with
    | none => s
    | some db => { s with
        db := db
        saved := s.saved ++ [⟨ownStates serverId states, s.ingested, s.db.curveSamples⟩] }

/-- A tick takes its snapshot when all its tasks have ended, `stop` when the tick has. -/
def next (cfg : Settings) (dep : Deployment) (serverId : ℤ) (s : Process) : Event → Option Process
  | .exchange x => if s.busy serverId x then none
    else (s.engine.exchange cfg serverId x).map fun engine => { s with
      engine := engine
      waiting := s.waiting ++ s.engine.opened engine x.event
      ingested := s.ingested ++ s.engine.opened engine x.event }
  | .commit i => s.waiting[i]?.map fun p => { s with
      db := s.db.persistSamples serverId p.header p.state p.samples
      waiting := s.waiting.eraseIdx i }
  | .tickSnapshot =>
    if s.stopping = false ∧ s.waiting.isEmpty = true then some (s.snapshot dep serverId) else none
  | .stop => if s.stopping then none else some { s with stopping := true }
  | .cancel i => if s.stopping then
      s.waiting[i]?.map fun _ => { s with waiting := s.waiting.eraseIdx i }
    else none
  | .stopSnapshot => if s.stopping then some (s.snapshot dep serverId) else none
  | .restart loaded => some { s with
      engine := { s.engine with
        warm := Plant.restarted cfg dep serverId s.db loaded
        calls := fun _ => none }
      waiting := []
      stopping := false }

/-- A process that has just started, on any database and with any cursors. -/
def started (server : MockStore) (warm : RingBufferStore) (db : Database) : Process :=
  ⟨Engine.idle server warm, db, [], false, [], []⟩

end Process

/-! ## 2. The promise

"Covers" is said of every snapshot of the run and not of the last one only, since a later crash may
restart from any of them that has not been overwritten.  The condition is on `stop` and on the end
of the process, and on nothing else.  The database does not fail here: a transaction ends with its
commit, by `stop`, or with the process; `Durability` has transactions that fail, too. -/

/-- The rows of a transaction are in a table. -/
def Persist.In (serverId : ℤ) (p : Persist) (table : List CurveSampleRow) : Prop :=
  ∀ x ∈ p.samples, sampleRow serverId p.header p.state x ∈ table

/-- **The table covers the cursor**: whenever a snapshot has saved a cursor of the log, all that had
ever been ingested of the log up to it was in the table. -/
def Process.CoversCursor (serverId : ℤ) (key : LogKey) (s : Process) : Prop :=
  ∀ snap ∈ s.saved, ∀ st ∈ snap.states, st.key = key → ∀ c ∈ st.lastIndex,
    ∀ p ∈ snap.ingested, headerKey serverId p.header = key → ∀ x ∈ p.samples,
      growthKey st.direction x.index ≤ growthKey st.direction c →
        sampleRow serverId p.header p.state x ∈ snap.table

instance (serverId : ℤ) (key : LogKey) (s : Process) : Decidable (s.CoversCursor serverId key) :=
  inferInstanceAs (Decidable (∀ snap ∈ s.saved, ∀ st ∈ snap.states, st.key = key →
    ∀ c ∈ st.lastIndex, ∀ p ∈ snap.ingested, headerKey serverId p.header = key → ∀ x ∈ p.samples,
      growthKey st.direction x.index ≤ growthKey st.direction c →
        sampleRow serverId p.header p.state x ∈ snap.table))

/-- No transaction of the log is open. -/
def Process.Settled (serverId : ℤ) (key : LogKey) (s : Process) : Prop :=
  ∀ p ∈ s.waiting, headerKey serverId p.header ≠ key

instance (serverId : ℤ) (key : LogKey) (s : Process) : Decidable (s.Settled serverId key) :=
  inferInstanceAs (Decidable (∀ p ∈ s.waiting, headerKey serverId p.header ≠ key))

/-- What `stop` cancels is of other logs, and its snapshot and the end of the process find no
transaction of the log open. -/
def Process.Finishes (serverId : ℤ) (key : LogKey) (s : Process) : Process.Event → Prop
  | .cancel i => ∀ p ∈ s.waiting[i]?, headerKey serverId p.header ≠ key
  | .stopSnapshot => s.Settled serverId key
  | .restart _ => s.Settled serverId key
  | _ => True

instance (serverId : ℤ) (key : LogKey) (s : Process) :
    (e : Process.Event) → Decidable (s.Finishes serverId key e)
  | .exchange _ => inferInstanceAs (Decidable True)
  | .commit _ => inferInstanceAs (Decidable True)
  | .tickSnapshot => inferInstanceAs (Decidable True)
  | .stop => inferInstanceAs (Decidable True)
  | .cancel i => inferInstanceAs (Decidable (∀ p ∈ s.waiting[i]?, headerKey serverId p.header ≠ key))
  | .stopSnapshot => inferInstanceAs (Decidable (s.Settled serverId key))
  | .restart _ => inferInstanceAs (Decidable (s.Settled serverId key))

/-! ## 3. Why it is kept

What has been opened for the log and is not open any more has been committed, because nothing else
has ended it.  A snapshot that finds nothing open therefore finds all of it in the table, wherever the
cursor is. -/

/-- What has been ingested of the log is in the table or in an open transaction. -/
structure Process.Kept (serverId : ℤ) (key : LogKey) (s : Process) : Prop where
  stored : ∀ p ∈ s.ingested, headerKey serverId p.header = key →
    p ∈ s.waiting ∨ p.In serverId s.db.curveSamples
  covers : s.CoversCursor serverId key

section Kept

variable {cfg : Settings} {dep : Deployment} {serverId : ℤ} {key : LogKey} {s s' : Process}

/-- A snapshot that commits has written rows of the states, and nothing else. -/
theorem eq_of_snapshotIndexState {takes : IndexCacheSnapshot → Bool} {db after : Database}
    {states : List LogState} (h : snapshotIndexState takes serverId db states = some after) :
    after = db ∨ after = { db with
      indexCache := snapshotTable (ownStates serverId states) db.indexCache } := by
  simp only [snapshotIndexState] at h
  split at h
  · exact Or.inl (Option.some.inj h).symm
  · split at h
    · rw [Database.commitSnapshot] at h
      split at h
      · exact Or.inr (Option.some.inj h).symm
      · exact absurd h (by simp [Except.toOption])
    · exact absurd h (by simp)

theorem curveSamples_snapshotIndexState {takes : IndexCacheSnapshot → Bool} {db after : Database}
    {states : List LogState} (h : snapshotIndexState takes serverId db states = some after) :
    after.curveSamples = db.curveSamples := by
  rcases eq_of_snapshotIndexState h with rfl | rfl <;> rfl

/-- A row of the index cache after it was there before, or is one of a state. -/
theorem mem_indexCache_snapshot {takes : IndexCacheSnapshot → Bool} {db after : Database}
    {states : List LogState} (h : snapshotIndexState takes serverId db states = some after)
    {r : IndexCacheSnapshot} (hr : r ∈ after.indexCache) :
    r ∈ db.indexCache ∨ ∃ st ∈ states, r ∈ stateRows st := by
  rcases eq_of_snapshotIndexState h with rfl | rfl
  · exact Or.inl hr
  · refine (mem_snapshotTable hr).imp_right fun ⟨st, hst, hr⟩ => ⟨st, ?_, hr⟩
    exact (mem_ownStates.mp hst).1

/-- A transaction that is not taken out is still open. -/
theorem mem_eraseIdx_of_ne {i : ℕ} {p q : Persist} {ps : List Persist} (hp : ps[i]? = some p)
    (hq : q ∈ ps) (hne : q ≠ p) : q ∈ ps.eraseIdx i := by
  obtain ⟨j, hj⟩ := List.getElem?_of_mem hq
  refine List.mem_eraseIdx_iff_getElem?.mpr ⟨j, fun heq => hne ?_, hj⟩
  rw [heq, hp] at hj
  exact (Option.some.inj hj).symm

/-- **A snapshot that finds no transaction of the log open** saves a cursor that is covered. -/
theorem Process.Kept.snapshot (hk : s.Kept serverId key) (hsettled : s.Settled serverId key) :
    (s.snapshot dep serverId).Kept serverId key := by
  rw [Process.snapshot]
  split
  · exact hk
  · cases hsnap : snapshotIndexState dep.takes serverId s.db
        (s.engine.warm.logStates.map Prod.snd) with
    | none => exact hk
    | some db =>
      have htable := curveSamples_snapshotIndexState hsnap
      refine ⟨fun p hp hkey => ?_, fun snap hsnap' => ?_⟩
      · rw [htable]
        exact hk.stored p hp hkey
      · rcases List.mem_append.mp hsnap' with hold | hnew
        · exact hk.covers snap hold
        · obtain rfl := List.mem_singleton.mp hnew
          intro st _ _ c _ p hp hkey x hx _
          rcases hk.stored p hp hkey with hwaiting | hin
          · exact absurd hkey (hsettled p hwaiting)
          · exact hin x hx

/-- **Every event keeps it**, if `stop` finds no transaction of the log open.  A commit takes a
transaction from the one place to the other; a snapshot changes neither, but is where the promise
has to be redeemed; and the events that could break it, a cancellation and the end of the process,
are excluded for this log by `Process.Finishes`. -/
theorem Process.Kept.next (hk : s.Kept serverId key) {e : Process.Event}
    (hf : s.Finishes serverId key e) (hnext : s.next cfg dep serverId e = some s') :
    s'.Kept serverId key := by
  cases e with
  | exchange x =>
    simp only [Process.next] at hnext
    split at hnext
    · exact absurd hnext (by simp)
    · obtain ⟨engine, -, rfl⟩ := Option.map_eq_some_iff.mp hnext
      refine ⟨fun p hp hkey => ?_, hk.covers⟩
      rcases List.mem_append.mp hp with hp | hp
      · exact (hk.stored p hp hkey).imp_left (List.mem_append_left _)
      · exact Or.inl (List.mem_append_right _ hp)
  | commit i =>
    obtain ⟨p, hp, rfl⟩ := Option.map_eq_some_iff.mp hnext
    refine ⟨fun q hq hkey => ?_, hk.covers⟩
    by_cases heq : q = p
    · subst heq
      exact Or.inr fun x hx => List.mem_append_right _ (List.mem_map_of_mem hx)
    · refine (hk.stored q hq hkey).imp (fun hq => mem_eraseIdx_of_ne hp hq heq) fun hin x hx => ?_
      exact List.mem_append_left _ (hin x hx)
  | tickSnapshot =>
    simp only [Process.next] at hnext
    split at hnext
    · rename_i hidle
      rw [← Option.some.inj hnext]
      -- `gather` has waited for every task, so there is no transaction at all
      refine hk.snapshot fun p hp => ?_
      rw [List.isEmpty_iff.mp hidle.2] at hp
      exact absurd hp List.not_mem_nil
    · exact absurd hnext (by simp)
  | stop =>
    simp only [Process.next] at hnext
    split at hnext
    · exact absurd hnext (by simp)
    · rw [← Option.some.inj hnext]
      exact ⟨hk.stored, hk.covers⟩
  | cancel i =>
    simp only [Process.next] at hnext
    split at hnext
    · obtain ⟨p, hp, rfl⟩ := Option.map_eq_some_iff.mp hnext
      refine ⟨fun q hq hkey => (hk.stored q hq hkey).imp_left fun hq => ?_, hk.covers⟩
      refine mem_eraseIdx_of_ne hp hq fun heq => hf p hp ?_
      rw [← heq]
      exact hkey
    · exact absurd hnext (by simp)
  | stopSnapshot =>
    simp only [Process.next] at hnext
    split at hnext
    · rw [← Option.some.inj hnext]
      exact hk.snapshot hf
    · exact absurd hnext (by simp)
  | restart loaded =>
    rw [← Option.some.inj hnext]
    refine ⟨fun p hp hkey => ?_, hk.covers⟩
    exact Or.inr ((hk.stored p hp hkey).resolve_left fun hwaiting => hf p hwaiting hkey)

/-- **A saved cursor is covered**, in every run in which `stop` finds no transaction of the log open.

The cursor itself plays no part in the argument.  It is ahead of the table from the moment the call
completes to the moment its transaction is committed, and neither knows of the other; what makes a
snapshot honest is only that it comes at no such moment. -/
theorem cursor_covered {server : MockStore} {warm : RingBufferStore} {db : Database}
    {es : List Process.Event}
    (hrun : Run (Process.next cfg dep serverId) (Process.Finishes serverId key)
      (Process.started server warm db) es s) : s.CoversCursor serverId key := by
  have hstart : (Process.started server warm db).Kept serverId key := by
    refine ⟨fun p hp => absurd hp List.not_mem_nil, fun snap hsnap => ?_⟩
    exact absurd hsnap List.not_mem_nil
  exact (hrun.invariant (fun s e s' hk hf hnext => hk.next hf hnext) hstart).covers

end Kept

/-! The logs of `SharedCurves` again.  `stop` cuts off the transaction of one of them, and the other's
has been committed. -/

/-- A process on an empty database, beside their store. -/
def emptyProcess : Process :=
  Process.started twinStore (.init depthSettings.maxSamplesPerCurve) ⟨[], []⟩

/-- The events up to the end of `stop`. -/
def cutTwin : List Process.Event :=
  twinRun.map .exchange ++ [.commit 1, .stop, .cancel 1, .commit 0, .stopSnapshot, .restart true]

/-- The key of one of them. -/
def twinKey (uid : String) : LogKey := ⟨1, "W".toList, "B".toList, uid.toList⟩

/-- Every event can happen, and the log in question has nothing open when `stop` comes. -/
theorem cutTwin_isSome : (replay (Process.next depthSettings depthDeployment 1)
    (fun s e => decide (s.Finishes 1 (twinKey "L2") e)) emptyProcess cutTwin).isSome = true := by
  decide +kernel

def cutTwinEnd : Process := Option.get _ cutTwin_isSome

/-- The cursor of the log is saved, and so are its rows; the other is not covered. -/
theorem cursor_covered_cutTwin :
    (cutTwinEnd.db.cached (twinKey "L2")).map (fun r => cursorFromSnap true r .measuredDepth) =
        [some (indexOf .measuredDepth "30"), some (indexOf .measuredDepth "30")] ∧
      cutTwinEnd.CoversCursor 1 (twinKey "L2") ∧ ¬cutTwinEnd.CoversCursor 1 (twinKey "L1") :=
  ⟨by decide +kernel, cursor_covered (Run.of_isSome cutTwin_isSome), by decide +kernel⟩

/-- One log alone, whose only transaction is cut off. -/
def cutLone : List Process.Event :=
  (loneRun [loneReply ["DEPT", "ROP"] ["10,1", "20,2"]]).map .exchange ++
    [.stop, .cancel 0, .stopSnapshot]

theorem cutLone_isSome : (replay (Process.next depthSettings depthDeployment 1)
    (fun _ _ => decide True) emptyProcess cutLone).isSome = true := by decide +kernel

def cutLoneEnd : Process := Option.get _ cutLone_isSome

/-- **The cursor is ahead of the table**: `stop` saves 20, and the table is empty.  The rows up to
20 are not asked for again after the restart. -/
theorem cursor_ahead :
    Run (Process.next depthSettings depthDeployment 1) (fun _ _ => True) emptyProcess cutLone
        cutLoneEnd ∧
      (cutLoneEnd.db.cached (twinKey "L2")).map (fun r => cursorFromSnap true r .measuredDepth) =
        [some (indexOf .measuredDepth "20"), some (indexOf .measuredDepth "20")] ∧
      cutLoneEnd.db.curveSamples = [] ∧ ¬cutLoneEnd.CoversCursor 1 (twinKey "L2") :=
  ⟨Run.of_isSome cutLone_isSome, by decide +kernel, by decide +kernel, by decide +kernel⟩

end WitsmlViewer

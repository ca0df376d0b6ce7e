/-
# One tick (`IngestionScheduler._tick`)

A tick creates an `_ingest_log` task for each discovered log, those of viewed wells first, and lets
them run beside each other.  A semaphore bounds how many are under way; the others wait for it.  All
of them share the warm store with its log states and buffers, the pub/sub queues, the client and the
database.

A task is cut at its awaits: it waits for the semaphore, for the answer to a request, for the message
of an error code, or for a commit.  The server does not change during the tick; any request of any
task may be answered by an error instead, and any commit may fail.

A task reads the state of its own log only, and writes nothing else that is read back but the rows of
its own log (`step_spec`).  So the tasks are independent, and `tick_independent` is an instance of
what holds of all independent tasks.

`ticks_in_turn` carries it from one tick to the next: ticks one after another, each with an
interleaving of its own, leave every log as the same tasks do when they run one by one.

What the tasks do share is left out of "results" on purpose.  The buffers of a well are appended to
by all its logs, and the queues are published to, in the order in which calls complete;
`SharedCurves` is about that order.  What a log is resumed from and what the table has of it do not
depend on it.
-/
import WitsmlViewer.Lib.Independence
import WitsmlViewer.Hub
import WitsmlViewer.LiveCurves
import WitsmlViewer.ExactlyOnce

namespace WitsmlViewer.Ticks

open Py Runs Independence

/-! ## 1. The tasks of a tick

The world of a tick and one task in it.  A task is at an await and takes one step to the next; the
steps are those of the source between two `await`s, with the exceptions that each of them catches.
-/

/-- What the tasks share. -/
structure World where
  warm : RingBufferStore
  pubsub : Hub.PubSub Stream.Message := {}
  db : Database := ⟨[], []⟩

/-- The surroundings of a tick: `serve` answers for the store, `fault` has an answer that the request
of a log with the given number gets instead, and a commit may fail. -/
structure Environment where
  cfg : Settings
  serverId : ℤ
  host : Host
  serve : LogQuery → Answer
  fault : LogKey → ℕ → Option Answer
  commitFails : LogKey → Bool

/-- The await that a task is at. -/
inductive Phase
  | waiting
  | fetching (task : IngestTask)
  | describing
  | persisting (state : LogState) (samples : List CurveSample)
  | done

namespace Environment

variable (env : Environment)

def key (h : LogHeader) : LogKey := headerKey env.serverId h

/-- The answer to the pending request of a task. -/
def answer (h : LogHeader) (task : IngestTask) : Answer :=
  (env.fault (env.key h) task.fetch.calls).getD (env.serve task.query)

/-- What follows an answer that raises: for an error code, `_error` asks for its message. -/
def raised : Answer → Phase
  | .ok reply => if isError reply.result then .describing else .done
  | .error _ => .done

/-- `_do_ingest_log` from the fetched result to its next await: samples that all have a wire form
are published, and are to be persisted. -/
def ingested (h : LogHeader) (w : World) (task : IngestTask) (result : LogDataResult) :
    World × Phase :=
  match completeIngest env.cfg w.warm task result with
  | .error _ => (w, .done)
  | .ok (warm, samples) =>
    if samples = [] then ({ w with warm := warm }, .done)
    else
      match Stream.dataMessage env.host h.uidWell samples with
      | .error _ => ({ w with warm := warm }, .done)
      | .ok msg =>
        ({ w with warm := warm, pubsub := w.pubsub.publish h.uidWell msg },
          .persisting task.state samples)

/-- `get_log_data` from an answer to the next request, or to the result. -/
def answered (h : LogHeader) (w : World) (task : IngestTask) : World × Phase :=
  match task.call.fetchStep task.fetch (env.answer h task) with
  | .error _ => (w, raised (env.answer h task))
  | .ok (.inl (fetch, query)) => (w, .fetching { task with fetch := fetch, query := query })
  | .ok (.inr result) => env.ingested h w task result

/-- `_ingest_log` from one await to the next.  Whatever is raised is logged. -/
def step (h : LogHeader) : World × Phase → Option (World × Phase)
  | (w, .waiting) =>
    match beginIngest env.cfg env.serverId w.warm h with
    | .ok (some task) => some (w, .fetching task)
    | _ => some (w, .done)
  | (w, .fetching task) => some (env.answered h w task)
  | (w, .describing) => some (w, .done)
  | (w, .persisting state samples) =>
    if env.commitFails (env.key h) then some (w, .done)
    else some ({ w with db := w.db.persistSamples env.serverId h state samples }, .done)
  | (_, .done) => none

/-- The tasks, for the general results. -/
def tasks : Tasks LogHeader LogKey World Phase := ⟨env.key, env.step, .waiting⟩

end Environment

/-- A task between `async with self._sem` and its end. -/
def Phase.holdsSlot : Phase → Bool
  | .waiting | .done => false
  | .fetching _ | .describing | .persisting _ _ => true

/-- `asyncio.Semaphore(max(1, settings.ingest_concurrency))`. -/
def semaphore (ingestConcurrency : ℕ) (phases : List Phase) : Phase → Bool
  | .waiting => phases.countP Phase.holdsSlot < max 1 ingestConcurrency
  | _ => true

/-- `sorted(headers, key=lambda h: 0 if _is_viewed(h) else 1)`. -/
def ordered (isViewed : LogHeader → Bool) (headers : List LogHeader) : List LogHeader :=
  headers.filter isViewed ++ headers.filter (!isViewed ·)

/-- `_is_viewed`. -/
def isViewed (focused : Option Str) (pubsub : Hub.PubSub Stream.Message) (h : LogHeader) : Bool :=
  focused = some h.uidWell || 0 < pubsub.subscriberCount h.uidWell

/-- A tick before its first task is created.  Between two of them it sleeps, so tasks may run before
all of them are there. -/
def tick (focused : Option Str) (headers : List LogHeader) (w : World) :
    Pool LogHeader World Phase where
  shared := w
  pending := ordered (isViewed focused w.pubsub) headers

/-! ## 2. What a task reads and writes

The general results ask for three things: what a task sees of the world, that its steps depend on
nothing else, and that the steps of other tasks leave that alone.  `step_spec` has all three; the
rest of the section assembles it from the awaits. -/

/-- The log that a row belongs to. -/
def rowKey (r : CurveSampleRow) : LogKey := ⟨r.serverId, r.wellUid, r.wellboreUid, r.logUid⟩

namespace World

variable (w w' : World)

/-- The last index of a log, if it has a state. -/
def lastIndex (key : LogKey) : Option Value := (w.warm.getLogState key).bind LogState.lastIndex

/-- The rows of a log in `curve_samples`. -/
def rowsOf (key : LogKey) : Multiset CurveSampleRow :=
  Multiset.ofList (w.db.curveSamples.filter (rowKey · = key))

/-- States are stored under their own keys. -/
def Keyed : Prop := ∀ key state, w.warm.getLogState key = some state → state.key = key

/-- All that a task sees of a world. -/
structure Same (key : LogKey) (w w' : World) : Prop where
  state : w.warm.getLogState key = w'.warm.getLogState key
  rows : w.rowsOf key = w'.rowsOf key

/-- A world with a new state, if there is one, and new rows; its buffers and queues may be any. -/
structure Writes (state : Option LogState) (rows : List CurveSampleRow) (w w' : World) : Prop where
  state : ∀ key, w'.warm.getLogState key =
    (state.filter (LogState.key · = key)).or (w.warm.getLogState key)
  rows : w'.db.curveSamples = w.db.curveSamples ++ rows

theorem same_equivalence (key : LogKey) : Equivalence (Same key) where
  refl _ := ⟨rfl, rfl⟩
  symm h := ⟨h.state.symm, h.rows.symm⟩
  trans h h' := ⟨h.state.trans h'.state, h.rows.trans h'.rows⟩

theorem writes_nothing : Writes none [] w w := ⟨fun _ => rfl, (List.append_nil _).symm⟩

variable {w w'} {state : Option LogState} {rows : List CurveSampleRow}

theorem Writes.rowsOf (h : Writes state rows w w') (key : LogKey) :
    w'.rowsOf key = w.rowsOf key + Multiset.ofList (rows.filter (rowKey · = key)) := by
  rw [World.rowsOf, h.rows, List.filter_append]
  rfl

/-- The same writes keep two worlds the same. -/
theorem Writes.same {v v' : World} {key : LogKey} (h : Writes state rows w w')
    (h' : Writes state rows v v') (hsame : Same key w v) : Same key w' v' := by
  constructor
  · rw [h.state, h'.state, hsame.state]
  · rw [h.rowsOf, h'.rowsOf, hsame.rows]

/-- Writes for one log leave the others alone. -/
theorem Writes.frame {key key' : LogKey} (h : Writes state rows w w')
    (hstate : ∀ st ∈ state, st.key = key) (hrows : ∀ r ∈ rows, rowKey r = key) (hne : key' ≠ key) :
    Same key' w w' := by
  constructor
  · have hnone : state.filter (LogState.key · = key') = none := by
      rw [Option.filter_eq_none_iff]
      intro st hst
      simpa [hstate st hst] using hne.symm
    rw [h.state, hnone]
    rfl
  · have hnil : rows.filter (rowKey · = key') = [] := by
      rw [List.filter_eq_nil_iff]
      intro r hr
      simpa [hrows r hr] using hne.symm
    rw [h.rowsOf, hnil]
    exact (add_zero _).symm

theorem Writes.keyed (h : Writes state rows w w') (hw : w.Keyed) : w'.Keyed := by
  intro key st hst
  rw [h.state, Option.or_eq_some_iff] at hst
  rcases hst with hst | ⟨-, hst⟩
  · simpa using (Option.filter_eq_some_iff.mp hst).2
  · exact hw key st hst

end World

/-- A bound on the steps that a task has before it. -/
def rank : Phase → ℕ
  | .waiting => maxTruncationIterations + 3
  | .fetching task => maxTruncationIterations - task.fetch.calls + 2
  | .describing | .persisting _ _ => 1
  | .done => 0

namespace Environment

open World

variable (env : Environment) (h : LogHeader)

/-- A task under way works on a state of its own log. -/
def Ok : Phase → Prop
  | .fetching task => task.state.key = env.key h
  | _ => True

/-- A task begins on the state of its own log. -/
theorem beginIngest_congr {warm warm' : RingBufferStore}
    (hsame : warm.getLogState (env.key h) = warm'.getLogState (env.key h)) :
    beginIngest env.cfg env.serverId warm h = beginIngest env.cfg env.serverId warm' h := by
  unfold beginIngest
  have hsame : warm.getLogState (headerKey env.serverId h) =
    warm'.getLogState (headerKey env.serverId h) := hsame
  rw [hsame]

/-- A completion raises whatever the warm store is, or it stores one state, of its own log. -/
theorem completeIngest_cases (cfg : Settings) (task : IngestTask) (result : LogDataResult) :
    (∃ e, ∀ warm, completeIngest cfg warm task result = .error e) ∨
      ∃ (state : LogState) (samples : List CurveSample), state.key = task.state.key ∧
        ∀ warm, ∃ warm', completeIngest cfg warm task result = .ok (warm', samples) ∧
          ∀ key, warm'.getLogState key =
            if state.key = key then some state else warm.getLogState key := by
  unfold completeIngest
  cases dedupeBoundary result.block task.state.lastIndex task.state.direction with
  | error e => exact Or.inl ⟨e, fun _ => rfl⟩
  | ok deduped =>
    cases hsamples : deduped.samples cfg with
    | error e => exact Or.inl ⟨e, fun _ => by simp [bind, Except.bind, hsamples]⟩
    | ok samples =>
      cases continuationIndex result.block task.state.direction with
      | error e => exact Or.inl ⟨e, fun _ => by simp [bind, Except.bind, hsamples]⟩
      | ok cursor =>
        refine Or.inr ⟨{ task.state with
          lastIndex := cursor.or task.state.lastIndex
          objectGrowing := some true }, samples, rfl, fun warm => ?_⟩
        refine ⟨_, by simp only [bind, Except.bind, hsamples]; rfl, fun key => ?_⟩
        split
        · exact RingBufferStore.getLogState_putLogState warm _ key
        · exact RingBufferStore.getLogState_putLogState warm _ key

/-- **What follows the fetched result** depends on the task and the result, and writes at most the
state of the task. -/
theorem ingested_spec (task : IngestTask) (result : LogDataResult) :
    ∃ (state : Option LogState) (p : Phase), (∀ st ∈ state, st.key = task.state.key) ∧
      rank p ≤ 1 ∧ env.Ok h p ∧
      ∀ w, ∃ w', env.ingested h w task result = (w', p) ∧ Writes state [] w w' := by
  unfold ingested
  rcases completeIngest_cases env.cfg task result with ⟨e, herror⟩ | ⟨state, samples, hkey, hok⟩
  · refine ⟨none, .done, by simp, Nat.zero_le _, trivial, fun w => ⟨w, ?_, writes_nothing w⟩⟩
    rw [herror]
  · have hwrites : ∀ w warm' pubsub, (∀ key, RingBufferStore.getLogState warm' key =
          if state.key = key then some state else w.warm.getLogState key) →
        Writes (some state) [] w { w with warm := warm', pubsub := pubsub } := by
      intro w warm' pubsub hget
      refine ⟨fun key => ?_, (List.append_nil _).symm⟩
      rw [hget, Option.filter_some]
      by_cases hk : state.key = key <;> simp [hk]
    -- the phase is decided by the samples alone
    by_cases hnil : samples = []
    · refine ⟨some state, .done, by simpa using hkey, Nat.zero_le _, trivial, fun w => ?_⟩
      obtain ⟨warm', hdone, hget⟩ := hok w.warm
      refine ⟨{ w with warm := warm' }, ?_, hwrites w warm' w.pubsub hget⟩
      rw [hdone]
      exact if_pos hnil
    · cases hwire : Stream.dataMessage env.host h.uidWell samples with
      | error e =>
        refine ⟨some state, .done, by simpa using hkey, Nat.zero_le _, trivial, fun w => ?_⟩
        obtain ⟨warm', hdone, hget⟩ := hok w.warm
        refine ⟨{ w with warm := warm' }, ?_, hwrites w warm' w.pubsub hget⟩
        simp only [hdone, if_neg hnil, hwire]
      | ok msg =>
        refine ⟨some state, .persisting task.state samples, by simpa using hkey, le_rfl, trivial,
          fun w => ?_⟩
        obtain ⟨warm', hdone, hget⟩ := hok w.warm
        refine ⟨{ w with warm := warm', pubsub := w.pubsub.publish h.uidWell msg }, ?_,
          hwrites w warm' _ hget⟩
        simp only [hdone, if_neg hnil, hwire]

/-- **What an answer does.** -/
theorem answered_spec (task : IngestTask) :
    ∃ (state : Option LogState) (p : Phase), (∀ st ∈ state, st.key = task.state.key) ∧
      rank p < rank (.fetching task) ∧ (task.state.key = env.key h → env.Ok h p) ∧
      ∀ w, ∃ w', env.answered h w task = (w', p) ∧ Writes state [] w w' := by
  unfold answered
  cases hstep : task.call.fetchStep task.fetch (env.answer h task) with
  | error e =>
    refine ⟨none, raised (env.answer h task), by simp, ?_, ?_, fun w => ⟨w, rfl, writes_nothing w⟩⟩
    · unfold raised
      split
      · split <;> simp [rank]
      · simp [rank]
    · intro _
      unfold raised
      split
      · split <;> trivial
      · trivial
  | ok out =>
    cases out with
    | inl again =>
      obtain ⟨fetch, query⟩ := again
      refine ⟨none, .fetching { task with fetch := fetch, query := query }, by simp, ?_, id,
        fun w => ⟨w, rfl, writes_nothing w⟩⟩
      obtain ⟨reply, next, -, -, -, hagain, hst⟩ := task.call.fetchStep_eq_ok hstep
      obtain ⟨-, hcalls⟩ := hst fetch query rfl
      simp only [Sum.isLeft_inl, Bool.and_eq_true, decide_eq_true_eq] at hagain
      simp only [rank, hcalls]
      omega
    | inr result =>
      obtain ⟨state, p, hstate, hrank, hok, hwrites⟩ := env.ingested_spec h task result
      refine ⟨state, p, hstate, lt_of_le_of_lt hrank ?_, fun _ => hok, hwrites⟩
      simp only [rank]
      omega

/-- **What a step can do**: it writes at most a state and rows of its own log, and does the same in
every world that has the same state of the log.  There is a case for each await.  The two that
write are the answer that completes the fetch, which stores a state, and the commit, which adds
rows; they are two steps, and other tasks may run between them. -/
theorem step_spec {w w' : World} {p p' : Phase} (hstep : env.step h (w, p) = some (w', p')) :
    ∃ (state : Option LogState) (rows : List CurveSampleRow), Writes state rows w w' ∧
      (env.Ok h p → ∀ st ∈ state, st.key = env.key h) ∧ (∀ r ∈ rows, rowKey r = env.key h) ∧
      rank p' < rank p ∧ (w.Keyed → env.Ok h p → env.Ok h p') ∧
      ∀ v, w.warm.getLogState (env.key h) = v.warm.getLogState (env.key h) →
        ∃ v', env.step h (v, p) = some (v', p') ∧ Writes state rows v v' := by
  cases p with
  | waiting =>
    unfold step at hstep
    dsimp only at hstep
    split at hstep
    · rename_i task hbegin
      obtain ⟨rfl, rfl⟩ := Prod.mk.inj (Option.some.inj hstep)
      refine ⟨none, [], writes_nothing w, by simp, by simp, ?_, fun hw _ => ?_, fun v hv => ?_⟩
      · simp only [rank]
        omega
      · obtain ⟨hstate, -⟩ := beginIngest_eq_ok env.cfg env.serverId h hbegin
        change task.state.key = headerKey env.serverId h
        rw [hstate, pollState]
        cases hget : w.warm.getLogState (headerKey env.serverId h) with
        | none => rfl
        | some state => exact hw _ state hget
      · refine ⟨v, ?_, writes_nothing v⟩
        simp only [step, ← env.beginIngest_congr h hv, hbegin]
    · rename_i hnot
      obtain ⟨rfl, rfl⟩ := Prod.mk.inj (Option.some.inj hstep)
      refine ⟨none, [], writes_nothing w, by simp, by simp, by simp [rank], fun _ _ => trivial,
        fun v hv => ⟨v, ?_, writes_nothing v⟩⟩
      unfold step
      dsimp only
      rw [← env.beginIngest_congr h hv]
      split
      · rename_i task hbegin
        exact absurd hbegin (hnot task)
      · rfl
  | fetching task =>
    obtain ⟨state, p, hstate, hrank, hok, hwrites⟩ := env.answered_spec h task
    obtain ⟨w₁, hw, hwrite⟩ := hwrites w
    have hstep := (congrArg some hw).symm.trans hstep
    obtain ⟨rfl, rfl⟩ := Prod.mk.inj (Option.some.inj hstep)
    refine ⟨state, [], hwrite, fun hkey st hst => (hstate st hst).trans hkey, by simp, hrank,
      fun _ => hok, fun v _ => ?_⟩
    obtain ⟨v', hv, hwrite'⟩ := hwrites v
    exact ⟨v', congrArg some hv, hwrite'⟩
  | describing =>
    obtain ⟨rfl, rfl⟩ := Prod.mk.inj (Option.some.inj hstep)
    exact ⟨none, [], writes_nothing w, by simp, by simp, by simp [rank], fun _ _ => trivial,
      fun v _ => ⟨v, rfl, writes_nothing v⟩⟩
  | persisting state samples =>
    unfold step at hstep ⊢
    dsimp only at hstep ⊢
    split at hstep
    · rename_i hfails
      obtain ⟨rfl, rfl⟩ := Prod.mk.inj (Option.some.inj hstep)
      refine ⟨none, [], writes_nothing w, by simp, by simp, by simp [rank], fun _ _ => trivial,
        fun v _ => ⟨v, by rw [if_pos hfails], writes_nothing v⟩⟩
    · rename_i hcommits
      obtain ⟨rfl, rfl⟩ := Prod.mk.inj (Option.some.inj hstep)
      refine ⟨none, samples.map (sampleRow env.serverId h state), ⟨fun _ => rfl, rfl⟩, by simp, ?_,
        by simp [rank], fun _ _ => trivial, fun v _ =>
          ⟨{ v with db := v.db.persistSamples env.serverId h state samples },
            by rw [if_neg hcommits], fun _ => rfl, rfl⟩⟩
      intro r hr
      obtain ⟨x, -, rfl⟩ := List.mem_map.mp hr
      rfl
  | done => simp [step] at hstep

/-- A task has no next step exactly when it is done. -/
theorem step_eq_none {w : World} {p : Phase} : env.step h (w, p) = none ↔ rank p = 0 := by
  cases p with
  | waiting =>
    unfold step
    dsimp only
    split <;> simp [rank]
  | fetching task => simp [step, rank]
  | describing => simp [step, rank]
  | persisting state samples =>
    unfold step
    dsimp only
    split <;> simp [rank]
  | done => simp [step, rank]

/-- **The tasks of a tick are independent.** -/
theorem independent : Independent env.tasks Same Keyed env.Ok rank where
  equiv := same_equivalence
  initial _ := trivial
  keeps hw hok hstep := by
    obtain ⟨state, rows, hwrites, -, -, -, hkeeps, -⟩ := env.step_spec _ hstep
    exact ⟨hwrites.keyed hw, hkeeps hw hok⟩
  frame _ hok hstep hne := by
    obtain ⟨state, rows, hwrites, hstate, hrows, -⟩ := env.step_spec _ hstep
    exact hwrites.frame (hstate hok) hrows hne
  sees hsame hstep := by
    obtain ⟨state, rows, hwrites, -, -, -, -, hagain⟩ := env.step_spec _ hstep
    obtain ⟨v', hv, hwrites'⟩ := hagain _ hsame.state
    exact ⟨v', hv, hwrites.same hwrites' hsame⟩
  falls hstep := by
    obtain ⟨_, _, -, -, -, hrank, -⟩ := env.step_spec _ hstep
    exact hrank
  done := env.step_eq_none _

end Environment

/-- The semaphore always lets some task go on. -/
theorem semaphore_live (ingestConcurrency : ℕ) (phases : List Phase) (hbusy : ∃ p ∈ phases, rank p ≠ 0) :
    ∃ p ∈ phases, rank p ≠ 0 ∧ semaphore ingestConcurrency phases p = true := by
  by_cases hslot : ∃ p ∈ phases, p.holdsSlot = true
  · obtain ⟨p, hmem, hp⟩ := hslot
    refine ⟨p, hmem, ?_, ?_⟩
    · cases p <;> simp_all [Phase.holdsSlot, rank]
    · cases p <;> simp_all [Phase.holdsSlot, semaphore]
  · obtain ⟨p, hmem, hne⟩ := hbusy
    refine ⟨p, hmem, hne, ?_⟩
    have hzero : phases.countP Phase.holdsSlot = 0 := by
      rw [List.countP_eq_zero]
      exact fun q hq hslot' => hslot ⟨q, hq, hslot'⟩
    cases p with
    | waiting => simp [semaphore, hzero]
    | fetching _ | describing | persisting _ _ | done => rfl

/-! ## 3. Independence

The semaphore does not decide about results, only about the order; it must let some task go on, or
a tick might not end. -/

/-- The results of a tick for one log. -/
structure SameResults (key : LogKey) (w w' : World) : Prop where
  lastIndex : w.lastIndex key = w'.lastIndex key
  rows : w.rowsOf key = w'.rowsOf key

theorem World.Same.results {key : LogKey} {w w' : World} (h : World.Same key w w') :
    SameResults key w w' :=
  ⟨by rw [World.lastIndex, World.lastIndex, h.state], h.rows⟩

/-- The tasks of some logs one after another, each to its end. -/
def inTurn (env : Environment) (w : World) (order : List LogHeader) : World :=
  env.tasks.inTurn (rank .waiting) w order

/-- The runs of a tick: any interleaving of its tasks at their awaits. -/
abbrev TickRun (env : Environment) (ingestConcurrency : ℕ) :=
  Run (Independence.next env.tasks (semaphore ingestConcurrency)) fun _ _ => True

/-- Viewed logs come first, and none is left out. -/
theorem ordered_perm (isViewed : LogHeader → Bool) (headers : List LogHeader) :
    (ordered isViewed headers).Perm headers := List.filter_append_perm isViewed headers

variable {env : Environment} {ingestConcurrency : ℕ} {focused : Option Str}
  {headers : List LogHeader} {w : World} {es : List Independence.Event}
  {pool : Pool LogHeader World Phase}

/-- A tick that has ended looks to each log as its tasks in turn do. -/
theorem tick_same (hdistinct : (headers.map env.key).Nodup) (hw : w.Keyed)
    (hrun : TickRun env ingestConcurrency (tick focused headers w) es pool)
    (hdone : pool.Complete env.tasks) {order : List LogHeader} (horder : order.Perm headers)
    (key : LogKey) : World.Same key (inTurn env w order) pool.shared := by
  have hperm := ordered_perm (isViewed focused w.pubsub) headers
  exact env.independent.complete_same_inTurn hw ((hperm.map env.key).nodup_iff.mpr hdistinct) hrun
    hdone le_rfl (horder.trans hperm.symm) key

theorem keyed_init (maxSamples : ℕ) : World.Keyed { warm := .init maxSamples } := by
  intro key state h
  simp [RingBufferStore.init, RingBufferStore.getLogState, Dict.get?] at h

/-- A tick keeps the states under their own keys. -/
theorem tick_keyed (hdistinct : (headers.map env.key).Nodup) (hw : w.Keyed)
    (hrun : TickRun env ingestConcurrency (tick focused headers w) es pool) : pool.shared.Keyed := by
  have hperm := ordered_perm (isViewed focused w.pubsub) headers
  exact (env.independent.follows_run hw ((hperm.map env.key).nodup_iff.mpr hdistinct) hrun).inv

/-- **Concurrent ingestion is independent.**  A completed tick leaves each log's last index and
rows as its tasks do when they run one after another in any order; and without one of the logs,
whether its task fails or not, the results of the others are the same.

The order is any order at all, not only that of the headers.  So neither the semaphore nor the
priority of viewed wells has a part in what is ingested, and a log whose server hangs or raises
costs the others nothing but time.  That logs have distinct keys is what the scheduler's dictionary
gives. -/
theorem tick_independent (hdistinct : (headers.map env.key).Nodup) (hw : w.Keyed)
    (hrun : TickRun env ingestConcurrency (tick focused headers w) es pool)
    (hdone : pool.Complete env.tasks) :
    (∀ order : List LogHeader, order.Perm headers → ∀ key,
      SameResults key (inTurn env w order) pool.shared) ∧
    ∀ (h : LogHeader) (others : List LogHeader), (h :: others).Perm headers →
      ∀ concurrency focused' es' pool',
        TickRun env concurrency (tick focused' others w) es' pool' → pool'.Complete env.tasks →
          ∀ key ≠ env.key h, SameResults key pool'.shared pool.shared := by
  refine ⟨fun order horder key => (tick_same hdistinct hw hrun hdone horder key).results, ?_⟩
  intro h others horder concurrency focused' es' pool' hrun' hdone' key hne
  have hdistinct' : ((h :: others).map env.key).Nodup := (horder.map env.key).nodup_iff.mpr hdistinct
  have hwithout : World.Same key (inTurn env w others) pool'.shared :=
    tick_same (List.nodup_cons.mp hdistinct').2 hw hrun' hdone' (List.Perm.refl _) key
  have hwith : World.Same key (inTurn env w (h :: others)) pool.shared :=
    tick_same hdistinct hw hrun hdone horder key
  have hsame : World.Same key (inTurn env w others) (inTurn env w (h :: others)) :=
    env.independent.inTurn_cons_same hdistinct' hw hne
  have hequiv := World.same_equivalence key
  exact (hequiv.trans (hequiv.symm hwithout) (hequiv.trans hsame hwith)).results

/-! ## 4. Tick after tick

The interleaving of one tick decides about nothing that the next one reads. -/

/-- What a tick meets: the surroundings of its time, the limit of the semaphore, the well that is
looked at, and the logs discovered by then. -/
structure Round where
  env : Environment
  ingestConcurrency : ℕ
  focused : Option Str
  headers : List LogHeader

/-- No log is discovered twice. -/
def Round.Distinct (round : Round) : Prop := (round.headers.map round.env.key).Nodup

/-- Ticks one after another, each run to its end in some interleaving of its tasks. -/
inductive Ticked : World → List Round → World → Prop
  | nil (w : World) : Ticked w [] w
  | cons {w w' : World} {round : Round} {rounds : List Round} {es : List Independence.Event}
      {pool : Pool LogHeader World Phase}
      (run : TickRun round.env round.ingestConcurrency (tick round.focused round.headers w) es pool)
      (done : pool.Complete round.env.tasks) (rest : Ticked pool.shared rounds w') :
      Ticked w (round :: rounds) w'

/-- The same ticks with the tasks of each one after another. -/
def allInTurn (w : World) (rounds : List Round) : World :=
  rounds.foldl (fun w round => inTurn round.env w round.headers) w

/-- One tick beside the sequential one, on worlds that are the same for every log. -/
theorem tick_beside {round : Round} (hdistinct : round.Distinct) {v : World} (hw : w.Keyed)
    (hv : v.Keyed) (hsame : ∀ key, World.Same key v w)
    (hrun : TickRun round.env round.ingestConcurrency (tick round.focused round.headers w) es pool)
    (hdone : pool.Complete round.env.tasks) :
    pool.shared.Keyed ∧ (inTurn round.env v round.headers).Keyed ∧
      ∀ key, World.Same key (inTurn round.env v round.headers) pool.shared := by
  refine ⟨tick_keyed hdistinct hw hrun, round.env.independent.inTurn_inv hv, fun key => ?_⟩
  have hbeside : World.Same key (inTurn round.env v round.headers)
      (inTurn round.env w round.headers) :=
    round.env.independent.inTurn_sees (List.Perm.refl _) hdistinct hv hw hsame key
  exact (World.same_equivalence key).trans hbeside
    (tick_same hdistinct hw hrun hdone (List.Perm.refl _) key)

/-- Ticks and the sequential ones look the same to every log. -/
theorem Ticked.same {rounds : List Round} {w w' v : World} (h : Ticked w rounds w')
    (hdistinct : ∀ round ∈ rounds, round.Distinct) (hw : w.Keyed) (hv : v.Keyed)
    (hsame : ∀ key, World.Same key v w) (key : LogKey) :
    World.Same key (allInTurn v rounds) w' := by
  induction h generalizing v with
  | nil w => exact hsame key
  | cons run done _ ih =>
    obtain ⟨hw', hv', hsame'⟩ := tick_beside (hdistinct _ List.mem_cons_self) hw hv hsame run done
    exact ih (fun round hround => hdistinct round (List.mem_cons_of_mem _ hround)) hw' hv' hsame'

/-- **Tick after tick**: however the tasks of each tick interleave, the ticks can be run to their ends,
every tick ends after a bounded number of events, and in the end each log has the last index and the
rows that it has when all tasks run one after another.

The induction is on the ticks.  A tick starts from where the one before it ended, which depends on the
interleaving there; what does not is the view of each log, and a task looks at nothing else. -/
theorem ticks_in_turn {rounds : List Round} (hdistinct : ∀ round ∈ rounds, round.Distinct)
    (hw : w.Keyed) :
    (∃ w', Ticked w rounds w') ∧
      (∀ w', Ticked w rounds w' → ∀ key, SameResults key (allInTurn w rounds) w') ∧
      ∀ round ∈ rounds, ∀ v es pool,
        TickRun round.env round.ingestConcurrency (tick round.focused round.headers v) es pool →
          es.length ≤ round.headers.length * (rank .waiting + 1) := by
  refine ⟨?_, fun w' h key => (h.same hdistinct hw hw (fun key =>
    (World.same_equivalence key).refl w) key).results, fun round _ v es pool hrun => ?_⟩
  · clear hdistinct hw
    induction rounds generalizing w with
    | nil => exact ⟨w, .nil w⟩
    | cons round rounds ih =>
      obtain ⟨es, pool, hrun, hdone⟩ := round.env.independent.exists_complete
        (semaphore_live round.ingestConcurrency) (tick round.focused round.headers w)
      obtain ⟨w', hrest⟩ := ih (w := pool.shared)
      exact ⟨w', .cons hrun hdone hrest⟩
  · have hbound := round.env.independent.length_le hrun
    have hlength : (ordered (isViewed round.focused v.pubsub) round.headers).length =
        round.headers.length := (ordered_perm _ _).length_eq
    rw [Pool.remaining, tick, hlength, List.map_nil, List.sum_nil, Nat.add_zero] at hbound
    exact hbound

/-! Two logs, one of whose tasks gets an error code for its first request. -/

/-- The header of another log of the wellbore. -/
def otherLogHeader : LogHeader := { depthLogHeader with uid := "M".toList }

def twoLogs : MockStore :=
  storeOf [logElem "L" .measuredDepth .decreasing ["DEPT", "ROP"] ["30,1", "20,2", "10,3"],
    logElem "M" .measuredDepth .decreasing ["DEPT", "ROP"] ["5,1"]]

/-- The first request for one of them gets an error code. -/
def twoLogsEnvironment : Environment where
  cfg := pageSettings
  serverId := 1
  host := .utc
  serve := twoLogs.serve
  fault key n := if key = headerKey 1 otherLogHeader ∧ n = 0 then
      some (.ok { result := -1, logs := .ok [] })
    else none
  commitFails _ := false

def twoLogsTick : Pool LogHeader World Phase :=
  tick none [depthLogHeader, otherLogHeader] { warm := .init 2000 }

def twoLogsEvents : List Independence.Event :=
  [.create, .step 0, .create, .step 1, .step 0, .step 1, .step 0, .step 1, .step 0]

theorem twoLogsEvents_isSome : (replay
    (Independence.next twoLogsEnvironment.tasks (semaphore 5)) (fun _ _ => decide True) twoLogsTick
      twoLogsEvents).isSome = true := by decide +kernel

def twoLogsTicked : Pool LogHeader World Phase := Option.get _ twoLogsEvents_isSome

theorem twoLogsTicked_complete : twoLogsTicked.Complete twoLogsEnvironment.tasks := by
  refine ⟨by decide +kernel, fun e he => Option.isNone_iff_eq_none.mp ?_⟩
  have hall : ∀ e ∈ twoLogsTicked.tasks, (twoLogsEnvironment.tasks.step e.1
      (twoLogsTicked.shared, e.2)).isNone = true := by decide +kernel
  exact hall e he

theorem tick_independent_twoLogs :
    twoLogsTicked.shared.lastIndex depthLogKey = some (indexOf .measuredDepth "10") ∧
      (∀ order : List LogHeader, order.Perm [depthLogHeader, otherLogHeader] → ∀ key,
        SameResults key (inTurn twoLogsEnvironment { warm := .init 2000 } order)
          twoLogsTicked.shared) :=
  ⟨by decide +kernel,
    (tick_independent (by decide +kernel) (keyed_init 2000) (Run.of_isSome twoLogsEvents_isSome)
      twoLogsTicked_complete).1⟩

/-- Two ticks of them, the second with one slot for both: the log that got the error code is behind
after the first, and both are done after the second. -/
def twoRounds : List Round :=
  [⟨twoLogsEnvironment, 5, none, [depthLogHeader, otherLogHeader]⟩,
    ⟨{ twoLogsEnvironment with fault := fun _ _ => none }, 1, none,
      [otherLogHeader, depthLogHeader]⟩]

/-- Both logs are at their ends after the second tick. -/
theorem ticks_in_turn_twoRounds :
    (∃ w', Ticked { warm := .init 2000 } twoRounds w') ∧
      ∀ w', Ticked { warm := .init 2000 } twoRounds w' →
        w'.lastIndex depthLogKey = some (indexOf .measuredDepth "10") ∧
        w'.lastIndex (headerKey 1 otherLogHeader) = some (indexOf .measuredDepth "5") := by
  have hdistinct : ∀ round ∈ twoRounds, round.Distinct := by
    intro round hround
    rcases List.mem_cons.mp hround with rfl | hround
    · exact show (List.map _ _).Nodup by decide +kernel
    · rw [List.mem_singleton.mp hround]
      exact show (List.map _ _).Nodup by decide +kernel
  obtain ⟨hexists, hsame, -⟩ := ticks_in_turn hdistinct (keyed_init 2000)
  refine ⟨hexists, fun w' h => ⟨?_, ?_⟩⟩
  · rw [← (hsame w' h _).lastIndex]
    decide +kernel
  · rw [← (hsame w' h _).lastIndex]
    decide +kernel

end WitsmlViewer.Ticks

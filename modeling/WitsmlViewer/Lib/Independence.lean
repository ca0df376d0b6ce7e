/-
# Independent tasks on a shared state

Tasks share one state, and each is run step by step until it is done.  A pool creates its tasks one
after another and lets any of them take the next step, as far as a gate admits it.

`Independent` is what makes such tasks independent: there is a view of the state for each key, a task
sees and changes only the view of its own key, and no two tasks have the same key.  Then it does not
matter how the steps are interleaved:

* `complete_same`: when all tasks are done, every view is the one that its task would have made on
  its own;
* `complete_same_inTurn`: so it is the one that the tasks make when they run one after another, in
  any order;
* `exists_complete`: every run of a pool can be completed, and `length_le`: no run goes on forever.

The steps are those of a cooperative scheduler: a task gives way between two of its steps and
nowhere else.  Nothing is assumed about fairness, nor about the gate beyond what `exists_complete`
asks of it; the results are about what has been reached when all tasks are done, by whatever
schedule.
-/
import WitsmlViewer.Lib.Runs

namespace Independence

open Runs

variable {ι κ σ φ : Type*}

/-! ## 1. Tasks

A task on its own is a function of the number of steps.  It stops by itself, so more steps than it
needs do no harm, and two numbers that are both large enough give one result (`alone_unique`). -/

/-- How tasks run: the key of each, its next step from a phase on, and the phase that it begins
in. -/
structure Tasks (ι κ σ φ : Type*) where
  key : ι → κ
  step : ι → σ × φ → Option (σ × φ)
  initial : φ

namespace Tasks

variable (T : Tasks ι κ σ φ)

/-- A task on its own, for some steps. -/
def alone (i : ι) : ℕ → σ × φ → σ × φ
  | 0, x => x
  | n + 1, x =>
    match T.step i x with
    | none => x
    | some y => alone i n y

/-- The tasks one after another, `n` steps for each. -/
def inTurn (n : ℕ) (s : σ) (order : List ι) : σ :=
  order.foldl (fun s i => (T.alone i n (s, T.initial)).1) s

variable {T}

/-- A task that is done stays where it is. -/
theorem alone_of_none {i : ι} {x : σ × φ} (h : T.step i x = none) (n : ℕ) :
    T.alone i n x = x := by
  cases n with
  | zero => rfl
  | succ n => simp [alone, h]

theorem alone_add (i : ι) (n m : ℕ) (x : σ × φ) :
    T.alone i (n + m) x = T.alone i m (T.alone i n x) := by
  induction n generalizing x with
  | zero => simp [alone]
  | succ n ih =>
    rw [Nat.add_right_comm]
    cases hstep : T.step i x with
    | none => simp [alone_of_none hstep]
    | some y => simpa [alone, hstep] using ih y

/-- One more step at the end. -/
theorem alone_succ (i : ι) (n : ℕ) (x : σ × φ) :
    T.alone i (n + 1) x = (T.step i (T.alone i n x)).getD (T.alone i n x) := by
  rw [alone_add]
  cases hstep : T.step i (T.alone i n x) <;> simp [alone, hstep]

/-- A task that is done in the end is done with the same result, whenever one looks. -/
theorem alone_unique {i : ι} {n m : ℕ} {x : σ × φ} (hn : T.step i (T.alone i n x) = none)
    (hm : T.step i (T.alone i m x) = none) : T.alone i n x = T.alone i m x := by
  rcases Nat.le_total n m with hle | hle
  · obtain ⟨d, rfl⟩ := Nat.exists_eq_add_of_le hle
    rw [alone_add, alone_of_none hn]
  · obtain ⟨d, rfl⟩ := Nat.exists_eq_add_of_le hle
    rw [alone_add, alone_of_none hm]

end Tasks

/-- The tasks are independent, as seen through `same k`, that is the equality of the views of a key.
`Inv` holds of the states and `Ok` of the phases that occur; `rank` bounds the steps to come. -/
structure Independent (T : Tasks ι κ σ φ) (same : κ → σ → σ → Prop) (Inv : σ → Prop)
    (Ok : ι → φ → Prop) (rank : φ → ℕ) : Prop where
  equiv : ∀ k, Equivalence (same k)
  initial : ∀ i, Ok i T.initial
  keeps : ∀ {i s p s' p'}, Inv s → Ok i p → T.step i (s, p) = some (s', p') → Inv s' ∧ Ok i p'
  frame : ∀ {i s p s' p' k}, Inv s → Ok i p → T.step i (s, p) = some (s', p') → k ≠ T.key i →
    same k s s'
  sees : ∀ {i s t p s' p'}, same (T.key i) s t → T.step i (s, p) = some (s', p') →
    ∃ t', T.step i (t, p) = some (t', p') ∧ same (T.key i) s' t'
  falls : ∀ {i s p s' p'}, T.step i (s, p) = some (s', p') → rank p' < rank p
  done : ∀ {i s p}, T.step i (s, p) = none ↔ rank p = 0

namespace Independent

variable {T : Tasks ι κ σ φ} {same : κ → σ → σ → Prop} {Inv : σ → Prop} {Ok : ι → φ → Prop}
  {rank : φ → ℕ} (hI : Independent T same Inv Ok rank)

include hI

/-! ## 2. One task

The three requirements work together here: a task reads its own view only, so that it does the same
wherever it finds this view (`alone_sees`); it writes its own view only, so that the others are
left alone (`alone_keeps`); and it ends (`alone_done`). -/

/-- **A task does the same to the same view.**  Two states may differ in every other key; neither
the phases nor the view can tell. -/
theorem alone_sees {i : ι} (n : ℕ) {s t : σ} {p : φ} (h : same (T.key i) s t) :
    (T.alone i n (s, p)).2 = (T.alone i n (t, p)).2 ∧
      same (T.key i) (T.alone i n (s, p)).1 (T.alone i n (t, p)).1 := by
  induction n generalizing s t p with
  | zero => exact ⟨rfl, h⟩
  | succ n ih =>
    cases hs : T.step i (s, p) with
    | none =>
      have ht : T.step i (t, p) = none := hI.done.mpr (hI.done.mp hs)
      rw [Tasks.alone_of_none hs, Tasks.alone_of_none ht]
      exact ⟨rfl, h⟩
    | some y =>
      obtain ⟨t', ht, hsame⟩ := hI.sees h hs
      simp only [Tasks.alone, hs, ht]
      exact ih hsame

/-- What a task keeps, and the views that it leaves alone. -/
theorem alone_keeps {i : ι} (n : ℕ) {s : σ} {p : φ} (hs : Inv s) (hp : Ok i p) :
    Inv (T.alone i n (s, p)).1 ∧ ∀ k ≠ T.key i, same k s (T.alone i n (s, p)).1 := by
  induction n generalizing s p with
  | zero => exact ⟨hs, fun k _ => (hI.equiv k).refl s⟩
  | succ n ih =>
    cases hstep : T.step i (s, p) with
    | none =>
      rw [Tasks.alone_of_none hstep]
      exact ⟨hs, fun k _ => (hI.equiv k).refl s⟩
    | some y =>
      obtain ⟨s', p'⟩ := y
      obtain ⟨hs', hp'⟩ := hI.keeps hs hp hstep
      obtain ⟨hinv, hframe⟩ := ih hs' hp'
      simp only [Tasks.alone, hstep]
      exact ⟨hinv, fun k hk => (hI.equiv k).trans (hI.frame hs hp hstep hk) (hframe k hk)⟩

/-- **As many steps as the rank says are enough.** -/
theorem alone_done {i : ι} {n : ℕ} {s : σ} {p : φ} (hn : rank p ≤ n) :
    T.step i (T.alone i n (s, p)) = none := by
  induction n generalizing s p with
  | zero => exact hI.done.mpr (Nat.le_zero.mp hn)
  | succ n ih =>
    cases hstep : T.step i (s, p) with
    | none => rwa [Tasks.alone_of_none hstep]
    | some y =>
      obtain ⟨s', p'⟩ := y
      simp only [Tasks.alone, hstep]
      have hlt := hI.falls hstep
      exact ih (by omega)

/-- The tasks one after another: each view is what its own task makes of it. -/
theorem inTurn_same {n : ℕ} {order : List ι} (hkeys : (order.map T.key).Nodup) {s : σ} (hs : Inv s) :
    (∀ i ∈ order, same (T.key i) (T.alone i n (s, T.initial)).1 (T.inTurn n s order)) ∧
      ∀ k, k ∉ order.map T.key → same k s (T.inTurn n s order) := by
  induction order generalizing s with
  | nil => exact ⟨by simp, fun k _ => (hI.equiv k).refl s⟩
  | cons j order ih =>
    obtain ⟨hj, hkeys⟩ := List.nodup_cons.mp hkeys
    obtain ⟨hs', hframe⟩ := hI.alone_keeps n hs (hI.initial j)
    obtain ⟨hmem, hrest⟩ := ih hkeys hs'
    constructor
    · intro i hi
      rcases List.mem_cons.mp hi with rfl | hi
      · exact hrest _ hj
      · have hne : T.key i ≠ T.key j := by
          intro heq
          exact hj (heq ▸ List.mem_map_of_mem hi)
        exact (hI.equiv _).trans (hI.alone_sees n (hframe _ hne)).2 (hmem i hi)
    · intro k hk
      obtain ⟨hne, hk⟩ := not_or.mp (fun h => hk (List.mem_cons.mpr h))
      exact (hI.equiv k).trans (hframe k hne) (hrest k hk)

/-- **Tasks in turn do the same to the same views**: the order may differ too.

The views are compared key by key.  For a key of some task the others do not matter, before or
after it; for a key of no task none of them matters. -/
theorem inTurn_sees {n : ℕ} {order order' : List ι} (horder : order.Perm order')
    (hkeys : (order.map T.key).Nodup) {s t : σ} (hs : Inv s) (ht : Inv t) (h : ∀ k, same k s t)
    (k : κ) : same k (T.inTurn n s order) (T.inTurn n t order') := by
  have hkeys' : (order'.map T.key).Nodup := (horder.map T.key).nodup_iff.mp hkeys
  obtain ⟨hmem, hrest⟩ := hI.inTurn_same (n := n) hkeys hs
  obtain ⟨hmem', hrest'⟩ := hI.inTurn_same (n := n) hkeys' ht
  by_cases hk : k ∈ order.map T.key
  · obtain ⟨i, hi, rfl⟩ := List.mem_map.mp hk
    have hsees := (hI.alone_sees (i := i) (p := T.initial) n (h _)).2
    exact (hI.equiv _).trans ((hI.equiv _).symm (hmem i hi))
      ((hI.equiv _).trans hsees (hmem' i (horder.subset hi)))
  · have hk' : k ∉ order'.map T.key := fun hk' => hk ((horder.map T.key).mem_iff.mpr hk')
    exact (hI.equiv k).trans ((hI.equiv k).symm (hrest k hk)) ((hI.equiv k).trans (h k) (hrest' k hk'))

/-- The tasks in turn keep what each of them keeps. -/
theorem inTurn_inv {n : ℕ} {order : List ι} {s : σ} (hs : Inv s) : Inv (T.inTurn n s order) := by
  induction order generalizing s with
  | nil => exact hs
  | cons j order ih => exact ih (hI.alone_keeps n hs (hI.initial j)).1

/-- One task more does not change the views of the other keys. -/
theorem inTurn_cons_same {n : ℕ} {j : ι} {order : List ι} (hkeys : ((j :: order).map T.key).Nodup)
    {s : σ} (hs : Inv s) {k : κ} (hne : k ≠ T.key j) :
    same k (T.inTurn n s order) (T.inTurn n s (j :: order)) := by
  obtain ⟨hmem, hrest⟩ := hI.inTurn_same (n := n) (List.nodup_cons.mp hkeys).2 hs
  obtain ⟨hmem', hrest'⟩ := hI.inTurn_same (n := n) hkeys hs
  by_cases hk : k ∈ order.map T.key
  · obtain ⟨i, hi, rfl⟩ := List.mem_map.mp hk
    exact (hI.equiv _).trans ((hI.equiv _).symm (hmem i hi)) (hmem' i (List.mem_cons_of_mem _ hi))
  · have hk' : k ∉ (j :: order).map T.key := by
      rw [List.map_cons, List.mem_cons]
      exact not_or.mpr ⟨hne, hk⟩
    exact (hI.equiv k).trans ((hI.equiv k).symm (hrest k hk)) (hrest' k hk')

end Independent

/-! ## 3. Pools

A pool is the scheduler's side.  Its gate looks at the phases of all tasks and at the one that
would go on, which is enough for a semaphore; which of the admitted tasks goes on is not
determined. -/

/-- The shared state, the tasks still to be created, and those that were, each in its phase. -/
structure Pool (ι σ φ : Type*) where
  shared : σ
  pending : List ι
  tasks : List (ι × φ) := []

inductive Event
  | create
  | step (n : ℕ)
deriving DecidableEq

/-- The next task is created, or one takes its next step if the gate admits it. -/
def next (T : Tasks ι κ σ φ) (admits : List φ → φ → Bool) (pool : Pool ι σ φ) :
    Event → Option (Pool ι σ φ)
  | .create =>
    match pool.pending with
    | [] => none
    | i :: pending =>
      some { pool with pending := pending, tasks := pool.tasks ++ [(i, T.initial)] }
  | .step n =>
    match pool.tasks[n]? with
    | none => none
    | some (i, p) =>
      if admits (pool.tasks.map Prod.snd) p then
        (T.step i (pool.shared, p)).map fun (s, p') =>
          { pool with shared := s, tasks := pool.tasks.set n (i, p') }
      else none

/-- An event changes the shared state by the step of a task, if at all. -/
theorem shared_of_next {T : Tasks ι κ σ φ} {admits : List φ → φ → Bool} {pool pool' : Pool ι σ φ}
    {e : Event} (h : next T admits pool e = some pool') : pool'.shared = pool.shared ∨
      ∃ i p p', T.step i (pool.shared, p) = some (pool'.shared, p') := by
  cases e with
  | create =>
    unfold next at h
    dsimp only at h
    split at h
    · simp at h
    · exact Or.inl (by rw [← Option.some.inj h])
  | step n =>
    unfold next at h
    dsimp only at h
    split at h
    · simp at h
    · rename_i i p _
      split at h
      · obtain ⟨⟨s', p'⟩, hstep, rfl⟩ := Option.map_eq_some_iff.mp h
        exact Or.inr ⟨i, p, p', hstep⟩
      · simp at h

/-- All tasks have been created, and none has a step to take. -/
def Pool.Complete (T : Tasks ι κ σ φ) (pool : Pool ι σ φ) : Prop :=
  pool.pending = [] ∧ ∀ e ∈ pool.tasks, T.step e.1 (pool.shared, e.2) = none

/-- The tasks with one of them in another phase. -/
theorem exists_set {n : ℕ} {tasks : List (ι × φ)} {e : ι × φ} (hn : tasks[n]? = some e) (e' : ι × φ) :
    ∃ before after, tasks = before ++ e :: after ∧ tasks.set n e' = before ++ e' :: after := by
  obtain ⟨hlt, rfl⟩ := List.getElem?_eq_some_iff.mp hn
  obtain ⟨before, after, htasks, -, hset⟩ := List.exists_of_set hlt
  exact ⟨before, after, htasks, hset⟩

/-- What a run keeps: each task is where it would be on its own, and so is the view of its key; the
other views are untouched.

The number of steps that a task has taken is not fixed by the pool's state, so it is quantified
over, one number for each task.  All of the interleaving is in the fact that these numbers are
independent of each other. -/
structure Follows (T : Tasks ι κ σ φ) (same : κ → σ → σ → Prop) (Inv : σ → Prop)
    (Ok : ι → φ → Prop) (s : σ) (is : List ι) (pool : Pool ι σ φ) : Prop where
  members : pool.tasks.map Prod.fst ++ pool.pending = is
  inv : Inv pool.shared
  ok : ∀ e ∈ pool.tasks, Ok e.1 e.2
  alone : ∀ e ∈ pool.tasks, ∃ n, (T.alone e.1 n (s, T.initial)).2 = e.2 ∧
    same (T.key e.1) (T.alone e.1 n (s, T.initial)).1 pool.shared
  others : ∀ k, k ∉ (pool.tasks.map Prod.fst).map T.key → same k s pool.shared

namespace Independent

variable {T : Tasks ι κ σ φ} {same : κ → σ → σ → Prop} {Inv : σ → Prop} {Ok : ι → φ → Prop}
  {rank : φ → ℕ} (hI : Independent T same Inv Ok rank) {admits : List φ → φ → Bool} {s : σ}
  {is : List ι} {pool pool' : Pool ι σ φ}

include hI

theorem follows_start (hs : Inv s) : Follows T same Inv Ok s is { shared := s, pending := is } :=
  ⟨rfl, hs, by simp, by simp, fun k _ => (hI.equiv k).refl s⟩

/-- A task that is created has taken no step. -/
theorem follows_create {i : ι} {pending : List ι} (hf : Follows T same Inv Ok s is pool)
    (hpending : pool.pending = i :: pending) (hkeys : (is.map T.key).Nodup) :
    Follows T same Inv Ok s is
      { pool with pending := pending, tasks := pool.tasks ++ [(i, T.initial)] } := by
  have hnew : T.key i ∉ (pool.tasks.map Prod.fst).map T.key := by
    rw [← hf.members, hpending, List.map_append, List.map_cons] at hkeys
    exact fun hmem => (List.nodup_append.mp hkeys).2.2 _ hmem _ List.mem_cons_self rfl
  constructor
  · rw [← hf.members, hpending]
    simp
  · exact hf.inv
  · intro e he
    rcases List.mem_append.mp he with he | he
    · exact hf.ok e he
    · rw [List.mem_singleton.mp he]
      exact hI.initial i
  · intro e he
    rcases List.mem_append.mp he with he | he
    · exact hf.alone e he
    · rw [List.mem_singleton.mp he]
      exact ⟨0, rfl, hf.others _ hnew⟩
  · intro k hk
    refine hf.others k fun hmem => hk ?_
    rw [List.map_append, List.map_append]
    exact List.mem_append_left _ hmem

/-- **A step of one task**: its own number goes up by one, and nothing else in the invariant looks
at what has changed, because no other task has its key. -/
theorem follows_step {n : ℕ} {i : ι} {p p' : φ} {s' : σ} (hf : Follows T same Inv Ok s is pool)
    (hn : pool.tasks[n]? = some (i, p)) (hstep : T.step i (pool.shared, p) = some (s', p'))
    (hkeys : (is.map T.key).Nodup) :
    Follows T same Inv Ok s is
      { pool with shared := s', tasks := pool.tasks.set n (i, p') } := by
  obtain ⟨before, after, htasks, hset⟩ := exists_set hn (i, p')
  have hmem : (i, p) ∈ pool.tasks := List.mem_of_getElem? hn
  obtain ⟨hinv, hok⟩ := hI.keeps hf.inv (hf.ok _ hmem) hstep
  have hframe : ∀ k ≠ T.key i, same k pool.shared s' := fun k hk =>
    hI.frame hf.inv (hf.ok _ hmem) hstep hk
  have hfst : (pool.tasks.set n (i, p')).map Prod.fst = pool.tasks.map Prod.fst := by
    rw [hset, htasks]
    simp
  -- the other tasks have other keys
  have hapart : ∀ e ∈ pool.tasks.set n (i, p'),
      e = (i, p') ∨ e ∈ pool.tasks ∧ T.key e.1 ≠ T.key i := by
    intro e he
    have hnodup : T.key i ∉ (before ++ after).map fun e => T.key e.1 := by
      have hall : ((pool.tasks.map Prod.fst).map T.key).Nodup := by
        rw [← hf.members, List.map_append] at hkeys
        exact (List.nodup_append.mp hkeys).1
      rw [htasks, List.map_map, List.map_append, List.map_cons, List.nodup_middle] at hall
      rw [List.map_append]
      exact (List.nodup_cons.mp hall).1
    have hother : e ∈ before ++ after → e ∈ pool.tasks ∧ T.key e.1 ≠ T.key i := by
      intro he
      refine ⟨?_, fun heq => hnodup (heq ▸ List.mem_map_of_mem (f := fun e => T.key e.1) he)⟩
      rw [htasks]
      rcases List.mem_append.mp he with he | he
      · exact List.mem_append_left _ he
      · exact List.mem_append_right _ (List.mem_cons_of_mem _ he)
    rw [hset] at he
    rcases List.mem_append.mp he with he | he
    · exact Or.inr (hother (List.mem_append_left _ he))
    · rcases List.mem_cons.mp he with rfl | he
      · exact Or.inl rfl
      · exact Or.inr (hother (List.mem_append_right _ he))
  constructor
  · rw [hfst]
    exact hf.members
  · exact hinv
  · intro e he
    rcases hapart e he with rfl | ⟨he, -⟩
    · exact hok
    · exact hf.ok e he
  · intro e he
    rcases hapart e he with rfl | ⟨he, hne⟩
    · obtain ⟨m, hphase, hsame⟩ := hf.alone _ hmem
      obtain ⟨t, ht, hsame'⟩ := hI.sees ((hI.equiv _).symm hsame) hstep
      have halone : T.alone i (m + 1) (s, T.initial) = (t, p') := by
        have hm : T.alone i m (s, T.initial) = ((T.alone i m (s, T.initial)).1, p) :=
          Prod.ext rfl hphase
        rw [Tasks.alone_succ, hm, ht]
        rfl
      exact ⟨m + 1, by rw [halone], by rw [halone]; exact (hI.equiv _).symm hsame'⟩
    · obtain ⟨m, hphase, hsame⟩ := hf.alone e he
      exact ⟨m, hphase, (hI.equiv _).trans hsame (hframe _ hne)⟩
  · intro k hk
    rw [hfst] at hk
    have hne : k ≠ T.key i := by
      rintro rfl
      exact hk (List.mem_map_of_mem (List.mem_map_of_mem (f := Prod.fst) hmem))
    exact (hI.equiv k).trans (hf.others k hk) (hframe k hne)

theorem follows_next {e : Event} (hf : Follows T same Inv Ok s is pool)
    (hkeys : (is.map T.key).Nodup) (h : next T admits pool e = some pool') :
    Follows T same Inv Ok s is pool' := by
  cases e with
  | create =>
    unfold next at h
    dsimp only at h
    split at h
    · simp at h
    · rename_i i pending hpending
      rw [← Option.some.inj h]
      exact hI.follows_create hf hpending hkeys
  | step n =>
    unfold next at h
    dsimp only at h
    split at h
    · simp at h
    · rename_i i p hn
      split at h
      · obtain ⟨⟨s', p'⟩, hstep, rfl⟩ := Option.map_eq_some_iff.mp h
        exact hI.follows_step hf hn hstep hkeys
      · simp at h

theorem follows_run {es : List Event} (hs : Inv s) (hkeys : (is.map T.key).Nodup)
    (hrun : Run (next T admits) (fun _ _ => True) { shared := s, pending := is } es pool) :
    Follows T same Inv Ok s is pool :=
  hrun.invariant (fun _ _ _ hf _ h => hI.follows_next hf hkeys h) (hI.follows_start hs)

/-- **When all tasks are done, every view is what its task makes of it on its own.**

The run has brought the task to where it would be after some number of steps; as it is done there,
this is where enough steps bring it, by `alone_unique`. -/
theorem complete_same {es : List Event} (hs : Inv s) (hkeys : (is.map T.key).Nodup)
    (hrun : Run (next T admits) (fun _ _ => True) { shared := s, pending := is } es pool)
    (hdone : pool.Complete T) {n : ℕ} (hn : rank T.initial ≤ n) :
    (∀ i ∈ is, same (T.key i) (T.alone i n (s, T.initial)).1 pool.shared) ∧
      ∀ k, k ∉ is.map T.key → same k s pool.shared := by
  have hf := hI.follows_run hs hkeys hrun
  have hmembers : pool.tasks.map Prod.fst = is := by
    rw [← hf.members, hdone.1, List.append_nil]
  constructor
  · intro i hi
    rw [← hmembers] at hi
    obtain ⟨⟨i, p⟩, he, rfl⟩ := List.mem_map.mp hi
    obtain ⟨m, hphase, hsame⟩ := hf.alone _ he
    have hstop : T.step i (T.alone i m (s, T.initial)) = none := by
      have hzero : rank p = 0 := hI.done.mp (hdone.2 _ he)
      have hm : T.alone i m (s, T.initial) = ((T.alone i m (s, T.initial)).1, p) :=
        Prod.ext rfl hphase
      rw [hm]
      exact hI.done.mpr hzero
    rw [Tasks.alone_unique (hI.alone_done hn) hstop]
    exact hsame
  · intro k hk
    exact hf.others k (by rw [hmembers]; exact hk)

/-- **Interleaved or one after another, in any order: every view is the same in the end.**

This is the form in which it is used: the right-hand side is a fold, which has no schedule in it. -/
theorem complete_same_inTurn {es : List Event} (hs : Inv s) (hkeys : (is.map T.key).Nodup)
    (hrun : Run (next T admits) (fun _ _ => True) { shared := s, pending := is } es pool)
    (hdone : pool.Complete T) {n : ℕ} (hn : rank T.initial ≤ n) {order : List ι}
    (horder : order.Perm is) (k : κ) : same k (T.inTurn n s order) pool.shared := by
  obtain ⟨hmem, hrest⟩ := hI.complete_same hs hkeys hrun hdone hn
  have hperm := horder.map T.key
  obtain ⟨hmem', hrest'⟩ := hI.inTurn_same (n := n) (hperm.nodup_iff.mpr hkeys) hs
  by_cases hk : k ∈ is.map T.key
  · obtain ⟨i, hi, rfl⟩ := List.mem_map.mp hk
    exact (hI.equiv _).trans ((hI.equiv _).symm (hmem' i (horder.mem_iff.mpr hi))) (hmem i hi)
  · have hk' : k ∉ order.map T.key := fun h => hk (hperm.mem_iff.mp h)
    exact (hI.equiv k).trans ((hI.equiv k).symm (hrest' k hk')) (hrest k hk)

end Independent

/-! ## 4. Every run ends

A task that is still to be created costs one event, and then at most as many as the rank of its
first phase.  The sum over all tasks goes down with each event. -/

/-- A bound on the events to come. -/
def Pool.remaining (T : Tasks ι κ σ φ) (rank : φ → ℕ) (pool : Pool ι σ φ) : ℕ :=
  pool.pending.length * (rank T.initial + 1) + (pool.tasks.map fun e => rank e.2).sum

namespace Independent

variable {T : Tasks ι κ σ φ} {same : κ → σ → σ → Prop} {Inv : σ → Prop} {Ok : ι → φ → Prop}
  {rank : φ → ℕ} (hI : Independent T same Inv Ok rank) {admits : List φ → φ → Bool}
  {pool pool' : Pool ι σ φ}

include hI

theorem remaining_lt {e : Event} (h : next T admits pool e = some pool') :
    pool'.remaining T rank < pool.remaining T rank := by
  cases e with
  | create =>
    unfold next at h
    dsimp only at h
    split at h
    · simp at h
    · rename_i i pending hpending
      rw [← Option.some.inj h, Pool.remaining, Pool.remaining, hpending, List.length_cons,
        Nat.succ_mul, List.map_append, List.sum_append]
      simp only [List.map_cons, List.map_nil, List.sum_cons, List.sum_nil]
      omega
  | step n =>
    unfold next at h
    dsimp only at h
    split at h
    · simp at h
    · rename_i i p hn
      split at h
      · obtain ⟨⟨s', p'⟩, hstep, rfl⟩ := Option.map_eq_some_iff.mp h
        obtain ⟨before, after, htasks, hset⟩ := exists_set hn (i, p')
        have hlt := hI.falls hstep
        rw [Pool.remaining, Pool.remaining, hset, htasks]
        simp only [List.map_append, List.map_cons, List.sum_append, List.sum_cons]
        omega
      · simp at h

/-- **No run goes on forever.** -/
theorem length_le {es : List Event} (hrun : Run (next T admits) (fun _ _ => True) pool es pool') :
    es.length ≤ pool.remaining T rank := by
  induction hrun with
  | nil s => exact Nat.zero_le _
  | cons _ step _ ih =>
    have hlt := hI.remaining_lt step
    rw [List.length_cons]
    omega

/-- While there is something to do, something can happen. -/
theorem exists_next (hlive : ∀ ps : List φ, (∃ p ∈ ps, rank p ≠ 0) →
      ∃ p ∈ ps, rank p ≠ 0 ∧ admits ps p = true) (hnot : ¬pool.Complete T) :
    ∃ e pool', next T admits pool e = some pool' := by
  by_cases hpending : pool.pending = []
  · have hbusy : ∃ p ∈ pool.tasks.map Prod.snd, rank p ≠ 0 := by
      by_contra hidle
      refine hnot ⟨hpending, fun e he => hI.done.mpr ?_⟩
      by_contra hne
      exact hidle ⟨e.2, List.mem_map_of_mem he, hne⟩
    obtain ⟨p, hmem, hne, hadmits⟩ := hlive _ hbusy
    obtain ⟨⟨i, p⟩, he, rfl⟩ := List.mem_map.mp hmem
    obtain ⟨n, hn⟩ := List.getElem?_of_mem he
    obtain ⟨⟨s', p'⟩, hstep⟩ : ∃ y, T.step i (pool.shared, p) = some y := by
      refine Option.ne_none_iff_exists'.mp fun hnone => hne (hI.done.mp hnone)
    refine ⟨.step n, { pool with shared := s', tasks := pool.tasks.set n (i, p') }, ?_⟩
    simp only [next, hn, hadmits, hstep, if_true]
    rfl
  · obtain ⟨i, pending, hcons⟩ := List.exists_cons_of_ne_nil hpending
    exact ⟨.create, _, by simp only [next, hcons]; rfl⟩

/-- **Every run can be completed**, if the gate always admits some task that is not done.

Without this the results above could be empty: a gate that admits nobody would make every statement
about complete runs true for want of such runs. -/
theorem exists_complete (hlive : ∀ ps : List φ, (∃ p ∈ ps, rank p ≠ 0) →
      ∃ p ∈ ps, rank p ≠ 0 ∧ admits ps p = true) (pool : Pool ι σ φ) :
    ∃ es pool', Run (next T admits) (fun _ _ => True) pool es pool' ∧ pool'.Complete T := by
  induction hm : pool.remaining T rank using Nat.strong_induction_on generalizing pool with
  | h m ih =>
    by_cases hdone : pool.Complete T
    · exact ⟨[], pool, Run.nil pool, hdone⟩
    · obtain ⟨e, pool₁, hnext⟩ := hI.exists_next hlive hdone
      have hlt := hI.remaining_lt hnext
      obtain ⟨es, pool', hrun, hcomplete⟩ := ih _ (hm ▸ hlt) pool₁ rfl
      exact ⟨e :: es, pool', Run.cons trivial hnext hrun, hcomplete⟩

end Independent

end Independence

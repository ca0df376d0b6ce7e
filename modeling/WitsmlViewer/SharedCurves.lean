/-
# Curves that several logs feed (`_do_ingest_log`, `RingBufferStore`)

A buffer is kept for each well and mnemonic, and the logs of a well append to it without leaving their
name.  The calls of different logs run side by side, so what a buffer gets depends on the order in
which they complete.

`shared_curves`: in every run, whatever the server answers, a buffer is the end of the samples that the
completed calls of its well have for its curve, in the order of their completion.  As long as the rows
can be ordered and no answer falls back behind the cursor, each log's part of it is the log's own
stream and no index of one log comes twice, so two samples at one index are of two logs.

`logs_mix` shows that no more is to be had.  The list of a shared curve is in the order of
completion, so an instant can stand before depths in it, and one index can stand in it once for
each log.  It also has one log alone with an index twice, for each of the three things that the
answers must not do.
-/
import WitsmlViewer.NewestLast

namespace WitsmlViewer

open Py Runs

/-! ## 1. Calls against any server

An exchange is the beginning of a call or an answer to one.  The server does not appear as a state:
an answer is anything that `_query` can return, so what the lemmas say of an exchange they say of
every server. -/

namespace Engine

/-- A call begins, or is answered. -/
inductive Exchange
  | begin (h : LogHeader)
  | answer (key : LogKey) (a : Answer)

variable (cfg : Settings) (serverId : ℤ)

/-- No log is ingested by two calls at a time, and the server may answer anything. -/
def exchange (s : Engine) : Exchange → Option Engine
  | .begin h => if (s.calls (headerKey serverId h)).isSome then none else some (s.begun cfg serverId h)
  | .answer key a => (s.calls key).map fun f => s.answered cfg key f a

/-- What the completed calls have for a curve of a well, and for which log. -/
def feeds (s : Engine) (wellUid m : Str) : List (LogKey × CurveSample) :=
  (s.completed.filter (·.key.wellUid = wellUid)).flatMap fun i =>
    (i.samples.filter fun x => decide (x.mnemonic = m)).map fun x => (i.key, x)

end Engine

/-- The page that an answer carries. -/
def Flight.page (f : Flight) (a : Answer) : Option (List LogDataResult) :=
  (a.bind fun reply => reply.logs.bind fun els =>
    parseLogData els (some f.task.call.indexType) none).toOption

/-- What a call's fetch returns on an answer, if it does. -/
def Flight.returned (f : Flight) (a : Answer) : Option LogDataResult :=
  (f.task.call.fetchStep f.task.fetch a).toOption.bind Sum.getRight?

/-- A block has no index, or one at or beyond a cursor. -/
def LogDataBlock.Reaches (block : LogDataBlock) (d : Direction) (last : Option Value) : Prop :=
  ∀ v ∈ last, (∀ r ∈ block.rows, r.index = none) ∨
    ∃ r ∈ block.rows, ∃ i ∈ r.index, growthKey d v ≤ growthKey d i

instance (block : LogDataBlock) (d : Direction) (last : Option Value) :
    Decidable (block.Reaches d last) :=
  inferInstanceAs (Decidable (∀ v ∈ last, (∀ r ∈ block.rows, r.index = none) ∨
    ∃ r ∈ block.rows, ∃ i ∈ r.index, growthKey d v ≤ growthKey d i))

/-- An answer with rows that can be ordered.  The block that it completes has its curves once, and
does not fall back behind the cursor. -/
def Flight.Accepts (f : Flight) (a : Answer) : Prop :=
  (∀ batch ∈ f.page a, ∀ r ∈ batch, ∀ row ∈ r.block.rows, row.Orders f.task.state.indexType) ∧
    ∀ r ∈ f.returned a, r.block.mnemonics.Nodup ∧
      r.block.Reaches f.task.state.direction f.task.state.lastIndex

instance (f : Flight) (a : Answer) : Decidable (f.Accepts a) :=
  inferInstanceAs (Decidable ((∀ batch ∈ f.page a, ∀ r ∈ batch, ∀ row ∈ r.block.rows,
    row.Orders f.task.state.indexType) ∧ ∀ r ∈ f.returned a, r.block.mnemonics.Nodup ∧
      r.block.Reaches f.task.state.direction f.task.state.lastIndex))

/-- The server's answers are such. -/
def Engine.Accepts (s : Engine) : Engine.Exchange → Prop
  | .begin _ => True
  | .answer key a => ∀ f ∈ s.calls key, f.Accepts a

instance (s : Engine) : (x : Engine.Exchange) → Decidable (s.Accepts x)
  | .begin _ => inferInstanceAs (Decidable True)
  | .answer key a => inferInstanceAs (Decidable (∀ f ∈ s.calls key, f.Accepts a))

/-! ## 2. What an answer does

An answer can do three things to a call, whatever is in it.  The case analysis is made once here
and used by every invariant below. -/

section Answered

variable {cfg : Settings} {s s' : Engine} {key : LogKey} {f : Flight} {a : Answer}

/-- A call ends with nothing, goes on, or completes. -/
theorem Engine.answered_cases (hs' : s.answered cfg key f a = s') :
    s' = s.setCall key none ∨
      (∃ fetch query, f.task.call.fetchStep f.task.fetch a = .ok (.inl (fetch, query)) ∧
        s' = s.setCall key (some { f with task := { f.task with fetch := fetch, query := query } })) ∨
      ∃ result warm samples, f.task.call.fetchStep f.task.fetch a = .ok (.inr result) ∧
        completeIngest cfg s.warm f.task result = .ok (warm, samples) ∧
        s' = { s.setCall key none with
          warm := warm
          completed := s.completed ++ [{
            key := key
            start := f.task.state.lastIndex
            code := (a.map Reply.result).toOption.getD 0
            samples := samples
            cursor := (warm.getLogState key).bind LogState.lastIndex }] } := by
  rw [Engine.answered] at hs'
  split at hs'
  · exact Or.inl hs'.symm
  · rename_i fetch query hstep
    exact Or.inr (Or.inl ⟨fetch, query, hstep, hs'.symm⟩)
  · rename_i result hstep
    split at hs'
    · exact Or.inl hs'.symm
    · rename_i warm samples hdone
      exact Or.inr (Or.inr ⟨result, warm, samples, hstep, hdone, hs'.symm⟩)

end Answered

/-! ## 3. Streams

The stream of a log for a curve is the concatenation of what its completed calls had for it.  The
buffer of the curve is fed by the streams of all logs of the well, in the order of completion;
`feeds` keeps the log beside each sample, which the buffer does not. -/

section Feeds

variable {s s' : Engine} {wellUid m : Str}

/-- What a completed call adds to a curve. -/
theorem Engine.feeds_completed {i : Ingested} (h : s'.completed = s.completed ++ [i]) :
    s'.feeds wellUid m = s.feeds wellUid m ++
      if i.key.wellUid = wellUid then
        (i.samples.filter fun x => decide (x.mnemonic = m)).map fun x => (i.key, x)
      else [] := by
  rw [Engine.feeds, h, List.filter_append, List.flatMap_append]
  by_cases hwell : i.key.wellUid = wellUid
  · rw [if_pos hwell, List.filter_cons_of_pos (by simpa using hwell), List.filter_nil,
      List.flatMap_singleton]
    rfl
  · rw [if_neg hwell, List.filter_cons_of_neg (by simpa using hwell), List.filter_nil,
      List.flatMap_nil]
    rfl

/-- **A log's part of a curve is its own stream.** -/
theorem Engine.feeds_own (s : Engine) (key : LogKey) (m : Str) :
    ((s.feeds key.wellUid m).filter fun p => decide (p.1 = key)).map Prod.snd = s.fed key m := by
  rw [Engine.fed, Engine.handed, Engine.feeds]
  induction s.completed with
  | nil => rfl
  | cons i rest ih =>
    by_cases hkey : i.key = key
    · have hpart : ((i.samples.filter fun x => decide (x.mnemonic = m)).map fun x =>
          (i.key, x)).filter (fun p => decide (p.1 = key)) =
            (i.samples.filter fun x => decide (x.mnemonic = m)).map fun x => (i.key, x) := by
        refine List.filter_eq_self.mpr fun p hp => ?_
        obtain ⟨x, -, rfl⟩ := List.mem_map.mp hp
        exact decide_eq_true hkey
      rw [List.filter_cons_of_pos (by simp [hkey]), List.filter_cons_of_pos (by simp [hkey]),
        List.flatMap_cons, List.flatMap_cons, List.filter_append, List.filter_append, hpart,
        List.map_append, ih, List.map_map]
      exact congrArg (· ++ _) (List.map_id _)
    · have hpart : ((i.samples.filter fun x => decide (x.mnemonic = m)).map fun x =>
          (i.key, x)).filter (fun p => decide (p.1 = key)) = [] := by
        refine List.filter_eq_nil_iff.mpr fun p hp => ?_
        obtain ⟨x, -, rfl⟩ := List.mem_map.mp hp
        simpa using hkey
      rw [List.filter_cons_of_neg (p := fun i : Ingested => decide (i.key = key)) (by simp [hkey])]
      by_cases hwell : i.key.wellUid = key.wellUid
      · rw [List.filter_cons_of_pos (by simp [hwell]), List.flatMap_cons, List.filter_append, hpart,
          List.nil_append]
        exact ih
      · rw [List.filter_cons_of_neg (by simp [hwell])]
        exact ih

/-- What feeds a curve is a sample of a completed call of the well. -/
theorem Engine.mem_feeds {p : LogKey × CurveSample} :
    p ∈ s.feeds wellUid m ↔ p.1.wellUid = wellUid ∧ p.2 ∈ s.fed p.1 m := by
  constructor
  · intro hp
    have hwell : p.1.wellUid = wellUid := by
      obtain ⟨i, hi, hp⟩ := List.mem_flatMap.mp hp
      obtain ⟨x, -, rfl⟩ := List.mem_map.mp hp
      exact of_decide_eq_true (List.mem_filter.mp hi).2
    refine ⟨hwell, ?_⟩
    rw [← s.feeds_own p.1 m, hwell]
    exact List.mem_map_of_mem (List.mem_filter.mpr ⟨hp, decide_eq_true rfl⟩)
  · rintro ⟨rfl, hp⟩
    rw [← s.feeds_own p.1 m] at hp
    obtain ⟨q, hq, heq⟩ := List.mem_map.mp hp
    obtain ⟨hq, hkey⟩ := List.mem_filter.mp hq
    obtain rfl : q = p := Prod.ext (of_decide_eq_true hkey) heq
    exact hq

end Feeds

/-! ## 4. The order within a call

`parse_log_data` has sorted the rows by the time they are filtered, so a call's samples ascend for
either direction.  For a decreasing log this makes the stream as a whole zigzag, a call at a time;
that is why the order across calls is claimed for increasing logs only (`LogState.Leads`). -/

section Within

variable {block : LogDataBlock} {d : Direction} {last : Option Value}

/-- The samples of a row are in the order of its block's mnemonics. -/
theorem mnemonics_samplesOf (block : LogDataBlock) (r : Row) :
    ((block.samplesOf r).map CurveSample.mnemonic).Sublist (block.mnemonics.drop 1) := by
  have hkept : ∀ (idx : Value) (columns : List (Str × ℕ)),
      ((columns.filterMap fun c => (r.cells[c.2 - 1]?).join.map (block.cellSample idx c.2 c.1)).map
        CurveSample.mnemonic).Sublist (columns.map Prod.fst) := by
    intro idx columns
    induction columns with
    | nil => exact List.Sublist.slnil
    | cons c columns ih =>
      cases hcell : (r.cells[c.2 - 1]?).join with
      | none =>
        rw [List.filterMap_cons_none (by rw [hcell]; rfl)]
        exact ih.cons _
      | some v =>
        rw [List.filterMap_cons_some (b := block.cellSample idx c.2 c.1 v) (by rw [hcell]; rfl)]
        cases v with
        | num x => exact ih.cons_cons c.1
        | text t => exact ih.cons_cons c.1
  rw [LogDataBlock.samplesOf]
  cases hindex : r.index with
  | none => exact List.nil_sublist _
  | some idx =>
    have hcolumns := hkept idx ((block.mnemonics.drop 1).zipIdx 1)
    rwa [List.zipIdx_map_fst] at hcolumns

/-- **Within a call the samples of a curve are strictly ascending**, if the block has it once. -/
theorem newSamples_strict (hsorted : block.rows.Pairwise fun a b => a.rank < b.rank)
    (hnodup : block.mnemonics.Nodup) (m : Str) :
    ((newSamples block d last).filter fun x => decide (x.mnemonic = m)).Pairwise fun x y =>
      x.index.rank < y.index.rank := by
  rw [newSamples, List.filter_flatMap]
  refine List.pairwise_flatMap.mpr ⟨fun r _ => ?_, ?_⟩
  · have hapart : (block.samplesOf r).Pairwise fun x y => x.mnemonic ≠ y.mnemonic :=
      List.pairwise_map.mp ((hnodup.sublist (List.drop_sublist _ _)).sublist
        (mnemonics_samplesOf block r))
    refine (hapart.sublist List.filter_sublist).imp_of_mem fun {x y} hx hy hne => ?_
    exact absurd ((of_decide_eq_true (List.mem_filter.mp hx).2).trans
      (of_decide_eq_true (List.mem_filter.mp hy).2).symm) hne
  · refine (hsorted.sublist List.filter_sublist).imp fun {a b} hab x hx y hy => ?_
    rw [← Row.rank_of_index (index_of_mem_samplesOf (List.mem_filter.mp hx).1),
      ← Row.rank_of_index (index_of_mem_samplesOf (List.mem_filter.mp hy).1)]
    exact hab

end Within

/-! ## 5. What a run keeps

Three layers.  A call works on its log's state as it still is, since nothing else writes that state
while the call is under way; that needs no account of the samples (`Engine.Guided`).  What a log has
handed on stays behind its cursor, in whatever order it is kept (`LogState.Covers`), so what lies
strictly beyond the cursor is new to it.  And in the order of completion it ascends, for an increasing
log (`LogState.Leads`). -/

/-- A call of a log that is under way: it works on the log's state as it still is, and its pages are
ordered. -/
structure Flight.Current (f : Flight) (key : LogKey) (state : Option LogState) : Prop where
  keyed : f.task.state.key = key
  well : f.task.header.uidWell = key.wellUid
  stored : ∀ st, state = some st → f.task.state = st
  fresh : state = none → f.task.state.lastIndex = none
  indexType : f.task.call.indexType = f.task.state.indexType
  pages : LogDataCall.HoldsOrdered f.task.state.indexType f.task.fetch

/-- States are stored under their own keys with cursors that can be ordered, and calls are current. -/
structure Engine.Guided (s : Engine) : Prop where
  keyed : ∀ key st, s.warm.getLogState key = some st → st.key = key
  ordered : ∀ key st, s.warm.getLogState key = some st →
    ∀ v, st.lastIndex = some v → (aware v).Orders st.indexType
  flight : ∀ key f, s.calls key = some f → f.Current key (s.warm.getLogState key)

/-- A call completes with a block of ordered rows that reaches its cursor: the state with its new
cursor and the samples beyond the old one go to the warm store. -/
structure Engine.Hands (key : LogKey) (f : Flight) (block : LogDataBlock) (cursor : Option Value)
    (i : Ingested) (s s' : Engine) : Prop where
  rows : ∀ r ∈ block.rows, r.Orders f.task.state.indexType
  sorted : block.rows.Pairwise fun a b => a.rank < b.rank
  nodup : block.mnemonics.Nodup
  reaches : block.Reaches f.task.state.direction f.task.state.lastIndex
  continuation : continuationIndex block f.task.state.direction = .ok cursor
  own : i.key = key
  samples : i.samples = newSamples block f.task.state.direction f.task.state.lastIndex
  after : s' = { s.setCall key none with
    warm := s.warm.ingest f.task.header.uidWell f.task.state cursor i.samples
    completed := s.completed ++ [i] }

/-- No call begins: those that are under way were, for the same header and on the same state. -/
def Engine.Continues (s s' : Engine) : Prop :=
  ∀ key f', s'.calls key = some f' → ∃ f, s.calls key = some f ∧
    f'.task.header = f.task.header ∧ f'.task.state = f.task.state

/-- Samples that a log has left behind: they are of its kind, none lies beyond its cursor, and no
two of one curve are at one index. -/
structure LogState.Covers (st : LogState) (samples : List CurveSample) : Prop where
  kind : ∀ x ∈ samples, x.index.Orders st.indexType
  behind : ∀ x ∈ samples, NotBehind st.direction (some x.index) st.lastIndex
  distinct : ∀ m, (samples.filter fun x => decide (x.mnemonic = m)).Pairwise fun x y =>
    x.index.rank ≠ y.index.rank

/-- A log's state, and what its completed calls have handed on, in this order. -/
structure LogState.Leads (st : LogState) (samples : List CurveSample) : Prop extends
    st.Covers samples where
  ascending : st.direction = .increasing → ∀ m,
    (samples.filter fun x => decide (x.mnemonic = m)).Pairwise fun x y => x.index.rank < y.index.rank

/-- The invariant. -/
structure Engine.Streams (s : Engine) : Prop extends s.Guided where
  leads : ∀ key st, s.warm.getLogState key = some st → st.Leads (s.handed key)
  fresh : ∀ key, s.warm.getLogState key = none → s.handed key = []
  buffer : ∀ wellUid m, s.warm.buffer (wellUid, m) =
    lastN s.warm.maxSamples ((s.feeds wellUid m).map Prod.snd)

section Covers

variable {st : LogState} {old : List CurveSample} {block : LogDataBlock} {cursor : Option Value}

/-- The order does not matter. -/
theorem LogState.Covers.subperm {samples : List CurveSample} (hc : st.Covers samples)
    (h : old.Subperm samples) : st.Covers old := by
  refine ⟨fun x hx => hc.kind x (h.subset hx), fun x hx => hc.behind x (h.subset hx), fun m => ?_⟩
  obtain ⟨mid, hperm, hsub⟩ := h
  have hsymm : ∀ {x y : CurveSample}, x.index.rank ≠ y.index.rank → y.index.rank ≠ x.index.rank :=
    fun hne => hne.symm
  exact ((hperm.filter _).pairwise_iff hsymm).mp ((hc.distinct m).sublist (hsub.filter _))

/-- Every old sample is before every new one.  The old ones are not beyond the cursor, and the new
ones strictly are. -/
theorem LogState.Covers.before (hc : st.Covers old) :
    ∀ x ∈ old, ∀ y ∈ newSamples block st.direction st.lastIndex,
      growthKey st.direction x.index < growthKey st.direction y.index := by
  intro x hx y hy
  obtain ⟨-, -, -, hbeyond⟩ := mem_newSamples hy
  have hbehind := hc.behind x hx
  cases hv : st.lastIndex with
  | none =>
    rw [hv] at hbehind
    exact hbehind.elim
  | some v =>
    rw [hv] at hbehind
    exact lt_of_le_of_lt hbehind (hbeyond v hv)

theorem rank_ne_of_growthKey_lt {d : Direction} {v w : Value} (h : growthKey d v < growthKey d w) :
    v.rank ≠ w.rank := by
  rintro heq
  cases d <;> simp [growthKey, heq] at h

/-- **What a call of a log hands on is new to it**: it lies beyond all that the log has left
behind, and the cursor moves past it.  The block must reach the cursor.  If it did not, the new
cursor would be behind the old one, and what the log had left behind would be ahead of it. -/
theorem LogState.Covers.append (hc : st.Covers old)
    (hord : ∀ r ∈ block.rows, r.Orders st.indexType)
    (hsorted : block.rows.Pairwise fun a b => a.rank < b.rank) (hnodup : block.mnemonics.Nodup)
    (hreach : block.Reaches st.direction st.lastIndex)
    (hcursor : continuationIndex block st.direction = .ok cursor) :
    LogState.Covers { st with
        lastIndex := cursor.or st.lastIndex
        objectGrowing := some true }
      (old ++ newSamples block st.direction st.lastIndex) := by
  refine ⟨fun x hx => ?_, fun x hx => ?_, fun m => ?_⟩
  · rcases List.mem_append.mp hx with hx | hx
    · exact hc.kind x hx
    · obtain ⟨r, hr, hindex, -⟩ := mem_newSamples hx
      exact hord r hr _ hindex
  · rcases List.mem_append.mp hx with hx | hx
    · exact (hc.behind x hx).trans (notBehind_cursor hord hcursor hreach)
    · obtain ⟨r, hr, hindex, -⟩ := mem_newSamples hx
      exact notBehind_of_mem hord hcursor hr hindex st.lastIndex
  · rw [List.filter_append]
    refine List.pairwise_append.mpr ⟨hc.distinct m,
      (newSamples_strict hsorted hnodup m).imp fun hlt => hlt.ne, fun x hx y hy => ?_⟩
    exact rank_ne_of_growthKey_lt
      (hc.before x (List.mem_filter.mp hx).1 y (List.mem_filter.mp hy).1)

/-- The same in order. -/
theorem LogState.Leads.append (hl : st.Leads old)
    (hord : ∀ r ∈ block.rows, r.Orders st.indexType)
    (hsorted : block.rows.Pairwise fun a b => a.rank < b.rank) (hnodup : block.mnemonics.Nodup)
    (hreach : block.Reaches st.direction st.lastIndex)
    (hcursor : continuationIndex block st.direction = .ok cursor) :
    LogState.Leads { st with
        lastIndex := cursor.or st.lastIndex
        objectGrowing := some true }
      (old ++ newSamples block st.direction st.lastIndex) := by
  refine ⟨hl.toCovers.append hord hsorted hnodup hreach hcursor, fun hinc m => ?_⟩
  rw [List.filter_append]
  refine List.pairwise_append.mpr ⟨hl.ascending hinc m, newSamples_strict hsorted hnodup m,
    fun x hx y hy => ?_⟩
  have hlt := hl.before x (List.mem_filter.mp hx).1 y (List.mem_filter.mp hy).1
  rwa [show st.direction = .increasing from hinc] at hlt

end Covers

section Kept

variable {cfg : Settings} {serverId : ℤ} {s s' : Engine} {key : LogKey} {f : Flight}

/-- A call that ends or goes on leaves everything else as it was. -/
theorem Engine.Guided.setCall (hi : s.Guided) {f : Option Flight}
    (hf : ∀ f' ∈ f, f'.Current key (s.warm.getLogState key)) : (s.setCall key f).Guided := by
  refine ⟨hi.keyed, hi.ordered, fun key' f' hcall => ?_⟩
  by_cases hkey : key' = key
  · subst hkey
    rw [Engine.setCall_self] at hcall
    exact hf f' hcall
  · rw [Engine.setCall_of_ne s f hkey] at hcall
    exact hi.flight key' f' hcall

/-- **A call begins on the state of its log.** -/
theorem Engine.Guided.begun (hi : s.Guided) (h : LogHeader) : (s.begun cfg serverId h).Guided := by
  rw [Engine.begun]
  split
  · rename_i task hbegin
    obtain ⟨hstate, hcall, q, hstart⟩ := beginIngest_eq_ok cfg serverId h hbegin
    have htask : task.header = h ∧ task.fetch.blocks = [] := by
      rw [beginIngest] at hbegin
      split at hbegin
      · exact absurd hbegin (by simp)
      · obtain ⟨⟨fetch, query⟩, hfetch, heq⟩ := map_eq_ok.mp hbegin
        obtain rfl := Option.some.inj heq
        obtain ⟨q', -, heq⟩ := map_eq_ok.mp hfetch
        obtain ⟨rfl, -⟩ := Prod.mk.inj heq
        exact ⟨rfl, rfl⟩
    refine hi.setCall fun f' hf' => ?_
    obtain rfl := Option.some.inj hf'
    refine ⟨?_, congrArg LogHeader.uidWell htask.1, fun st hst => ?_, fun hnone => ?_, ?_, ?_⟩
    · dsimp only
      rw [hstate, pollState]
      cases hget : s.warm.getLogState (headerKey serverId h) with
      | none => rfl
      | some st => exact hi.keyed _ st hget
    · dsimp only
      rw [hstate, pollState, hst, Option.getD_some]
    · dsimp only
      rw [hstate, pollState, hnone, Option.getD_none]
      rfl
    · dsimp only
      rw [hcall, hstate]
      rfl
    · intro b hb
      rw [show (⟨task, s.warm⟩ : Flight).task.fetch.blocks = [] from htask.2] at hb
      exact absurd hb List.not_mem_nil
  · exact hi

/-- Beginning leaves everything but the call as it was. -/
theorem Engine.begun_spec (cfg : Settings) (serverId : ℤ) (s : Engine) (h : LogHeader) :
    (s.begun cfg serverId h).warm = s.warm ∧ (s.begun cfg serverId h).completed = s.completed ∧
      ∀ key f, (s.begun cfg serverId h).calls key = some f → s.calls key = some f ∨
        key = headerKey serverId h ∧ f.task.header = h ∧
          f.task.state = pollState serverId h s.warm := by
  rw [Engine.begun]
  split
  · rename_i task hbegin
    refine ⟨rfl, rfl, fun key f hf => ?_⟩
    by_cases hkey : key = headerKey serverId h
    · subst hkey
      rw [Engine.setCall_self] at hf
      obtain rfl := Option.some.inj hf
      exact Or.inr ⟨rfl, header_of_beginIngest cfg serverId h hbegin,
        (beginIngest_eq_ok cfg serverId h hbegin).1⟩
    · rw [Engine.setCall_of_ne s _ hkey] at hf
      exact Or.inl hf
  · exact ⟨rfl, rfl, fun key f hf => Or.inl hf⟩

/-- What an accepted answer makes of the pages: they are ordered still, or they are returned. -/
theorem Flight.Accepts.step {st : Option LogState} {a : Answer} (ha : f.Accepts a)
    (hf : f.Current key st) :
    (∀ fetch query, f.task.call.fetchStep f.task.fetch a = .ok (.inl (fetch, query)) →
        LogDataCall.HoldsOrdered f.task.state.indexType fetch) ∧
      ∀ result, f.task.call.fetchStep f.task.fetch a = .ok (.inr result) →
        (∀ r ∈ result.block.rows, r.Orders f.task.state.indexType) ∧
          (result.block.rows.Pairwise fun a b => a.rank < b.rank) ∧ result.block.mnemonics.Nodup ∧
          result.block.Reaches f.task.state.direction f.task.state.lastIndex := by
  have hwell : ∀ reply els batch, a = .ok reply → reply.logs = .ok els →
      parseLogData els (some f.task.call.indexType) none = .ok batch →
      ∀ r ∈ batch, ∀ row ∈ r.block.rows, row.Orders f.task.state.indexType := by
    intro reply els batch hreply hels hbatch
    refine ha.1 batch ?_
    rw [Flight.page, hreply]
    change (reply.logs.bind fun els =>
      parseLogData els (some f.task.call.indexType) none).toOption = some batch
    rw [hels]
    change (parseLogData els (some f.task.call.indexType) none).toOption = some batch
    rw [hbatch]
    rfl
  refine ⟨fun fetch query hstep => ?_, fun result hstep => ?_⟩
  · exact (f.task.call.fetchStep_ordered hstep hwell hf.pages).1 fetch query rfl
  · obtain ⟨st', hst', hresult⟩ := (f.task.call.fetchStep_ordered hstep hwell hf.pages).2 result rfl
    exact ⟨f.task.call.result_orders hresult hst', f.task.call.result_ascending hresult hst',
      ha.2 result (by rw [Flight.returned, hstep]; rfl)⟩

/-- The state of every log after a call of one has completed. -/
theorem Engine.Hands.getLogState {block : LogDataBlock} {cursor : Option Value} {i : Ingested}
    (hh : Engine.Hands key f block cursor i s s') (hf : f.task.state.key = key) (key' : LogKey) :
    s'.warm.getLogState key' = if key = key' then some { f.task.state with
        lastIndex := cursor.or f.task.state.lastIndex
        objectGrowing := some true } else s.warm.getLogState key' := by
  rw [hh.after]
  dsimp only
  rw [getLogState_ingest, hf]

/-- A completed call is over, and the others are as they were. -/
theorem Engine.Hands.calls {block : LogDataBlock} {cursor : Option Value} {i : Ingested}
    (hh : Engine.Hands key f block cursor i s s') {key' : LogKey} {f' : Flight}
    (hf' : s'.calls key' = some f') : key' ≠ key ∧ s.calls key' = some f' := by
  rw [hh.after] at hf'
  dsimp only at hf'
  by_cases hkey : key' = key
  · subst hkey
    rw [Engine.setCall_self] at hf'
    exact absurd hf' (by simp)
  · rw [Engine.setCall_of_ne s none hkey] at hf'
    exact ⟨hkey, hf'⟩

/-- A completed call leaves every other call current. -/
theorem Engine.Guided.hands (hi : s.Guided) (hcall : s.calls key = some f) {block : LogDataBlock}
    {cursor : Option Value} {i : Ingested} (hh : Engine.Hands key f block cursor i s s')
    (hordered : ∀ v, f.task.state.lastIndex = some v → (aware v).Orders f.task.state.indexType) :
    s'.Guided := by
  have hf := hi.flight key f hcall
  have hget := hh.getLogState hf.keyed
  refine ⟨fun key' st hst => ?_, fun key' st hst => ?_, fun key' f' hcall' => ?_⟩
  · rw [hget] at hst
    split at hst
    · rename_i h
      rw [← Option.some.inj hst, ← h]
      exact hf.keyed
    · exact hi.keyed key' st hst
  · rw [hget] at hst
    split at hst
    · rw [← Option.some.inj hst]
      exact orders_cursor hh.rows hh.continuation hordered
    · exact hi.ordered key' st hst
  · obtain ⟨hne, hcall'⟩ := hh.calls hcall'
    rw [hget, if_neg hne.symm]
    exact hi.flight key' f' hcall'

/-- The cursor that a call works from can be ordered. -/
theorem Engine.Guided.ordered_flight (hi : s.Guided) (hf : f.Current key (s.warm.getLogState key)) :
    ∀ v, f.task.state.lastIndex = some v → (aware v).Orders f.task.state.indexType := by
  cases hget : s.warm.getLogState key with
  | none =>
    intro v hv
    rw [hf.fresh hget] at hv
    exact absurd hv (by simp)
  | some st =>
    rw [hf.stored st hget]
    exact hi.ordered key st hget

/-- **What an accepted answer does**: the call goes on or ends without a trace, or it hands on a
block. -/
theorem Engine.Guided.answered (hi : s.Guided) {a : Answer} (hcall : s.calls key = some f)
    (ha : f.Accepts a) (hs' : s.answered cfg key f a = s') :
    s'.Guided ∧ s.Continues s' ∧ ((s'.warm = s.warm ∧ s'.completed = s.completed) ∨
      ∃ block cursor i, Engine.Hands key f block cursor i s s') := by
  have hf := hi.flight key f hcall
  have hset : ∀ f' : Option Flight, (∀ g ∈ f', g.task.header = f.task.header ∧
      g.task.state = f.task.state) → s.Continues (s.setCall key f') := by
    intro f' hf' key' g hg
    by_cases hkey : key' = key
    · subst hkey
      rw [Engine.setCall_self] at hg
      exact ⟨f, hcall, hf' g hg⟩
    · rw [Engine.setCall_of_ne s f' hkey] at hg
      exact ⟨g, hg, rfl, rfl⟩
  obtain ⟨hon, hreturned⟩ := ha.step hf
  rcases Engine.answered_cases hs' with rfl | ⟨fetch, query, hstep, rfl⟩ |
    ⟨result, warm, samples, hstep, hdone, rfl⟩
  · exact ⟨hi.setCall (by simp), hset none (by simp), Or.inl ⟨rfl, rfl⟩⟩
  · refine ⟨hi.setCall fun f' hf' => ?_, hset _ fun g hg => ?_, Or.inl ⟨rfl, rfl⟩⟩
    · obtain rfl := Option.some.inj hf'
      exact ⟨hf.keyed, hf.well, hf.stored, hf.fresh, hf.indexType, hon fetch query hstep⟩
    · obtain rfl := Option.some.inj hg
      exact ⟨rfl, rfl⟩
  · obtain ⟨hord, hsorted, hnodup, hreach⟩ := hreturned result hstep
    have hordered := hi.ordered_flight hf
    obtain ⟨cursor, hcursor, heq⟩ := completeIngest_eq cfg s.warm hord hordered
    obtain ⟨rfl, rfl⟩ := Prod.mk.inj (Except.ok.inj (hdone.symm.trans heq))
    have hbrings : ∃ i, Engine.Hands key f result.block cursor i s (s.answered cfg key f a) :=
      ⟨{ key := key
         start := f.task.state.lastIndex
         code := (a.map Reply.result).toOption.getD 0
         samples := newSamples result.block f.task.state.direction f.task.state.lastIndex
         cursor := ((s.warm.ingest f.task.header.uidWell f.task.state cursor
           (newSamples result.block f.task.state.direction f.task.state.lastIndex)).getLogState
             key).bind LogState.lastIndex },
        hord, hsorted, hnodup, hreach, hcursor, rfl, rfl, hs'⟩
    rw [hs'] at hbrings
    obtain ⟨i, hh⟩ := hbrings
    refine ⟨hi.hands hcall hh hordered, fun key' g hg => ?_, Or.inr ⟨_, _, _, hh⟩⟩
    exact ⟨g, (hh.calls hg).2, rfl, rfl⟩

/-- The state that a call works on leads what the log has handed on. -/
theorem Engine.Streams.leads_flight (hi : s.Streams) (hf : f.Current key (s.warm.getLogState key)) :
    f.task.state.Leads (s.handed key) := by
  cases hget : s.warm.getLogState key with
  | none =>
    rw [hi.fresh key hget]
    exact ⟨⟨by simp, by simp, fun m => List.Pairwise.nil⟩, fun _ m => List.Pairwise.nil⟩
  | some st =>
    rw [hf.stored st hget]
    exact hi.leads key st hget

/-- **A completed call keeps the streams.** -/
theorem Engine.Streams.hands (hi : s.Streams) (hcall : s.calls key = some f) {block : LogDataBlock}
    {cursor : Option Value} {i : Ingested} (hh : Engine.Hands key f block cursor i s s')
    (hguided : s'.Guided) : s'.Streams := by
  have hf := hi.flight key f hcall
  have hget := hh.getLogState hf.keyed
  have hcompleted : s'.completed = s.completed ++ [i] := by rw [hh.after]
  have hhanded : ∀ key', s'.handed key' = s.handed key' ++ if key = key' then i.samples else [] := by
    intro key'
    rw [Engine.handed, Engine.handed, hcompleted, List.filter_append, List.flatMap_append]
    by_cases h : key = key'
    · rw [if_pos h, List.filter_cons_of_pos (by simp [hh.own, h])]
      simp
    · rw [if_neg h, List.filter_cons_of_neg (by simp [hh.own, h])]
      simp
  refine ⟨hguided, fun key' st hst => ?_, fun key' hnone => ?_, fun wellUid m => ?_⟩
  · rw [hget] at hst
    rw [hhanded]
    split at hst
    · rename_i h
      rw [if_pos h, ← Option.some.inj hst, ← h, hh.samples]
      exact (hi.leads_flight hf).append hh.rows hh.sorted hh.nodup hh.reaches hh.continuation
    · rename_i h
      rw [if_neg h, List.append_nil]
      exact hi.leads key' st hst
  · rw [hget] at hnone
    rw [hhanded]
    split at hnone
    · exact absurd hnone (by simp)
    · rename_i h
      rw [if_neg h, List.append_nil]
      exact hi.fresh key' hnone
  · have hlen : (s.warm.buffer (wellUid, m)).length ≤ s.warm.maxSamples := by
      rw [hi.buffer wellUid m]
      exact lastN_length_le _ _
    have happend := RingBufferStore.buffer_append f.task.header.uidWell i.samples (wellUid, m)
      (s.warm.putLogState { f.task.state with
        lastIndex := cursor.or f.task.state.lastIndex
        objectGrowing := some true }) hlen
    rw [Engine.feeds_completed hcompleted, List.map_append, hh.after]
    dsimp only
    change _ = lastN s.warm.maxSamples _
    rw [← lastN_append, ← hi.buffer wellUid m]
    refine happend.trans ?_
    rw [hf.well, hh.own]
    change lastN s.warm.maxSamples (s.warm.buffer (wellUid, m) ++ _) = _
    congr 2
    by_cases hwell : key.wellUid = wellUid
    · simp only [hwell, Prod.mk.injEq, true_and, if_true, List.map_map]
      exact (List.map_id _).symm
    · simp [hwell]

/-- A call that begins, goes on or ends without a block changes no stream. -/
theorem Engine.Streams.of_same (hi : s.Streams) (hguided : s'.Guided) (hwarm : s'.warm = s.warm)
    (hcompleted : s'.completed = s.completed) : s'.Streams := by
  refine ⟨hguided, fun key st hst => ?_, fun key hnone => ?_, fun wellUid m => ?_⟩
  · rw [Engine.handed, hcompleted]
    exact hi.leads key st (hwarm ▸ hst)
  · rw [Engine.handed, hcompleted]
    exact hi.fresh key (hwarm ▸ hnone)
  · rw [Engine.feeds, hcompleted, hwarm]
    exact hi.buffer wellUid m

/-- **What every exchange keeps.** -/
theorem Engine.Streams.exchange (hi : s.Streams) {x : Engine.Exchange} (ha : s.Accepts x)
    (hnext : s.exchange cfg serverId x = some s') : s'.Streams := by
  cases x with
  | begin h =>
    simp only [Engine.exchange] at hnext
    split at hnext
    · exact absurd hnext (by simp)
    · rw [← Option.some.inj hnext]
      obtain ⟨hwarm, hcompleted, -⟩ := Engine.begun_spec cfg serverId s h
      exact hi.of_same (hi.toGuided.begun h) hwarm hcompleted
  | answer key a =>
    obtain ⟨f, hcall, hs'⟩ := Option.map_eq_some_iff.mp hnext
    obtain ⟨hguided, -, ⟨hwarm, hcompleted⟩ | ⟨block, cursor, i, hh⟩⟩ :=
      hi.toGuided.answered hcall (ha f hcall) hs'
    · exact hi.of_same hguided hwarm hcompleted
    · exact hi.hands hcall hh hguided

end Kept

/-! ## 6. What readers get

What `get_recent` and the snapshot of a well return is the end of such a list.  The statement is
about the list with the logs still written beside the samples; that the readers get its samples is
a conjunct of it (`Engine.Shows`). -/

/-- The samples are of one log. -/
def OneLog (items : List (LogKey × CurveSample)) : Prop := ∀ p ∈ items, ∀ q ∈ items, p.1 = q.1

/-- Their indices are of one kind, all depths or all instants. -/
def OneKind (samples : List CurveSample) : Prop :=
  ∃ t : IndexType, ∀ x ∈ samples, x.index.Orders t

/-- **Apart**: the samples are of one log, of one kind, and no index comes twice. -/
structure Apart (items : List (LogKey × CurveSample)) : Prop where
  oneLog : OneLog items
  oneKind : OneKind (items.map Prod.snd)
  once : (items.map fun p => p.2.index).Nodup

/-- One log only has handed on samples of the curve. -/
def Engine.FedByOne (s : Engine) (wellUid m : Str) : Prop :=
  ∀ key key', key.wellUid = wellUid → key'.wellUid = wellUid → s.fed key m ≠ [] →
    s.fed key' m ≠ [] → key = key'

/-- What a curve of a well shows: the end of what the calls of the well have completed with, log by
log the log's own stream, each of one kind and without an index of a log coming twice.  So where only
one log feeds the curve, the list is that log's. -/
structure Engine.Shows (s : Engine) (wellUid m : Str) (items : List (LogKey × CurveSample)) :
    Prop where
  read : s.warm.getRecent wellUid [m] none none =
    if items = [] then [] else [(m, items.map Prod.snd)]
  asked : ∀ ms, ms = [] ∨ m ∈ ms → ∀ since limit,
    Dict.get? (s.warm.getRecent wellUid ms since limit) m =
      if items = [] then none
      else some (RingBufferStore.recentItems since limit (items.map Prod.snd))
  latest : items = lastN s.warm.maxSamples (s.feeds wellUid m)
  own : ∀ key, key.wellUid = wellUid →
    ((s.feeds wellUid m).filter fun p => decide (p.1 = key)).map Prod.snd = s.fed key m
  distinct : items.Pairwise fun p q => p.2.index = q.2.index → p.1 ≠ q.1
  ascending : items.Pairwise fun p q => p.1 = q.1 →
    (∃ st, s.warm.getLogState p.1 = some st ∧ st.direction = .increasing) →
      p.2.index.rank < q.2.index.rank
  kind : ∀ p ∈ items, ∃ st, s.warm.getLogState p.1 = some st ∧ p.2.index.Orders st.indexType
  apart : s.FedByOne wellUid m → Apart items

/-- What holds within each part of a list holds of any two entries of one part. -/
theorem pairwise_of_parts {α κ : Type} [DecidableEq κ] {f : α → κ} {R : α → α → Prop} {l : List α}
    (h : ∀ k, (l.filter fun a => decide (f a = k)).Pairwise R) :
    l.Pairwise fun a b => f a = f b → R a b := by
  induction l with
  | nil => exact List.Pairwise.nil
  | cons a l ih =>
    refine List.pairwise_cons.mpr ⟨fun b hb heq => ?_, ih fun k => ?_⟩
    · have hown := h (f a)
      rw [List.filter_cons_of_pos (by simp)] at hown
      exact (List.pairwise_cons.mp hown).1 b (List.mem_filter.mpr ⟨hb, decide_eq_true heq.symm⟩)
    · exact (h k).sublist ((List.sublist_cons_self a l).filter _)

/-- Before the first call: buffers are empty, and the states that a restart has brought back have
cursors that can be ordered. -/
structure RingBufferStore.Unfed (warm : RingBufferStore) : Prop where
  empty : ∀ key, warm.buffer key = []
  keyed : ∀ key st, warm.getLogState key = some st → st.key = key
  ordered : ∀ key st, warm.getLogState key = some st →
    ∀ v, st.lastIndex = some v → (aware v).Orders st.indexType

theorem RingBufferStore.Unfed.streams {warm : RingBufferStore} (h : warm.Unfed)
    (server : MockStore) : (Engine.idle server warm).Streams := by
  refine ⟨⟨h.keyed, h.ordered, by simp [Engine.idle]⟩, fun key st _ => ?_, fun key _ => rfl,
    fun wellUid m => ?_⟩
  · exact ⟨⟨by simp [Engine.handed, Engine.idle], by simp [Engine.handed, Engine.idle],
      fun m => List.Pairwise.nil⟩, fun _ m => List.Pairwise.nil⟩
  · refine (h.empty (wellUid, m)).trans ?_
    have hfeeds : (Engine.idle server warm).feeds wellUid m = [] := rfl
    rw [hfeeds, lastN, List.map_nil, List.drop_nil]

/-- The end of a list, and then its images, or the other way round. -/
theorem map_lastN {α β : Type} (g : α → β) (n : ℕ) (l : List α) :
    (lastN n l).map g = lastN n (l.map g) := by
  rw [lastN, lastN, List.map_drop, List.length_map]

/-- What holds within the stream of each log that has a state holds within each log's part of a
curve. -/
theorem Engine.Streams.pairwise {s : Engine} (hi : s.Streams) (wellUid m : Str)
    {R : LogKey → CurveSample → CurveSample → Prop}
    (hR : ∀ key st, s.warm.getLogState key = some st → (s.fed key m).Pairwise (R key)) :
    (s.feeds wellUid m).Pairwise fun p q => p.1 = q.1 → R p.1 p.2 q.2 := by
  refine pairwise_of_parts fun key => ?_
  by_cases hwell : key.wellUid = wellUid
  · have hown : (((s.feeds wellUid m).filter fun p => decide (p.1 = key)).map Prod.snd).Pairwise
        (R key) := by
      rw [← hwell, s.feeds_own key m]
      cases hget : s.warm.getLogState key with
      | none =>
        rw [Engine.fed, hi.fresh key hget]
        exact List.Pairwise.nil
      | some st => exact hR key st hget
    refine (List.pairwise_map.mp hown).imp_of_mem fun {p q} hp _ hR => ?_
    rw [of_decide_eq_true (List.mem_filter.mp hp).2]
    exact hR
  · have hnone : (s.feeds wellUid m).filter (fun p => decide (p.1 = key)) = [] := by
      refine List.filter_eq_nil_iff.mpr fun p hp hkey => hwell ?_
      rw [← of_decide_eq_true hkey]
      exact (Engine.mem_feeds.mp hp).1
    rw [hnone]
    exact List.Pairwise.nil

/-- The indices of a log's stream are of the kind of the log's state. -/
theorem Engine.Streams.kind {s : Engine} (hi : s.Streams) {p : LogKey × CurveSample} {wellUid m : Str}
    (hp : p ∈ s.feeds wellUid m) :
    ∃ st, s.warm.getLogState p.1 = some st ∧ p.2.index.Orders st.indexType := by
  have hhanded : p.2 ∈ s.handed p.1 := (List.mem_filter.mp (Engine.mem_feeds.mp hp).2).1
  cases hget : s.warm.getLogState p.1 with
  | none =>
    rw [hi.fresh p.1 hget] at hhanded
    exact absurd hhanded List.not_mem_nil
  | some st => exact ⟨st, rfl, (hi.leads p.1 st hget).kind p.2 hhanded⟩

/-- **A curve that one log feeds is that log's**: the list is of one log, of one kind, and no index
comes twice in it. -/
theorem Engine.Streams.apart {s : Engine} (hi : s.Streams) {wellUid m : Str}
    (hone : s.FedByOne wellUid m) {items : List (LogKey × CurveSample)}
    (hsub : items.Sublist (s.feeds wellUid m))
    (hdistinct : items.Pairwise fun p q => p.2.index = q.2.index → p.1 ≠ q.1) : Apart items := by
  have hfed : ∀ p ∈ items, p.1.wellUid = wellUid ∧ s.fed p.1 m ≠ [] := fun p hp =>
    have hmem := Engine.mem_feeds.mp (hsub.subset hp)
    ⟨hmem.1, List.ne_nil_of_mem hmem.2⟩
  have honeLog : OneLog items := fun p hp q hq =>
    hone p.1 q.1 (hfed p hp).1 (hfed q hq).1 (hfed p hp).2 (hfed q hq).2
  refine ⟨honeLog, ?_, ?_⟩
  · cases items with
    | nil => exact ⟨.measuredDepth, by simp⟩
    | cons p items =>
      obtain ⟨st, hget, -⟩ := hi.kind (hsub.subset List.mem_cons_self)
      refine ⟨st.indexType, fun x hx => ?_⟩
      obtain ⟨q, hq, rfl⟩ := List.mem_map.mp hx
      obtain ⟨st', hget', hkind⟩ := hi.kind (hsub.subset hq)
      rw [honeLog q hq p List.mem_cons_self, hget] at hget'
      rwa [Option.some.inj hget']
  · refine List.pairwise_map.mpr (hdistinct.imp_of_mem fun {p q} hp hq hne heq => ?_)
    exact hne heq (honeLog p hp q hq)

/-- **Logs share a curve without mixing their own streams up**: in every state of a run, whatever the
server answers as long as the rows can be ordered and reach the cursor.

A buffer has no place for the log that a sample is of, so two logs of a well with one curve name share
its list, and what keeps the list in order has to be kept by each log alone.  It is: the cursor of a
log is its own, and a call hands on only what lies beyond it.  The induction carries that for all logs
at once (`Engine.Streams`), since the calls of the others go on between two steps of one. -/
theorem shared_curves {cfg : Settings} {serverId : ℤ} {server : MockStore} {warm : RingBufferStore}
    {s : Engine} {xs : List Engine.Exchange} (hunfed : warm.Unfed)
    (hrun : Run (Engine.exchange cfg serverId) Engine.Accepts (Engine.idle server warm) xs s)
    (wellUid m : Str) : ∃ items, s.Shows wellUid m items := by
  have hi : s.Streams :=
    hrun.invariant (fun _ _ _ hi ha hnext => hi.exchange ha hnext) (hunfed.streams server)
  have hsub : (lastN s.warm.maxSamples (s.feeds wellUid m)).Sublist (s.feeds wellUid m) :=
    (lastN_suffix _ _).sublist
  have hbuffer : (lastN s.warm.maxSamples (s.feeds wellUid m)).map Prod.snd =
      s.warm.buffer (wellUid, m) := by
    rw [map_lastN, hi.buffer wellUid m]
  have hdistinct : (lastN s.warm.maxSamples (s.feeds wellUid m)).Pairwise
      fun p q => p.2.index = q.2.index → p.1 ≠ q.1 := by
    have hpairs := hi.pairwise wellUid m (R := fun _ x y => x.index.rank ≠ y.index.rank)
      fun key st hst => (hi.leads key st hst).distinct m
    exact (hpairs.sublist hsub).imp fun hne hindex hkey => hne hkey (congrArg Value.rank hindex)
  refine ⟨_, ⟨?_, fun ms hasked since limit => ?_, rfl, fun key hwell => hwell ▸ s.feeds_own key m,
    hdistinct, ?_, fun p hp => hi.kind (hsub.subset hp), fun hone => hi.apart hone hsub hdistinct⟩⟩
  · rw [RingBufferStore.getRecent_singleton, ← hbuffer]
    simp only [List.map_eq_nil_iff]
    rfl
  · rw [s.warm.get?_getRecent_asked hasked, ← hbuffer]
    simp only [List.map_eq_nil_iff]
  · have hascending := hi.pairwise wellUid m (R := fun key x y =>
      (∃ st, s.warm.getLogState key = some st ∧ st.direction = .increasing) →
        x.index.rank < y.index.rank) fun key st hst => ?_
    · exact hascending.sublist hsub
    · by_cases hinc : st.direction = .increasing
      · exact ((hi.leads key st hst).ascending hinc m).imp fun hlt _ => hlt
      · refine List.pairwise_of_forall fun x y h => ?_
        obtain ⟨st', hst', hinc'⟩ := h
        obtain rfl := Option.some.inj (hst.symm.trans hst')
        exact absurd hinc' hinc

/-! Three logs of a wellbore, two by depth and one by time, that all have ROP; only the first has
GAS.  Their calls overlap, and the one that began last completes first. -/

def twinStore : MockStore :=
  storeOf [logElem "L1" .measuredDepth .increasing ["DEPT", "ROP", "GAS"] ["10,1,7", "20,2,8"],
    logElem "L2" .measuredDepth .increasing ["DEPT", "ROP"] ["20,5", "30,6"],
    logElem "T" .dateTime .increasing ["TIME", "ROP"] ["2024-01-01T00:00:00Z,9"]]

/-- The headers of its logs, as they are discovered. -/
def twinHeaders : List LogHeader :=
  twinStore.logs.filterMap fun log => (log.renderHeader.bind parseLogHeader).toOption

/-- The state in which all three calls are under way. -/
def twinBegun : Engine :=
  twinHeaders.foldl (fun s h => s.begun depthSettings 1 h) (Engine.idle twinStore (.init 4))

/-- The store's answer to the request of a call. -/
def twinAnswer (key : LogKey) : Answer :=
  (twinBegun.calls key).elim (.error .valueError) fun f => twinStore.serve f.task.query

def twinRun : List Engine.Exchange :=
  twinHeaders.map .begin ++ twinHeaders.reverse.map fun h =>
    .answer (headerKey 1 h) (twinAnswer (headerKey 1 h))

/-- Every event can happen, and every answer is accepted. -/
theorem twinRun_isSome : (replay (Engine.exchange depthSettings 1)
    (fun s x => decide (s.Accepts x)) (Engine.idle twinStore (.init 4)) twinRun).isSome = true := by
  decide +kernel

def twinIngested : Engine := Option.get _ twinRun_isSome

/-- A new warm store has been fed by nobody. -/
theorem unfed_init (n : ℕ) : (RingBufferStore.init n).Unfed :=
  ⟨fun _ => rfl, fun _ _ h => absurd h (by simp [RingBufferStore.init, RingBufferStore.getLogState,
    Dict.get?]), fun _ _ h => absurd h (by simp [RingBufferStore.init, RingBufferStore.getLogState,
    Dict.get?])⟩

/-- Of the five samples of ROP the instant has been evicted, and the index 20 comes twice, once from
each log; the two of GAS are of one log. -/
theorem shared_curves_twin :
    (twinIngested.feeds "W".toList "ROP".toList).map (fun p => p.1.logUid) =
        ["T", "L2", "L2", "L1", "L1"].map String.toList ∧
      (∃ items, twinIngested.Shows "W".toList "ROP".toList items) ∧
      ∃ items, twinIngested.Shows "W".toList "GAS".toList items ∧
        items.map (fun p => p.2.index) = ["10", "20"].map (indexOf .measuredDepth) := by
  refine ⟨by decide +kernel, shared_curves (unfed_init 4) (Run.of_isSome twinRun_isSome) _ _, ?_⟩
  obtain ⟨items, hshows⟩ := shared_curves (unfed_init 4) (Run.of_isSome twinRun_isSome) "W".toList
    "GAS".toList
  refine ⟨items, hshows, ?_⟩
  rw [hshows.latest]
  decide +kernel

/-- The same run in buffers with room for all of it. -/
theorem roomyRun_isSome : (replay (Engine.exchange depthSettings 1)
    (fun s x => decide (s.Accepts x)) (Engine.idle twinStore (.init 2000)) twinRun).isSome = true := by
  decide +kernel

def roomyIngested : Engine := Option.get _ roomyRun_isSome

/-- A list with a depth and an instant is not of one kind. -/
theorem not_oneKind_of_mem {samples : List CurveSample} {x y : CurveSample} {d : Datetime}
    {v : Float64} (hx : x ∈ samples) (hy : y ∈ samples) (hdt : x.index = .dt d)
    (hnum : y.index = .num v) : ¬OneKind samples := by
  rintro ⟨t, hall⟩
  have htime := hall x hx
  have hdepth := hall y hy
  rw [hdt] at htime
  rw [hnum] at hdepth
  exact absurd (htime.1.symm.trans hdepth.1) (by decide)

/-! A log that has ROP to itself, too, is only as good as its server's answers. -/

/-- An answer with these columns and lines. -/
def loneReply (mnemonics lines : List String) : Answer :=
  .ok { result := 1
        logs := .ok [logElem "L2" .measuredDepth .increasing mnemonics lines] }

/-- One falls back behind the cursor, one names a curve twice, one has rows that cannot be ordered. -/
def loneReplies : List (List Answer) :=
  [[loneReply ["DEPT", "ROP"] ["10,1", "20,2"], loneReply ["DEPT", "ROP"] ["5,3"],
      loneReply ["DEPT", "ROP"] ["10,1", "20,2"]],
    [loneReply ["DEPT", "ROP", "ROP"] ["10,1,2"]],
    [loneReply ["DEPT", "ROP"] ["nan,1", "nan,2"]]]

/-- One call for each answer. -/
def loneRun (replies : List Answer) : List Engine.Exchange :=
  (twinHeaders.filter fun h => decide (h.uid = "L2".toList)).flatMap fun h =>
    replies.flatMap fun a => [.begin h, .answer (headerKey 1 h) a]

/-- The samples of ROP have an index twice. -/
def Engine.repeats (s : Engine) : Bool :=
  (Dict.get? (s.warm.getRecent "W".toList ["ROP".toList] none none) "ROP".toList).any fun samples =>
    decide ¬(samples.map CurveSample.index).Nodup

/-- **Logs mix in the warm store**: what `get_recent` returns for ROP has an instant before the depths,
and one depth twice.  Nor does one log alone keep every index single, whatever the answers are. -/
theorem logs_mix :
    (Run (Engine.exchange depthSettings 1) (fun _ _ => True) (Engine.idle twinStore (.init 2000))
        twinRun roomyIngested ∧
      ∃ samples, Dict.get? (roomyIngested.warm.getRecent "W".toList ["ROP".toList] none none)
          "ROP".toList = some samples ∧
        ¬OneKind samples ∧ ¬(samples.map CurveSample.index).Nodup) ∧
      ∀ replies ∈ loneReplies, ∃ s,
        Run (Engine.exchange depthSettings 1) (fun _ _ => True) (Engine.idle twinStore (.init 2000))
          (loneRun replies) s ∧ s.repeats = true := by
  have hlone : loneReplies.all (fun replies => (replay (Engine.exchange depthSettings 1)
      (fun _ _ => true) (Engine.idle twinStore (.init 2000)) (loneRun replies)).any
        Engine.repeats) = true := by decide +kernel
  have hsome : ∃ x ∈ roomyIngested.warm.buffer ("W".toList, "ROP".toList),
      ∃ y ∈ roomyIngested.warm.buffer ("W".toList, "ROP".toList),
        x.index = indexOf .dateTime "2024-01-01T00:00:00Z" ∧
          y.index = indexOf .measuredDepth "10" := by decide +kernel
  have htime : ∃ d, indexOf .dateTime "2024-01-01T00:00:00Z" = .dt d := ⟨_, rfl⟩
  have hdepth : ∃ v, indexOf .measuredDepth "10" = .num v := ⟨_, rfl⟩
  refine ⟨⟨(Run.of_isSome roomyRun_isSome).mono fun _ _ _ => trivial,
    roomyIngested.warm.buffer ("W".toList, "ROP".toList), by decide +kernel, ?_, by decide +kernel⟩,
    fun replies hreplies => ?_⟩
  · obtain ⟨x, hx, y, hy, hdt, hnum⟩ := hsome
    obtain ⟨d, hd⟩ := htime
    obtain ⟨v, hv⟩ := hdepth
    exact not_oneKind_of_mem hx hy (hdt.trans hd) (hnum.trans hv)
  · exact Run.of_any (fun _ _ _ => trivial) (List.all_eq_true.mp hlone replies hreplies)

end WitsmlViewer

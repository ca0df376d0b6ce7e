/-
# The newest sample of a curve (`RingBufferStore`, `get_latest`, `_live_value`)

A buffer takes samples at its right end and drops them at its left one, and every reader takes the
last sample for the newest.  That is right as long as samples come in growth order.  From one call
to the next they do, since a call hands on what lies beyond its cursor.  Within a call they come in
the order of `merge_blocks`, which is ascending for a decreasing log too.

`reads_newest`: in every run of appends to a log and calls of it that bring rows in growth order,
each buffer holds the most advanced samples of its curve, in growth order, and the readers get the
newest.

The readers are several, and the statement is about each: the REST endpoint for the latest values,
the value that a formula takes for a variable that is bound to a curve, and `get_recent` with any
limit.  A request for several curves, or for all, is covered too, since the loop over the curves of
a request keeps one entry for each (`readers_of_last_among`).

The condition fails for a decreasing log as soon as one fetch brings two rows with a value of one
curve.  `merge_blocks` sorts ascending whatever the direction, although the module's own comment
says that comparisons respect it; nothing turns the rows around before they are appended.  Then the
last sample of the buffer is the oldest of the batch, and a full buffer even drops the newest
first.
-/
import WitsmlViewer.ReadPaths
import WitsmlViewer.Reaching

namespace WitsmlViewer

open Py GrowingTable Runs
open MockStore (elemKey updatedLog)

/-! ## 1. The readers of the last sample

The two small readers beside `getRecent`.  Both ask for one curve's recent samples and take the
last of them. -/

namespace RingBufferStore

/-- The body of the loop in `get_latest`. -/
def putLatest (host : Host) (out : Dict Str (Option WirePoint)) (e : Str × List CurveSample) :
    Except PyError (Dict Str (Option WirePoint)) :=
  match e.2.getLast? with
  | none => .ok (out.set e.1 none)
  | some s => (sampleToWire host s).map fun p => out.set e.1 (some p)

/-- `get_latest`: one sample for each curve asked for, or none.  A curve that is asked for and has no
buffer stays with the `None` that the table starts from. -/
def getLatest (host : Host) (warm : RingBufferStore) (wellUid : Str) (mnemonics : List Str) :
    Except PyError (Dict Str (Option WirePoint)) :=
  (warm.getRecent wellUid mnemonics none (some 1)).foldlM (putLatest host)
    (mnemonics.foldl (fun out m => out.set m none) [])

/-- `_live_value`: what a formula takes for a variable that is bound to a curve. -/
def liveValue (warm : RingBufferStore) (wellUid mnemonic : Str) : Option Float64 :=
  ((Dict.get? (warm.getRecent wellUid [mnemonic] none (some 1)) mnemonic).bind List.getLast?).bind
    CurveSample.value

theorem getRecent_singleton (warm : RingBufferStore) (wellUid m : Str) (since : Option Value)
    (limit : Option ℕ) : warm.getRecent wellUid [m] since limit =
      if warm.buffer (wellUid, m) = [] then []
      else [(m, recentItems since limit (warm.buffer (wellUid, m)))] := rfl

/-- **The readers of one curve get the last sample of its buffer.** -/
theorem readers_of_last {warm : RingBufferStore} {wellUid m : Str} {newest : CurveSample}
    (hlast : (warm.buffer (wellUid, m)).getLast? = some newest) (host : Host) :
    warm.getRecent wellUid [m] none (some 1) = [(m, [newest])] ∧
      warm.getLatest host wellUid [m] =
        (sampleToWire host newest).map (fun p => [(m, some p)]) ∧
      warm.liveValue wellUid m = newest.value := by
  obtain ⟨init, hbuf⟩ := List.getLast?_eq_some_iff.mp hlast
  have hone : recentItems none (some 1) (warm.buffer (wellUid, m)) = [newest] := by
    rw [hbuf]
    simp [recentItems, lastItems]
  have hrecent : warm.getRecent wellUid [m] none (some 1) = [(m, [newest])] := by
    rw [getRecent_singleton, if_neg (by simp [hbuf]), hone]
  refine ⟨hrecent, ?_, ?_⟩
  · rw [getLatest, hrecent]
    cases hwire : sampleToWire host newest with
    | error e => simp [putLatest, Except.map, hwire]
    | ok p => simp [putLatest, Except.map, hwire, Dict.set]
  · rw [liveValue, hrecent]
    simp [Dict.get?]

/-- One pass of the loop writes one curve's entry. -/
theorem get?_putLatest_of_ne {host : Host} {m : Str} {e : Str × List CurveSample}
    {out out' : Dict Str (Option WirePoint)} (hne : e.1 ≠ m)
    (hput : putLatest host out e = .ok out') : Dict.get? out' m = Dict.get? out m := by
  unfold putLatest at hput
  split at hput
  · rw [← Except.ok.inj hput, Dict.get?_set_of_ne hne]
  · obtain ⟨p, -, hput⟩ := map_eq_ok.mp hput
    rw [← hput, Dict.get?_set_of_ne hne]

/-- A curve that the loop does not meet keeps its place in the table. -/
theorem get?_latest_of_not_mem {host : Host} {m : Str} :
    ∀ {recent : Dict Str (List CurveSample)} {start out : Dict Str (Option WirePoint)},
      (∀ e ∈ recent, e.1 ≠ m) → recent.foldlM (putLatest host) start = .ok out →
      Dict.get? out m = Dict.get? start m
  | [], start, out, _, hrun => by rw [Except.ok.inj hrun]
  | e :: recent, start, out, hne, hrun => by
    rw [List.foldlM_cons] at hrun
    obtain ⟨start', hput, hrun⟩ := bind_eq_ok.mp hrun
    rw [get?_latest_of_not_mem (fun e he => hne e (by simp [he])) hrun,
      get?_putLatest_of_ne (hne e (by simp)) hput]

/-- **The point of a curve in `get_latest`** is that of its last sample, whatever other curves the
loop meets before and after it. -/
theorem get?_latest_of_mem {host : Host} {m : Str} {items : List CurveSample} {x : CurveSample}
    (hlast : items.getLast? = some x) : ∀ {recent : Dict Str (List CurveSample)}
    {start out : Dict Str (Option WirePoint)}, Dict.Distinct recent → (m, items) ∈ recent →
    recent.foldlM (putLatest host) start = .ok out →
    ∃ p, sampleToWire host x = .ok p ∧ Dict.get? out m = some (some p)
  | e :: recent, start, out, hd, hmem, hrun => by
    obtain ⟨hhead, hrest⟩ := List.pairwise_cons.mp hd
    rw [List.foldlM_cons] at hrun
    obtain ⟨start', hput, hrun⟩ := bind_eq_ok.mp hrun
    rcases List.mem_cons.mp hmem with rfl | hmem
    · have hne : ∀ e ∈ recent, e.1 ≠ m := fun e he heq => by
        simpa [heq] using hhead e he
      simp only [putLatest, hlast] at hput
      obtain ⟨p, hwire, rfl⟩ := map_eq_ok.mp hput
      exact ⟨p, hwire, by rw [get?_latest_of_not_mem hne hrun, Dict.get?_set_self]⟩
    · exact get?_latest_of_mem hlast hrest hmem hrun

/-- **A request may name other curves too, or none**: the curve gets the last sample of its buffer. -/
theorem readers_of_last_among {warm : RingBufferStore} {wellUid m : Str} {newest : CurveSample}
    {mnemonics : List Str} (hasked : mnemonics = [] ∨ m ∈ mnemonics)
    (hlast : (warm.buffer (wellUid, m)).getLast? = some newest) :
    Dict.get? (warm.getRecent wellUid mnemonics none (some 1)) m = some [newest] ∧
      ∀ host out, warm.getLatest host wellUid mnemonics = .ok out →
        ∃ p, sampleToWire host newest = .ok p ∧ Dict.get? out m = some (some p) := by
  obtain ⟨init, hbuf⟩ := List.getLast?_eq_some_iff.mp hlast
  have hrecent : Dict.get? (warm.getRecent wellUid mnemonics none (some 1)) m = some [newest] := by
    rw [warm.get?_getRecent_asked hasked, hbuf, if_neg (by simp)]
    simp [recentItems, lastItems]
  refine ⟨hrecent, fun host out hrun => ?_⟩
  have hmem : (m, [newest]) ∈ warm.getRecent wellUid mnemonics none (some 1) :=
    Dict.get?_mem (fun _ _ => eq_of_beq) hrecent
  exact get?_latest_of_mem List.getLast?_singleton (warm.distinct_getRecent _ _ _ _) hmem hrun

end RingBufferStore

/-! ## 2. What is promised

The promise is about a list of samples that a curve has been fed, in the order of the feeding.  It
is a structure with one field for each reader, so that a result about buffers gives all of them at
once. -/

/-- What the readers of a curve are promised, given the samples that it has been fed: a list in growth
order that holds the most advanced of them, and the newest one wherever one is asked for. -/
structure ReadsNewest (d : Direction) (warm : RingBufferStore) (wellUid m : Str)
    (fed items : List CurveSample) : Prop where
  read : warm.getRecent wellUid [m] none none = if items = [] then [] else [(m, items)]
  ordered : items.Pairwise fun x y => growthKey d x.index ≤ growthKey d y.index
  kept : ∃ older, (older ++ items).Perm fed ∧ items.length = min warm.maxSamples fed.length ∧
    ∀ x ∈ older, ∀ y ∈ items, growthKey d x.index ≤ growthKey d y.index
  newest : ∀ x, items.getLast? = some x → (∀ y ∈ fed, growthKey d y.index ≤ growthKey d x.index) ∧
    warm.getRecent wellUid [m] none (some 1) = [(m, [x])] ∧
    (∀ host, warm.getLatest host wellUid [m] = (sampleToWire host x).map fun p => [(m, some p)]) ∧
    warm.liveValue wellUid m = x.value
  /-- A request may name several curves, or none, which asks for all of them. -/
  readAmong : ∀ ms, ms = [] ∨ m ∈ ms → ∀ limit, Dict.get? (warm.getRecent wellUid ms none limit) m =
    if items = [] then none else some (RingBufferStore.recentItems none limit items)
  newestAmong : ∀ ms, ms = [] ∨ m ∈ ms → ∀ x, items.getLast? = some x →
    Dict.get? (warm.getRecent wellUid ms none (some 1)) m = some [x] ∧
    ∀ host out, warm.getLatest host wellUid ms = .ok out →
      ∃ p, sampleToWire host x = .ok p ∧ Dict.get? out m = some (some p)

/-- **A buffer that holds the last of samples in growth order keeps the promise.**  A suffix of a
list in growth order has its most advanced elements, and the last of them is the most advanced of
all. -/
theorem readsNewest_of_buffer {d : Direction} {warm : RingBufferStore} {wellUid m : Str}
    {fed : List CurveSample}
    (hordered : fed.Pairwise fun x y => growthKey d x.index ≤ growthKey d y.index)
    (hbuf : warm.buffer (wellUid, m) = lastN warm.maxSamples fed) :
    ReadsNewest d warm wellUid m fed (warm.buffer (wellUid, m)) := by
  have hsplit : fed.take (fed.length - warm.maxSamples) ++ warm.buffer (wellUid, m) = fed := by
    rw [hbuf, lastN]
    exact List.take_append_drop _ _
  have hpairs := hordered
  rw [← hsplit] at hpairs
  obtain ⟨-, hitems, hcross⟩ := List.pairwise_append.mp hpairs
  refine ⟨?_, hitems, ⟨_, List.Perm.of_eq hsplit, ?_, hcross⟩, fun x hx => ⟨fun y hy => ?_, ?_⟩,
    fun ms hasked limit => warm.get?_getRecent_asked hasked none limit,
    fun ms hasked x hx => RingBufferStore.readers_of_last_among hasked hx⟩
  · exact RingBufferStore.getRecent_singleton warm wellUid m none none
  · rw [hbuf, lastN, List.length_drop]
    omega
  · obtain ⟨init, hinit⟩ := List.getLast?_eq_some_iff.mp hx
    rw [← hsplit, hinit, ← List.append_assoc] at hy hordered
    rcases List.mem_append.mp hy with hy | hy
    · exact (List.pairwise_append.mp hordered).2.2 y hy x (by simp)
    · rw [List.mem_singleton.mp hy]
  · exact ⟨(RingBufferStore.readers_of_last hx .utc).1,
      fun host => (RingBufferStore.readers_of_last hx host).2.1,
      (RingBufferStore.readers_of_last hx .utc).2.2⟩

/-! ## 3. The order within a call

What a completed call hands on, as a list.  The rows of its block ascend strictly, the dedupe keeps
their order, and flattening goes row by row. -/

section Samples

variable {t : IndexType} {d : Direction} {block : LogDataBlock} {last : Option Value}
  {x y : CurveSample}

/-- A new sample is of a row of the block, beyond the cursor. -/
theorem mem_newSamples (h : x ∈ newSamples block d last) :
    ∃ r ∈ block.rows, r.index = some x.index ∧ ∀ v, last = some v →
      growthKey d v < growthKey d x.index := by
  obtain ⟨r, hr, hx⟩ := List.mem_flatMap.mp h
  obtain ⟨hmem, hbeyond⟩ := List.mem_filter.mp hr
  have hindex := index_of_mem_samplesOf hx
  refine ⟨r, hmem, hindex, fun v hv => ?_⟩
  rw [hv] at hbeyond
  simpa [beyond, hindex] using hbeyond

/-- **Within a call samples come in ascending order.** -/
theorem newSamples_ascending (h : block.rows.Pairwise fun a b => a.rank < b.rank) :
    (newSamples block d last).Pairwise fun x y => x.index.rank ≤ y.index.rank := by
  refine List.pairwise_flatMap.mpr ⟨fun r _ => ?_, ?_⟩
  · refine List.pairwise_of_forall_mem_list fun x hx y hy => ?_
    have hsame := (index_of_mem_samplesOf hx).symm.trans (index_of_mem_samplesOf hy)
    rw [Option.some.inj hsame]
  · refine (h.sublist List.filter_sublist).imp fun {a b} hab x hx y hy => ?_
    rw [← Row.rank_of_index (index_of_mem_samplesOf hx),
      ← Row.rank_of_index (index_of_mem_samplesOf hy)]
    exact hab.le

/-- Fetched rows come in growth order for each curve: the log is an increasing one, or no two rows
beyond the cursor have a value for the same curve.  It is about the rows that were fetched and the
cursor before the call, and says nothing of what becomes of them. -/
def InGrowthOrder (block : LogDataBlock) (d : Direction) (last : Option Value) : Prop :=
  d = .increasing ∨ ∀ x ∈ newSamples block d last, ∀ y ∈ newSamples block d last,
    x.mnemonic = y.mnemonic → x.index = y.index

instance : Decidable (InGrowthOrder block d last) := inferInstanceAs (Decidable (_ ∨ _))

/-- Under the condition, the new samples of a curve are in growth order: they ascend on an
increasing log, and there is at most one on a decreasing one. -/
theorem newSamples_inOrder (h : block.rows.Pairwise fun a b => a.rank < b.rank)
    (ho : InGrowthOrder block d last) (m : Str) :
    ((newSamples block d last).filter fun x => decide (x.mnemonic = m)).Pairwise fun x y =>
      growthKey d x.index ≤ growthKey d y.index := by
  rcases ho with rfl | hone
  · exact (newSamples_ascending h).sublist List.filter_sublist
  · refine List.pairwise_of_forall_mem_list fun x hx y hy => ?_
    obtain ⟨hx, hxm⟩ := List.mem_filter.mp hx
    obtain ⟨hy, hym⟩ := List.mem_filter.mp hy
    rw [hone x hx y hy ((of_decide_eq_true hxm).trans (of_decide_eq_true hym).symm)]

end Samples

/-! ## 4. Runs

Between two calls the order is kept by the cursor.  `reachingPages` is the discipline: the store
may append as it likes, with indices of any kind that can be ordered. -/

/-- The samples of a curve that a log has fed, in the order they were handed on. -/
def Engine.fed (s : Engine) (key : LogKey) (m : Str) : List CurveSample :=
  (s.handed key).filter fun x => decide (x.mnemonic = m)

/-- Only one log is ingested, and the store only appends to it. -/
def Engine.AppendsAlone (serverId : ℤ) (h : LogHeader) (s : Engine) : Engine.Event → Prop
  | .update el => elemKey el = h.logKey → ∀ log ∈ s.server.findLog h.logKey, log.Appends el
  | .begin h' => h' = h
  | .answer key => key = headerKey serverId h
  | .fail key _ => key = headerKey serverId h

instance (serverId : ℤ) (h : LogHeader) (s : Engine) :
    (e : Engine.Event) → Decidable (s.AppendsAlone serverId h e)
  | .update el => inferInstanceAs (Decidable (elemKey el = h.logKey →
      ∀ log ∈ s.server.findLog h.logKey, log.Appends el))
  | .begin h' => inferInstanceAs (Decidable (h' = h))
  | .answer key => inferInstanceAs (Decidable (key = headerKey serverId h))
  | .fail key _ => inferInstanceAs (Decidable (key = headerKey serverId h))

/-- What the last page of a call completes to comes in growth order. -/
def Engine.ComesInOrder (s : Engine) : Engine.Event → Prop
  | .answer key => ∀ f ∈ s.calls key, ∀ r ∈ ((f.task.call.fetchStep f.task.fetch
      (s.server.serve f.task.query)).toOption.bind Sum.getRight?),
        InGrowthOrder r.block f.task.state.direction f.task.state.lastIndex
  | _ => True

instance (s : Engine) : (e : Engine.Event) → Decidable (s.ComesInOrder e)
  | .answer key => inferInstanceAs (Decidable (∀ f ∈ s.calls key,
      ∀ r ∈ ((f.task.call.fetchStep f.task.fetch
        (s.server.serve f.task.query)).toOption.bind Sum.getRight?),
        InGrowthOrder r.block f.task.state.direction f.task.state.lastIndex))
  | .update _ => inferInstanceAs (Decidable True)
  | .begin _ => inferInstanceAs (Decidable True)
  | .fail _ _ => inferInstanceAs (Decidable True)

section Run

variable {cfg : Settings} {serverId : ℤ} {h : LogHeader} {s s' : Engine} {log : StoredLog}
  {d : Direction} {f : Flight} {got : List Entry} {lo : Option Value} {result : LogDataResult}
  {cursor : Option Value}

theorem Engine.AppendsAlone.allows {e : Engine.Event} (ha : s.AppendsAlone serverId h e) :
    s.Allows (reachingPages cfg.maxReturnNodes) serverId h e := by
  cases e with
  | update el => exact ha
  | begin h' => exact fun _ => ha
  | answer key => trivial
  | fail key a => trivial

/-- What a run keeps of the warm store and of what has been handed on. -/
structure Engine.Newest (serverId : ℤ) (h : LogHeader) (d : Direction) (s : Engine) : Prop where
  direction : (pollState serverId h s.warm).direction = d
  behind : ∀ x ∈ s.handed (headerKey serverId h),
    NotBehind d (some x.index) (pollState serverId h s.warm).lastIndex
  ordered : ∀ m, (s.fed (headerKey serverId h) m).Pairwise fun x y =>
    growthKey d x.index ≤ growthKey d y.index
  buffer : ∀ m, s.warm.buffer (h.uidWell, m) =
    lastN s.warm.maxSamples (s.fed (headerKey serverId h) m)

/-- It is about the warm store and the completed calls only. -/
theorem Engine.Newest.of_same (hi : s.Newest serverId h d) (hwarm : s'.warm = s.warm)
    (hcompleted : s'.completed = s.completed) : s'.Newest serverId h d := by
  have hhanded : ∀ key, s'.handed key = s.handed key := fun key => by
    rw [Engine.handed, Engine.handed, hcompleted]
  constructor
  · rw [hwarm]; exact hi.direction
  · rw [hwarm, hhanded]; exact hi.behind
  · intro m
    rw [Engine.fed, hhanded]
    exact hi.ordered m
  · intro m
    rw [hwarm, Engine.fed, hhanded]
    exact hi.buffer m

/-- The buffer of a curve after a call. -/
theorem buffer_ingest (warm : RingBufferStore) (wellUid m : Str) (state : LogState)
    (cursor : Option Value) (samples : List CurveSample)
    (hlen : (warm.buffer (wellUid, m)).length ≤ warm.maxSamples) :
    (warm.ingest wellUid state cursor samples).buffer (wellUid, m) = lastN warm.maxSamples
      (warm.buffer (wellUid, m) ++ samples.filter fun x => decide (x.mnemonic = m)) := by
  have happend := RingBufferStore.buffer_append wellUid samples (wellUid, m)
    (warm.putLogState { state with
      lastIndex := cursor.or state.lastIndex
      objectGrowing := some true }) hlen
  simpa [RingBufferStore.ingest] using happend

/-- The block of a completed call is the one that its last page has completed to.  The condition of
the run looks at the latter, before the step; the invariant needs it of the former. -/
theorem Engine.Completes.fetched
    (hi : s.Inv cfg serverId (reachingPages cfg.maxReturnNodes) h log)
    (hc : Engine.Completes cfg serverId (reachingPages cfg.maxReturnNodes) h log s s' f got lo result
      cursor)
    (hs' : s' = s.answered cfg (headerKey serverId h) f (s.server.serve f.task.query)) :
    ∃ r, f.task.call.fetchStep f.task.fetch (s.server.serve f.task.query) = .ok (.inr r) ∧
      newSamples result.block log.direction (pollState serverId h s.warm).lastIndex =
        newSamples r.block log.direction (pollState serverId h s.warm).lastIndex := by
  have ho : log.Orderable := hi.disciplined
  obtain ⟨-, hstate, -⟩ := hi.call f hc.flies
  have hcompleted := congrArg Engine.completed (hs'.symm.trans hc.after)
  rcases hc.underway.step ho hc.served with ⟨st', q', hrun, -⟩ | ⟨r, hrun, hstops⟩
  · rw [Engine.answered, hrun] at hcompleted
    exact absurd hcompleted (by simp [Engine.setCall])
  · refine ⟨r, hrun, ?_⟩
    have hord : ∀ row ∈ r.block.rows, row.Orders log.indexType := by
      intro row hrow
      obtain ⟨e, he, -, rfl⟩ := hstops.returned.row row hrow
      refine decodedRow_orders ?_
      rcases List.mem_append.mp he with he | he
      · exact hc.underway.orders e he
      · exact ho.orders (StoredLog.mem_entries_of_mem_page he)
    have hlast : ∀ v, f.task.state.lastIndex = some v → (aware v).Orders log.indexType := by
      rw [hstate]
      exact hi.ordered
    obtain ⟨cursor', -, hdone⟩ := completeIngest_eq cfg s.warm hord hlast
    rw [hstate, hi.tracks.direction] at hdone
    rw [Engine.answered, hrun] at hcompleted
    dsimp only at hcompleted
    rw [hdone] at hcompleted
    have hlast := List.singleton_inj.mp (List.append_cancel_left hcompleted)
    exact (congrArg Ingested.samples hlast).symm

/-- **A completed call that brings rows in growth order keeps them so.**

What was handed on before lies at or before the old cursor, the new samples lie strictly beyond it,
and the old cursor is not beyond the new one.  So the two lists can be put one after the other; the
buffer takes the new one at its end, and what it holds is still the last of the whole. -/
theorem Engine.Newest.completes (hn : s.Newest serverId h d)
    (hi : s.Inv cfg serverId (reachingPages cfg.maxReturnNodes) h log)
    (hc : Engine.Completes cfg serverId (reachingPages cfg.maxReturnNodes) h log s s' f got lo result
      cursor)
    (ho : InGrowthOrder result.block d (pollState serverId h s.warm).lastIndex) :
    s'.Newest serverId h d := by
  have hd : log.direction = d := hi.tracks.direction.symm.trans hn.direction
  have hlast := hc.lastIndex_eq hi
  have honward := hc.onward hi
  have hhanded := hc.handed
  rw [hd] at hhanded honward
  -- what is new lies beyond the old cursor, and at or before the new one
  have hnew : ∀ x ∈ newSamples result.block d (pollState serverId h s.warm).lastIndex,
      NotBehind d (some x.index) (pollState serverId h s'.warm).lastIndex ∧
        ∀ v, (pollState serverId h s.warm).lastIndex = some v →
          growthKey d v < growthKey d x.index := by
    intro x hx
    obtain ⟨r, hr, hindex, hbeyond⟩ := mem_newSamples hx
    refine ⟨?_, hbeyond⟩
    have hpages : ∀ e ∈ got ++ (log.page lo none f.task.call.maxReturnNodes).1,
        e.1.Orders log.indexType := by
      intro e he
      rcases List.mem_append.mp he with he | he
      · exact hc.underway.orders e he
      · exact hi.disciplined.orders (StoredLog.mem_entries_of_mem_page he)
    have hord : ∀ row ∈ result.block.rows, row.Orders log.indexType := by
      intro row hrow
      obtain ⟨e, he, -, rfl⟩ := hc.stops.returned.row row hrow
      exact decodedRow_orders (hpages e he)
    rw [hlast]
    rcases continuationIndex_spec hord log.direction with ⟨-, hempty⟩ | ⟨v, hrun, -, -, hmax⟩
    · rw [hempty r hr] at hindex
      exact absurd hindex (by simp)
    · obtain rfl := Except.ok.inj (hc.continuation.symm.trans hrun)
      have hle := hmax r hr x.index hindex
      rw [hd] at hle
      exact hle
  have hfed : ∀ m, s'.fed (headerKey serverId h) m = s.fed (headerKey serverId h) m ++
      (newSamples result.block d (pollState serverId h s.warm).lastIndex).filter
        fun x => decide (x.mnemonic = m) := by
    intro m
    rw [Engine.fed, hhanded, List.filter_append]
    rfl
  constructor
  · rw [hc.after]
    dsimp only
    rw [pollState_ingest s.warm h.uidWell hi.tracks.key]
    exact hn.direction
  · intro x hx
    rw [hhanded] at hx
    rcases List.mem_append.mp hx with hx | hx
    · rw [hlast]
      exact (hn.behind x hx).trans honward
    · exact (hnew x hx).1
  · intro m
    rw [hfed]
    refine List.pairwise_append.mpr ⟨hn.ordered m,
      newSamples_inOrder hc.stops.returned.sorted ho m, fun x hx y hy => ?_⟩
    have hold := hn.behind x (List.mem_filter.mp hx).1
    have hbeyond := (hnew y (List.mem_filter.mp hy).1).2
    cases hv : (pollState serverId h s.warm).lastIndex with
    | none =>
      rw [hv] at hold
      exact hold.elim
    | some v =>
      rw [hv] at hold
      exact (le_trans (show growthKey d x.index ≤ growthKey d v from hold) (hbeyond v hv).le)
  · intro m
    rw [hfed, hc.after, hd]
    have hlen : (s.warm.buffer (h.uidWell, m)).length ≤ s.warm.maxSamples := by
      rw [hn.buffer m]
      exact lastN_length_le _ _
    dsimp only
    rw [buffer_ingest _ _ _ _ _ _ hlen, hn.buffer m, lastN_append]
    rfl

/-- **What every event keeps.** -/
theorem Engine.Newest.next (hn : s.Newest serverId h d)
    (hi : s.Inv cfg serverId (reachingPages cfg.maxReturnNodes) h log) {e : Engine.Event}
    (ha : s.AppendsAlone serverId h e) (ho : s.ComesInOrder e)
    (hnext : s.next cfg serverId e = some s') : s'.Newest serverId h d := by
  cases e with
  | update el =>
    rw [← Option.some.inj hnext]
    exact hn.of_same rfl rfl
  | begin h' =>
    simp only [Engine.next] at hnext
    split at hnext
    · exact absurd hnext (by simp)
    · rw [← Option.some.inj hnext, Engine.begun]
      split
      · exact hn.of_same rfl rfl
      · exact hn
  | answer key =>
    obtain rfl : key = headerKey serverId h := ha
    obtain ⟨f, hcall, hs'⟩ := Option.map_eq_some_iff.mp hnext
    obtain ⟨-, hp | ⟨got, lo, result, cursor, hc⟩⟩ := hi.answer hcall hs'.symm
    · exact hn.of_same hp.warm hp.completed
    · refine hn.completes hi hc ?_
      obtain ⟨r, hrun, hsame⟩ := hc.fetched hi hs'.symm
      have hinOrder := ho f hcall r (by rw [hrun]; rfl)
      rw [(hi.call f hcall).state, hn.direction] at hinOrder
      rw [hi.tracks.direction.symm.trans hn.direction] at hsame
      rw [InGrowthOrder, hsame]
      exact hinOrder
  | fail key a =>
    simp only [Engine.next] at hnext
    split at hnext
    · rename_i hfails
      obtain ⟨f, -, hs'⟩ := Option.map_eq_some_iff.mp hnext
      rw [Engine.answered_fails hfails] at hs'
      rw [← hs']
      exact hn.of_same rfl rfl
    · exact absurd hnext (by simp)

/-- **The last sample is the newest one**, in every state of a run in which the store appends to a
discovered log, at any moment, and the calls of the log bring rows in growth order.

The condition is imposed on each completing step, and looks at the rows that the step completes
with.  A single violation is not made good by later calls: the older sample stays behind the newer
one in the buffer until it falls out. -/
theorem reads_newest {server : MockStore} {warm : RingBufferStore}
    (hfind : server.findLog log.key = some log) (hsole : server.Sole log.key) (ho : log.Orderable)
    (hd : Discovered serverId h log warm) (hempty : ∀ m, warm.buffer (h.uidWell, m) = [])
    {es : List Engine.Event}
    (hrun : Run (Engine.next cfg serverId)
      (fun s e => s.AppendsAlone serverId h e ∧ s.ComesInOrder e) (Engine.idle server warm) es s)
    (m : Str) : ∃ items, ReadsNewest h.direction s.warm h.uidWell m
      (s.fed (headerKey serverId h) m) items := by
  have hstart : (Engine.idle server warm).Newest serverId h h.direction := by
    refine ⟨?_, by simp [Engine.handed, Engine.idle], fun m => List.Pairwise.nil, fun m => ?_⟩
    · change (pollState serverId h warm).direction = h.direction
      rw [hd.state]
      rfl
    · have hfed : (Engine.idle server warm).fed (headerKey serverId h) m = [] := rfl
      rw [hfed, lastN, List.drop_nil]
      exact hempty m
  have hkept : ∃ log', s.Inv cfg serverId (reachingPages cfg.maxReturnNodes) h log' ∧ s.Keyed ∧
      s.Newest serverId h h.direction := by
    apply hrun.invariant (I := fun s => ∃ log',
      s.Inv cfg serverId (reachingPages cfg.maxReturnNodes) h log' ∧ s.Keyed ∧
        s.Newest serverId h h.direction)
    · rintro s e s' ⟨log', hi, hk, hn⟩ hg hnext
      obtain ⟨log'', hi', -⟩ := hi.next hk hg.1.allows hnext
      exact ⟨log'', hi', hk.next hnext, hn.next hi hg.1 hg.2 hnext⟩
    · exact ⟨log, hd.inv hfind hsole ho, ⟨hd.keyed, by simp [Engine.idle]⟩, hstart⟩
  obtain ⟨log', -, -, hn⟩ := hkept
  exact ⟨_, readsNewest_of_buffer (hn.ordered m) (hn.buffer m)⟩

end Run

/-! A decreasing log with one row, which is ingested; then rows are appended, and it is ingested
again. -/

def shallowStore : MockStore :=
  storeOf [logElem "L" .measuredDepth .decreasing ["DEPT", "ROP"] ["30,1"]]

theorem shallowStore_logs_ne_nil : shallowStore.logs ≠ [] := by decide +kernel

def shallowLog : StoredLog := shallowStore.logs.head shallowStore_logs_ne_nil

theorem shallowLog_header_isSome :
    (shallowLog.renderHeader.bind parseLogHeader).toOption.isSome = true := by decide +kernel

def shallowHeader : LogHeader := Option.get _ shallowLog_header_isSome

def shallowKey : LogKey := headerKey 1 shallowHeader

/-- The events, with these rows in between. -/
def ingestTwice (lines : List String) : List Engine.Event :=
  [.begin shallowHeader, .answer shallowKey] ++ lines.map depthUpdate ++
    [.begin shallowHeader, .answer shallowKey]

/-- The store, with nothing ingested. -/
def shallowStart : Engine := Engine.idle shallowStore (.init 2000)

theorem oneRow_isSome : (replay (Engine.next depthSettings 1)
    (fun s e => decide (s.AppendsAlone 1 shallowHeader e ∧ s.ComesInOrder e)) shallowStart
    (ingestTwice ["20,2"])).isSome = true := by decide +kernel

def oneRowIngested : Engine := Option.get _ oneRow_isSome

/-- One row in between: the reading at 20 is the last and the newest. -/
theorem reads_newest_oneRow :
    (oneRowIngested.warm.liveValue "W".toList "ROP".toList = some (.ofRatio 2 1)) ∧
      ∃ items, ReadsNewest .decreasing oneRowIngested.warm "W".toList "ROP".toList
        (oneRowIngested.fed shallowKey "ROP".toList) items :=
  ⟨by decide +kernel,
    reads_newest (MockStore.findLog_of_mem (List.head_mem _)) (by decide +kernel)
      (show shallowLog.Orderable by unfold StoredLog.Orderable; decide +kernel)
      ⟨hasHeader_get shallowLog_header_isSome, rfl, fun _ _ h => absurd h (by
        simp [RingBufferStore.init, RingBufferStore.getLogState, Dict.get?])⟩
      (fun _ => rfl) (Run.of_isSome oneRow_isSome) "ROP".toList⟩

theorem twoRows_isSome : (replay (Engine.next depthSettings 1)
    (fun s e => decide (s.AppendsAlone 1 shallowHeader e)) shallowStart
    (ingestTwice ["20,2", "10,3"])).isSome = true := by decide +kernel

def twoRowsIngested : Engine := Option.get _ twoRows_isSome

/-- **Two rows in between**: the reading at 10 is the newest, the one at 20 is served. -/
theorem older_reading_served :
    Run (Engine.next depthSettings 1) (Engine.AppendsAlone 1 shallowHeader) shallowStart
        (ingestTwice ["20,2", "10,3"]) twoRowsIngested ∧
      (twoRowsIngested.fed shallowKey "ROP".toList).map CurveSample.index =
        ["30", "10", "20"].map (indexOf .measuredDepth) ∧
      twoRowsIngested.warm.liveValue "W".toList "ROP".toList = some (.ofRatio 2 1) ∧
      ¬∃ items, ReadsNewest .decreasing twoRowsIngested.warm "W".toList "ROP".toList
        (twoRowsIngested.fed shallowKey "ROP".toList) items := by
  have hlive : twoRowsIngested.warm.liveValue "W".toList "ROP".toList = some (.ofRatio 2 1) := by
    decide +kernel
  refine ⟨Run.of_isSome twoRows_isSome, by decide +kernel, hlive, ?_⟩
  rintro ⟨items, hreads⟩
  obtain ⟨older, hperm, hlength, -⟩ := hreads.kept
  have hmany : min twoRowsIngested.warm.maxSamples
      (twoRowsIngested.fed shallowKey "ROP".toList).length = 3 := by decide +kernel
  obtain ⟨x, hx⟩ : ∃ x, items.getLast? = some x := by
    refine Option.isSome_iff_exists.mp (List.getLast?_isSome.mpr fun hnil => ?_)
    rw [hnil, hmany] at hlength
    exact absurd hlength (by simp)
  obtain ⟨hnewest, -, -, hvalue⟩ := hreads.newest x hx
  have hfed : x ∈ twoRowsIngested.fed shallowKey "ROP".toList :=
    hperm.mem_iff.mp (List.mem_append_right _ (List.mem_of_getLast? hx))
  have hnone : ¬∃ x ∈ twoRowsIngested.fed shallowKey "ROP".toList, x.value = some (.ofRatio 2 1) ∧
      ∀ y ∈ twoRowsIngested.fed shallowKey "ROP".toList,
        growthKey .decreasing y.index ≤ growthKey .decreasing x.index := by decide +kernel
  exact hnone ⟨x, hfed, hvalue.symm.trans hlive, hnewest⟩

end WitsmlViewer

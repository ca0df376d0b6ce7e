/-
# Calls under way

A `get_log_data` call under way holds some pages and has one request pending.  `Underway` is what
is true of it whatever the store does to the log in between; `Underway.step` takes it through one
answer of the store.

Two stronger invariants connect the pages to the log's table, and both survive its growth:

* `Covering`: every row up to the last continuation has been collected.  It needs each page to
  start at or before the last row of the one before, which a bound that was floored to the
  millisecond does for an increasing log only.
* `Stretching`: exact pages.  Every index renders without loss and every row is readable; then each
  page starts exactly at the last row of the one before and ends strictly further.

The first is what completeness needs, and it is about what the client reads.  The second also tells
how far a call can come: with a page size of at least two each cut-off page brings a new row, so a
call that stops early has used up its iterations.  With a page size of one it need not, and the
loop gives up on the repeated boundary row.

Growth is harmless for one reason: rows are appended beyond the frontier, and a page that has been
served is a window below it.  `GrowingTable` has the facts about ordered lists, and nothing here
looks inside a page.
-/
import WitsmlViewer.Fetching

namespace WitsmlViewer

open Py GrowingTable

/-! ## 1. Calls and the log they are for

A call keeps its arguments while it runs, so its relation to the log is fixed at the start. -/

/-- The call is for this log. -/
structure LogDataCall.For (call : LogDataCall) (log : StoredLog) : Prop where
  uidWell : call.uidWell = log.key.1
  uidWellbore : call.uidWellbore = log.key.2.1
  uid : call.uid = log.key.2.2
  indexType : call.indexType = log.indexType
  direction : call.direction = log.direction

/-- What is true of a call that holds the pages `got` and waits for the answer to `q`. -/
structure Underway (call : LogDataCall) (log : StoredLog) (start : Option Value) (st : FetchState)
    (q : LogQuery) (got : List Entry) : Prop where
  target : call.For log
  request : call.request st = .ok q
  holds : Holds log st got
  orders : ∀ e ∈ got, e.1.Orders log.indexType
  position : (st.lastIndex = none ∧ st.cursor = start ∧ got = [] ∧ st.calls = 0) ∨
    ∃ e ∈ got, log.reads e = true ∧ st.cursor = some e.1 ∧ st.lastIndex = some e.1 ∧ st.calls ≠ 0
  started : st.lastIndex ≠ none → ∃ lo, servedBound log.indexType start = .ok lo
  bound : st.calls < maxTruncationIterations

/-- The pending request is served with a page between these bounds. -/
structure Served (store : MockStore) (call : LogDataCall) (log : StoredLog) (st : FetchState)
    (q : LogQuery) (lo hi : Option Value) : Prop where
  start : servedBound log.indexType st.cursor = .ok lo
  stop : servedBound log.indexType call.stop = .ok hi
  answer : store.serve q = .ok (log.pageReply (log.page lo hi call.maxReturnNodes))

section Underway

variable {call : LogDataCall} {log log' : StoredLog} {start : Option Value} {st : FetchState}
  {q : LogQuery} {got : List Entry} {store : MockStore} {lo hi : Option Value}

/-- A log that has grown is still the call's. -/
theorem LogDataCall.For.of_sameHead (h : call.For log) (hs : SameHead log log') :
    call.For log' := by
  constructor
  · rw [hs.key]; exact h.uidWell
  · rw [hs.key]; exact h.uidWellbore
  · rw [hs.key]; exact h.uid
  · rw [hs.indexType]; exact h.indexType
  · rw [hs.direction]; exact h.direction

/-- A call that has just sent its first request. -/
theorem Underway.initial (h : call.For log) (hstart : call.fetchStart start = .ok (st, q)) :
    Underway call log start st q [] := by
  obtain ⟨q', hq', heq⟩ := map_eq_ok.mp hstart
  rw [Prod.mk.injEq] at heq
  obtain ⟨rfl, rfl⟩ := heq
  constructor
  · exact h
  · exact hq'
  · exact Holds.initial log call start
  · simp
  · exact Or.inl ⟨rfl, rfl, rfl, rfl⟩
  · exact fun hne => absurd rfl hne
  · exact (by decide : 0 < maxTruncationIterations)

/-- Between two answers the log may grow as it likes. -/
theorem Underway.of_sameHead (h : Underway call log start st q got) (hs : SameHead log log') :
    Underway call log' start st q got := by
  constructor
  · exact h.target.of_sameHead hs
  · exact h.request
  · exact h.holds.of_sameHead hs
  · rw [hs.indexType]; exact h.orders
  · rw [hs.reads]; exact h.position
  · rw [hs.indexType]; exact h.started
  · exact h.bound

/-- The store answers the pending request with a page, or fails. -/
theorem Underway.serve (h : Underway call log start st q got)
    (hf : store.findLog log.key = some log) (hs : store.Sole log.key) (ho : log.Orderable) :
    (∃ lo hi, Served store call log st q lo hi) ∨ store.serve q = .error .transportError := by
  have hq := h.request
  rw [LogDataCall.request, h.target.uidWell, h.target.uidWellbore, h.target.uid,
    h.target.indexType] at hq
  rcases StoredLog.serve_request hf hs ho hq with ⟨lo, hi, hlo, hhi, hans⟩ | herr
  · exact Or.inl ⟨lo, hi, hlo, hhi, hans⟩
  · exact Or.inr herr

/-- A request that was served shows that the store can read the start bound. -/
theorem Underway.start_served (h : Underway call log start st q got)
    (hlo : servedBound log.indexType st.cursor = .ok lo) :
    ∃ lo₀, servedBound log.indexType start = .ok lo₀ := by
  rcases h.position with ⟨-, hc, -⟩ | ⟨e, -, -, -, hl, -⟩
  · exact ⟨lo, hc ▸ hlo⟩
  · exact h.started (by simp [hl])

/-- **One answer of the store**: the call stays under way with one page more, or returns the merge
of all of them.  An answer that fails ends the call, and there is nothing to say about that. -/
theorem Underway.step (h : Underway call log start st q got) (ho : log.Orderable)
    (hserved : Served store call log st q lo hi) :
    (∃ st' q', call.fetchStep st (store.serve q) = .ok (.inl (st', q')) ∧
      (log.page lo hi call.maxReturnNodes).2 = true ∧
      Asks call log st got (log.page lo hi call.maxReturnNodes).1 st' q' ∧
      Underway call log start st' q' (got ++ (log.page lo hi call.maxReturnNodes).1)) ∨
    ∃ r, call.fetchStep st (store.serve q) = .ok (.inr r) ∧
      Stops log st got (log.page lo hi call.maxReturnNodes) r := by
  have hpg : ∀ e ∈ (log.page lo hi call.maxReturnNodes).1, e ∈ log.rows.entries :=
    fun e he => StoredLog.mem_entries_of_mem_page he
  have hord : ∀ e ∈ got ++ (log.page lo hi call.maxReturnNodes).1, e.1.Orders log.indexType := by
    intro e he
    rcases List.mem_append.mp he with he | he
    · exact h.orders e he
    · exact ho.orders (hpg e he)
  rw [hserved.answer]
  rcases fetchStep_page h.target.indexType h.target.direction h.holds hpg hord h.request with
    ⟨st', q', hstep, htr, hasks⟩ | ⟨r, hstep, hstops⟩
  · refine Or.inl ⟨st', q', hstep, htr, hasks, ?_⟩
    obtain ⟨e, he, hcur, hlast, -⟩ := hasks.cursor
    constructor
    · exact h.target
    · exact hasks.request
    · exact hasks.holds
    · exact hord
    · refine Or.inr ⟨e, List.mem_append_right _ he.mem, he.reads, hcur, hlast, ?_⟩
      rw [hasks.calls]
      omega
    · exact fun _ => h.start_served hserved.start
    · exact hasks.bound
  · exact Or.inr ⟨r, hstep, hstops⟩

/-! ## 2. Where the pages are

The pages as a part of the table.  The pending request starts at the last continuation, or at the
caller's bound before there is one; as the store reads it, that is at or before the position the
client means. -/

/-- The position of the last continuation. -/
def reached (d : Direction) (st : FetchState) : WithBot ℤ :=
  st.lastIndex.elim ⊥ fun v => (growthKey d v : WithBot ℤ)

/-- The position of a bound that can be ordered. -/
theorem startKey_some {t : IndexType} {v : Value} (h : v.Orders t) (d : Direction) :
    startKey d (some v) = growthKey d v := by
  rw [startKey, if_neg h.ne_nan]

/-- Flooring a bound does not move it forward on an increasing log, and not at all if it is
exact. -/
theorem growthKey_wire_le {v : Value} (d : Direction) (h : d = .increasing ∨ Exact v) :
    growthKey d (wire v) ≤ growthKey d v := by
  rcases h with rfl | h
  · exact rank_wire_le v
  · exact (congrArg (growthKey d) h).le

/-- Where the pending request starts. -/
theorem Underway.start_cases (h : Underway call log start st q got)
    (hlo : servedBound log.indexType st.cursor = .ok lo) :
    (got = [] ∧ st.calls = 0 ∧ reached log.direction st = ⊥ ∧
      servedBound log.indexType start = .ok lo) ∨
    ∃ e ∈ got, log.reads e = true ∧ st.calls ≠ 0 ∧
      reached log.direction st = (log.entryKey e : WithBot ℤ) ∧
      startKey log.direction lo = (growthKey log.direction (wire e.1) : WithBot ℤ) := by
  rcases h.position with ⟨hl, hc, hg, hn⟩ | ⟨e, he, hr, hc, hl, hn⟩
  · exact Or.inl ⟨hg, hn, by rw [reached, hl]; rfl, hc ▸ hlo⟩
  · have hoe : (aware e.1).Orders log.indexType := by
      rw [aware_of_orders (h.orders e he)]
      exact h.orders e he
    rw [hc, servedBound_of_orders hoe, Except.ok.injEq] at hlo
    refine Or.inr ⟨e, he, hr, hn, by rw [reached, hl]; rfl, ?_⟩
    rw [← hlo, startKey_some (wire_orders hoe)]

/-- The pages collected so far cover the table up to the last continuation. -/
def Covering (call : LogDataCall) (log : StoredLog) (start : Option Value) (st : FetchState)
    (got : List Entry) : Prop :=
  ∀ lo hi, servedBound log.indexType start = .ok lo → servedBound log.indexType call.stop = .ok hi →
    Covers log.entryKey log.reads (log.tableTo hi) (startKey log.direction lo)
      (reached log.direction st) (got.filter log.reads)

/-- Before the first page nothing has to be covered. -/
theorem Covering.initial : Covering call log start (call.initial start) [] :=
  fun _ _ _ _ => Covers.init _ _

/-- What a reader with an upper bound sees of a growing log grows too. -/
theorem StoredLog.tableTo_grows (hs : SameHead log log')
    (hg : Grows log.entryKey log.table log'.table) (hi : Option Value) :
    Grows log.entryKey (log.tableTo hi) (log'.tableTo hi) := by
  have h := hg.filter_le (withinStop log.direction hi)
  rw [StoredLog.tableTo, StoredLog.tableTo, hs.direction, hs.entryKey]
  exact h

/-- Rows that come later lie beyond the last continuation. -/
theorem Covering.grow (h : Covering call log start st got) (hs : SameHead log log')
    (hg : Grows log.entryKey log.table log'.table) : Covering call log' start st got := by
  intro lo hi hlo hhi
  rw [hs.indexType] at hlo hhi
  rw [hs.entryKey, hs.reads, hs.direction]
  exact (h lo hi hlo hhi).grow (StoredLog.tableTo_grows hs hg hi)

/-- The pending request starts at or before the last continuation. -/
theorem Underway.resumes (h : Underway call log start st q got)
    (hdir : log.direction = .increasing ∨ ∀ e ∈ got, Exact e.1) {lo₀ : Option Value}
    (hlo₀ : servedBound log.indexType start = .ok lo₀)
    (hlo : servedBound log.indexType st.cursor = .ok lo) :
    Resumes (startKey log.direction lo₀) (reached log.direction st) (startKey log.direction lo) := by
  rcases h.start_cases hlo with ⟨-, -, hr, hs⟩ | ⟨e, he, -, -, hr, hk⟩
  · rw [hs, Except.ok.injEq] at hlo₀
    rw [hr, hlo₀]
    exact ⟨fun _ => rfl, fun hne => absurd rfl hne⟩
  · rw [hr, hk]
    refine ⟨fun hbot => absurd hbot (by simp), fun _ => WithBot.coe_le_coe.mpr ?_⟩
    exact growthKey_wire_le _ (hdir.imp id fun hex => hex e he)

/-- **A cut-off page extends the coverage to its most advanced row.**  Below the old continuation
everything is there already, and from there to the page's end the page itself is a window without
gaps. -/
theorem Covering.asks (h : Covering call log start st got) (hu : Underway call log start st q got)
    (ho : log.Orderable) (hdir : log.direction = .increasing ∨ ∀ e ∈ got, Exact e.1)
    (hserved : Served store call log st q lo hi) {st' : FetchState} {q' : LogQuery}
    (htr : (log.page lo hi call.maxReturnNodes).2 = true)
    (hasks : Asks call log st got (log.page lo hi call.maxReturnNodes).1 st' q') :
    Covering call log start st' (got ++ (log.page lo hi call.maxReturnNodes).1) := by
  intro lo₀ hi₀ hlo₀ hhi₀
  obtain rfl : hi = hi₀ := Except.ok.inj (hserved.stop.symm.trans hhi₀)
  obtain ⟨e, he, -, hl, -⟩ := hasks.cursor
  have hreached : reached log.direction st' = (log.entryKey e : WithBot ℤ) := by
    rw [reached, hl]; rfl
  rw [hreached, List.filter_append]
  rcases log.page_cases lo hi call.maxReturnNodes with ⟨n, -, -, hn, hp⟩ | hp
  · rw [hp] at he ⊢
    exact (h lo₀ hi hlo₀ hhi₀).page (StoredLog.tableTo_ordered ho hi)
      (hu.resumes hdir hlo₀ hserved.start) hn ⟨e, he.mem, he.reads, rfl⟩
  · rw [hp] at htr
    exact absurd htr (by simp)

/-- **After a last page, what the client reads of the table from the start on is what it has
collected.**  A page that was not cut off runs to the end of what the bounds admit. -/
theorem Covering.complete (h : Covering call log start st got)
    (hu : Underway call log start st q got)
    (hdir : log.direction = .increasing ∨ ∀ e ∈ got, Exact e.1)
    (hserved : Served store call log st q lo hi)
    (htr : (log.page lo hi call.maxReturnNodes).2 = false) {lo₀ : Option Value}
    (hlo₀ : servedBound log.indexType start = .ok lo₀) {e : Entry} (hr : log.reads e = true) :
    (e ∈ log.tableTo hi → startKey log.direction lo₀ ≤ (log.entryKey e : WithBot ℤ) →
      e ∈ got ++ (log.page lo hi call.maxReturnNodes).1) ∧
    (e ∈ got ++ (log.page lo hi call.maxReturnNodes).1 → e ∈ log.tableTo hi) := by
  obtain ⟨hall, hmem⟩ := (h lo₀ hi hlo₀ hserved.stop).complete
    (hu.resumes hdir hlo₀ hserved.start)
  have hp : (log.page lo hi call.maxReturnNodes).1 =
      window log.entryKey (startKey log.direction lo) (log.tableTo hi) := by
    rcases log.page_cases lo hi call.maxReturnNodes with ⟨n, -, -, -, hp⟩ | hp
    · rw [hp] at htr
      exact absurd htr (by simp)
    · rw [hp]
  rw [hp]
  simp only [← List.filter_append, List.mem_filter] at hall hmem
  exact ⟨fun he hlo => (hall e he hr hlo).1, fun he => (hmem e ⟨he, hr⟩).1⟩

/-! ## 3. Exact pages

With exact bounds the pages lie edge to edge, overlapping in one row.  Then they can be counted. -/

/-- Every row of the log is read with its index, and every index renders without loss. -/
structure StoredLog.Plain (log : StoredLog) : Prop where
  orderable : log.Orderable
  columns : log.columns ≠ none
  decodes : ∀ e ∈ log.rows.entries, visible e = true
  exact : ∀ e ∈ log.rows.entries, Exact e.1

theorem StoredLog.Plain.reads (h : log.Plain) {e : Entry} (he : e ∈ log.rows.entries) :
    log.reads e = true := by
  rw [StoredLog.reads, h.decodes e he, Option.isSome_iff_ne_none.mpr h.columns, Bool.and_self]

/-- Everything collected is of the table, exact and readable. -/
def Stretching (call : LogDataCall) (log : StoredLog) (start : Option Value) (n : ℕ)
    (st : FetchState) (got : List Entry) : Prop :=
  (∀ e ∈ got, Exact e.1) ∧
  ∀ lo hi, servedBound log.indexType start = .ok lo → servedBound log.indexType call.stop = .ok hi →
    Stretch log.entryKey (log.tableTo hi) (startKey log.direction lo) (reached log.direction st) n
      st.calls got

variable {n : ℕ}

theorem Stretching.initial : Stretching call log start n (call.initial start) [] :=
  ⟨by simp, fun _ _ _ _ => Stretch.init _ _ _⟩

/-- What has been collected is still a prefix of the range, with the new rows after it. -/
theorem Stretching.grow (h : Stretching call log start n st got) (ho : log.Orderable)
    (hs : SameHead log log') (hg : Grows log.entryKey log.table log'.table) :
    Stretching call log' start n st got := by
  refine ⟨h.1, fun lo hi hlo hhi => ?_⟩
  rw [hs.indexType] at hlo hhi
  rw [hs.entryKey, hs.direction]
  exact (h.2 lo hi hlo hhi).grow (StoredLog.tableTo_ordered ho hi)
    (StoredLog.tableTo_grows hs hg hi)

/-- The pending request starts exactly at the last continuation. -/
theorem Underway.exactStart_eq (h : Underway call log start st q got)
    (hex : ∀ e ∈ got, Exact e.1) {lo₀ : Option Value}
    (hlo₀ : servedBound log.indexType start = .ok lo₀)
    (hlo : servedBound log.indexType st.cursor = .ok lo) :
    startKey log.direction lo =
      exactStart (startKey log.direction lo₀) (reached log.direction st) := by
  rcases h.start_cases hlo with ⟨-, -, hr, hs⟩ | ⟨e, he, -, -, hr, hk⟩
  · rw [hs, Except.ok.injEq] at hlo₀
    rw [hr, hlo₀, exactStart, if_pos rfl]
  · have hwire : growthKey log.direction (wire e.1) = log.entryKey e :=
      congrArg (growthKey log.direction) (hex e he)
    rw [hr, hk, hwire, exactStart, if_neg (by simp)]

/-- **A cut-off page ends strictly further than it started**, and extends the stretch.  The first
row of the page is the boundary row, so a page of two rows has at least one that is new. -/
theorem Stretching.page (h : Stretching call log start n st got)
    (hu : Underway call log start st q got) (hp : log.Plain) (hn : 2 ≤ n)
    (hmax : call.maxReturnNodes = some (n : ℤ)) (hserved : Served store call log st q lo hi)
    (htr : (log.page lo hi call.maxReturnNodes).2 = true) {e : Entry}
    (he : log.Last (log.page lo hi call.maxReturnNodes).1 e) {lo₀ : Option Value}
    (hlo₀ : servedBound log.indexType start = .ok lo₀) :
    startKey log.direction lo < (log.entryKey e : WithBot ℤ) ∧
      Stretch log.entryKey (log.tableTo hi) (startKey log.direction lo₀)
        (log.entryKey e : WithBot ℤ) n (st.calls + 1)
        (got ++ (log.page lo hi call.maxReturnNodes).1) := by
  have hreads : ∀ f ∈ (log.page lo hi call.maxReturnNodes).1, log.reads f = true :=
    fun f hf => hp.reads (StoredLog.mem_entries_of_mem_page hf)
  rcases log.page_cases lo hi call.maxReturnNodes with ⟨m, hm, -, hlen, hpage⟩ | hpage
  · obtain rfl : m = n := by
      rw [hmax, Option.some.injEq] at hm
      exact_mod_cast hm.symm
    rw [hpage] at he hreads ⊢
    rw [hu.exactStart_eq h.1 hlo₀ hserved.start] at he hreads hlen ⊢
    exact (h.2 lo₀ hi hlo₀ hserved.stop).page (StoredLog.tableTo_ordered hp.orderable hi) hn hlen
      ⟨e, he.mem, rfl⟩ fun f hf => he.le f hf (hreads f hf)
  · rw [hpage] at htr
    exact absurd htr (by simp)

/-- The call asks on with one row more at least. -/
theorem Stretching.asks (h : Stretching call log start n st got)
    (hu : Underway call log start st q got) (hp : log.Plain) (hn : 2 ≤ n)
    (hmax : call.maxReturnNodes = some (n : ℤ)) (hserved : Served store call log st q lo hi)
    (htr : (log.page lo hi call.maxReturnNodes).2 = true) {st' : FetchState} {q' : LogQuery}
    (hasks : Asks call log st got (log.page lo hi call.maxReturnNodes).1 st' q') :
    Stretching call log start n st' (got ++ (log.page lo hi call.maxReturnNodes).1) := by
  refine ⟨fun e he => ?_, fun lo₀ hi₀ hlo₀ hhi₀ => ?_⟩
  · rcases List.mem_append.mp he with he | he
    · exact h.1 e he
    · exact hp.exact e (StoredLog.mem_entries_of_mem_page he)
  · obtain rfl : hi = hi₀ := Except.ok.inj (hserved.stop.symm.trans hhi₀)
    obtain ⟨e, he, -, hl, -⟩ := hasks.cursor
    have hreached : reached log.direction st' = (log.entryKey e : WithBot ℤ) := by
      rw [reached, hl]; rfl
    rw [hreached, hasks.calls]
    exact (h.page hu hp hn hmax hserved htr he hlo₀).2

/-- The rows that a call can see: those between its bounds, in growth order. -/
def StoredLog.range (log : StoredLog) (lo hi : Option Value) : List Entry :=
  window log.entryKey (startKey log.direction lo) (log.tableTo hi)

/-- **What a call has collected when it stops is a prefix of the range**: all of it after a page
that was not cut off; otherwise the call made all its iterations, and the prefix is as long as they
can make it.

The other two reasons for stopping are excluded here: a plain row is read, so there is a
continuation, and it lies strictly beyond the last one. -/
theorem Stretching.stops (h : Stretching call log start n st got)
    (hu : Underway call log start st q got) (hp : log.Plain) (hn : 2 ≤ n)
    (hmax : call.maxReturnNodes = some (n : ℤ)) (hserved : Served store call log st q lo hi)
    {r : LogDataResult} (hstops : Stops log st got (log.page lo hi call.maxReturnNodes) r)
    {lo₀ : Option Value} (hlo₀ : servedBound log.indexType start = .ok lo₀) :
    ∃ m ≤ (log.range lo₀ hi).length,
      (∀ e, e ∈ got ++ (log.page lo hi call.maxReturnNodes).1 ↔ e ∈ (log.range lo₀ hi).take m) ∧
      ((log.page lo hi call.maxReturnNodes).2 = false → m = (log.range lo₀ hi).length) ∧
      ((log.page lo hi call.maxReturnNodes).2 = true →
        st.calls + 1 = maxTruncationIterations ∧ maxTruncationIterations * (n - 1) + 1 ≤ m) := by
  have hordered := StoredLog.tableTo_ordered hp.orderable hi
  by_cases htr : (log.page lo hi call.maxReturnNodes).2 = true
  · -- a cut-off page is not empty, and its last row is new: only the cap can have ended the call
    obtain ⟨e, he, hwhy⟩ : ∃ e, log.Last (log.page lo hi call.maxReturnNodes).1 e ∧
        (st.lastIndex = some e.1 ∨ maxTruncationIterations ≤ st.calls + 1) := by
      refine (hstops.reason htr).resolve_left fun hnone => ?_
      rcases log.page_cases lo hi call.maxReturnNodes with ⟨m, -, hm, hlen, hpage⟩ | hpage
      · obtain ⟨a, ha⟩ : ∃ a, a ∈ (log.page lo hi call.maxReturnNodes).1 := by
          refine List.exists_mem_of_length_pos ?_
          rw [hpage, List.length_take]
          omega
        have := hnone a ha
        rw [hp.reads (StoredLog.mem_entries_of_mem_page ha)] at this
        exact absurd this (by simp)
      · rw [hpage] at htr
        exact absurd htr (by simp)
    obtain ⟨hadv, hstretch⟩ := h.page hu hp hn hmax hserved htr he hlo₀
    have hcap : maxTruncationIterations ≤ st.calls + 1 := by
      refine hwhy.resolve_left fun hl => ?_
      have hr : reached log.direction st = (log.entryKey e : WithBot ℤ) := by
        rw [reached, hl]; rfl
      rw [hu.exactStart_eq h.1 hlo₀ hserved.start, hr, exactStart, if_neg (by simp)] at hadv
      exact lt_irrefl _ hadv
    obtain ⟨m, hm, hmem⟩ := hstretch.initial.exists_take hordered
    have hcount := hstretch.count_le hordered (by omega) hmem
    have hcalls : st.calls + 1 = maxTruncationIterations := by
      have := hu.bound
      omega
    rw [hcalls] at hcount
    exact ⟨m, hm, hmem, fun hf => absurd (htr.symm.trans hf) (by simp), fun _ => ⟨hcalls, hcount⟩⟩
  · have hpage : (log.page lo hi call.maxReturnNodes).1 =
        window log.entryKey (startKey log.direction lo) (log.tableTo hi) := by
      rcases log.page_cases lo hi call.maxReturnNodes with ⟨n, -, -, -, hpage⟩ | hpage
      · rw [hpage] at htr
        exact absurd rfl htr
      · rw [hpage]
    have hall := (h.2 lo₀ hi hlo₀ hserved.stop).complete
    rw [← hu.exactStart_eq h.1 hlo₀ hserved.start] at hall
    refine ⟨_, le_refl _, fun e => ?_, fun _ => rfl, fun hf => absurd hf htr⟩
    rw [List.take_length, hpage]
    exact hall e

end Underway

end WitsmlViewer

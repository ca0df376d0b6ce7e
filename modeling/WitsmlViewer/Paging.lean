/-
# One call against a growing log

`get_log_data` runs as a state machine beside a store that may be updated before every answer
(`PagedFetch`).  While the updates only append plain rows beyond the log's frontier, every re-query
starts strictly further than the one before, and what the call returns is the log's range at that
moment, or a prefix of it when the call ran out of iterations (`paged_fetch`).

The bounds of the range are those that the store reads from the request (`servedBound`): an instant
between two milliseconds arrives floored.

"At that moment" is when the last answer is given, not when the call began.  Rows that were written
in between are in the range too, if they lie within the bounds, because the last page is served
from the log as it is then and the earlier pages are a prefix of that.  This is the sense in which
paging is consistent although nothing is locked between two requests.

The README has it that a re-query starts just past the last returned node.  The code starts it at
the last returned node, the store's bound is inclusive, and the repeated row is merged away; what
is proved is about the code.
-/
import WitsmlViewer.Coverage
import WitsmlViewer.Lib.Runs

namespace WitsmlViewer

open Py GrowingTable Runs
open MockStore (elemKey updatedLog)

/-! ## 1. What is returned, as a list

A fetch returns its rows in ascending order whatever the direction of the log, and `ascending`
turns a list in growth order into that. -/

/-- A list in growth order, put in ascending index order. -/
def ascending (d : Direction) (l : List Entry) : List Entry :=
  match d with
  | .increasing => l
  | .decreasing => l.reverse

theorem mem_ascending {d : Direction} {l : List Entry} {e : Entry} :
    e ∈ ascending d l ↔ e ∈ l := by
  cases d
  · exact Iff.rfl
  · exact List.mem_reverse

/-- What was strictly in growth order is strictly ascending. -/
theorem ascending_pairwise {log : StoredLog} {l : List Entry} (h : Ordered log.entryKey l) :
    (ascending log.direction l).Pairwise fun a b => a.1.rank < b.1.rank := by
  have hkey : log.entryKey = fun e => growthKey log.direction e.1 := rfl
  rw [Ordered, hkey] at h
  cases hd : log.direction with
  | increasing =>
    rw [hd] at h
    exact h
  | decreasing =>
    rw [hd] at h
    refine List.pairwise_reverse.mpr (h.imp ?_)
    intro a b hab
    simp only [growthKey] at hab
    omega

/-- **What is returned for the pages `got`**, when an ordered list names their readable rows. -/
theorem Returned.rows_eq {log : StoredLog} {got l : List Entry} {r : LogDataResult}
    (h : Returned log got r) (hl : Ordered log.entryKey l)
    (hmem : ∀ e, e ∈ l ↔ e ∈ got ∧ log.reads e = true) :
    r.block.rows = (ascending log.direction l).map decodedRow := by
  have hsorted : Ordered Row.rank r.block.rows := h.sorted
  refine hsorted.eq_of_mem_iff (List.pairwise_map.mpr ?_) fun row => ?_
  · refine (ascending_pairwise hl).imp_of_mem ?_
    intro a b ha hb hab
    rw [Row.rank_of_index (decodedRow_isSome ((hmem a).mp (mem_ascending.mp ha)).2),
      Row.rank_of_index (decodedRow_isSome ((hmem b).mp (mem_ascending.mp hb)).2)]
    exact hab
  · rw [List.mem_map]
    constructor
    · intro hrow
      obtain ⟨e, he, hr, rfl⟩ := h.row row hrow
      exact ⟨e, mem_ascending.mpr ((hmem e).mpr ⟨he, hr⟩), rfl⟩
    · rintro ⟨e, he, rfl⟩
      obtain ⟨heg, hr⟩ := (hmem e).mp (mem_ascending.mp he)
      obtain ⟨row, hrow, hi⟩ := h.index e heg hr
      obtain ⟨f, hf, hrf, rfl⟩ := h.row row hrow
      rw [decodedRow_isSome hrf, Option.some.injEq] at hi
      have hfe : f = e := hl.eq_of_key ((hmem f).mpr ⟨hf, hrf⟩) (mem_ascending.mp he)
        (by rw [StoredLog.entryKey, StoredLog.entryKey, hi])
      rwa [← hfe]

/-! ## 2. The machine

A run is a list of events until the call ends: updates, and answers to the pending request.  The
machine asks the store itself, so an answer cannot be anything but what the store says then. -/

/-- Where a call is. -/
inductive Phase
  | waiting (st : FetchState) (q : LogQuery)
  | returned (code : ℤ) (r : LogDataResult)
  | raised (e : PyError)

/-- A call and the store it asks, with the queries it has made. -/
structure PagedFetch where
  server : MockStore
  asked : List LogQuery
  phase : Phase

namespace PagedFetch

/-- Before an answer the store may be updated any number of times. -/
inductive Event
  | update (el : LogElem)
  | answer

variable (call : LogDataCall)

/-- The call after its first request, or the exception that the first bound raises. -/
def start (start : Option Value) (server : MockStore) : PagedFetch :=
  match call.fetchStart start with
  | .error e => ⟨server, [], .raised e⟩
  | .ok (st, q) => ⟨server, [q], .waiting st q⟩

/-- The call after the answer to its pending request.  A server that raises is a fault of the
transport. -/
def answered (s : PagedFetch) (st : FetchState) (q : LogQuery) : PagedFetch :=
  match s.server.serve q with
  | .error e => { s with phase := .raised e }
  | .ok reply =>
    match call.fetchStep st (.ok reply) with
    | .error e => { s with phase := .raised e }
    | .ok (.inl (st, q)) => { s with asked := s.asked ++ [q], phase := .waiting st q }
    | .ok (.inr r) => { s with phase := .returned reply.result r }

/-- A run ends when the call does. -/
def next (s : PagedFetch) (e : Event) : Option PagedFetch :=
  match s.phase, e with
  | .waiting _ _, .update el => some { s with server := (s.server.updateLog (some el)).1 }
  | .waiting st q, .answer => some (s.answered call st q)
  | _, _ => none

end PagedFetch

/-- An update of plain rows strictly beyond the frontier. -/
def StoredLog.AppendsPlain (log : StoredLog) (el : LogElem) : Prop :=
  log.Appends el ∧ ∀ e ∈ log.updateEntries el, visible e = true ∧ Exact e.1

instance (log : StoredLog) (el : LogElem) : Decidable (log.AppendsPlain el) :=
  inferInstanceAs (Decidable (_ ∧ ∀ e ∈ _, _))

/-- Every update of the log under a key appends plain rows; other logs may change freely. -/
def PagedFetch.Grows (key : Str × Str × Str) (s : PagedFetch) : PagedFetch.Event → Prop
  | .update el => elemKey el = key → ∀ log ∈ s.server.findLog key, log.AppendsPlain el
  | .answer => True

instance (key : Str × Str × Str) (s : PagedFetch) :
    (e : PagedFetch.Event) → Decidable (s.Grows key e)
  | .update el => inferInstanceAs
      (Decidable (elemKey el = key → ∀ log ∈ s.server.findLog key, log.AppendsPlain el))
  | .answer => inferInstanceAs (Decidable True)

/-- Where a query starts, on the line that its log grows along. -/
def LogDataCall.queryStart (call : LogDataCall) (q : LogQuery) : WithBot ℤ :=
  match queryRange q call.indexType with
  | .ok (start, _) => startKey call.direction start
  | .error _ => ⊥

/-! ## 3. The invariant

Each phase has its own part of the invariant.  While the call waits, its pages are a `Stretching`
of the log as it is now, and its request starts where the last page ended; when it has returned,
the result is complete for the log as it was then, and there are no further events. -/

section Invariant

variable {call : LogDataCall} {key : Str × Str × Str} {start : Option Value} {n : ℕ}
  {s s' : PagedFetch} {log : StoredLog}

theorem StoredLog.Plain.update (h : log.Plain) {el : LogElem} (ha : log.AppendsPlain el) :
    (updatedLog el log).Plain := by
  have hs := updatedLog_sameHead log el
  have hnew := (updatedLog_entries (Q := fun e => visible e = true ∧ Exact e.1) ha.2).1
  constructor
  · exact h.orderable.update fun e he => (ha.1 e he).1
  · rw [hs.columns]
    exact h.columns
  · intro e he
    exact (hnew e he).elim (h.decodes e) And.left
  · intro e he
    exact (hnew e he).elim (h.exact e) And.right

/-- A request that the store can read starts at the bound that it reads. -/
theorem queryStart_eq {st : FetchState} {q : LogQuery} (hq : call.request st = .ok q)
    {lo hi : Option Value} (hlo : servedBound call.indexType st.cursor = .ok lo)
    (hhi : servedBound call.indexType call.stop = .ok hi) :
    call.queryStart q = startKey call.direction lo := by
  obtain ⟨hrange, -⟩ := queryRange_request hq
  rw [LogDataCall.queryStart, hrange, hlo, hhi]
  rfl

/-- What a call has returned: all of the range, or as much of it as its iterations can bring. -/
def Complete (call : LogDataCall) (start : Option Value) (n : ℕ) (log : StoredLog) (requests : ℕ)
    (code : ℤ) (r : LogDataResult) : Prop :=
  ∃ lo hi, servedBound log.indexType start = .ok lo ∧ servedBound log.indexType call.stop = .ok hi ∧
    ((code = rcSuccess ∧
        r.block.rows = (ascending log.direction (log.range lo hi)).map decodedRow) ∨
      (code = rcPartialSuccess ∧ requests = maxTruncationIterations ∧
        ∃ m ≤ (log.range lo hi).length, maxTruncationIterations * (n - 1) + 1 ≤ m ∧
          r.block.rows = (ascending log.direction ((log.range lo hi).take m)).map decodedRow))

/-- What is true of a call in each phase. -/
def PagedFetch.PhaseOk (call : LogDataCall) (start : Option Value) (n : ℕ) (log : StoredLog)
    (s : PagedFetch) : Prop :=
  match s.phase with
  | .waiting st q => s.asked.getLast? = some q ∧ s.asked.length = st.calls + 1 ∧
      ∃ got, Underway call log start st q got ∧ Stretching call log start n st got
  | .returned code r => Complete call start n log s.asked.length code r
  | .raised _ => True

/-- The invariant of a call beside a growing log. -/
structure PagedFetch.Inv (call : LogDataCall) (key : Str × Str × Str) (start : Option Value) (n : ℕ)
    (s : PagedFetch) (log : StoredLog) : Prop where
  find : s.server.findLog key = some log
  sole : s.server.Sole key
  plain : log.Plain
  target : call.For log
  further : (s.asked.map call.queryStart).IsChain (· < ·)
  phase : s.PhaseOk call start n log

theorem PagedFetch.Inv.initial {server : MockStore} (hf : server.findLog key = some log)
    (hs : server.Sole key) (hp : log.Plain) (ht : call.For log) :
    (PagedFetch.start call start server).Inv call key start n log := by
  rw [PagedFetch.start]
  cases hstart : call.fetchStart start with
  | error e => exact ⟨hf, hs, hp, ht, List.isChain_nil, trivial⟩
  | ok first =>
    obtain ⟨st, q⟩ := first
    have hst : st = call.initial start := by
      obtain ⟨q', -, heq⟩ := map_eq_ok.mp hstart
      exact (Prod.mk.inj heq).1.symm
    subst hst
    exact ⟨hf, hs, hp, ht, List.isChain_singleton _, rfl, rfl, [],
      Underway.initial ht hstart, Stretching.initial⟩

/-- **An update that appends plain rows keeps the invariant**, for the log as it is then. -/
theorem PagedFetch.Inv.update (h : s.Inv call key start n log) {el : LogElem} {st : FetchState}
    {q : LogQuery} (hw : s.phase = .waiting st q) (hg : s.Grows key (.update el)) :
    PagedFetch.Inv call key start n { s with server := (s.server.updateLog (some el)).1 }
      (if key = elemKey el then updatedLog el log else log) := by
  have hkey : log.key = key := (MockStore.mem_of_findLog h.find).2
  have hphase := h.phase
  rw [PagedFetch.PhaseOk, hw] at hphase
  obtain ⟨hlast, hlen, got, hu, hst⟩ := hphase
  have hfind : ((s.server.updateLog (some el)).1).findLog key =
      some (if key = elemKey el then updatedLog el log else log) := by
    rw [MockStore.findLog_updateLog, h.find]
    rfl
  by_cases hk : key = elemKey el
  · have ha : log.AppendsPlain el := hg hk.symm log h.find
    have hs := updatedLog_sameHead log el
    rw [if_pos hk] at hfind ⊢
    refine ⟨hfind, h.sole.update el, h.plain.update ha, h.target.of_sameHead hs, h.further, ?_⟩
    rw [PagedFetch.PhaseOk, hw]
    exact ⟨hlast, hlen, got, hu.of_sameHead hs,
      hst.grow h.plain.orderable hs ha.1.extends.grows⟩
  · rw [if_neg hk] at hfind ⊢
    refine ⟨hfind, h.sole.update el, h.plain, h.target, h.further, ?_⟩
    rw [PagedFetch.PhaseOk, hw]
    exact ⟨hlast, hlen, got, hu, hst⟩

/-- **An answer keeps the invariant**: the next request starts strictly further, and what is
returned is complete.

A page that was cut off brings a row beyond its first one, so the next bound is strictly further;
as it renders without loss, so is the position at which the store will start.  When the call stops,
`Stretching.stops` says how much of the range it holds. -/
theorem PagedFetch.Inv.answered (h : s.Inv call key start n log) (hn : 2 ≤ n)
    (hmax : call.maxReturnNodes = some (n : ℤ)) {st : FetchState} {q : LogQuery}
    (hw : s.phase = .waiting st q) : (s.answered call st q).Inv call key start n log := by
  obtain ⟨hmem, hkey⟩ := MockStore.mem_of_findLog h.find
  have hphase := h.phase
  rw [PagedFetch.PhaseOk, hw] at hphase
  obtain ⟨hlast, hlen, got, hu, hst⟩ := hphase
  subst hkey
  rw [PagedFetch.answered]
  rcases hu.serve h.find h.sole h.plain.orderable with ⟨lo, hi, hserved⟩ | herr
  swap
  · rw [herr]
    exact ⟨h.find, h.sole, h.plain, h.target, h.further, trivial⟩
  · have hstep := hu.step h.plain.orderable hserved
    have hlo := hserved.start
    have hhi := hserved.stop
    rw [← h.target.indexType] at hlo hhi
    have hqstart := queryStart_eq hu.request hlo hhi
    obtain ⟨lo₀, hlo₀⟩ := hu.start_served hserved.start
    rw [hserved.answer] at hstep ⊢
    rcases hstep with ⟨st', q', hrun, htr, hasks, hu'⟩ | ⟨r, hrun, hstops⟩
    · simp only [hrun]
      obtain ⟨e, he, hcur, -, -⟩ := hasks.cursor
      have hfurther := (hst.page hu h.plain hn hmax hserved htr he hlo₀).1
      refine ⟨h.find, h.sole, h.plain, h.target, ?_, List.getLast?_concat, ?_, _, hu',
        hst.asks hu h.plain hn hmax hserved htr hasks⟩
      · have hlo' : servedBound call.indexType st'.cursor = .ok (some (wire e.1)) := by
          have hoe : e.1.Orders log.indexType :=
            h.plain.orderable.orders (StoredLog.mem_entries_of_mem_page he.mem)
          rw [h.target.indexType, hcur, servedBound_of_orders (by rwa [aware_of_orders hoe])]
        -- the next bound is the index itself: it renders without loss
        have hexact : wire e.1 = e.1 := h.plain.exact e (StoredLog.mem_entries_of_mem_page he.mem)
        have hqstart' : call.queryStart q' = (log.entryKey e : WithBot ℤ) := by
          rw [queryStart_eq hasks.request hlo' hhi, h.target.direction, hexact]
          exact startKey_some (h.plain.orderable.orders
            (StoredLog.mem_entries_of_mem_page he.mem)) _
        rw [List.map_append]
        refine h.further.append (List.isChain_singleton _) ?_
        intro x hx y hy
        rw [List.getLast?_map, hlast] at hx
        simp only [Option.map_some, Option.mem_def, Option.some.injEq, List.map_cons, List.map_nil,
          List.head?_cons] at hx hy
        rw [← hx, ← hy, hqstart, hqstart', h.target.direction]
        exact hfurther
      · rw [List.length_append, hlen, hasks.calls]
        rfl
    · simp only [hrun]
      refine ⟨h.find, h.sole, h.plain, h.target, h.further, lo₀, hi, hlo₀, hserved.stop, ?_⟩
      obtain ⟨m, hm, hmem, hall, hcap⟩ := hst.stops hu h.plain hn hmax hserved hstops hlo₀
      have hrange : Ordered log.entryKey (log.range lo₀ hi) :=
        (StoredLog.tableTo_ordered h.plain.orderable hi).window _
      have hrows : r.block.rows =
          (ascending log.direction ((log.range lo₀ hi).take m)).map decodedRow := by
        refine hstops.returned.rows_eq (hrange.sublist (List.take_sublist _ _)) fun e => ?_
        rw [← hmem e]
        refine ⟨fun he => ⟨he, h.plain.reads ?_⟩, And.left⟩
        have he' := List.mem_of_mem_take ((hmem e).mp he)
        exact (StoredLog.mem_tableTo.mp (mem_window.mp he').1).1
      cases htr : (log.page lo hi call.maxReturnNodes).2 with
      | false =>
        refine Or.inl ⟨by rw [StoredLog.pageReply, htr]; rfl, ?_⟩
        rw [hrows, hall htr, List.take_length]
      | true =>
        exact Or.inr ⟨by rw [StoredLog.pageReply, htr]; rfl, hlen.trans (hcap htr).1, m, hm,
          (hcap htr).2, hrows⟩

end Invariant

/-! ## 4. Runs

The run lemma and two runs that go wrong. -/

/-- **A paged fetch of a growing log.**  In every run whose updates of the log append plain rows
beyond its frontier, each query starts strictly further than the one before; and when the call
returns, it returns what is in its range at that moment, once and in ascending order: all of it
after a response that was not cut off, otherwise the initial part that its iterations brought.

That the queries move strictly is what makes the fetch end by itself: there are as many requests as
pages, at most one for each row of the log.  The cap on iterations is only reached by a log with
more rows than a thousand pages hold, and then the return code says so. -/
theorem paged_fetch {call : LogDataCall} {server : MockStore} {log : StoredLog}
    (start : Option Value) (hlog : server.findLog log.key = some log) (hsole : server.Sole log.key)
    (hplain : log.Plain) (hcall : call.For log) {n : ℕ} (hn : 2 ≤ n)
    (hpage : call.maxReturnNodes = some (n : ℤ)) {es : List PagedFetch.Event} {s : PagedFetch}
    (hrun : Run (PagedFetch.next call) (PagedFetch.Grows log.key)
      (PagedFetch.start call start server) es s) :
    (s.asked.map call.queryStart).IsChain (· < ·) ∧
      ∀ code r, s.phase = .returned code r → ∃ log', s.server.findLog log.key = some log' ∧
        Complete call start n log' s.asked.length code r := by
  have hinv : ∃ log', s.Inv call log.key start n log' := by
    refine hrun.invariant (I := fun s => ∃ log', s.Inv call log.key start n log') ?_
      ⟨log, PagedFetch.Inv.initial hlog hsole hplain hcall⟩
    -- an update or an answer while the call waits; a call that has ended takes no events
    rintro s e s' ⟨log', h⟩ hg hnext
    cases hphase : s.phase with
    | waiting st q =>
      cases e with
      | update el =>
        have hs : s' = { s with server := (s.server.updateLog (some el)).1 } := by
          simpa [PagedFetch.next, hphase] using hnext.symm
        exact hs ▸ ⟨_, h.update hphase hg⟩
      | answer =>
        have hs : s' = s.answered call st q := by
          simpa [PagedFetch.next, hphase] using hnext.symm
        exact hs ▸ ⟨_, h.answered hn hpage hphase⟩
    | returned code r => simp [PagedFetch.next, hphase] at hnext
    | raised e' => simp [PagedFetch.next, hphase] at hnext
  obtain ⟨log', h⟩ := hinv
  refine ⟨h.further, fun code r hr => ⟨log', h.find, ?_⟩⟩
  have hphase := h.phase
  rw [PagedFetch.PhaseOk, hr] at hphase
  exact hphase

/-! Three runs on small logs.  In the first a row is written between two pages of a fetch. -/

/-- A call with a page size of 2 for the log that `logElem` makes. -/
def smallCall (uid : String) (t : IndexType) (d : Direction) : LogDataCall where
  uidWell := "W".toList
  uidWellbore := "B".toList
  uid := uid.toList
  mnemonics := ["INDEX".toList]
  indexType := t
  direction := d
  maxReturnNodes := some 2

/-- The replay of a call's events, checking that the log of that name only grows. -/
def PagedFetch.replayed (call : LogDataCall) (start : Option Value) (server : MockStore)
    (es : List PagedFetch.Event) : Option PagedFetch :=
  replay (PagedFetch.next call) (fun s e => decide (s.Grows (call.uidWell, call.uidWellbore,
    call.uid) e)) (PagedFetch.start call start server) es

/-- The return code and the rows that a call ended with. -/
def PagedFetch.outcome (s : PagedFetch) : Option (ℤ × List Row) :=
  match s.phase with
  | .returned code r => some (code, r.block.rows)
  | _ => none

def depthStore : MockStore :=
  storeOf [logElem "L" .measuredDepth .decreasing ["DEPT", "ROP"] ["30,1", "20,2", "10,3"]]

theorem depthStore_logs_ne_nil : depthStore.logs ≠ [] := by decide +kernel

def depthLog : StoredLog := depthStore.logs.head depthStore_logs_ne_nil

theorem depthLog_plain : depthLog.Plain :=
  ⟨by unfold StoredLog.Orderable; decide +kernel, by decide +kernel, by decide +kernel,
    by decide +kernel⟩

def depthEvents : List PagedFetch.Event :=
  [.answer, .update (logElem "L" .measuredDepth .decreasing ["DEPT", "ROP"] ["5,4"]), .answer,
    .answer]

theorem depthEvents_isSome : (PagedFetch.replayed (smallCall "L" .measuredDepth .decreasing) none
    depthStore depthEvents).isSome = true := by decide +kernel

def depthRun : PagedFetch := Option.get _ depthEvents_isSome

/-- The run ends with all four rows, as `paged_fetch` says. -/
theorem paged_fetch_depthLog :
    depthRun.outcome.map (fun o => (o.1, o.2.map Row.index)) =
      some (rcSuccess, ["5", "10", "20", "30"].map fun k => some (indexOf .measuredDepth k)) ∧
    (depthRun.asked.map (smallCall "L" .measuredDepth .decreasing).queryStart).IsChain (· < ·) ∧
    ∀ code r, depthRun.phase = .returned code r →
      ∃ log', depthRun.server.findLog depthLog.key = some log' ∧
        Complete (smallCall "L" .measuredDepth .decreasing) none 2 log' depthRun.asked.length
          code r :=
  ⟨by decide +kernel,
    paged_fetch none (MockStore.findLog_of_mem (List.head_mem _)) (by decide +kernel)
      depthLog_plain
      ⟨by decide +kernel, by decide +kernel, by decide +kernel, by decide +kernel,
        by decide +kernel⟩
      (le_refl 2) rfl (Run.of_isSome depthEvents_isSome)⟩

def timeStore : MockStore :=
  storeOf [logElem "T" .dateTime .increasing ["TIME", "ROP"]
    ["2024-01-01T00:00:00.000Z,1", "2024-01-01T00:00:00.001Z,2"]]

def namelessStore : MockStore :=
  storeOf [{ logElem "N" .measuredDepth .increasing [] [] with
    logData := some ⟨some "DEPT,ROP".toList, none, [some "1,10".toList]⟩ }]

def nanStore : MockStore :=
  storeOf [logElem "X" .measuredDepth .increasing ["DEPT", "ROP"] ["nan,1"]]

/-- **What is returned need not be the range of the caller's own bounds.**  A start bound between
two milliseconds is floored, and the row before it comes back; a log without named columns comes
back empty; a row at `nan` passes every bound. -/
theorem paged_fetch_not_exact :
    (((PagedFetch.replayed (smallCall "T" .dateTime .increasing)
        (some (indexOf .dateTime "2024-01-01T00:00:00.0005Z")) timeStore
          [.answer]).bind PagedFetch.outcome).map fun o => (o.1, o.2.map Row.index)) =
        some (rcSuccess, [some (indexOf .dateTime "2024-01-01T00:00:00.000Z"),
          some (indexOf .dateTime "2024-01-01T00:00:00.001Z")]) ∧
      (indexOf .dateTime "2024-01-01T00:00:00.000Z").lt?
        (indexOf .dateTime "2024-01-01T00:00:00.0005Z") = .ok true ∧
    ((PagedFetch.replayed (smallCall "N" .measuredDepth .increasing) none namelessStore
        [.answer]).bind PagedFetch.outcome) = some (rcSuccess, []) ∧
      namelessStore.logs.map (fun log => log.rows.entries.length) = [1] ∧
    (((PagedFetch.replayed (smallCall "X" .measuredDepth .increasing)
        (some (indexOf .measuredDepth "5")) nanStore
          [.answer]).bind PagedFetch.outcome).map fun o => (o.1, o.2.map Row.index)) =
        some (rcSuccess, [some (.num .nan)]) := by
  decide +kernel

end WitsmlViewer

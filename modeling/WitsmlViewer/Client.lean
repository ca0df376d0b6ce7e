/-
# The `+2` loop (`app.witsml.client`)

`get_log_data` is an `async` function: between two requests anything may happen to the server.  So
it is modelled as a state machine.  `fetchStart` builds the first request; each answer of
GetFromStore goes into `fetchStep`, which asks again, returns the merged block or raises.
Everything that is said about a call among other tasks, or beside a store that grows meanwhile, is
said about these two functions (`Paging`, `Engine`, `Ticks`).

A code of `+2` says that the answer was cut off.  The loop then asks again, from the most advanced
index of the page, and the store serves that row a second time: this is how a page is joined to the
one before, and `merge_blocks` takes the repeated row out in the end.  A page that offers no index,
or the same one again, cannot be continued; the source breaks out of the loop there, by an explicit
test that its docstring announces, and returns what has been collected.

`getLogData` closes the machine with a stream of answers, one for each request.  It makes at most
`maxTruncationIterations` requests, so it is total.  `getLogData_returned` says what the last
answer was when it returns: a success, and if it was a truncated one, why the loop gave up.

What is not claimed: that the rows returned are all that the store has in the range.  That depends
on the store, and is the subject of `Paging`.
-/
import WitsmlViewer.Queries
import WitsmlViewer.Polling

namespace WitsmlViewer

open Py

/-! ## 1. Answers

What a request can end with.  A reply carries its code and its elements separately, because the
code is looked at first: an element that cannot be parsed in a refused answer is never parsed. -/

/-- A normalised GetFromStore response (a missing `Result` is 0), with the log elements that
the XML library finds in XMLout, or its exception, and what GetBaseMsg says of the code. -/
structure Reply where
  result : ℤ
  logs : Except PyError (List LogElem)
  supp : Option Str := none
  baseMsg : Option Str := none

/-- What awaiting `get_from_store` brings: a response, or an exception of the transport. -/
abbrev Answer := Except PyError Reply

/-- `_error`: the base message and the supplementary one, as far as they say anything. -/
def Reply.error (reply : Reply) : PyError :=
  let parts := [reply.baseMsg, reply.supp].reduceOption.filter (· ≠ [])
  .witsmlError reply.result (" | ".toList.intercalate parts)

/-! ## 2. The loop

The loop's variables become a record, and its body a function of them and of one answer.  The test
at the end of the body decides three ways: to ask again, to return, or to raise when the next bound
cannot be rendered. -/

def maxTruncationIterations : ℕ := 1000

/-- The arguments of `get_log_data` that do not change while it runs. -/
structure LogDataCall where
  uidWell : Str
  uidWellbore : Str
  uid : Str
  mnemonics : List Str
  indexType : IndexType
  direction : Direction
  stop : Option Value := none
  indexUom : Option Str := none
  maxReturnNodes : Option ℤ := none

/-- The local variables of the loop, and the number of iterations done. -/
structure FetchState where
  blocks : List LogDataBlock
  cursor : Option Value
  lastIndex : Option Value
  indexTypeSeen : IndexType
  identityUid : Str
  identityWell : Str
  identityWellbore : Str
  calls : ℕ

namespace LogDataCall

variable (call : LogDataCall)

/-- Before the first request.  The cursor is the caller's, and no continuation has been seen. -/
def initial (start : Option Value) : FetchState where
  blocks := []
  cursor := start
  lastIndex := none
  indexTypeSeen := call.indexType
  identityUid := call.uid
  identityWell := call.uidWell
  identityWellbore := call.uidWellbore
  calls := 0

/-- The query of the next iteration. -/
def request (st : FetchState) : Except PyError LogQuery :=
  logDataQuery call.uidWell call.uidWellbore call.uid call.mnemonics call.indexType st.cursor
    call.stop call.indexUom call.maxReturnNodes

/-- The first request. -/
def fetchStart (start : Option Value) : Except PyError (FetchState × LogQuery) :=
  (call.request (call.initial start)).map fun q => (call.initial start, q)

/-- What the function returns after the loop: the merge of the pages, or an empty block under the
mnemonics asked for.  The identity is the last one that a page named. -/
def result (st : FetchState) : Except PyError LogDataResult := do
  let merged ←
    if st.blocks = [] then
      .ok ⟨call.mnemonics, List.replicate call.mnemonics.length none, st.indexTypeSeen, []⟩
    else mergeBlocks st.blocks
  .ok ⟨st.identityUid, st.identityWell, st.identityWellbore, st.indexTypeSeen, merged⟩

/-- `x or y` on texts. -/
def orElse (x y : Str) : Str := if x = [] then y else x

/-- Take in one page: the new state, and the index to resume from.  A page without a log adds no
block and offers no continuation, whatever its code was. -/
def absorb (st : FetchState) (batch : List LogDataResult) :
    Except PyError (FetchState × Option Value) :=
  match batch with
  | [] => .ok (st, none)
  | first :: _ =>
    (continuationIndex first.block call.direction).map fun next =>
      ({ st with
          blocks := st.blocks ++ [first.block]
          indexTypeSeen := first.indexType
          identityUid := orElse first.uid st.identityUid
          identityWell := orElse first.uidWell st.identityWell
          identityWellbore := orElse first.uidWellbore st.identityWellbore }, next)

/-- Whether a continuation is new: there is one, and it differs from the previous one.  A `nan`
differs from itself, so it always counts as new; the iteration cap is what ends such a loop. -/
def advances (next lastIndex : Option Value) : Bool :=
  match next, lastIndex with
  | none, _ => false
  | some _, none => true
  | some next, some last => !(next == last)

/-- One iteration from the answer on: ask again, return, or raise.  The order is that of the
source: the code, the parse, the collection of the page, and then the three conditions of going
on. -/
def fetchStep (st : FetchState) (answer : Answer) :
    Except PyError ((FetchState × LogQuery) ⊕ LogDataResult) := do
  let reply ← answer
  if isError reply.result then .error reply.error
  else
    let els ← reply.logs
    let batch ← parseLogData els (some call.indexType) none
    let (st, next) ← call.absorb st batch
    if isTruncated reply.result && advances next st.lastIndex &&
        st.calls + 1 < maxTruncationIterations then
      let st := { st with cursor := next, lastIndex := next, calls := st.calls + 1 }
      let q ← call.request st
      .ok (.inl (st, q))
    else (call.result st).map .inr

/-! ## 3. The whole call

The machine against a fixed stream of answers.  The fuel is the iteration cap itself and not a
device of the model: with none left the source's `for` loop ends, and so does this. -/

/-- The loop with `fuel` iterations left, the next answer being `answers n`; with the number of
answers received.  The last iteration never asks again, so the case without fuel is reached by no
call. -/
def fetchLoop (answers : ℕ → Answer) : ℕ → FetchState → ℕ → Except PyError LogDataResult × ℕ
  | 0, st, n => (call.result st, n)
  | fuel + 1, st, n =>
    match call.fetchStep st (answers n) with
    | .error e => (.error e, n + 1)
    | .ok (.inr r) => (.ok r, n + 1)
    | .ok (.inl (st, _)) => fetchLoop answers fuel st (n + 1)

/-- `get_log_data` against a stream of answers: its outcome and the number of requests. -/
def getLogData (start : Option Value) (answers : ℕ → Answer) : Except PyError LogDataResult × ℕ :=
  match call.fetchStart start with
  | .error e => (.error e, 0)
  | .ok (st, _) => call.fetchLoop answers maxTruncationIterations st 0

/-! ## 4. Why the loop ends

Only what an answer offers and what the one before offered matters for going on.  `offered` is a
function of the answer alone, so "why did it stop" can be said about the stream of answers, without
the loop's variables. -/

/-- The continuation that a parsed page offers. -/
def batchContinuation : List LogDataResult → Except PyError (Option Value)
  | [] => .ok none
  | first :: _ => continuationIndex first.block call.direction

/-- The continuation that an answer offers. -/
def offered (answer : Answer) : Except PyError (Option Value) := do
  let reply ← answer
  let els ← reply.logs
  let batch ← parseLogData els (some call.indexType) none
  call.batchContinuation batch

/-- Collecting a page touches neither the count nor the continuation of the page before, and what
it offers is what the answer offers. -/
theorem absorb_eq_ok {st st' : FetchState} {batch : List LogDataResult} {next : Option Value}
    (h : call.absorb st batch = .ok (st', next)) :
    st'.calls = st.calls ∧ st'.lastIndex = st.lastIndex ∧ call.batchContinuation batch = .ok next := by
  cases batch with
  | nil =>
    simp only [absorb, Except.ok.injEq, Prod.mk.injEq] at h
    obtain ⟨rfl, rfl⟩ := h
    exact ⟨rfl, rfl, rfl⟩
  | cons first rest =>
    obtain ⟨next', hrun, heq⟩ := map_eq_ok.mp h
    obtain ⟨rfl, rfl⟩ := Prod.mk.inj heq
    exact ⟨rfl, rfl, hrun⟩

/-- An iteration that does not raise was answered by a success, and asks again exactly after a
truncated one that offers a new continuation, below the cap. -/
theorem fetchStep_eq_ok {st : FetchState} {answer : Answer}
    {out : (FetchState × LogQuery) ⊕ LogDataResult} (h : call.fetchStep st answer = .ok out) :
    ∃ reply next, answer = .ok reply ∧ 0 < reply.result ∧ call.offered answer = .ok next ∧
      (isTruncated reply.result && advances next st.lastIndex &&
        decide (st.calls + 1 < maxTruncationIterations)) = out.isLeft ∧
      ∀ st' q, out = .inl (st', q) → st'.lastIndex = next ∧ st'.calls = st.calls + 1 := by
  obtain ⟨reply, hans, hrun⟩ := bind_eq_ok.mp h
  subst hans
  -- an error code raises, so an iteration that does not raise was answered by a success
  by_cases herr : isError reply.result = true
  · rw [if_pos herr] at hrun
    exact absurd hrun (by simp)
  · rw [if_neg herr] at hrun
    have hpos : 0 < reply.result := by simpa [isError] using herr
    obtain ⟨els, hels, hrun⟩ := bind_eq_ok.mp hrun
    obtain ⟨batch, hbatch, hrun⟩ := bind_eq_ok.mp hrun
    obtain ⟨⟨st₁, next⟩, habs, hrun⟩ := bind_eq_ok.mp hrun
    obtain ⟨hcalls, hlast, hnext⟩ := call.absorb_eq_ok habs
    have hoffer : call.offered (.ok reply) = .ok next := by
      simp only [offered, bind, Except.bind, hels, hbatch]
      exact hnext
    refine ⟨reply, next, rfl, hpos, hoffer, ?_⟩
    simp only [hcalls, hlast] at hrun
    split at hrun
    · rename_i hcond
      obtain ⟨q, -, hrun⟩ := bind_eq_ok.mp hrun
      rw [Except.ok.injEq] at hrun
      subst hrun
      refine ⟨hcond, ?_⟩
      intro st' q' heq
      obtain ⟨rfl, -⟩ := Prod.mk.inj (Sum.inl.inj heq)
      exact ⟨rfl, rfl⟩
    · rename_i hcond
      obtain ⟨r, -, rfl⟩ := map_eq_ok.mp hrun
      refine ⟨by simpa using hcond, ?_⟩
      intro st' q' heq
      exact absurd heq (by simp)

/-- The loop gives up after the answer number `k`: it offers no continuation, or the same one as
the answer before, or the iterations are used up. -/
def GivesUp (answers : ℕ → Answer) (k : ℕ) : Prop :=
  call.offered (answers k) = .ok none ∨
    (∃ j v w, k = j + 1 ∧ call.offered (answers j) = .ok (some w) ∧
      call.offered (answers k) = .ok (some v) ∧ (v == w) = true) ∨
    k + 1 = maxTruncationIterations

/-- What the state knows of the answers so far: the continuation that the last of them offered.
This is all that the loop remembers for its test. -/
def Recalls (answers : ℕ → Answer) (st : FetchState) (n : ℕ) : Prop :=
  match n with
  | 0 => st.lastIndex = none
  | j + 1 => call.offered (answers j) = .ok st.lastIndex

/-- The loop from any state that recalls the answers before it.  The induction is on the iterations
left, and the state of a further iteration recalls one answer more.  When an iteration returns
after a truncated answer, one of the two remaining conditions of going on has failed: the
continuation is not new, which gives the first two ways of giving up, or the count has reached the
cap. -/
theorem fetchLoop_returned {answers : ℕ → Answer} {r : LogDataResult} {m : ℕ} :
    ∀ (fuel : ℕ) (st : FetchState) (n : ℕ), st.calls = n → 0 < fuel →
      fuel + n = maxTruncationIterations → call.Recalls answers st n →
      call.fetchLoop answers fuel st n = (.ok r, m) →
        ∃ k reply, m = k + 1 ∧ answers k = .ok reply ∧ 0 < reply.result ∧
          (isTruncated reply.result = true → call.GivesUp answers k) := by
  intro fuel
  induction fuel with
  | zero => intro st n _ hpos; exact absurd hpos (lt_irrefl 0)
  | succ fuel ih =>
    intro st n hn _ hfuel hrec h
    simp only [fetchLoop] at h
    cases hstep : call.fetchStep st (answers n) with
    | error e => simp [hstep] at h
    | ok out =>
      obtain ⟨reply, next, hans, hpos, hoffer, hcond, hst'⟩ := call.fetchStep_eq_ok hstep
      cases out with
      | inl again =>
        obtain ⟨st', q⟩ := again
        obtain ⟨hlast, hcalls⟩ := hst' st' q rfl
        simp only [hstep] at h
        simp only [Sum.isLeft_inl, Bool.and_eq_true, decide_eq_true_eq] at hcond
        refine ih st' (n + 1) (by omega) (by omega) (by omega) ?_ h
        rw [Recalls, hlast]
        exact hoffer
      | inr r' =>
        simp only [hstep, Prod.mk.injEq] at h
        refine ⟨n, reply, h.2.symm, hans, hpos, ?_⟩
        intro htr
        simp only [htr, Bool.true_and, Sum.isLeft_inr, Bool.and_eq_false_iff,
          decide_eq_false_iff_not, hn] at hcond
        -- no new continuation: there is none, or it is the one that the answer before offered
        rcases hcond with hadv | hcap
        · cases next with
          | none => exact Or.inl hoffer
          | some v =>
            cases n with
            | zero =>
              rw [show st.lastIndex = none from hrec] at hadv
              simp [advances] at hadv
            | succ j =>
              cases hl : st.lastIndex with
              | none => simp [hl, advances] at hadv
              | some w =>
                rw [Recalls, hl] at hrec
                simp only [hl, advances, Bool.not_eq_false'] at hadv
                exact Or.inr (Or.inl ⟨j, v, w, rfl, hrec, hoffer, hadv⟩)
        · exact Or.inr (Or.inr (by omega))

/-- **When `get_log_data` returns, the last response was a success.**  If that response was
truncated, the loop gave up.

A caller cannot see which of the two it was: the result has no mark of it.  So this is as much as a
caller may rely on, that nothing is returned after an error, and that a truncated answer at the end
means that asking on was impossible or had been done a thousand times. -/
theorem getLogData_returned {start : Option Value} {answers : ℕ → Answer} {r : LogDataResult}
    {m : ℕ} (h : call.getLogData start answers = (.ok r, m)) :
    ∃ k reply, m = k + 1 ∧ answers k = .ok reply ∧ 0 < reply.result ∧
      (reply.result = rcPartialSuccess → call.GivesUp answers k) := by
  rw [getLogData] at h
  cases hstart : call.fetchStart start with
  | error e => simp [hstart] at h
  | ok first =>
    obtain ⟨st, q⟩ := first
    obtain ⟨q', -, heq⟩ := map_eq_ok.mp hstart
    obtain ⟨rfl, -⟩ := Prod.mk.inj heq
    simp only [hstart] at h
    obtain ⟨k, reply, hm, hans, hpos, hgive⟩ := call.fetchLoop_returned maxTruncationIterations
      (call.initial start) 0 rfl (by decide) rfl rfl h
    exact ⟨k, reply, hm, hans, hpos, fun hrc => hgive (by simp [isTruncated, hrc])⟩

end LogDataCall

/-- A call that asks for the two curves of a depth log from the beginning. -/
def depthCall : LogDataCall where
  uidWell := "W".toList
  uidWellbore := "B".toList
  uid := "L".toList
  mnemonics := ["DEPT".toList, "ROP".toList]
  indexType := .measuredDepth
  direction := .increasing

/-- A store that answers every request with this code and no log. -/
def emptyAnswers (code : ℤ) : ℕ → Answer := fun _ => .ok { result := code, logs := .ok [] }

/-- Such a call returns after one request if the code is a success. -/
theorem getLogData_emptyAnswers {code : ℤ} (hcode : 0 < code) :
    ∃ r, depthCall.getLogData none (emptyAnswers code) = (.ok r, 1) := by
  have hstep : ∃ r, depthCall.fetchStep (depthCall.initial none) (emptyAnswers code 0) =
      .ok (.inr r) := by
    have herr : isError code = false := by simpa [isError] using hcode
    have hparse : parseLogData [] (some IndexType.measuredDepth) none = .ok [] := rfl
    refine ⟨⟨depthCall.uid, depthCall.uidWell, depthCall.uidWellbore, .measuredDepth,
      ⟨depthCall.mnemonics, [none, none], .measuredDepth, []⟩⟩, ?_⟩
    simp only [LogDataCall.fetchStep, emptyAnswers, bind, Except.bind, herr, Bool.false_eq_true,
      if_false, depthCall, hparse, LogDataCall.absorb, LogDataCall.advances, Bool.and_false,
      Bool.false_and]
    rfl
  obtain ⟨r, hr⟩ := hstep
  refine ⟨r, ?_⟩
  have hstart : ∃ q, depthCall.fetchStart none = .ok (depthCall.initial none, q) := ⟨_, rfl⟩
  obtain ⟨q, hq⟩ := hstart
  rw [LogDataCall.getLogData, hq]
  simp only [maxTruncationIterations, LogDataCall.fetchLoop, hr]

/-- **A truncated result can be passed off as complete**: a `+2` without a log ends the call, and
so does a success code that is neither `+1` nor `+2`.  So the last response of a call that returns
need not be a `+1`. -/
theorem getLogData_not_success :
    (∃ r, depthCall.getLogData none (emptyAnswers rcPartialSuccess) = (.ok r, 1)) ∧
      (∃ r, depthCall.getLogData none (emptyAnswers 3) = (.ok r, 1)) ∧
      rcPartialSuccess ≠ rcSuccess ∧ (3 : ℤ) ≠ rcSuccess :=
  ⟨getLogData_emptyAnswers (by decide), getLogData_emptyAnswers (by decide), by decide, by decide⟩

/-- A store that truncates every answer: two rows, the last of them with the next, and then the
boundary row alone. -/
def truncatedPages (n : ℕ) : Answer :=
  .ok
    { result := rcPartialSuccess
      logs := .ok [{
        uid := some "L".toList
        uidWell := some "W".toList
        uidWellbore := some "B".toList
        indexType := some "measured depth".toList
        logData := some ⟨some "DEPT,ROP".toList, none,
          ((["1,5", "2,6", "3,7"].drop n).take 2).map fun line => some line.toList⟩ }] }

/-- The third answer brings the boundary row alone, and the call returns all three rows. -/
theorem getLogData_truncatedPages :
    ∃ r, depthCall.getLogData none truncatedPages = (.ok r, 3) ∧ r.block.rows.length = 3 := by
  have hrun : ((depthCall.getLogData none truncatedPages).1.toOption.map fun r =>
      r.block.rows.length) = some 3 ∧ (depthCall.getLogData none truncatedPages).2 = 3 := by
    decide +kernel
  generalize depthCall.getLogData none truncatedPages = out at hrun
  obtain ⟨outcome, n⟩ := out
  cases outcome with
  | error e => exact absurd hrun.1 (by simp [Except.toOption])
  | ok r => exact ⟨r, by rw [← hrun.2], by simpa [Except.toOption] using hrun.1⟩

/-- There the loop gives up because the third answer offers the continuation of the second. -/
theorem getLogData_returned_truncatedPages :
    ∃ k reply, 3 = k + 1 ∧ truncatedPages k = .ok reply ∧ 0 < reply.result ∧
      (reply.result = rcPartialSuccess → depthCall.GivesUp truncatedPages k) := by
  obtain ⟨r, hr, -⟩ := getLogData_truncatedPages
  exact depthCall.getLogData_returned hr

end WitsmlViewer

/-
# Fetching pages of a stored log

`get_log_data` against the store: what its local variables hold after some pages, and what it
returns.

`Holds` ties the blocks to the pages they were parsed from.  `fetchStep_page` is the one lemma
about an iteration: against a page it either asks again, from the page's most advanced index, or
stops and returns the merge of all pages (`Returned`).  It says why it stopped after a cut-off
page.  Everything above reasons about lists of entries, never about blocks.

The pages may come from different states of the log.  What is fixed is the log's header, by
`SameHead`: rows may come and be rewritten between two pages, the columns and the direction may
not.  No statement here says how the pages lie relative to each other; that is the business of the
invariants in `Coverage`, which differ from one result to another, and the reason why this module stays
below them.

A row can be stored and yet not be read with an index: if the log's mnemonic list is blank there
are no columns, and an index that is written as a null sentinel decodes to none.  `reads` is the
condition, and the rows that fail it are dropped by the merge.
-/
import WitsmlViewer.Growth

namespace WitsmlViewer

open Py GrowingTable

/-- The store's answer to a query; an exception of the server is a fault of the transport. -/
def MockStore.serve (store : MockStore) (q : LogQuery) : Answer :=
  match store.queryLogs q with
  | .ok (rc, els) => .ok { result := rc, logs := .ok els }
  | .error _ => .error .transportError

/-! ## 1. Pages

What the store sends, and which of its rows count. -/

namespace StoredLog

variable {log : StoredLog}

/-- Whether the client gets a row of the log with its index: there are columns to read it
under, and the index decodes. -/
def reads (log : StoredLog) (e : Entry) : Bool := log.columns.isSome && visible e

/-- The reply that carries a page. -/
def pageReply (log : StoredLog) (pg : List Entry × Bool) : Reply :=
  { result := if pg.2 then rcPartialSuccess else rcSuccess, logs := .ok [log.pageElem pg.1] }

/-- The most advanced row of a page that the client gets. -/
structure Last (log : StoredLog) (pg : List Entry) (e : Entry) : Prop where
  mem : e ∈ pg
  reads : log.reads e = true
  le : ∀ f ∈ pg, log.reads f = true → log.entryKey f ≤ log.entryKey e

/-- A page is cut off inside the window, or it is the whole window. -/
theorem page_cases (log : StoredLog) (start stop : Option Value) (maxNodes : Option ℤ) :
    (∃ n : ℕ, maxNodes = some (n : ℤ) ∧ 0 < n ∧
      n < (window log.entryKey (startKey log.direction start) (log.tableTo stop)).length ∧
      log.page start stop maxNodes =
        ((window log.entryKey (startKey log.direction start) (log.tableTo stop)).take n, true)) ∨
    log.page start stop maxNodes =
      (window log.entryKey (startKey log.direction start) (log.tableTo stop), false) := by
  rw [page, pageOf]
  cases hf : maxNodes.filter _ with
  | none => exact Or.inr rfl
  | some n =>
    obtain ⟨hn, hlt⟩ := Option.filter_eq_some_iff.mp hf
    simp only [decide_eq_true_eq] at hlt
    refine Or.inl ⟨n.toNat, ?_, by omega, by omega, rfl⟩
    rw [hn, Int.toNat_of_nonneg hlt.1.le]

/-- A row of a page is in the table. -/
theorem mem_page {start stop : Option Value} {maxNodes : Option ℤ} {e : Entry}
    (h : e ∈ (log.page start stop maxNodes).1) :
    e ∈ window log.entryKey (startKey log.direction start) (log.tableTo stop) := by
  rcases log.page_cases start stop maxNodes with ⟨n, -, -, -, hp⟩ | hp <;> rw [hp] at h
  · exact List.mem_of_mem_take h
  · exact h

theorem mem_entries_of_mem_page {start stop : Option Value} {maxNodes : Option ℤ} {e : Entry}
    (h : e ∈ (log.page start stop maxNodes).1) : e ∈ log.rows.entries :=
  (mem_tableTo.mp (mem_window.mp (mem_page h)).1).1

/-- **The store serves a request with a page of the log it addresses**, or fails on a bound that it
cannot read.  The query names all three parts of the identity, none of them empty, so one log
answers it. -/
theorem serve_request {store : MockStore} {key : Str × Str × Str}
    (hf : store.findLog key = some log) (hs : store.Sole key) (ho : log.Orderable)
    {mnemonics : List Str} {start stop : Option Value} {uom : Option Str} {maxNodes : Option ℤ}
    {q : LogQuery}
    (hq : logDataQuery key.1 key.2.1 key.2.2 mnemonics log.indexType start stop uom maxNodes =
      .ok q) :
    (∃ lo hi, servedBound log.indexType start = .ok lo ∧ servedBound log.indexType stop = .ok hi ∧
      store.serve q = .ok (log.pageReply (log.page lo hi maxNodes))) ∨
    store.serve q = .error .transportError := by
  obtain ⟨-, -, hwell, hwellbore, huid⟩ := queryRange_request hq
  rw [MockStore.serve, MockStore.queryLogs_of_sole hf hs hwell hwellbore huid,
    answer_eq ho _ hq]
  cases hlo : servedBound log.indexType start with
  | error e => exact Or.inr rfl
  | ok lo =>
    cases hhi : servedBound log.indexType stop with
    | error e => exact Or.inr rfl
    | ok hi => exact Or.inl ⟨lo, hi, rfl, rfl, rfl⟩

end StoredLog

/-! ## 2. What the client holds

The blocks and the pages correspond row by row.  A page without a row that the client gets may add
a block of rows without an index, or no block at all, and neither shows. -/

/-- The blocks hold the rows of the pages `got` that carry an index, under the log's header. -/
structure Holds (log : StoredLog) (st : FetchState) (got : List Entry) : Prop where
  header : ∀ b ∈ st.blocks, log.columns = some b.mnemonics ∧
    b.units = log.columnUnits b.mnemonics ∧ b.indexType = log.indexType
  rows : (st.blocks.flatMap LogDataBlock.rows).filter (·.index.isSome) =
    (got.filter log.reads).map decodedRow

/-- What `get_log_data` returns for the pages `got`: their rows that carry an index, one for
each index, in ascending order. -/
structure Returned (log : StoredLog) (got : List Entry) (r : LogDataResult) : Prop where
  sorted : r.block.rows.Pairwise fun a b => a.rank < b.rank
  row : ∀ row ∈ r.block.rows, ∃ e ∈ got, log.reads e = true ∧ row = decodedRow e
  index : ∀ e ∈ got, log.reads e = true → ∃ row ∈ r.block.rows, row.index = some e.1
  header : r.block.rows ≠ [] → log.columns = some r.block.mnemonics ∧
    r.block.units = log.columnUnits r.block.mnemonics

variable {log log' : StoredLog} {st : FetchState} {got pg : List Entry} {call : LogDataCall}

/-- Whether a row is read depends on the header and on the row itself. -/
theorem SameHead.reads (h : SameHead log log') : log'.reads = log.reads := by
  funext e
  rw [StoredLog.reads, StoredLog.reads, h.columns]

theorem Holds.initial (log : StoredLog) (call : LogDataCall) (start : Option Value) :
    Holds log (call.initial start) [] := ⟨by simp [LogDataCall.initial], rfl⟩

theorem Holds.of_sameHead (h : Holds log st got) (hs : SameHead log log') : Holds log' st got where
  header := by
    rw [hs.columns, hs.columnUnits, hs.indexType]
    exact h.header
  rows := by
    rw [hs.reads]
    exact h.rows

theorem decodedRow_isSome {e : Entry} (h : log.reads e = true) :
    (decodedRow e).index = some e.1 := by
  rw [StoredLog.reads, Bool.and_eq_true] at h
  exact decodedRow_index_eq_some.mpr ⟨h.2, rfl⟩

/-- A row with an index is a decoded entry. -/
theorem Holds.row_of_index (h : Holds log st got) {b : LogDataBlock} (hb : b ∈ st.blocks) {r : Row}
    (hr : r ∈ b.rows) {i : Value} (hi : r.index = some i) :
    ∃ e ∈ got, log.reads e = true ∧ r = decodedRow e := by
  have hmem : r ∈ (st.blocks.flatMap LogDataBlock.rows).filter (·.index.isSome) :=
    List.mem_filter.mpr ⟨List.mem_flatMap.mpr ⟨b, hb, hr⟩, by simp [hi]⟩
  rw [h.rows] at hmem
  obtain ⟨e, he, rfl⟩ := List.mem_map.mp hmem
  obtain ⟨heg, hev⟩ := List.mem_filter.mp he
  exact ⟨e, heg, hev, rfl⟩

/-- Every entry that carries an index is in a block. -/
theorem Holds.row_of_entry (h : Holds log st got) {e : Entry} (he : e ∈ got)
    (hr : log.reads e = true) : ∃ b ∈ st.blocks, decodedRow e ∈ b.rows := by
  have hmem : decodedRow e ∈ (got.filter log.reads).map decodedRow :=
    List.mem_map_of_mem (List.mem_filter.mpr ⟨he, hr⟩)
  rw [← h.rows] at hmem
  exact List.mem_flatMap.mp (List.mem_filter.mp hmem).1

/-- **The result of a call is the merge of its pages.**  `mergeBlocks_spec` does the work; what is
added is that the blocks have one header and that their rows are those of the pages. -/
theorem Holds.result (h : Holds log st got) (ho : ∀ e ∈ got, e.1.Orders log.indexType) :
    ∃ r, call.result st = .ok r ∧ Returned log got r := by
  by_cases hne : st.blocks = []
  · refine ⟨_, by rw [LogDataCall.result, if_pos hne]; rfl, List.Pairwise.nil, by simp, ?_, by simp⟩
    intro e he hr
    obtain ⟨b, hb, -⟩ := h.row_of_entry he hr
    rw [hne] at hb
    exact absurd hb List.not_mem_nil
  · obtain ⟨head, hhead⟩ := List.exists_mem_of_ne_nil _ hne
    obtain ⟨hcols, hunits, htype⟩ := h.header head hhead
    have hsame : SameHeader head st.blocks := by
      intro b hb
      obtain ⟨hc, hu, ht⟩ := h.header b hb
      have hmn : b.mnemonics = head.mnemonics := Option.some.inj (hc.symm.trans hcols)
      exact ⟨hmn, by rw [hu, hunits, hmn], by rw [ht, htype]⟩
    have hord : ∀ b ∈ st.blocks, ∀ r ∈ b.rows, r.Orders log.indexType := by
      intro b hb r hr i hi
      obtain ⟨e, he, hv, rfl⟩ := h.row_of_index hb hr hi
      rw [decodedRow_isSome hv, Option.some.injEq] at hi
      exact hi ▸ ho e he
    obtain ⟨rows, hmerge, hsorted, hrow, hindex⟩ := mergeBlocks_spec hne hsame hord
    refine ⟨_, by rw [LogDataCall.result, if_neg hne, hmerge]; rfl, hsorted, ?_, ?_, ?_⟩
    · intro r hr
      obtain ⟨hri, b, hb, hrb⟩ := hrow r hr
      obtain ⟨i, hi⟩ := Option.ne_none_iff_exists'.mp hri
      exact h.row_of_index hb hrb hi
    · intro e he hr
      obtain ⟨b, hb, hrb⟩ := h.row_of_entry he hr
      exact hindex b hb _ hrb _ (decodedRow_isSome hr)
    · exact fun _ => ⟨hcols, hunits⟩

/-- The continuation that a page offers: its most advanced row, if the client gets any. -/
def Continues (log : StoredLog) (pg : List Entry) (next : Option Value) : Prop :=
  next = none ∧ (∀ e ∈ pg, log.reads e = false) ∨ ∃ e, log.Last pg e ∧ next = some e.1

/-- The continuation of a page's block is the index of its most advanced readable row. -/
theorem continuation_block {cols : List Str} (hcols : log.columns = some cols)
    (ho : ∀ e ∈ pg, e.1.Orders log.indexType) :
    ∃ next, continuationIndex (log.block cols pg) log.direction = .ok next ∧
      Continues log pg next := by
  have hreads : ∀ e, log.reads e = visible e := fun e => by simp [StoredLog.reads, hcols]
  have hrows : ∀ r ∈ (log.block cols pg).rows, r.Orders log.indexType := by
    intro r hr
    obtain ⟨e, he, rfl⟩ := List.mem_map.mp hr
    exact decodedRow_orders (ho e he)
  rcases continuationIndex_spec hrows log.direction with
    ⟨hrun, hall⟩ | ⟨v, hrun, -, ⟨r, hr, hi⟩, hmax⟩
  · refine ⟨none, hrun, Or.inl ⟨rfl, fun e he => ?_⟩⟩
    have hi := hall (decodedRow e) (List.mem_map_of_mem he)
    rw [Bool.eq_false_iff]
    intro hr
    rw [decodedRow_isSome hr] at hi
    exact absurd hi (by simp)
  · obtain ⟨e, he, rfl⟩ := List.mem_map.mp hr
    obtain ⟨hve, hev⟩ := decodedRow_index_eq_some.mp hi
    refine ⟨some v, hrun, Or.inr ⟨e, ⟨he, (hreads e).trans hve, fun f hf hrf => ?_⟩, by rw [hev]⟩⟩
    have hle := hmax (decodedRow f) (List.mem_map_of_mem hf) _ (decodedRow_isSome hrf)
    rw [← hev] at hle
    exact hle

theorem Holds.append_block {st' : FetchState} {cols : List Str} (h : Holds log st got)
    (hcols : log.columns = some cols) (hst : st'.blocks = st.blocks ++ [log.block cols pg]) :
    Holds log st' (got ++ pg) where
  header b hb := by
    rw [hst] at hb
    rcases List.mem_append.mp hb with hb | hb
    · exact h.header b hb
    · rw [List.mem_singleton.mp hb]
      exact ⟨hcols, rfl, rfl⟩
  rows := by
    have hreads : ∀ e, log.reads e = visible e := fun e => by simp [StoredLog.reads, hcols]
    have hvis : ((pg.map decodedRow).filter (·.index.isSome)) =
        (pg.filter log.reads).map decodedRow := by
      rw [List.filter_map]
      congr 1
      refine List.filter_congr fun e _ => ?_
      rw [hreads]
      cases hv : visible e <;> simp [decodedRow, hv]
    rw [hst, List.flatMap_append, List.filter_append, h.rows, List.filter_append, List.map_append,
      List.flatMap_singleton]
    exact congrArg _ hvis

/-- A page without a row that the client gets changes nothing. -/
theorem Holds.append_unread {st' : FetchState} (h : Holds log st got)
    (hst : st'.blocks = st.blocks) (hr : ∀ e ∈ pg, log.reads e = false) :
    Holds log st' (got ++ pg) where
  header := by rw [hst]; exact h.header
  rows := by
    have hnil : pg.filter log.reads = [] := List.filter_eq_nil_iff.mpr fun e he => by simp [hr e he]
    rw [hst, h.rows, List.filter_append, hnil, List.append_nil]

/-- **Taking in a page**: the blocks hold it, and the continuation is its most advanced row. -/
theorem Holds.absorb (h : Holds log st got) (hdir : call.direction = log.direction)
    (ho : ∀ e ∈ pg, e.1.Orders log.indexType) :
    ∃ st' next, call.absorb st (log.batch pg) = .ok (st', next) ∧ Holds log st' (got ++ pg) ∧
      st'.calls = st.calls ∧ st'.lastIndex = st.lastIndex ∧ Continues log pg next := by
  cases hcols : log.columns with
  | none =>
    have hr : ∀ e ∈ pg, log.reads e = false := fun e _ => by simp [StoredLog.reads, hcols]
    have hb : log.batch pg = [] := by rw [StoredLog.batch, hcols]
    exact ⟨st, none, by rw [hb]; rfl, h.append_unread rfl hr, rfl, rfl, Or.inl ⟨rfl, hr⟩⟩
  | some cols =>
    by_cases hpg : pg = []
    · have hr : ∀ e ∈ pg, log.reads e = false := by simp [hpg]
      have hb : log.batch pg = [] := by rw [StoredLog.batch, hcols]; exact if_pos hpg
      exact ⟨st, none, by rw [hb]; rfl, h.append_unread rfl hr, rfl, rfl, Or.inl ⟨rfl, hr⟩⟩
    · have hb : log.batch pg =
          [⟨log.uid, log.uidWell, log.uidWellbore, log.indexType, log.block cols pg⟩] := by
        rw [StoredLog.batch, hcols]
        exact if_neg hpg
      obtain ⟨next, hrun, hnext⟩ := continuation_block hcols ho
      obtain ⟨st', hst', hblocks, hcalls, hlast⟩ : ∃ st', call.absorb st (log.batch pg) =
          .ok (st', next) ∧ st'.blocks = st.blocks ++ [log.block cols pg] ∧
          st'.calls = st.calls ∧ st'.lastIndex = st.lastIndex := by
        rw [hb, LogDataCall.absorb, hdir, hrun]
        exact ⟨_, rfl, rfl, rfl, rfl⟩
      exact ⟨st', next, hst', h.append_block hcols hblocks, hcalls, hlast, hnext⟩

/-! ## 3. One iteration

One iteration, from the state with some pages to the state with one more. -/

/-- A request that went out once goes out again with any ordered cursor.  The rest of the request
does not change, and an ordered cursor renders. -/
theorem request_of_cursor {st st' : FetchState} {q : LogQuery} (h : call.request st = .ok q)
    {v : Value} (hc : st'.cursor = some v) (hv : v.Orders call.indexType) :
    ∃ q', call.request st' = .ok q' := by
  rw [LogDataCall.request, logDataQuery] at h ⊢
  split at h
  · simp at h
  · rename_i hne
    rw [if_neg hne, hc]
    split at h
    · rename_i ht
      obtain ⟨_, _, h⟩ := bind_eq_ok.mp h
      obtain ⟨e, he, -⟩ := bind_eq_ok.mp h
      cases v with
      | num x => exact absurd hv.1 (by simp [ht])
      | text s => exact hv.elim
      | dt d =>
        rw [if_pos ht, he]
        exact ⟨_, rfl⟩
    · rename_i ht
      obtain ⟨_, _, h⟩ := bind_eq_ok.mp h
      obtain ⟨e, he, -⟩ := bind_eq_ok.mp h
      cases v with
      | dt d => exact absurd hv.1 (by simp [ht])
      | text s => exact hv.elim
      | num x =>
        rw [if_neg ht, he]
        exact ⟨_, rfl⟩

/-- The call asks again after a page: from its most advanced row. -/
structure Asks (call : LogDataCall) (log : StoredLog) (st : FetchState) (got pg : List Entry)
    (st' : FetchState) (q : LogQuery) : Prop where
  request : call.request st' = .ok q
  holds : Holds log st' (got ++ pg)
  cursor : ∃ e, log.Last pg e ∧ st'.cursor = some e.1 ∧ st'.lastIndex = some e.1 ∧
    st.lastIndex ≠ some e.1
  calls : st'.calls = st.calls + 1
  bound : st'.calls < maxTruncationIterations

/-- The call returns after a page; after a cut-off one only because it offers no continuation or
the same one again, or because of the cap on iterations. -/
structure Stops (log : StoredLog) (st : FetchState) (got : List Entry) (pg : List Entry × Bool)
    (r : LogDataResult) : Prop where
  returned : Returned log (got ++ pg.1) r
  reason : pg.2 = true → (∀ e ∈ pg.1, log.reads e = false) ∨
    ∃ e, log.Last pg.1 e ∧ (st.lastIndex = some e.1 ∨ maxTruncationIterations ≤ st.calls + 1)

/-- An ordered continuation is new if it differs from the last one. -/
theorem advances_eq_true {t : IndexType} {v : Value} (hv : v.Orders t) {last : Option Value} :
    LogDataCall.advances (some v) last = true ↔ last ≠ some v := by
  cases last with
  | none => simp [LogDataCall.advances]
  | some w =>
    simp only [LogDataCall.advances, Bool.not_eq_true', ← Bool.not_eq_true, Value.beq_iff, ne_eq,
      Option.some.injEq]
    exact ⟨fun h heq => h ⟨heq.symm, hv.ne_nan⟩, fun h heq => h heq.1.symm⟩

/-- **One iteration against a page of the log.**

The call asks again exactly if the page was cut off, offers a continuation that is new, and
iterations are left; then its state is the old one with the page taken in, and the request starts
at the continuation.  Otherwise it returns, and `Stops` names what was missing.  The next request
never fails, because a continuation is an ordered index. -/
theorem fetchStep_page (hit : call.indexType = log.indexType)
    (hdir : call.direction = log.direction) {pg : List Entry × Bool} (h : Holds log st got)
    (hpg : ∀ e ∈ pg.1, e ∈ log.rows.entries) (ho : ∀ e ∈ got ++ pg.1, e.1.Orders log.indexType)
    {q : LogQuery} (hreq : call.request st = .ok q) :
    (∃ st' q', call.fetchStep st (.ok (log.pageReply pg)) = .ok (.inl (st', q')) ∧ pg.2 = true ∧
      Asks call log st got pg.1 st' q') ∨
    ∃ r, call.fetchStep st (.ok (log.pageReply pg)) = .ok (.inr r) ∧ Stops log st got pg r := by
  obtain ⟨st', next, habs, hholds, hcalls, hlast, hnext⟩ :=
    h.absorb hdir fun e he => ho e (List.mem_append_right _ he)
  have herr : isError (log.pageReply pg).result = false := by
    rw [StoredLog.pageReply]
    cases pg.2 <;> rfl
  have htrunc : isTruncated (log.pageReply pg).result = pg.2 := by
    rw [StoredLog.pageReply]
    cases pg.2 <;> rfl
  have hstep : call.fetchStep st (.ok (log.pageReply pg)) =
      if pg.2 && LogDataCall.advances next st'.lastIndex &&
          decide (st'.calls + 1 < maxTruncationIterations) then
        (call.request { st' with
          cursor := next, lastIndex := next, calls := st'.calls + 1 }).bind fun q =>
            .ok (.inl ({ st' with cursor := next, lastIndex := next, calls := st'.calls + 1 }, q))
      else (call.result st').map .inr := by
    have hparse : parseLogData [log.pageElem pg.1] (some call.indexType) none =
        .ok (log.batch pg.1) := by
      rw [hit]
      exact StoredLog.parse_page hpg
    simp only [LogDataCall.fetchStep, bind, Except.bind, herr, htrunc]
    rw [StoredLog.pageReply]
    simp only [Bool.false_eq_true, if_false, hparse, habs]
  rw [hstep]
  split
  · rename_i hcond
    simp only [Bool.and_eq_true, decide_eq_true_eq] at hcond
    obtain ⟨⟨htr, hadv⟩, hcap⟩ := hcond
    obtain ⟨rfl, -⟩ | ⟨e, he, rfl⟩ := hnext
    · simp [LogDataCall.advances] at hadv
    · have hoe : e.1.Orders log.indexType := ho e (List.mem_append_right _ he.mem)
      obtain ⟨q', hq'⟩ : ∃ q', call.request { st' with
          cursor := some e.1, lastIndex := some e.1, calls := st'.calls + 1 } = .ok q' :=
        request_of_cursor hreq rfl (hit ▸ hoe)
      refine Or.inl ⟨_, q', by rw [hq']; rfl, htr, hq', ⟨hholds.header, hholds.rows⟩,
        ⟨e, he, rfl, rfl, ?_⟩, by rw [hcalls], hcap⟩
      rw [hlast] at hadv
      exact (advances_eq_true hoe).mp hadv
  · rename_i hcond
    obtain ⟨r, hr, hret⟩ : ∃ r, call.result st' = .ok r ∧ Returned log (got ++ pg.1) r :=
      hholds.result ho
    refine Or.inr ⟨r, by rw [hr]; rfl, hret, fun htr => ?_⟩
    rcases hnext with ⟨-, hnone⟩ | ⟨e, he, rfl⟩
    · exact Or.inl hnone
    · have hoe : e.1.Orders log.indexType := ho e (List.mem_append_right _ he.mem)
      refine Or.inr ⟨e, he, ?_⟩
      by_cases hl : st.lastIndex = some e.1
      · exact Or.inl hl
      · refine Or.inr ?_
        by_contra hcap
        refine hcond ?_
        simp only [Bool.and_eq_true, decide_eq_true_eq]
        rw [hlast, hcalls]
        exact ⟨⟨htr, (advances_eq_true hoe).mpr hl⟩, by omega⟩

end WitsmlViewer

/-
# What the store serves

The store keeps a log's rows in a dictionary; a reader of pages sees them as a table in the log's
growth order.  This module is the bridge between the two.

* `table` is a log's rows in growth order, with `entryKey` as the key: an ordered table in the
  sense of `GrowingTable`, provided no index is `nan` (`table_ordered`).
* `answer_eq`: a data-only answer is a page of the window that the query's bounds cut out.
* `parse_page`: parsing the answer decodes the page's rows one by one (`decodedRow`); no exception
  can come from a stored row.
* `queryRange_request`: the bounds that the store reads from a rendered request (`servedBound`).
  An ordered index arrives as `wire` of itself: floats exactly, instants floored to the
  millisecond.

Together they take a request of the client to the block that it gets, with the XML, the parsing and
the formatting gone: from here on a log is an ordered list of entries, a query is a pair of
positions, and an answer is a window of that list, perhaps cut off.  `Fetching` and all that rests
on it talk about nothing else.

Two things that look alike are kept apart.  `startKey` and `withinStop` are about the bounds as the
store reads them; `wire` is about what rendering has made of them.  A bound that renders without
loss (`Exact`) is one for which the difference vanishes.
-/
import WitsmlViewer.Client
import WitsmlViewer.MockStore
import WitsmlViewer.Lib.GrowingTable

namespace WitsmlViewer

open Py GrowingTable

/-- A stored row with its index. -/
abbrev Entry := Value × StoredRow

/-! ## 1. The table of a log

Distinct keys that are not `nan` have distinct positions, so sorting them gives a strictly ordered
list.  `Orderable` is the one assumption, and it is about the log's rows only; a time log has it
always. -/

/-- An index of the kind that a log of this type stores, `nan` included. -/
def Value.OfKind (t : IndexType) : Value → Prop
  | .num _ => t.isTime = false
  | .text _ => False
  | .dt d => t.isTime = true ∧ d.aware = true

/-- An index of the log's kind that is not `nan` can be ordered. -/
theorem Value.OfKind.orders {t : IndexType} {v : Value} (h : v.OfKind t) (hn : v ≠ .num .nan) :
    v.Orders t := by
  cases v with
  | num x => exact ⟨h, fun hx => hn (by rw [hx])⟩
  | text s => exact h
  | dt d => exact h

theorem Value.Orders.ofKind {t : IndexType} {v : Value} (h : v.Orders t) : v.OfKind t := by
  cases v with
  | num x => exact h.1
  | text s => exact h
  | dt d => exact h

/-- A row's key is of the log's kind. -/
theorem RowOk.ofKind {t : IndexType} {k : Value} {row : StoredRow} (h : RowOk t k row) :
    k.OfKind t := by
  have hp := h.parsed
  simp only [parseIndex] at hp
  split at hp
  · simp at hp
  · split at hp
    · rename_i ht
      obtain ⟨d, hd, hk⟩ := map_eq_ok.mp hp
      cases d with
      | none => simp at hk
      | some d =>
        rw [Option.map_some, Option.some.injEq] at hk
        rw [← hk]
        exact ⟨ht, aware_of_parseDatetime hd⟩
    · rename_i ht
      rw [Except.ok.injEq] at hp
      obtain ⟨x, -, rfl⟩ := Option.map_eq_some_iff.mp hp
      simpa [Value.OfKind] using ht

namespace StoredLog

variable {log : StoredLog}

/-- The position of a row along the log's growth. -/
def entryKey (log : StoredLog) (e : Entry) : ℤ := growthKey log.direction e.1

/-- The log's rows in growth order. -/
def table (log : StoredLog) : List Entry :=
  log.rows.entries.insertionSort fun a b => log.entryKey a ≤ log.entryKey b

/-- No index of the log is `nan`. -/
def Orderable (log : StoredLog) : Prop := ∀ e ∈ log.rows.entries, e.1 ≠ .num .nan

/-- The table has the log's rows, no more and no fewer. -/
theorem mem_table {e : Entry} : e ∈ log.table ↔ e ∈ log.rows.entries :=
  List.mem_insertionSort _

/-- Every index of an orderable log can be ordered. -/
theorem Orderable.orders (h : log.Orderable) {e : Entry} (he : e ∈ log.rows.entries) :
    e.1.Orders log.indexType :=
  (log.rows.rowOk e he).ofKind.orders (h e he)

/-- **The table is ordered.**  Sorting gives the weak order; that it is strict comes from the
dictionary, which has no two equal keys. -/
theorem table_ordered (h : log.Orderable) : Ordered log.entryKey log.table := by
  have htot : Std.Total fun a b : Entry => log.entryKey a ≤ log.entryKey b :=
    ⟨fun a b => le_total _ _⟩
  have htrans : IsTrans Entry fun a b => log.entryKey a ≤ log.entryKey b := ⟨fun a b c => le_trans⟩
  have hsorted : log.table.Pairwise fun a b => log.entryKey a ≤ log.entryKey b :=
    List.pairwise_insertionSort _ _
  have hdist : log.table.Pairwise fun a b => a.1 ≠ b.1 := by
    have hne : log.rows.entries.Pairwise fun a b => a.1 ≠ b.1 :=
      log.rows.distinct.imp_of_mem fun {a b} ha _ hab heq => by
        have hself := Value.beq_self (h a ha)
        rw [← heq] at hab
        rw [hself] at hab
        exact absurd hab (by simp)
    exact (List.perm_insertionSort _ _).symm.pairwise_iff (fun hab => Ne.symm hab) |>.mp hne
  refine (hsorted.and hdist).imp_of_mem fun {a b} ha hb hab => lt_of_le_of_ne hab.1 fun heq => ?_
  exact hab.2 (growthKey_inj (h.orders (mem_table.mp ha)) (h.orders (mem_table.mp hb)) heq)

/-- `sorted_indices` in the log's own direction is the table. -/
theorem sortedIndices_eq (h : log.Orderable) :
    log.sortedIndices log.direction = .ok log.table := by
  rw [sortedIndices, sortedEntries_eq fun e he => h.orders he]
  refine congrArg Except.ok (insertionSort_congr fun a _ b _ => ?_)
  simp only [entryKey]
  cases hd : log.direction with
  | increasing => simp [growthKey]
  | decreasing => simp [growthKey]

end StoredLog

/-! ## 2. Bounds and pages

`_before` and `_after` compare in the log's direction, with both ends inclusive.  On positions they
are the two ends of an interval, whatever the direction is. -/

/-- A lower bound as a position; `nan` bounds nothing. -/
def startKey (d : Direction) : Option Value → WithBot ℤ
  | none => ⊥
  | some v => if v = .num .nan then ⊥ else growthKey d v

/-- Whether a position is within an upper bound. -/
def withinStop (d : Direction) : Option Value → ℤ → Bool
  | none, _ => true
  | some v, k => v = .num .nan || k ≤ growthKey d v

/-- A bound of the kind that a query for this index type carries. -/
def BoundOk (t : IndexType) (b : Option Value) : Prop := ∀ v, b = some v → v.OfKind t

/-- Being before the start is having a smaller position. -/
theorem before_eq {t : IndexType} {i s : Value} (hi : i.Orders t) (hs : s.OfKind t)
    (d : Direction) :
    before i s d = .ok (!decide (startKey d (some s) ≤ (growthKey d i : WithBot ℤ))) := by
  by_cases hn : s = .num .nan
  · subst hn
    cases i with
    | num x => cases d <;> simp [before, Value.lt?, Float64.lt, startKey]
    | text _ => exact hi.elim
    | dt _ => simp_all [Value.Orders, Value.OfKind]
  · have hs' := hs.orders hn
    simp only [startKey, hn, if_false, WithBot.coe_le_coe]
    cases d with
    | increasing =>
      rw [before, hi.lt?_eq hs', ← decide_not]
      exact congrArg Except.ok (decide_eq_decide.mpr (by simp [growthKey]))
    | decreasing =>
      rw [before, hs'.lt?_eq hi, ← decide_not]
      exact congrArg Except.ok (decide_eq_decide.mpr (by simp [growthKey]))

/-- Being after the end is being outside the upper bound. -/
theorem after_eq {t : IndexType} {i s : Value} (hi : i.Orders t) (hs : s.OfKind t)
    (d : Direction) : after i s d = .ok (!withinStop d (some s) (growthKey d i)) := by
  by_cases hn : s = .num .nan
  · subst hn
    cases i with
    | num x => cases d <;> simp [after, Value.lt?, Float64.lt, withinStop]
    | text _ => exact hi.elim
    | dt _ => simp_all [Value.Orders, Value.OfKind]
  · have hs' := hs.orders hn
    simp only [withinStop, hn, decide_false, Bool.false_or]
    cases d with
    | increasing =>
      rw [after, hs'.lt?_eq hi, ← decide_not]
      exact congrArg Except.ok (decide_eq_decide.mpr (by simp [growthKey]))
    | decreasing =>
      rw [after, hi.lt?_eq hs', ← decide_not]
      exact congrArg Except.ok (decide_eq_decide.mpr (by simp [growthKey]))

/-- The range filter of `_select_rows`: between the bounds, nothing raises and nothing is
reordered. -/
theorem withinRange_eq {t : IndexType} {start stop : Option Value} (hs : BoundOk t start)
    (he : BoundOk t stop) (d : Direction) :
    ∀ {entries : List Entry}, (∀ e ∈ entries, e.1.Orders t) →
      StoredLog.withinRange start stop d entries = .ok (entries.filter fun e =>
        decide (startKey d start ≤ (growthKey d e.1 : WithBot ℤ)) &&
          withinStop d stop (growthKey d e.1))
  | [], _ => rfl
  | e :: entries, h => by
    have ih := withinRange_eq hs he d fun e' he' => h e' (List.mem_cons_of_mem _ he')
    have hi := h e List.mem_cons_self
    have hearly : outOfRange.beforeStart e.1 start d =
        .ok (!decide (startKey d start ≤ (growthKey d e.1 : WithBot ℤ))) := by
      cases start with
      | none => simp [outOfRange.beforeStart, startKey]
      | some s => exact before_eq hi (hs s rfl) d
    have hlate : outOfRange.afterStop e.1 stop d =
        .ok (!withinStop d stop (growthKey d e.1)) := by
      cases stop with
      | none => rfl
      | some s => exact after_eq hi (he s rfl) d
    simp only [StoredLog.withinRange, outOfRange, hearly, hlate, ih, List.filter_cons]
    cases decide (startKey d start ≤ (growthKey d e.1 : WithBot ℤ)) <;>
      cases withinStop d stop (growthKey d e.1) <;> rfl

/-- A page of a window, and whether the cap cut it off.  A cap of zero, or one that the window fits
into, does not. -/
def pageOf (maxNodes : Option ℤ) (w : List Entry) : List Entry × Bool :=
  match maxNodes.filter fun n => decide (0 < n ∧ n < (w.length : ℤ)) with
  | some n => (w.take n.toNat, true)
  | none => (w, false)

namespace StoredLog

variable {log : StoredLog}

/-- The part of the table that a reader with this upper bound can see. -/
def tableTo (log : StoredLog) (stop : Option Value) : List Entry :=
  log.table.filter fun e => withinStop log.direction stop (log.entryKey e)

theorem tableTo_ordered (h : log.Orderable) (stop : Option Value) :
    Ordered log.entryKey (log.tableTo stop) :=
  (log.table_ordered h).sublist List.filter_sublist

theorem tableTo_none : log.tableTo none = log.table :=
  List.filter_eq_self.mpr fun _ _ => rfl

theorem mem_tableTo {stop : Option Value} {e : Entry} :
    e ∈ log.tableTo stop ↔ e ∈ log.rows.entries ∧
      withinStop log.direction stop (log.entryKey e) = true := by
  rw [tableTo, List.mem_filter, mem_table]

/-- The page that a query with these bounds and this cap gets. -/
def page (log : StoredLog) (start stop : Option Value) (maxNodes : Option ℤ) : List Entry × Bool :=
  pageOf maxNodes (window log.entryKey (startKey log.direction start) (log.tableTo stop))

/-- **`_select_rows` returns a page of the window between the bounds.** -/
theorem selectRows_eq (h : log.Orderable) {start stop : Option Value}
    (hs : BoundOk log.indexType start) (he : BoundOk log.indexType stop) (mrl : ℤ)
    (maxNodes : Option ℤ) :
    log.selectRows mrl start stop log.direction maxNodes none =
      .ok ((log.page start stop maxNodes).1.map Prod.snd, (log.page start stop maxNodes).2) := by
  have hw : (log.table.filter fun e =>
      decide (startKey log.direction start ≤ (growthKey log.direction e.1 : WithBot ℤ)) &&
        withinStop log.direction stop (growthKey log.direction e.1)) =
      window log.entryKey (startKey log.direction start) (log.tableTo stop) := by
    rw [window, tableTo, List.filter_filter]
    rfl
  simp only [selectRows, Option.filter_none, sortedIndices_eq h, bind, Except.bind]
  rw [withinRange_eq hs he _ fun e he' => h.orders (mem_table.mp he'), hw]
  rw [page]
  generalize window log.entryKey (startKey log.direction start) (log.tableTo stop) = w
  rw [pageOf]
  dsimp only
  cases maxNodes.filter fun n => decide (0 < n ∧ n < (w.length : ℤ)) <;> rfl

end StoredLog

/-! ## 3. Decoded rows -/

/-- Whether the row's index decodes; an index written as a null sentinel does not. -/
def visible (e : Entry) : Bool := decide (e.2.token ∉ commonNullSentinels)

/-- What the client decodes a stored row to. -/
def decodedRow (e : Entry) : Row where
  index := if visible e then some e.1 else none
  cells := ((split ',' e.2.line).drop 1).map (decodeReading commonNullSentinels)

/-- A decoded row has the index that the store keyed it by, unless that index is written as a
null. -/
theorem decodedRow_index_eq_some {e : Entry} {v : Value} :
    (decodedRow e).index = some v ↔ visible e = true ∧ e.1 = v := by
  simp [decodedRow]

/-- A row of an orderable log decodes to one that can be ordered. -/
theorem decodedRow_orders {t : IndexType} {e : Entry} (h : e.1.Orders t) :
    (decodedRow e).Orders t := by
  intro i hi
  rw [← (decodedRow_index_eq_some.mp hi).2]
  exact h

/-- A stored row has a non-empty first cell. -/
theorem RowOk.token_ne_nil {t : IndexType} {k : Value} {row : StoredRow} (h : RowOk t k row) :
    row.token ≠ [] := by
  intro hnil
  have hp := h.parsed
  have hstrip : strip ([] : Str) = [] := rfl
  simp only [parseIndex, hnil, hstrip, if_true] at hp
  exact absurd hp (by simp)

/-- The client reads the index that the store keyed the row by.  The two parsers are the same code
on a trimmed cell; only the null tokens are known to the client alone. -/
theorem RowOk.decodeIndex {t : IndexType} {k : Value} {row : StoredRow} (h : RowOk t k row)
    (nulls : List Str) :
    decodeIndex t nulls row.token = .ok (if row.token ∈ nulls then none else some k) := by
  have hne := h.token_ne_nil
  have hp := h.parsed
  simp only [parseIndex, h.trimmed, hne, if_false] at hp
  simp only [WitsmlViewer.decodeIndex, h.trimmed, hne, or_false]
  split
  · rfl
  · split at hp
    · rename_i ht
      rw [if_pos ht]
      exact hp
    · rename_i ht
      rw [if_neg ht]
      rw [Except.ok.injEq] at hp
      obtain ⟨x, hx, hk⟩ := Option.map_eq_some_iff.mp hp
      simp [parseFloat, h.trimmed, hx, hk]

/-- **A stored row decodes without an exception.**  Its index has been parsed once already, by the
store, when the row was written; a cell that is no index never raises. -/
theorem RowOk.decodeLine {t : IndexType} {e : Entry} (h : RowOk t e.1 e.2) :
    decodeLine t commonNullSentinels e.2.line = .ok (decodedRow e) := by
  obtain ⟨rest, hsplit⟩ := split_join_cons h.noComma e.2.cells
  have hrow : decodedRow e = ⟨if visible e then some e.1 else none,
      rest.map (decodeReading commonNullSentinels)⟩ := by
    simp only [decodedRow, StoredRow.line, hsplit, List.drop_succ_cons, List.drop_zero]
  rw [WitsmlViewer.decodeLine, StoredRow.line, hsplit, hrow]
  simp only [h.decodeIndex, Except.map, visible, decide_not]
  by_cases hs : e.2.token ∈ commonNullSentinels <;> simp [hs]

/-- Its line is no empty text, so it is not passed over. -/
theorem RowOk.line_ne_nil {t : IndexType} {k : Value} {row : StoredRow} (h : RowOk t k row) :
    row.line ≠ [] := by
  have hne := h.token_ne_nil
  rw [StoredRow.line]
  cases row.cells with
  | nil => exact hne
  | cons c cells => simp [join]

/-! ## 4. Answers

What the client parses from a page.  The two lists of the data header are joined with commas and
split again, which gives them back as long as no mnemonic has a comma of its own; nothing here
assumes that, since the columns are defined as what the client reads. -/

namespace StoredLog

variable {log : StoredLog}

/-- The columns of the log's `<logData>`, unless its mnemonic list is blank. -/
def columns (log : StoredLog) : Option (List Str) :=
  (childText (some (join ',' log.mnemonics))).map fun mnemList => (split ',' mnemList).map strip

/-- The units of the log's `<logData>`, one for each of its columns. -/
def columnUnits (log : StoredLog) (cols : List Str) : List (Option Str) :=
  let units := match childText (some (join ',' (log.units.map fun u => u.getD []))) with
    | some unitList => (split ',' unitList).map fun u => childText (some u)
    | none => List.replicate cols.length none
  units ++ List.replicate (cols.length - units.length) none

/-- The block of a page under the given columns. -/
def block (log : StoredLog) (cols : List Str) (pg : List Entry) : LogDataBlock :=
  ⟨cols, log.columnUnits cols, log.indexType, pg.map decodedRow⟩

/-- What the client parses from a page of the log. -/
def batch (log : StoredLog) (pg : List Entry) : List LogDataResult :=
  match log.columns with
  | none => []
  | some cols =>
    if pg = [] then []
    else [⟨log.uid, log.uidWell, log.uidWellbore, log.indexType, log.block cols pg⟩]

/-- The `<log>` element of a page. -/
def pageElem (log : StoredLog) (pg : List Entry) : LogElem :=
  { log.renderIdentity with logData := log.renderData (pg.map Prod.snd) }

/-- Every line of a page has text. -/
theorem dataLines_of_page {pg : List Entry} (h : ∀ e ∈ pg, e ∈ log.rows.entries)
    (mnemonicList unitList : Option Str) :
    dataLines ⟨mnemonicList, unitList, (pg.map Prod.snd).map fun row => some row.line⟩ =
      pg.map fun e => e.2.line := by
  rw [dataLines, List.filterMap_map, List.filterMap_map, ← List.filterMap_eq_map]
  refine List.filterMap_congr fun e he => ?_
  simp [(log.rows.rowOk e (h e he)).line_ne_nil]

/-- **Parsing a page gives its decoded rows.**  Each of its lines has text and an index that
decodes, so the block has one row for each entry of the page and in its order. -/
theorem parse_page {pg : List Entry} (h : ∀ e ∈ pg, e ∈ log.rows.entries) :
    parseLogData [log.pageElem pg] (some log.indexType) none = .ok (log.batch pg) := by
  have hrows : (pg.map fun e => e.2.line).mapM (decodeLine log.indexType commonNullSentinels) =
      .ok (pg.map decodedRow) := by
    rw [List.mapM_map]
    exact mapM_eq_ok fun e he => (log.rows.rowOk e (h e he)).decodeLine
  suffices helem : parseLogDataElem (some log.indexType) none (log.pageElem pg) =
      .ok (log.batch pg).head? by
    have hlen : (log.batch pg).length ≤ 1 := by
      rw [batch]
      repeat' split
      all_goals simp
    rw [parseLogData, List.mapM_cons, helem]
    cases hb : log.batch pg with
    | nil => rfl
    | cons r rest =>
      rw [hb] at hlen
      obtain rfl : rest = [] := List.eq_nil_of_length_eq_zero (by simpa using hlen)
      rfl
  by_cases hpg : pg = []
  · subst hpg
    rw [batch]
    cases log.columns <;> rfl
  · have hdata : (log.pageElem pg).logData = some ⟨some (join ',' log.mnemonics),
        some (join ',' (log.units.map fun u => u.getD [])),
        (pg.map Prod.snd).map fun row => some row.line⟩ := by
      simp [pageElem, renderData, hpg]
    have hnulls : nullTokens (log.pageElem pg) none = commonNullSentinels := rfl
    rw [parseLogDataElem, hdata]
    simp only [hnulls, dataLines_of_page h]
    rw [batch, columns]
    cases hcols : childText (some (join ',' log.mnemonics)) with
    | none => rfl
    | some mnemList =>
      simp only [Option.map_some, hpg, if_false, Option.getD_some, hrows, bind, Except.bind]
      rfl

end StoredLog

/-! ## 5. Bounds of a request

From the client's cursor to the store's bound.  The path is: render, put into the query, strip,
parse; its net effect is `wire`. -/

/-- The bound that the store reads in a query. -/
def readBound (t : IndexType) (raw : Option Str) : Except PyError (Option Value) :=
  if t.isTime then ((childText raw).mapM parseDt).map fun d => d.join.map .dt
  else ((childText raw).mapM queryRange.number).map (Option.map .num)

/-- The bound that the store reads when the client asks for `v`: rendered, then parsed. -/
def servedBound (t : IndexType) (v : Option Value) : Except PyError (Option Value) := do
  let raw ← v.mapM (if t.isTime then isoUtc else fmtNum)
  readBound t raw

@[simp] theorem servedBound_none (t : IndexType) : servedBound t none = .ok none := by
  cases h : t.isTime <;>
    simp [servedBound, readBound, childText, h, bind, Except.bind, pure, Except.pure, Except.map]

/-- What the store reads is of the log's kind, or nothing. -/
theorem readBound_boundOk {t : IndexType} {raw : Option Str} {b : Option Value}
    (h : readBound t raw = .ok b) : BoundOk t b := by
  intro v hv
  subst hv
  rw [readBound] at h
  split at h
  · rename_i ht
    obtain ⟨d, hd, hv⟩ := map_eq_ok.mp h
    obtain ⟨x, hx, rfl⟩ := Option.map_eq_some_iff.mp hv
    obtain rfl := Option.join_eq_some_iff.mp hx
    cases hc : childText raw with
    | none => rw [hc] at hd; simp [pure, Except.pure] at hd
    | some s =>
      rw [hc, Option.mapM_some] at hd
      obtain ⟨y, hy, hsome⟩ := map_eq_ok.mp hd
      rw [Option.some.injEq] at hsome
      subst hsome
      exact ⟨ht, aware_of_parseDatetime hy⟩
  · rename_i ht
    obtain ⟨x, -, hv⟩ := map_eq_ok.mp h
    obtain ⟨y, -, rfl⟩ := Option.map_eq_some_iff.mp hv
    simpa [Value.OfKind] using ht

/-- So is what it reads of a rendered cursor. -/
theorem servedBound_boundOk {t : IndexType} {v b : Option Value} (h : servedBound t v = .ok b) :
    BoundOk t b := by
  obtain ⟨raw, -, hread⟩ := bind_eq_ok.mp h
  exact readBound_boundOk hread

/-- An index as it arrives in a bound: a float exactly, an instant to the millisecond. -/
def wire : Value → Value
  | .dt d => .dt d.floorMillis.replaceUtc
  | v => v

theorem childText_of_float? {s : Str} {x : Float64} (h : float? s = some x) :
    childText (some s) = some (strip s) := by
  have hne : strip s ≠ [] := by
    intro hnil
    have hscan : scanNumber [] = none := rfl
    have hblank : signed? [] = none := by
      simp only [signed?, unsigned?, hscan, lower, List.map_nil]
      exact if_neg (by decide)
    have hdrop : dropUnderscores ' ' [] = some [] := rfl
    rw [float?, hnil, List.map_nil, hdrop, Option.bind_some, hblank] at h
    exact absurd h (by simp)
  simp [childText, hne]

/-- **An ordered bound is always served**, as `wire` of itself. -/
theorem servedBound_of_orders {t : IndexType} {v : Value} (h : (aware v).Orders t) :
    servedBound t (some v) = .ok (some (wire v)) := by
  cases v with
  | text s => exact h.elim
  | num x =>
    have ht : t.isTime = false := h.1
    obtain ⟨s, hs⟩ : ∃ s, fmtNum (.num x) = .ok s := ⟨_, rfl⟩
    have hx := float?_fmtNum hs
    have hread : readBound t (some s) = .ok (some (.num x)) := by
      have hnum : queryRange.number (strip s) = .ok x := by
        have hx' : float? (strip s) = some x := by rw [← hx, float?, float?, strip_strip]
        simp [queryRange.number, hx']
      simp [readBound, ht, childText_of_float? hx, hnum, Functor.map, Except.map]
    simp [servedBound, ht, hs, Functor.map, Except.map, bind, Except.bind, hread, wire]
  | dt d =>
    have ht : t.isTime = true := h.1
    have hread : readBound t (some (isoMillis d)) = .ok (some (wire (.dt d))) := by
      have hc : childText (some (isoMillis d)) = some (isoMillis d) :=
        childText_of_plain (by simp [isoMillis]) (isoMillis_plain d)
      simp [readBound, ht, hc, parseDt, parseDatetime_isoMillis, Functor.map, Except.map, wire]
    simp [servedBound, ht, isoUtc, Functor.map, Except.map, bind, Except.bind]
    exact hread

theorem wire_orders {t : IndexType} {v : Value} (h : (aware v).Orders t) : (wire v).Orders t := by
  cases v with
  | num x => exact h
  | text s => exact h
  | dt d => exact ⟨h.1, rfl⟩

/-- An index that a bound renders without loss. -/
def Exact (v : Value) : Prop := wire v = v

instance (v : Value) : Decidable (Exact v) := inferInstanceAs (Decidable (wire v = v))

theorem rank_wire_le (v : Value) : (wire v).rank ≤ v.rank := by
  cases v with
  | num x => exact le_refl _
  | text s => exact le_refl _
  | dt d =>
    have := Nat.div_mul_le_self d.micros 1000
    simp only [wire, Value.rank, Datetime.replaceUtc_micros, Datetime.floorMillis_micros]
    exact_mod_cast this

/-- What the query builder renders, the store reads.  The two ends are independent, and the query
for a time log carries no depth bounds and vice versa. -/
theorem queryRange_request {uidWell uidWellbore uid : Str} {mnemonics : List Str} {t : IndexType}
    {start stop : Option Value} {uom : Option Str} {maxNodes : Option ℤ} {q : LogQuery}
    (h : logDataQuery uidWell uidWellbore uid mnemonics t start stop uom maxNodes = .ok q) :
    queryRange q t = (do
      let lo ← servedBound t start
      let hi ← servedBound t stop
      .ok (lo, hi)) ∧
    q.options = { returnElements := .dataOnly, maxReturnNodes := maxNodes } ∧
    q.uidWell = uidWell ∧ q.uidWellbore = uidWellbore ∧ q.uid = uid := by
  rw [logDataQuery] at h
  split at h
  · simp at h
  · split at h
    · rename_i ht
      obtain ⟨s, hs, h⟩ := bind_eq_ok.mp h
      obtain ⟨e, he, h⟩ := bind_eq_ok.mp h
      rw [Except.ok.injEq] at h
      subst h
      refine ⟨?_, rfl, rfl, rfl, rfl⟩
      simp only [queryRange, servedBound, readBound, ht, if_true, hs, he, bind, Except.bind]
      cases (childText s).mapM parseDt <;> cases (childText e).mapM parseDt <;> rfl
    · rename_i ht
      obtain ⟨s, hs, h⟩ := bind_eq_ok.mp h
      obtain ⟨e, he, h⟩ := bind_eq_ok.mp h
      rw [Except.ok.injEq] at h
      subst h
      refine ⟨?_, rfl, rfl, rfl, rfl⟩
      simp only [queryRange, servedBound, readBound, ht, Bool.false_eq_true, if_false, hs, he, bind,
        Except.bind]
      cases (childText s).mapM queryRange.number <;>
        cases (childText e).mapM queryRange.number <;> rfl

/-- **The answer to a request is a page between the bounds it renders.**  All exceptions that are
left come from a bound that does not render or does not parse; an ordered bound does both
(`servedBound_of_orders`). -/
theorem StoredLog.answer_eq {log : StoredLog} (h : log.Orderable) (mrl : ℤ)
    {uidWell uidWellbore uid : Str} {mnemonics : List Str} {start stop : Option Value}
    {uom : Option Str} {maxNodes : Option ℤ} {q : LogQuery}
    (hq : logDataQuery uidWell uidWellbore uid mnemonics log.indexType start stop uom maxNodes =
      .ok q) :
    log.answer mrl q = (do
      let lo ← servedBound log.indexType start
      let hi ← servedBound log.indexType stop
      .ok (log.pageElem (log.page lo hi maxNodes).1, (log.page lo hi maxNodes).2)) := by
  obtain ⟨hrange, hopts, -⟩ := queryRange_request hq
  rw [answer, hrange, hopts]
  cases hlo : servedBound log.indexType start with
  | error e => rfl
  | ok lo =>
    cases hhi : servedBound log.indexType stop with
    | error e => rfl
    | ok hi =>
      simp only [bind, Except.bind, render,
        selectRows_eq h (servedBound_boundOk hlo) (servedBound_boundOk hhi)]
      rfl

end WitsmlViewer

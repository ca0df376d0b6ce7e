/-
# Exactly-once ingestion of a growing log

One log is appended to while calls of the engine fetch it, some of which fail on the way.  Whatever
the interleaving, the samples handed on are the readings of the rows up to the cursor, each of them
once (`exactly_once`).

The invariant behind it is a discipline of exact pages (`exactPages`): rows come strictly beyond
the frontier, every index is read and renders without loss, so the pages of a call are a gap-free
stretch of the table from its cursor on (`Stretching`).  A completed call then extends the rows up
to the old cursor by those up to the new one (`Engine.Completes.upTo`), even when it stopped short
of the frontier for its cap on iterations.

The statement is an equality of multisets, at every moment of a run: nothing is missing below the
cursor, nothing comes twice, nothing is made up.  It says nothing about how far the cursor is; that
it gets to the end of a log that rests is `catches_up`.  And it is about what is handed on, in this
process.  What a restart keeps of it is the subject of `Durability`, `Shutdown` and
`DurableHistory`.

The conditions are those without which it fails.  A row that is written below the frontier is never
fetched again.  A row whose index decodes to a null sentinel has no index for the client.  An index
between two milliseconds is floored when it becomes a bound, and a decreasing log then skips rows
(`LateCells`, `Resuming`).  And a page of one row brings only the boundary row again.
-/
import WitsmlViewer.Engine

namespace WitsmlViewer

open Py GrowingTable Runs
open MockStore (elemKey updatedLog)

/-! ## 1. The readings of a log

Both sides of the statement are lists of (mnemonic, index, value or text).  On the side of the log
these are the cells of its stored rows as the client decodes them, under the columns that the
client reads; on the side of the engine they are the samples that were handed on. -/

/-- The value and the text of a reading. -/
def Reading.parts : Reading → Option Float64 × Option Str
  | .num x => (some x, none)
  | .text s => (none, some s)

/-- A sample as (mnemonic, index, value or text). -/
def CurveSample.datum (x : CurveSample) : Str × Value × Option Float64 × Option Str :=
  (x.mnemonic, x.index, x.value, x.text)

namespace StoredLog

/-- The non-index cells of a stored row that decode to something, under the log's columns. -/
def readings (log : StoredLog) (e : Entry) : List (Str × Value × Option Float64 × Option Str) :=
  (((log.columns.getD []).drop 1).zip (decodedRow e).cells).filterMap fun c =>
    c.2.map fun reading => (c.1, e.1, reading.parts)

/-- The stored rows up to and including a cursor; none before there is one. -/
def upTo (log : StoredLog) (cursor : Option Value) : List Entry :=
  log.table.filter fun e => cursor.any fun v => decide (log.entryKey e ≤ growthKey log.direction v)

/-- Every row is read with its index, and every index renders without loss. -/
structure Readable (log : StoredLog) : Prop where
  orderable : log.Orderable
  decodes : ∀ e ∈ log.rows.entries, visible e = true
  exact : ∀ e ∈ log.rows.entries, Exact e.1

variable {log : StoredLog}

/-- Readable rows under named columns make a plain log. -/
theorem Readable.plain (h : log.Readable) (hc : log.columns ≠ none) : log.Plain :=
  ⟨h.orderable, hc, h.decodes, h.exact⟩

theorem Readable.update (h : log.Readable) {el : LogElem} (ha : log.AppendsPlain el) :
    (updatedLog el log).Readable := by
  have hnew := (updatedLog_entries (Q := fun e => visible e = true ∧ Exact e.1) ha.2).1
  refine ⟨h.orderable.update fun e he => (ha.1 e he).1, fun e he => ?_, fun e he => ?_⟩
  · exact (hnew e he).elim (h.decodes e) And.left
  · exact (hnew e he).elim (h.exact e) And.right

/-- Before the first cursor there is nothing up to it. -/
theorem upTo_none : log.upTo none = [] := List.filter_eq_nil_iff.mpr (by simp)

/-- Up to the cursor, the row at the cursor included. -/
theorem mem_upTo {v : Value} {e : Entry} :
    e ∈ log.upTo (some v) ↔ e ∈ log.table ∧ log.entryKey e ≤ growthKey log.direction v := by
  simp [upTo]

theorem upTo_ordered (h : log.Orderable) (cursor : Option Value) :
    Ordered log.entryKey (log.upTo cursor) :=
  (log.table_ordered h).sublist List.filter_sublist

/-- The readings of a row depend on the header only. -/
theorem readings_of_sameHead {log' : StoredLog} (hs : SameHead log log') :
    log'.readings = log.readings := by
  funext e
  rw [readings, readings, hs.columns]

/-- **An update beyond the frontier changes nothing up to a cursor that is a stored index.**  The
cursor is at or before the frontier, and every new row is beyond that. -/
theorem upTo_updatedLog (h : log.Orderable) {el : LogElem} (ha : log.Appends el)
    {cursor : Option Value} (hc : ∀ v, cursor = some v → ∃ e ∈ log.rows.entries, v = e.1) :
    (updatedLog el log).upTo cursor = log.upTo cursor := by
  have hs := updatedLog_sameHead log el
  have ho' : (updatedLog el log).Orderable := h.update fun e he => (ha e he).1
  cases cursor with
  | none => rw [upTo_none, upTo_none]
  | some v =>
    obtain ⟨c, hcmem, rfl⟩ := hc v rfl
    have hord := upTo_ordered ho' (some c.1)
    rw [hs.entryKey] at hord
    refine hord.eq_of_mem_iff (upTo_ordered h _) fun e => ?_
    rw [mem_upTo, mem_upTo, hs.entryKey, hs.direction]
    constructor
    · rintro ⟨he, hle⟩
      refine ⟨(ha.mem.2 e he).elim id fun hbeyond => ?_, hle⟩
      exact absurd hle (not_le.mpr (hbeyond c (mem_table.mpr hcmem)))
    · exact fun ⟨he, hle⟩ => ⟨ha.mem.1 e he, hle⟩

end StoredLog

/-- The samples of a row, cell by cell. -/
theorem samplesAt_data (b : LogDataBlock) (idx : Value) (row : Row) :
    (b.samplesAt idx row).map CurveSample.datum =
      ((b.mnemonics.drop 1).zip row.cells).filterMap fun c =>
        c.2.map fun reading => (c.1, idx, reading.parts) := by
  have hcol : ∀ (mnems : List Str) (k : ℕ),
      ((mnems.zipIdx (k + 1)).filterMap fun p : Str × ℕ =>
        (row.cells[p.2 - 1]?).join.map (b.cellSample idx p.2 p.1)).map CurveSample.datum =
      (mnems.zip (row.cells.drop k)).filterMap fun c =>
        c.2.map fun reading => (c.1, idx, reading.parts) := by
    intro mnems
    induction mnems with
    | nil => intro k; rfl
    | cons mnem mnems ih =>
      intro k
      rw [List.zipIdx_cons, List.filterMap_cons]
      have hk : k + 1 - 1 = k := rfl
      by_cases hlen : k < row.cells.length
      · rw [List.drop_eq_getElem_cons hlen, List.zip_cons_cons, List.filterMap_cons]
        simp only [hk, List.getElem?_eq_getElem hlen, Option.join_some]
        cases row.cells[k] with
        | none => exact ih (k + 1)
        | some reading =>
          simp only [Option.map_some, List.map_cons, ih (k + 1)]
          cases reading <;> rfl
      · have hnil : row.cells.drop k = [] := List.drop_eq_nil_of_le (by omega)
        have hnil' : row.cells.drop (k + 1) = [] := List.drop_eq_nil_of_le (by omega)
        have hnone : row.cells[k]? = none := List.getElem?_eq_none (by omega)
        simp only [hk, hnone, Option.join_none, Option.map_none, ih (k + 1), hnil, hnil',
          List.zip_nil_right]
  have h := hcol (b.mnemonics.drop 1) 0
  rw [List.drop_zero] at h
  exact h

/-! ## 2. Exact pages

The discipline, and what a call that completes under it does to the rows up to the cursor.  If the
client cannot name the log's columns, its pages are unread and there is nothing to hand on; this is
why the last part of `pages` has a condition. -/

/-- Appended rows are new; what has been collected is stored, and is a stretch of the table unless
the client cannot name the log's columns. -/
def exactPages {maxNodes : ℤ} (hn : 2 ≤ maxNodes) : Discipline maxNodes where
  log := StoredLog.Readable
  update := StoredLog.AppendsPlain
  cursor log c := ∀ v, c = some v → ∃ e ∈ log.rows.entries, v = e.1
  pages call log start st got := (∀ e ∈ got, e ∈ log.rows.entries) ∧
    (log.columns ≠ none → Stretching call log start maxNodes.toNat st got)
  orderable h := h.orderable
  fresh _ := by simp
  log_update h hu := h.update hu
  cursor_update h hu hc v hv := by
    obtain ⟨e, he, rfl⟩ := hc v hv
    exact ⟨e, StoredLog.mem_table.mp (hu.1.mem.1 e (StoredLog.mem_table.mpr he)), rfl⟩
  pages_update {l el call start st got} h hu hp := by
    refine ⟨fun e he => ?_, fun hc => ?_⟩
    · exact StoredLog.mem_table.mp (hu.1.mem.1 e (StoredLog.mem_table.mpr (hp.1 e he)))
    · rw [(updatedLog_sameHead l el).columns] at hc
      exact (hp.2 hc).grow h.orderable (updatedLog_sameHead l el) hu.1.extends.grows
  pages_initial _ := ⟨by simp, fun _ => Stretching.initial⟩
  pages_asks {l store call start st q got lo hi st' q'} h hcur hmax hstop hu hp hserved htr hasks := by
    refine ⟨fun e he => ?_, fun hc => ?_⟩
    · rcases List.mem_append.mp he with he | he
      · exact hp.1 e he
      · exact StoredLog.mem_entries_of_mem_page he
    · exact (hp.2 hc).asks hu (h.plain hc) (by omega)
        (by rw [hmax, Int.toNat_of_nonneg (by omega)]) hserved htr hasks
  cursor_stops h hcur hmax hstop hu hp hserved he v hv := by
    obtain rfl := Option.some.inj hv
    refine ⟨_, ?_, rfl⟩
    rcases List.mem_append.mp he.mem with hmem | hmem
    · exact hp.1 _ hmem
    · exact StoredLog.mem_entries_of_mem_page hmem

section Completed

variable {cfg : Settings} {serverId : ℤ} {h : LogHeader} {hn : 2 ≤ cfg.maxReturnNodes}
  {s s' : Engine} {log : StoredLog} {f : Flight} {got : List Entry} {lo : Option Value}
  {result : LogDataResult} {cursor : Option Value}

/-- **The block of a completed call is a prefix of the table from its cursor on**, in ascending
order.  A prefix and not all of it, since the call may have stopped at its cap. -/
theorem Engine.Completes.rows_eq_take (hp : log.Readable)
    (hc : Engine.Completes cfg serverId (exactPages hn) h log s s' f got lo result cursor)
    {lo₀ : Option Value}
    (hlo₀ : servedBound log.indexType (pollState serverId h s.warm).lastIndex = .ok lo₀) :
    ∃ m, result.block.rows =
        (ascending log.direction ((log.range lo₀ none).take m)).map decodedRow ∧
      (result.block.rows ≠ [] → log.columns = some result.block.mnemonics) := by
  have hret := hc.stops.returned
  refine Exists.imp (fun m => fun hm => ⟨hm, fun hne => (hret.header hne).1⟩) ?_
  by_cases hcols : log.columns = none
  · have hnil : result.block.rows = [] := by
      refine List.eq_nil_iff_forall_not_mem.mpr fun row hrow => ?_
      obtain ⟨e, -, hr, -⟩ := hret.row row hrow
      rw [StoredLog.reads, hcols] at hr
      exact absurd hr (by simp)
    refine ⟨0, ?_⟩
    rw [hnil, List.take_zero]
    cases log.direction <;> rfl
  · have hplain := hp.plain hcols
    have hmax : f.task.call.maxReturnNodes = some (cfg.maxReturnNodes.toNat : ℤ) := by
      rw [hc.call, Int.toNat_of_nonneg (by omega)]
      rfl
    obtain ⟨m, -, hmem, -, -⟩ := (hc.pages.2 hcols).stops hc.underway hplain (by omega) hmax
      hc.served hc.stops hlo₀
    refine ⟨m, hret.rows_eq (((StoredLog.tableTo_ordered hp.orderable none).window _).sublist
      (List.take_sublist _ _)) fun e => ?_⟩
    rw [← hmem e]
    refine ⟨fun he => ⟨he, hplain.reads ?_⟩, And.left⟩
    have he' := List.mem_of_mem_take ((hmem e).mp he)
    exact (StoredLog.mem_tableTo.mp (mem_window.mp he').1).1

/-- A cursor that is a stored index is where the call starts. -/
theorem startKey_cursor (hp : log.Readable) {last : Option Value}
    (hlast : ∀ v, last = some v → ∃ e ∈ log.rows.entries, v = e.1) :
    ∃ lo₀, servedBound log.indexType last = .ok lo₀ ∧
      startKey log.direction lo₀ = last.elim ⊥ fun v => (growthKey log.direction v : WithBot ℤ) := by
  cases last with
  | none => exact ⟨none, servedBound_none _, rfl⟩
  | some v =>
    obtain ⟨e, he, rfl⟩ := hlast v rfl
    have hoe := hp.orderable.orders he
    refine ⟨some (wire e.1), servedBound_of_orders (by rwa [aware_of_orders hoe]), ?_⟩
    rw [show wire e.1 = e.1 from hp.exact e he, startKey_some hoe]
    rfl

/-- A row of the table is beyond a cursor. -/
def StoredLog.isBeyond (log : StoredLog) (last : Option Value) (e : Entry) : Bool :=
  last.all fun v => decide (growthKey log.direction v < log.entryKey e)

theorem beyond_decodedRow {e : Entry} (hv : visible e = true) (last : Option Value) :
    beyond log.direction last (decodedRow e) = log.isBeyond last e := by
  have hindex : (decodedRow e).index = some e.1 := decodedRow_index_eq_some.mpr ⟨hv, rfl⟩
  cases last with
  | none => rfl
  | some v => simp only [beyond, hindex, StoredLog.isBeyond, Option.all_some]; rfl

/-- **A prefix of the table from the old cursor on extends the rows up to it** to those up to its
last row.  The prefix begins with the row at the old cursor, which is up to it already and not
beyond it, so it is counted once. -/
theorem upTo_extend (hp : log.Readable) {last : Option Value} {start : WithBot ℤ} {m : ℕ}
    (hstart : start = last.elim ⊥ fun v => (growthKey log.direction v : WithBot ℤ)) {e : Entry}
    (he : e ∈ (window log.entryKey start log.table).take m)
    (hmax : ∀ g ∈ (window log.entryKey start log.table).take m, log.entryKey g ≤ log.entryKey e) :
    log.upTo (some e.1) = log.upTo last ++
      ((window log.entryKey start log.table).take m).filter (log.isBeyond last) := by
  have hordered := log.table_ordered hp.orderable
  have hwin := hordered.window start
  have hew := mem_window.mp (List.mem_of_mem_take he)
  have hkey : growthKey log.direction e.1 = log.entryKey e := rfl
  refine (StoredLog.upTo_ordered hp.orderable _).eq_of_mem_iff ?_ fun g => ?_
  · refine List.pairwise_append.mpr ⟨StoredLog.upTo_ordered hp.orderable _,
      (hwin.sublist (List.take_sublist _ _)).sublist List.filter_sublist, ?_⟩
    intro a ha b hb
    cases last with
    | none =>
      rw [StoredLog.upTo_none] at ha
      exact absurd ha List.not_mem_nil
    | some v =>
      have hb' := (List.mem_filter.mp hb).2
      simp only [StoredLog.isBeyond, Option.all_some, decide_eq_true_eq] at hb'
      exact lt_of_le_of_lt (StoredLog.mem_upTo.mp ha).2 hb'
  · rw [StoredLog.mem_upTo, List.mem_append, List.mem_filter, hkey]
    cases last with
    | none =>
      subst hstart
      simp only [StoredLog.upTo_none, List.not_mem_nil, false_or, StoredLog.isBeyond,
        Option.all_none, and_true]
      constructor
      · rintro ⟨hg, hle⟩
        exact hwin.mem_take_of_le (mem_window.mpr ⟨hg, bot_le⟩) he hle
      · exact fun hg => ⟨(mem_window.mp (List.mem_of_mem_take hg)).1, hmax g hg⟩
    | some v =>
      subst hstart
      simp only [StoredLog.mem_upTo, StoredLog.isBeyond, Option.all_some, decide_eq_true_eq]
      have hve : growthKey log.direction v ≤ log.entryKey e := WithBot.coe_le_coe.mp hew.2
      constructor
      · rintro ⟨hg, hle⟩
        by_cases hgv : log.entryKey g ≤ growthKey log.direction v
        · exact Or.inl ⟨hg, hgv⟩
        · refine Or.inr ⟨hwin.mem_take_of_le (mem_window.mpr ⟨hg, ?_⟩) he hle, by omega⟩
          exact WithBot.coe_le_coe.mpr (by omega)
      · rintro (⟨hg, hle⟩ | ⟨hg, -⟩)
        · exact ⟨hg, by omega⟩
        · exact ⟨(mem_window.mp (List.mem_of_mem_take hg)).1, hmax g hg⟩

/-- The samples of a decoded row are its readings. -/
theorem samplesOf_decodedRow {block : LogDataBlock} (hcols : log.columns = some block.mnemonics)
    {e : Entry} (hv : visible e = true) :
    (block.samplesOf (decodedRow e)).map CurveSample.datum = log.readings e := by
  have hindex : (decodedRow e).index = some e.1 := decodedRow_index_eq_some.mpr ⟨hv, rfl⟩
  rw [LogDataBlock.samplesOf, hindex, StoredLog.readings, hcols, Option.getD_some]
  exact samplesAt_data block e.1 (decodedRow e)

/-- The readings of the new rows are what is handed on. -/
theorem newSamples_data {P : List Entry} {block : LogDataBlock} {last : Option Value}
    (hrows : block.rows = (ascending log.direction P).map decodedRow)
    (hcols : block.rows ≠ [] → log.columns = some block.mnemonics)
    (hvis : ∀ e ∈ P, visible e = true) :
    ((newSamples block log.direction last).map CurveSample.datum).Perm
      ((P.filter (log.isBeyond last)).flatMap log.readings) := by
  have hfilter : block.rows.filter (beyond log.direction last) =
      ((ascending log.direction P).filter (log.isBeyond last)).map decodedRow := by
    rw [hrows, List.filter_map]
    refine congrArg (List.map decodedRow) (List.filter_congr fun e he => ?_)
    exact beyond_decodedRow (hvis e (mem_ascending.mp he)) last
  have hcells : ∀ e ∈ (ascending log.direction P).filter (log.isBeyond last),
      (block.samplesOf (decodedRow e)).map CurveSample.datum = log.readings e := by
    intro e he
    have hmem := (List.mem_filter.mp he).1
    have hne : block.rows ≠ [] := by
      rw [hrows]
      exact List.ne_nil_of_mem (List.mem_map_of_mem hmem)
    exact samplesOf_decodedRow (hcols hne) (hvis e (mem_ascending.mp hmem))
  have hperm : ((ascending log.direction P).filter (log.isBeyond last)).Perm
      (P.filter (log.isBeyond last)) := by
    refine List.Perm.filter _ ?_
    cases log.direction with
    | increasing => exact List.Perm.refl _
    | decreasing => exact List.reverse_perm _
  unfold newSamples
  rw [hfilter, List.flatMap_map, List.map_flatMap, List.flatMap_congr hcells]
  exact hperm.flatMap_right _

/-- **A completed call extends the rows up to the cursor by the readings it hands on.**

Two cases: the block has no row with an index, then the cursor stays and nothing is handed on; or
the cursor moves to the last row of the prefix, which is at or beyond the old one. -/
theorem Engine.Completes.upTo (hp : log.Readable)
    (hi : s.Inv cfg serverId (exactPages hn) h log)
    (hc : Engine.Completes cfg serverId (exactPages hn) h log s s' f got lo result cursor) :
    ((log.upTo (cursor.or (pollState serverId h s.warm).lastIndex)).flatMap log.readings).Perm
      ((log.upTo (pollState serverId h s.warm).lastIndex).flatMap log.readings ++
        (newSamples result.block log.direction (pollState serverId h s.warm).lastIndex).map
          CurveSample.datum) ∧
    NotBehind log.direction (pollState serverId h s.warm).lastIndex
      (cursor.or (pollState serverId h s.warm).lastIndex) := by
  obtain ⟨lo₀, hlo₀, hstart⟩ := startKey_cursor hp hi.cursor
  obtain ⟨m, hrows, hcols⟩ := hc.rows_eq_take hp hlo₀
  set last := (pollState serverId h s.warm).lastIndex with hlast
  have hrange : log.range lo₀ none = window log.entryKey (startKey log.direction lo₀) log.table := by
    rw [StoredLog.range, StoredLog.tableTo_none]
  rw [hrange] at hrows
  set P := (window log.entryKey (startKey log.direction lo₀) log.table).take m with hP
  have hmem : ∀ e ∈ P, e ∈ log.rows.entries := fun e he =>
    StoredLog.mem_table.mp (mem_window.mp (List.mem_of_mem_take he)).1
  have hvis : ∀ e ∈ P, visible e = true := fun e he => hp.decodes e (hmem e he)
  have hcells : ((newSamples result.block log.direction last).map CurveSample.datum).Perm
      ((P.filter (log.isBeyond last)).flatMap log.readings) := newSamples_data hrows hcols hvis
  have hord : ∀ r ∈ result.block.rows, r.Orders log.indexType := by
    intro r hr
    rw [hrows] at hr
    obtain ⟨e, he, rfl⟩ := List.mem_map.mp hr
    exact decodedRow_orders (hp.orderable.orders (hmem e (mem_ascending.mp he)))
  rcases continuationIndex_spec hord log.direction with
    ⟨hnone, hempty⟩ | ⟨v, hsome, -, ⟨r, hr, hindex⟩, hmax⟩
  · obtain rfl := Except.ok.inj (hc.continuation.symm.trans hnone)
    -- every row of the prefix is read with its index, so a block without an index has no rows
    have hnil : P = [] := by
      refine List.eq_nil_iff_forall_not_mem.mpr fun e he => ?_
      have hi := hempty (decodedRow e) (by
        rw [hrows]
        exact List.mem_map_of_mem (mem_ascending.mpr he))
      rw [decodedRow_index_eq_some.mpr ⟨hvis e he, rfl⟩] at hi
      exact absurd hi (by simp)
    rw [hnil, List.filter_nil, List.flatMap_nil] at hcells
    rw [hcells.eq_nil, List.append_nil]
    exact ⟨List.Perm.refl _, NotBehind.refl _ _⟩
  · obtain rfl := Except.ok.inj (hc.continuation.symm.trans hsome)
    rw [hrows] at hr
    obtain ⟨e, he, rfl⟩ := List.mem_map.mp hr
    have heP := mem_ascending.mp he
    obtain ⟨-, rfl⟩ := decodedRow_index_eq_some.mp hindex
    have hmaxP : ∀ g ∈ P, log.entryKey g ≤ log.entryKey e := fun g hg => by
      refine hmax (decodedRow g) ?_ g.1 (decodedRow_index_eq_some.mpr ⟨hvis g hg, rfl⟩)
      rw [hrows]
      exact List.mem_map_of_mem (mem_ascending.mpr hg)
    rw [Option.some_or, upTo_extend hp hstart heP hmaxP, List.flatMap_append]
    refine ⟨(List.perm_append_left_iff _).mpr hcells.symm, ?_⟩
    have hew := (mem_window.mp (List.mem_of_mem_take heP)).2
    rw [hstart] at hew
    cases hl : last with
    | none => trivial
    | some w =>
      rw [hl] at hew
      exact WithBot.coe_le_coe.mp hew

end Completed

/-! ## 3. Runs

The invariant of a run adds to `Engine.Inv` what has been handed on so far, and that the cursors
have come in growth order. -/

/-- A log's header, as the store renders it and the client parses it. -/
def StoredLog.HasHeader (log : StoredLog) (h : LogHeader) : Prop :=
  log.renderHeader.bind parseLogHeader = .ok h

/-- **A header names its log, with its index type and its direction.** -/
theorem StoredLog.HasHeader.spec {log : StoredLog} {h : LogHeader} (hh : log.HasHeader h) :
    h.logKey = log.key ∧ h.indexType = log.indexType ∧ h.direction = log.direction := by
  obtain ⟨el, hrender, hparse⟩ := bind_eq_ok.mp hh
  obtain ⟨lo, -, hrender⟩ := bind_eq_ok.mp hrender
  obtain ⟨hi, -, hrender⟩ := bind_eq_ok.mp hrender
  obtain ⟨curves, -, hrender⟩ := bind_eq_ok.mp hrender
  rw [← Except.ok.inj hrender] at hparse
  obtain ⟨curves', -, hparse⟩ := bind_eq_ok.mp hparse
  obtain ⟨start, -, hparse⟩ := bind_eq_ok.mp hparse
  obtain ⟨stop, -, hparse⟩ := bind_eq_ok.mp hparse
  rw [← Except.ok.inj hparse]
  have htype : ∀ t : IndexType, parseIndexType (childText (some t.value)) = t := by
    intro t
    cases t <;> decide
  have hdir : ∀ d : Direction, parseDirection (childText (some d.value)) = d := by
    intro d
    cases d <;> decide
  exact ⟨rfl, htype _, hdir _⟩

/-- A discovered log that has not been ingested yet: its state, if it has one, is its header's. -/
structure Discovered (serverId : ℤ) (h : LogHeader) (log : StoredLog) (warm : RingBufferStore) :
    Prop where
  header : log.HasHeader h
  state : pollState serverId h warm = stateFromHeader serverId h
  keyed : ∀ key state, warm.getLogState key = some state → state.key = key

/-- The engine before its first call. -/
def Engine.idle (server : MockStore) (warm : RingBufferStore) : Engine :=
  ⟨server, warm, fun _ => none, []⟩

theorem Discovered.inv {cfg : Settings} {serverId : ℤ} {h : LogHeader} {log : StoredLog}
    {server : MockStore} {warm : RingBufferStore} {D : Discipline cfg.maxReturnNodes}
    (hd : Discovered serverId h log warm) (hfind : server.findLog log.key = some log)
    (hsole : server.Sole log.key) (hlog : D.log log) :
    (Engine.idle server warm).Inv cfg serverId D h log := by
  obtain ⟨hkey, htype, hdir⟩ := hd.header.spec
  have hnone : (pollState serverId h warm).lastIndex = none := by rw [hd.state]; rfl
  constructor
  · rw [hkey]; exact hfind
  · rw [hkey]; exact hsole
  · exact hlog
  · change Tracks serverId h log (pollState serverId h warm)
    rw [hd.state]
    exact ⟨hkey.symm, rfl, htype, hdir⟩
  · intro v hv
    rw [Engine.idle, hnone] at hv
    exact absurd hv (by simp)
  · rw [Engine.idle, hnone]
    exact D.fresh hlog
  · intro f hf
    exact absurd hf (by simp [Engine.idle])

/-- Only one log is ingested, and the store only appends plain rows to it. -/
def Engine.GrowsAlone (serverId : ℤ) (h : LogHeader) (s : Engine) : Engine.Event → Prop
  | .update el => elemKey el = h.logKey → ∀ log ∈ s.server.findLog h.logKey, log.AppendsPlain el
  | .begin h' => h' = h
  | .answer key => key = headerKey serverId h
  | .fail key _ => key = headerKey serverId h

instance (serverId : ℤ) (h : LogHeader) (s : Engine) :
    (e : Engine.Event) → Decidable (s.GrowsAlone serverId h e)
  | .update el => inferInstanceAs (Decidable (elemKey el = h.logKey →
      ∀ log ∈ s.server.findLog h.logKey, log.AppendsPlain el))
  | .begin h' => inferInstanceAs (Decidable (h' = h))
  | .answer key => inferInstanceAs (Decidable (key = headerKey serverId h))
  | .fail key _ => inferInstanceAs (Decidable (key = headerKey serverId h))

section Run

variable {cfg : Settings} {serverId : ℤ} {h : LogHeader} {s s' : Engine} {log : StoredLog}

/-- An event that leaves a log alone is one that its discipline allows. -/
theorem Engine.GrowsAlone.allows {hn : 2 ≤ cfg.maxReturnNodes} {e : Engine.Event}
    (hg : s.GrowsAlone serverId h e) : s.Allows (exactPages hn) serverId h e := by
  cases e with
  | update el => exact hg
  | begin h' => exact fun _ => hg
  | answer key => trivial
  | fail key a => trivial

/-- While the one call is under way, the warm store is as it was when the call began. -/
def Engine.Untouched (s : Engine) : Prop := ∀ key f, s.calls key = some f → s.warm = f.since

/-- Only the one log has a call. -/
def Engine.OnlyCalls (key : LogKey) (s : Engine) : Prop := ∀ key', key' ≠ key → s.calls key' = none

theorem Engine.OnlyCalls.next (ho : s.OnlyCalls (headerKey serverId h)) {e : Engine.Event}
    (hg : s.GrowsAlone serverId h e) (hnext : s.next cfg serverId e = some s') :
    s'.OnlyCalls (headerKey serverId h) := by
  have hset : ∀ f, (s.setCall (headerKey serverId h) f).OnlyCalls (headerKey serverId h) :=
    fun f key' hne => by rw [Engine.setCall_of_ne s f hne]; exact ho key' hne
  have hanswered : ∀ f a, (s.answered cfg (headerKey serverId h) f a).OnlyCalls
      (headerKey serverId h) := by
    intro f a
    rw [Engine.answered]
    split
    · exact hset none
    · exact hset _
    · split
      · exact hset none
      · exact hset none
  cases e with
  | update el =>
    rw [← Option.some.inj hnext]
    exact ho
  | begin h' =>
    obtain rfl : h' = h := hg
    simp only [Engine.next] at hnext
    split at hnext
    · simp at hnext
    · rw [← Option.some.inj hnext, Engine.begun]
      split
      · exact hset _
      · exact ho
  | answer key =>
    obtain rfl : key = headerKey serverId h := hg
    obtain ⟨f, -, rfl⟩ := Option.map_eq_some_iff.mp hnext
    exact hanswered f _
  | fail key a =>
    obtain rfl : key = headerKey serverId h := hg
    simp only [Engine.next] at hnext
    split at hnext
    · obtain ⟨f, -, rfl⟩ := Option.map_eq_some_iff.mp hnext
      exact hanswered f a
    · simp at hnext

/-- Only a completion writes to the warm store, and then no call is under way. -/
theorem Engine.Untouched.next (hu : s.Untouched) (ho : s.OnlyCalls (headerKey serverId h))
    {e : Engine.Event} (hg : s.GrowsAlone serverId h e)
    (hnext : s.next cfg serverId e = some s') : s'.Untouched := by
  have ho' := ho.next hg hnext
  -- it is enough to look at the one key
  suffices hone : ∀ f, s'.calls (headerKey serverId h) = some f → s'.warm = f.since by
    intro key f hf
    by_cases hkey : key = headerKey serverId h
    · subst hkey
      exact hone f hf
    · rw [ho' key hkey] at hf
      exact absurd hf (by simp)
  have hanswered : ∀ f a, s.calls (headerKey serverId h) = some f →
      ∀ f', (s.answered cfg (headerKey serverId h) f a).calls (headerKey serverId h) = some f' →
        (s.answered cfg (headerKey serverId h) f a).warm = f'.since := by
    intro f a hf f' hf'
    have hnone : ∀ s₁ : Engine, s₁.calls = (s.setCall (headerKey serverId h) none).calls →
        s₁.calls (headerKey serverId h) ≠ some f' := by
      intro s₁ heq
      rw [heq, Engine.setCall_self]
      simp
    rw [Engine.answered] at hf' ⊢
    split at hf'
    · exact absurd hf' (hnone _ rfl)
    · rw [Engine.setCall_self] at hf'
      rw [← Option.some.inj hf']
      exact hu _ f hf
    · split at hf'
      · exact absurd hf' (hnone _ rfl)
      · exact absurd hf' (hnone _ rfl)
  cases e with
  | update el =>
    rw [← Option.some.inj hnext]
    exact fun f hf => hu _ f hf
  | begin h' =>
    obtain rfl : h' = h := hg
    simp only [Engine.next] at hnext
    split at hnext
    · simp at hnext
    · rw [← Option.some.inj hnext, Engine.begun]
      intro f hf
      split at hf
      · rename_i task hbegin
        rw [Engine.setCall_self] at hf
        rw [← Option.some.inj hf]
        rfl
      · exact hu _ f hf
  | answer key =>
    obtain rfl : key = headerKey serverId h := hg
    obtain ⟨f, hf, rfl⟩ := Option.map_eq_some_iff.mp hnext
    exact hanswered f _ hf
  | fail key a =>
    obtain rfl : key = headerKey serverId h := hg
    simp only [Engine.next] at hnext
    split at hnext
    · obtain ⟨f, hf, rfl⟩ := Option.map_eq_some_iff.mp hnext
      exact hanswered f a hf
    · simp at hnext

/-- What every event preserves.  `handed` is what it is for; `onward` and `current` say that the
cursors so far never went back and that the last of them is the state's. -/
structure Engine.Once (cfg : Settings) (serverId : ℤ) (hn : 2 ≤ cfg.maxReturnNodes) (h : LogHeader)
    (d : Direction) (s : Engine) (log : StoredLog) : Prop where
  inv : s.Inv cfg serverId (exactPages hn) h log
  keyed : s.Keyed
  direction : log.direction = d
  handed : ((s.handed (headerKey serverId h)).map CurveSample.datum).Perm
    ((log.upTo (pollState serverId h s.warm).lastIndex).flatMap log.readings)
  onward : (none :: s.cursors (headerKey serverId h)).Pairwise (NotBehind d)
  current : (none :: s.cursors (headerKey serverId h)).getLast? =
    some (pollState serverId h s.warm).lastIndex
  alone : s.OnlyCalls (headerKey serverId h)
  untouched : s.Untouched

theorem Engine.Quiet.handed {key : LogKey} (hq : Engine.Quiet key s s') :
    s'.handed key = s.handed key := by
  rw [Engine.handed, Engine.handed, hq.completed]

theorem Engine.Quiet.cursors {key : LogKey} (hq : Engine.Quiet key s s') :
    s'.cursors key = s.cursors key := by
  rw [Engine.cursors, Engine.cursors, hq.completed]

theorem Engine.Quiet.state_eq {serverId : ℤ} {h : LogHeader}
    (hq : Engine.Quiet (headerKey serverId h) s s') :
    pollState serverId h s'.warm = pollState serverId h s.warm := by
  rw [pollState, pollState, hq.state]

section Completed

variable {D : Discipline cfg.maxReturnNodes} {f : Flight} {got : List Entry} {lo : Option Value}
  {result : LogDataResult} {cursor : Option Value}

theorem Engine.Completes.lastIndex_eq (hi : s.Inv cfg serverId D h log)
    (hc : Engine.Completes cfg serverId D h log s s' f got lo result cursor) :
    (pollState serverId h s'.warm).lastIndex =
      cursor.or (pollState serverId h s.warm).lastIndex := by
  rw [hc.after]
  dsimp only
  rw [pollState_ingest s.warm h.uidWell hi.tracks.key]

theorem Engine.Completes.handed
    (hc : Engine.Completes cfg serverId D h log s s' f got lo result cursor) :
    s'.handed (headerKey serverId h) = s.handed (headerKey serverId h) ++
      newSamples result.block log.direction (pollState serverId h s.warm).lastIndex := by
  rw [hc.after, Engine.handed, Engine.handed]
  simp [List.filter_append, List.flatMap_append]

theorem Engine.Completes.cursors
    (hc : Engine.Completes cfg serverId D h log s s' f got lo result cursor) :
    s'.cursors (headerKey serverId h) = s.cursors (headerKey serverId h) ++
      [cursor.or (pollState serverId h s.warm).lastIndex] := by
  rw [hc.after, Engine.cursors, Engine.cursors]
  simp [List.filter_append]

end Completed

/-- No cursor in a list of successive ones is ahead of the last. -/
theorem notBehind_last {d : Direction} {cs : List (Option Value)} {c : Option Value}
    (hp : cs.Pairwise (NotBehind d)) (hlast : cs.getLast? = some c) :
    ∀ c' ∈ cs, NotBehind d c' c := by
  obtain ⟨init, rfl⟩ := List.getLast?_eq_some_iff.mp hlast
  intro c' hc'
  rcases List.mem_append.mp hc' with hc' | hc'
  · exact (List.pairwise_append.mp hp).2.2 c' hc' c (by simp)
  · rw [List.mem_singleton.mp hc']
    exact NotBehind.refl d c

/-- **Every event keeps what has been handed on equal to what is stored up to the cursor.**

An update changes neither side: it writes beyond the cursor, and hands nothing on.  A quiet event
changes nothing.  A completed call adds the same readings to both. -/
theorem Engine.Once.next {hn : 2 ≤ cfg.maxReturnNodes} {d : Direction}
    (ho : s.Once cfg serverId hn h d log) {e : Engine.Event} (hg : s.GrowsAlone serverId h e)
    (hnext : s.next cfg serverId e = some s') : ∃ log', s'.Once cfg serverId hn h d log' := by
  have halone := ho.alone.next hg hnext
  have huntouched := ho.untouched.next ho.alone hg hnext
  have hkeyed := ho.keyed.next hnext
  obtain ⟨log', hi', heffect⟩ := ho.inv.next ho.keyed hg.allows hnext
  refine ⟨log', ?_⟩
  cases heffect with
  | update el hs' =>
    have hsame : SameHead log (log.afterUpdate el) := by
      rw [StoredLog.afterUpdate]
      split
      · exact updatedLog_sameHead log el
      · exact SameHead.refl log
    have hupTo : (log.afterUpdate el).upTo (pollState serverId h s.warm).lastIndex =
        log.upTo (pollState serverId h s.warm).lastIndex := by
      rw [StoredLog.afterUpdate]
      split
      · rename_i hk
        have happ : log.AppendsPlain el :=
          hg (hk.symm.trans ho.inv.tracks.logKey) log ho.inv.find
        exact StoredLog.upTo_updatedLog ho.inv.disciplined.orderable happ.1 ho.inv.cursor
      · rfl
    refine ⟨hi', hkeyed, hsame.direction.trans ho.direction, ?_, ?_, ?_, halone, huntouched⟩
    · rw [StoredLog.readings_of_sameHead hsame, hs']
      dsimp only
      rw [hupTo]
      exact ho.handed
    · rw [hs']; exact ho.onward
    · rw [hs']; exact ho.current
  | quiet e hq =>
    refine ⟨hi', hkeyed, ho.direction, ?_, ?_, ?_, halone, huntouched⟩
    · rw [hq.handed, hq.state_eq]; exact ho.handed
    · rw [hq.cursors]; exact ho.onward
    · rw [hq.cursors, hq.state_eq]; exact ho.current
  | complete f got lo result cursor hc =>
    obtain ⟨hupTo, hadv⟩ := hc.upTo ho.inv.disciplined ho.inv
    rw [ho.direction] at hadv
    refine ⟨hi', hkeyed, ho.direction, ?_, ?_, ?_, halone, huntouched⟩
    · rw [hc.handed, hc.lastIndex_eq ho.inv, List.map_append]
      exact ((List.perm_append_right_iff _).mpr ho.handed).trans hupTo.symm
    · rw [hc.cursors, ← List.cons_append]
      refine List.pairwise_append.mpr ⟨ho.onward, List.pairwise_singleton _ _, ?_⟩
      intro c hc' c' hc''
      rw [List.mem_singleton.mp hc'']
      exact (notBehind_last ho.onward ho.current c hc').trans hadv
    · rw [hc.cursors, hc.lastIndex_eq ho.inv, ← List.cons_append, List.getLast?_append]
      rfl

/-- **A call that completes at the end of a run** does so from a state that meets the invariant. -/
theorem completes_of_run {D : Discipline cfg.maxReturnNodes} {server : MockStore}
    {warm : RingBufferStore} (hfind : server.findLog log.key = some log)
    (hsole : server.Sole log.key) (hlog : D.log log) (hd : Discovered serverId h log warm)
    {es : List Engine.Event}
    (hrun : Run (Engine.next cfg serverId) (Engine.Allows D serverId h) (Engine.idle server warm) es s)
    (hstep : s.next cfg serverId (.answer (headerKey serverId h)) = some s') {c : Ingested}
    (hdone : s'.completed = s.completed ++ [c]) :
    ∃ log' f got lo result cursor, s'.server.findLog log.key = some log' ∧
      s.Inv cfg serverId D h log' ∧
      Engine.Completes cfg serverId D h log' s s' f got lo result cursor ∧
      c = {
        key := headerKey serverId h
        start := (pollState serverId h s.warm).lastIndex
        code := if (log'.page lo none f.task.call.maxReturnNodes).2 then rcPartialSuccess
          else rcSuccess
        samples := newSamples result.block log'.direction (pollState serverId h s.warm).lastIndex
        cursor := cursor.or (pollState serverId h s.warm).lastIndex } := by
  have hkey : h.logKey = log.key := hd.header.spec.1
  obtain ⟨log', hi, hk⟩ := hrun.invariant
    (I := fun s => ∃ log', s.Inv cfg serverId D h log' ∧ s.Keyed)
    (fun s₁ e s₂ ⟨log₁, hi, hk⟩ hg hnext => by
      obtain ⟨log₂, hi', -⟩ := hi.next hk hg hnext
      exact ⟨log₂, hi', hk.next hnext⟩)
    ⟨log, hd.inv hfind hsole hlog, ⟨hd.keyed, by simp [Engine.idle]⟩⟩
  obtain ⟨f, hcall, hs'⟩ := Option.map_eq_some_iff.mp hstep
  obtain ⟨hi', hp | ⟨got, lo, result, cursor, hc⟩⟩ := hi.answer hcall hs'.symm
  · rw [hp.completed] at hdone
    exact absurd hdone (by simp)
  · rw [hc.after] at hdone
    exact ⟨log', f, got, lo, result, cursor, by rw [← hkey]; exact hi'.find, hi, hc,
      (List.singleton_inj.mp (List.append_cancel_left hdone)).symm⟩

/-- What a run has done to one log: the samples handed on are the readings of the stored rows up
to the cursor, each once; the cursor has never moved back; and a call that fails leaves the warm
store as it was when the call began. -/
structure Engine.IngestedOnce (cfg : Settings) (serverId : ℤ) (h : LogHeader) (s : Engine)
    (log : StoredLog) : Prop where
  handed : ((s.handed (headerKey serverId h)).map CurveSample.datum).Perm
    ((log.upTo (pollState serverId h s.warm).lastIndex).flatMap log.readings)
  onward : (none :: s.cursors (headerKey serverId h)).Pairwise (NotBehind log.direction)
  current : (none :: s.cursors (headerKey serverId h)).getLast? =
    some (pollState serverId h s.warm).lastIndex
  failed : ∀ f a s', s.calls (headerKey serverId h) = some f → a.Fails →
    s.next cfg serverId (.fail (headerKey serverId h) a) = some s' →
    s'.warm = f.since ∧ s'.completed = s.completed ∧ s'.calls (headerKey serverId h) = none

/-- **Exactly-once ingestion.**  In every run in which the store appends plain rows beyond the
frontier of a discovered log, at any moment, and calls of the log complete or fail on any page,
what has been handed on is what is stored up to the cursor.

Why it holds although a call may fail half way: a call has no effect before its last answer, so a
call that fails has handed on nothing and has moved no cursor, and the next one begins where it
began.  Why it holds although rows are fetched more than once: a page repeats the boundary row, the
merge takes it out, and the dedupe drops the row at the cursor.  Why nothing is skipped: a page
starts exactly at the last row of the one before, since its index renders without loss. -/
theorem exactly_once {server : MockStore} {warm : RingBufferStore}
    (hpage : 2 ≤ cfg.maxReturnNodes) (hfind : server.findLog log.key = some log)
    (hsole : server.Sole log.key) (hlog : log.Readable) (hd : Discovered serverId h log warm)
    {es : List Engine.Event}
    (hrun : Run (Engine.next cfg serverId) (Engine.GrowsAlone serverId h)
      (Engine.idle server warm) es s) :
    ∃ log', s.server.findLog log.key = some log' ∧ s.IngestedOnce cfg serverId h log' := by
  have hnone : (pollState serverId h warm).lastIndex = none := by rw [hd.state]; rfl
  have hstart : (Engine.idle server warm).Once cfg serverId hpage h log.direction log := by
    refine ⟨hd.inv hfind hsole hlog, ⟨hd.keyed, by simp [Engine.idle]⟩, rfl, ?_, ?_, ?_, ?_, ?_⟩
    · rw [Engine.idle, hnone, StoredLog.upTo_none]
      exact List.Perm.refl _
    · exact List.pairwise_singleton _ _
    · rw [Engine.idle, hnone]
      rfl
    · exact fun _ _ => rfl
    · intro key f hf
      exact absurd hf (by simp [Engine.idle])
  obtain ⟨log', ho⟩ := hrun.invariant
    (I := fun s => ∃ log', s.Once cfg serverId hpage h log.direction log')
    (fun _ _ _ ⟨_, ho⟩ hg hnext => ho.next hg hnext) ⟨log, hstart⟩
  have hkey : h.logKey = log.key := hd.header.spec.1
  refine ⟨log', by rw [← hkey]; exact ho.inv.find, ho.handed, ?_, ho.current, ?_⟩
  · rw [ho.direction]
    exact ho.onward
  · intro f a s' hf ha hnext
    simp only [Engine.next] at hnext
    rw [if_pos ha, hf, Option.map_some, Option.some.injEq, Engine.answered_fails ha] at hnext
    rw [← hnext]
    exact ⟨ho.untouched _ f hf, rfl, Engine.setCall_self _ _ _⟩

end Run

/-! A run on a decreasing log: a row is written between two pages, the first call fails on its
second page, and a later call brings one more row. -/

def pageSettings : Settings := ⟨2, 2000, fun _ => .error .valueError⟩

theorem depthLog_header_isSome :
    (depthLog.renderHeader.bind parseLogHeader).toOption.isSome = true := by decide +kernel

def depthLogHeader : LogHeader := Option.get _ depthLog_header_isSome

theorem hasHeader_get {log : StoredLog}
    (hsome : (log.renderHeader.bind parseLogHeader).toOption.isSome = true) :
    log.HasHeader (Option.get _ hsome) := by
  unfold StoredLog.HasHeader
  generalize hx : log.renderHeader.bind parseLogHeader = x at hsome ⊢
  cases x with
  | error e => simp [Except.toOption] at hsome
  | ok h => rfl

/-- A line for the depth log. -/
def depthUpdate (line : String) : Engine.Event :=
  .update (logElem "L" .measuredDepth .decreasing ["DEPT", "ROP"] [line])

def depthLogKey : LogKey := headerKey 1 depthLogHeader

def depthIngests : List Engine.Event :=
  [.begin depthLogHeader, .answer depthLogKey, depthUpdate "5,4",
    .fail depthLogKey (.ok { result := -1, logs := .ok [] }),
    .begin depthLogHeader, .answer depthLogKey, .answer depthLogKey, .answer depthLogKey,
    depthUpdate "3,-999.25", depthUpdate "1,7",
    .begin depthLogHeader, .answer depthLogKey, .answer depthLogKey]

theorem depthIngests_isSome : (replay (Engine.next pageSettings 1)
    (fun s e => decide (s.GrowsAlone 1 depthLogHeader e))
    (Engine.idle depthStore (.init 2000)) depthIngests).isSome = true := by decide +kernel

def depthIngested : Engine := Option.get _ depthIngests_isSome

theorem exactly_once_depthLog :
    (depthIngested.handed depthLogKey).map (fun x => x.index) =
        ["5", "10", "20", "30", "1"].map (indexOf .measuredDepth) ∧
      ∃ log', depthIngested.server.findLog depthLog.key = some log' ∧
        depthIngested.IngestedOnce pageSettings 1 depthLogHeader log' :=
  ⟨by decide +kernel,
    exactly_once (by decide) (MockStore.findLog_of_mem (List.head_mem _)) (by decide +kernel)
      ⟨depthLog_plain.orderable, depthLog_plain.decodes, depthLog_plain.exact⟩
      ⟨hasHeader_get depthLog_header_isSome, rfl, fun _ _ h => absurd h (by simp [RingBufferStore.init,
        RingBufferStore.getLogState, Dict.get?])⟩
      (Run.of_isSome depthIngests_isSome)⟩

end WitsmlViewer

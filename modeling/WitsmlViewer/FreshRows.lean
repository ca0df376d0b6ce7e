/-
# Every simulated row is a new row

Over a run of seeding, ticks and bursts, among writes to other logs, the store holds one row for
each that the simulator has emitted, as long as the rows advance along the log.

`feed_rows_new`: in every run whose rows all advance, the index tokens are strictly ordered along
the log, and the store holds the emitted rows, as many as the events have emitted.

"Advance" is about the tokens and not about the numbers behind them.  A clock must move by a
millisecond that is written differently, and a depth by a thousandth; the half metre of a step does
that, until the log is at the surface.  A burst emits its rows without waiting, so for a time log
it is the clock within one tick that matters.

Nothing is said of what happens to a row that does not advance, except in `rows_overwritten`, where
one takes the place of the row before it.
-/
import WitsmlViewer.RowTokens
import WitsmlViewer.Lib.Runs

namespace WitsmlViewer
namespace Simulator

open Py Runs
open MockStore (logOfElem elemKey updatedLog)

/-! ## 1. The elements

An element that the simulator sends is read by the store as what it was made from: its curves under
their mnemonics, and a line for each row. -/

/-- The curves of either catalog, as the store reads them from an element. -/
theorem catalog_read (state : LogState) :
    state.mnemonics.Nodup ∧
      (split ',' (join ',' state.mnemonics)).map strip = state.mnemonics ∧
      childText (some (join ',' state.mnemonics)) = some (join ',' state.mnemonics) ∧
      state.mnemonics ≠ [] ∧ ∀ m ∈ state.mnemonics, childText (some m) = some m := by
  have hcurves : state.curves = timeCurves ∨ state.curves = depthCurves :=
    state.catalog.imp And.right And.right
  unfold LogState.mnemonics
  rcases hcurves with h | h <;> rw [h] <;> decide +kernel

theorem blockColumns_logDataOf (state : LogState) (rows : List EmittedRow) :
    blockColumns (logDataOf state rows) = state.mnemonics := by
  obtain ⟨-, hsplit, htext, -, -⟩ := catalog_read state
  rw [blockColumns, logDataOf, htext]
  exact hsplit

/-- The line that a row is written as. -/
def line (state : LogState) (row : EmittedRow) : WrittenLine := ⟨state.mnemonics, rowCsv row⟩

section Line

variable {state : LogState} {row : EmittedRow} {v : Value}

/-- The cells of a line are the tokens of its row. -/
theorem line_cells (h : GoodRow state row v) : (line state row).cells = row.1 :: row.2 := by
  have hclean : ∀ cell ∈ row.1 :: row.2, strip cell = cell ∧ ',' ∉ cell := by
    intro cell hcell
    rcases List.mem_cons.mp hcell with rfl | hcell
    · exact cell_of_ofCell h.token
    · exact cell_of_ofCell (h.cells cell hcell)
  rw [WrittenLine.cells, line, rowCsv,
    split_join (List.cons_ne_nil _ _) fun cell hcell => (hclean cell hcell).2]
  exact (List.map_congr_left fun cell hcell => (hclean cell hcell).1).trans (List.map_id _)

theorem line_token (h : GoodRow state row v) : (line state row).token = row.1 := by
  rw [WrittenLine.token, line_cells h]
  rfl

/-- A line is for the index that its token reads as. -/
theorem line_index (h : GoodRow state row v) :
    (line state row).index state.indexType = some v := by
  rw [WrittenLine.index, line_token h, h.read]
  rfl

theorem line_readable (h : GoodRow state row v) :
    ReadableToken state.indexType [] (line state row) := by
  refine ⟨some v, (line_token h).symm ▸ h.read, fun v' hv' => ?_⟩
  obtain rfl := Option.some.inj hv'
  exact ⟨h.orders.ne_nan, List.not_mem_nil⟩

theorem rowCsv_ne_nil (h : GoodRow state row v) : rowCsv row ≠ [] := by
  intro hnil
  have hcells := line_cells h
  rw [WrittenLine.cells, line, hnil] at hcells
  have htoken : row.1 = [] := by
    have hhead := congrArg List.head? hcells
    exact (Option.some.inj hhead).symm
  have hread := h.read
  rw [htoken] at hread
  exact absurd hread (by simp [parseIndex, strip])

end Line

theorem exists_index {state : LogState} {rows : List EmittedRow} {vs : List Value}
    (h : List.Forall₂ (GoodRow state) rows vs) : ∀ row ∈ rows, ∃ v, GoodRow state row v := by
  induction h with
  | nil => exact fun row hrow => absurd hrow List.not_mem_nil
  | cons hfirst _ ih =>
    intro row hrow
    rcases List.mem_cons.mp hrow with rfl | hrow
    · exact ⟨_, hfirst⟩
    · exact ih row hrow

/-- **What an element writes is a line for each of its rows.** -/
theorem lines_logDataOf {state : LogState} {rows : List EmittedRow}
    (h : ∀ row ∈ rows, ∃ v, GoodRow state row v) {el : LogElem}
    (hel : el.logData = some (logDataOf state rows)) : blockLines el = rows.map (line state) := by
  have hdata : dataLines (logDataOf state rows) = rows.map rowCsv := by
    rw [dataLines, logDataOf, List.filterMap_map, ← List.filterMap_eq_map]
    refine List.filterMap_congr fun row hrow => ?_
    obtain ⟨v, hgood⟩ := h row hrow
    simp [Option.filter, rowCsv_ne_nil hgood]
  rw [blockLines, hel]
  dsimp only
  rw [hdata, blockColumns_logDataOf, List.map_map]
  rfl

/-- The log that the store creates. -/
def Rig.created (rig : Rig) (state : LogState) (firstRow : EmittedRow) : StoredLog :=
  logOfElem (logCreateElem rig.wb state firstRow)

section Created

variable {rig : Rig} {state : LogState} {firstRow : EmittedRow}

theorem mnemonics_logCurveInfo (state : LogState) :
    (logCurveInfo state).map LogCurveInfoElem.mnemonic = state.mnemonics.map some := by
  refine List.ext_getElem? fun i => ?_
  rw [logCurveInfo, LogState.mnemonics, List.getElem?_map, List.getElem?_mapIdx,
    List.getElem?_map, List.getElem?_map, Option.map_map, Option.map_map]
  rfl

theorem mnemonics_logOfElem (el : LogElem) : (logOfElem el).mnemonics =
    (el.logCurveInfo.map LogCurveInfoElem.mnemonic).map fun m => (childText m).getD [] := by
  rw [StoredLog.mnemonics, List.map_map]
  exact List.map_map

/-- The log that is created has the simulator's mnemonics. -/
theorem mnemonics_created : (rig.created state firstRow).mnemonics = state.mnemonics := by
  obtain ⟨-, -, -, -, htext⟩ := catalog_read state
  have hread := mnemonics_logOfElem (logCreateElem rig.wb state firstRow)
  have hinfo : (logCreateElem rig.wb state firstRow).logCurveInfo = logCurveInfo state := rfl
  rw [hinfo, mnemonics_logCurveInfo, List.map_map] at hread
  rw [Rig.created, hread]
  refine (List.map_congr_left fun m hm => ?_).trans (List.map_id _)
  rw [Function.comp_apply, htext m hm]
  rfl

theorem indexType_created : (rig.created state firstRow).indexType = state.indexType :=
  parseIndexType_text state.indexType

theorem elemKey_create :
    elemKey (logCreateElem rig.wb state firstRow) = state.key rig.wb := rfl

/-- Cells under their own mnemonics. -/
theorem get?_zip (m : Str) (ms cs : List Str) (h : (m :: ms).Nodup)
    (hlen : cs.length = ms.length) (c null : Str) :
    ms.map (fun k => (Dict.get? ((m :: ms).zip (c :: cs)) k).getD null) = cs := by
  have hskip : ∀ k ∈ ms, Dict.get? ((m :: ms).zip (c :: cs)) k = Dict.get? (ms.zip cs) k := by
    intro k hk
    have hne : m ≠ k := by
      rintro rfl
      exact (List.nodup_cons.mp h).1 hk
    simp [Dict.get?, hne]
  rw [List.map_congr_left fun k hk => by rw [hskip k hk]]
  have hms := (List.nodup_cons.mp h).2
  clear hskip h
  induction ms generalizing cs with
  | nil => exact (List.length_eq_zero_iff.mp hlen).symm
  | cons m' ms ih =>
    cases cs with
    | nil => exact absurd hlen (by simp)
    | cons c' cs =>
      have hrest : ms.map (fun k => (Dict.get? ((m' :: ms).zip (c' :: cs)) k).getD null) =
          ms.map fun k => (Dict.get? (ms.zip cs) k).getD null := by
        refine List.map_congr_left fun k hk => ?_
        have hne : m' ≠ k := by
          rintro rfl
          exact (List.nodup_cons.mp hms).1 hk
        simp [Dict.get?, hne]
      rw [List.map_cons, hrest, ih cs (by simpa using hlen) (List.nodup_cons.mp hms).2]
      simp [Dict.get?]

/-- **A line is stored as the row that it writes.** -/
theorem line_stored {created : StoredLog} (hcreated : created.mnemonics = state.mnemonics)
    {row : EmittedRow} {v : Value} (h : GoodRow state row v) :
    (line state row).storedRow created = ⟨row.1, row.2⟩ := by
  obtain ⟨hnodup, -, -, hne, -⟩ := catalog_read state
  obtain ⟨m, ms, hms⟩ := List.exists_cons_of_ne_nil hne
  have hwidth : row.2.length = ms.length := by
    have hlen := congrArg List.length hms
    rw [LogState.mnemonics, List.length_map, List.length_cons] at hlen
    rw [h.width, List.length_drop, hlen]
    omega
  have hcell : ∀ k, (line state row).cell k = Dict.get? ((m :: ms).zip (row.1 :: row.2)) k := by
    intro k
    rw [WrittenLine.cell, line_cells h, ← hms]
    rfl
  rw [hms] at hnodup
  rw [WrittenLine.storedRow, line_token h, hcreated, hms, List.drop_one, List.tail_cons]
  simp only [hcell, get?_zip m ms row.2 hnodup hwidth row.1 created.nullValue]

end Created

/-! ## 2. The log in the store

What the store holds of the log is what the lines so far have written (`Stored` of `RoundTrip`);
the lines are those of the emitted rows. -/

/-- A write to another log leaves this one. -/
theorem findLog_addLog_other {store : MockStore} {key : Str × Str × Str} {el : LogElem}
    (h : elemKey el ≠ key) : (store.addLog (some el)).1.findLog key = store.findLog key := by
  have hkey : (ingestLogData (logOfElem el) el).1.key ≠ key := by
    rw [ingestLogData_key]
    exact h
  rw [MockStore.addLog]
  dsimp only
  split
  · rfl
  · split
    · rfl
    · split
      · rfl
      · rw [MockStore.findLog, List.find?_append]
        simp [MockStore.findLog, hkey]

theorem findLog_updateLog_other {store : MockStore} {key : Str × Str × Str} {el : LogElem}
    (h : elemKey el ≠ key) : (store.updateLog (some el)).1.findLog key = store.findLog key := by
  rw [MockStore.findLog_updateLog]
  simp [h.symm]

/-- What holds of a log and its store from the seeding on. -/
structure Tracked (rig : Rig) (created : StoredLog) (feed : Feed) : Prop where
  sound : feed.state.Sound
  mnemonics : created.mnemonics = feed.state.mnemonics
  indexType : created.indexType = feed.state.indexType
  indices : ∃ vs, List.Forall₂ (GoodRow feed.state) feed.sent vs ∧
    Ascends feed.state.direction vs ∧ vs.getLast? = some feed.state.index
  stored : ∃ log, feed.store.findLog (feed.state.key rig.wb) = some log ∧
    Stored created (feed.sent.map (line feed.state)) log

section Steps

variable {rig : Rig} {created : StoredLog} {state : LogState} {rows : List EmittedRow}
  {el : LogElem}

/-- The block of an element has a column for each curve. -/
theorem namesEach_logDataOf (hcreated : created.mnemonics = state.mnemonics)
    (hel : el.logData = some (logDataOf state rows)) : NamesEach created el := by
  intro ld hld
  rw [hel] at hld
  obtain rfl := Option.some.inj hld
  rw [blockColumns_logDataOf, hcreated]

theorem readable_logDataOf (hcreated : created.indexType = state.indexType)
    (hrows : ∀ row ∈ rows, ∃ v, GoodRow state row v)
    (hel : el.logData = some (logDataOf state rows)) :
    ∀ w ∈ blockLines el, ReadableToken created.indexType [] w := by
  intro w hw
  rw [lines_logDataOf hrows hel] at hw
  obtain ⟨row, hrow, rfl⟩ := List.mem_map.mp hw
  obtain ⟨v, hgood⟩ := hrows row hrow
  rw [hcreated]
  exact line_readable hgood

theorem named_created (hcreated : created.mnemonics = state.mnemonics) :
    created.mnemonics ≠ [] ∧ created.mnemonics.Nodup := by
  obtain ⟨hnodup, -, -, hne, -⟩ := catalog_read state
  rw [hcreated]
  exact ⟨hne, hnodup⟩

/-- A store without the log has it after its creation, with the line of its first row. -/
theorem stored_create {row : EmittedRow} {v : Value} {store : MockStore}
    (h : GoodRow state row v) (hnew : store.findLog (state.key rig.wb) = none) :
    ∃ log, (store.addLog (some (logCreateElem rig.wb state row))).1.findLog (state.key rig.wb) =
        some log ∧ Stored (rig.created state row) [line state row] log := by
  have hrows : ∀ row' ∈ [row], ∃ v, GoodRow state row' v := fun row' hrow =>
    ⟨v, List.mem_singleton.mp hrow ▸ h⟩
  have hdata : (logCreateElem rig.wb state row).logData = some (logDataOf state [row]) := rfl
  have hmnem : (rig.created state row).mnemonics = state.mnemonics := mnemonics_created
  have htype : (rig.created state row).indexType = state.indexType := indexType_created
  have hread := readable_logDataOf htype hrows hdata
  obtain ⟨hnamed, hnodup⟩ := named_created hmnem
  have hstored := stored_created hnamed hnodup (namesEach_logDataOf hmnem hdata) hread
  rw [lines_logDataOf hrows hdata] at hstored
  have hfree : ∀ log ∈ store.logs, log.key ≠ elemKey (logCreateElem rig.wb state row) := by
    intro log hlog
    rw [elemKey_create]
    simpa using List.find?_eq_none.mp hnew log hlog
  exact ⟨_, findLog_addLog_of_free state.named hfree (instantsInRange_of_readable hread), hstored⟩

/-- **A seeding starts it.** -/
theorem tracked_seed (rig : Rig) {state : LogState} {store : MockStore} (input : RowInput)
    (hsound : state.Sound) (hnew : store.findLog (state.key rig.wb) = none) :
    Tracked rig (rig.created (emitRow rig.env false state input).2
      (emitRow rig.env false state input).1) (rig.seed ⟨state, store, []⟩ input) := by
  have hsame := sameLog_emitRow rig.env false state input
  have hgood := (goodRow_emitRow rig.env false input hsound).of_sameLog hsame
  obtain ⟨first, hfirst⟩ : ∃ first, first = emitRow rig.env false state input := ⟨_, rfl⟩
  have hsound' : first.2.Sound := by
    rw [hfirst]
    exact hsound.advance rig.env input.now
  rw [← hfirst] at hsame hgood ⊢
  have hkey : state.key rig.wb = first.2.key rig.wb := by
    rw [LogState.key, LogState.key, hsame.wmlUid]
  rw [hkey] at hnew
  have hfeed : rig.seed ⟨state, store, []⟩ input =
      ⟨first.2, (store.addLog (some (logCreateElem rig.wb first.2 first.1))).1, [first.1]⟩ := by
    rw [hfirst]
    rfl
  rw [hfeed]
  exact ⟨hsound', mnemonics_created, indexType_created,
    ⟨[first.2.index], .cons hgood .nil, .singleton _, rfl⟩, stored_create hgood hnew⟩

/-- A state of the same log has its mnemonics. -/
theorem SameLog.mnemonics {state state' : LogState} (h : SameLog state state') :
    state'.mnemonics = state.mnemonics := by
  rw [LogState.mnemonics, h.curves, LogState.mnemonics]

theorem SameLog.line {state state' : LogState} (h : SameLog state state') :
    line state' = line state := by
  funext row
  rw [Simulator.line, h.mnemonics, Simulator.line]

theorem SameLog.key {state state' : LogState} (h : SameLog state state') (wb : WellboreState) :
    state'.key wb = state.key wb := by
  rw [LogState.key, h.wmlUid, LogState.key]

/-- Indices that go on from the last one. -/
theorem Ascends.append {d : Direction} {vs ws : List Value} {v : Value} (h : Ascends d vs)
    (hlast : vs.getLast? = some v) (h' : Ascends d (v :: ws)) :
    Ascends d (vs ++ ws) ∧ (vs ++ ws).getLast? = (v :: ws).getLast? := by
  obtain ⟨hnext, hrest⟩ := List.isChain_cons.mp h'
  refine ⟨List.isChain_append.mpr ⟨h, hrest, fun a ha b hb => ?_⟩, ?_⟩
  · rw [hlast] at ha
    obtain rfl := Option.some.inj ha
    exact hnext b hb
  · rw [List.getLast?_append, hlast, List.getLast?_cons]
    cases ws.getLast? <;> rfl

/-- **Rows that all advance are appended.** -/
theorem Tracked.append {feed : Feed} {inputs : List RowInput} (h : Tracked rig created feed)
    (hadv : AllAdvance rig.env feed.state inputs) :
    Tracked rig created (rig.append feed inputs) := by
  obtain ⟨vs, hgood, hchain, hlast, hsound, hsame⟩ :=
    emitRows_spec rig.env inputs feed.state h.sound hadv
  obtain ⟨old, hold, hasc, hend⟩ := h.indices
  obtain ⟨out, hout⟩ : ∃ out, out = emitRows rig.env feed.state inputs := ⟨_, rfl⟩
  have hfeed : rig.append feed inputs =
      ⟨out.2, (feed.store.updateLog (some (logUpdateElem rig.wb out.2 out.1))).1,
        feed.sent ++ out.1⟩ := by rw [hout]; rfl
  rw [← hout] at hgood hlast hsound hsame
  have hgood' := hgood.imp fun row v hrow => hrow.of_sameLog hsame
  have hold' := hold.imp fun row v hrow => hrow.of_sameLog hsame
  have hmnem : created.mnemonics = out.2.mnemonics := h.mnemonics.trans hsame.mnemonics.symm
  have htype : created.indexType = out.2.indexType := h.indexType.trans hsame.indexType.symm
  obtain ⟨hasc', hend'⟩ := hasc.append hend hchain
  rw [hfeed]
  refine ⟨hsound, hmnem, htype, ⟨old ++ vs, List.rel_append hold' hgood', ?_, ?_⟩, ?_⟩
  · rw [hsame.direction]
    exact hasc'
  · exact hend'.trans hlast
  · obtain ⟨log, hfind, hstored⟩ := h.stored
    have hdata : (logUpdateElem rig.wb out.2 out.1).logData = some (logDataOf out.2 out.1) := rfl
    have hrows := exists_index hgood'
    obtain ⟨hnamed, hnodup⟩ := named_created hmnem
    have hupdated := hstored.updatedLog hnamed hnodup (namesEach_logDataOf hmnem hdata)
      (readable_logDataOf htype hrows hdata)
    rw [lines_logDataOf hrows hdata, ← hsame.line, ← List.map_append] at hupdated
    refine ⟨_, ?_, hupdated⟩
    have hkey : feed.state.key rig.wb = elemKey (logUpdateElem rig.wb out.2 out.1) :=
      (hsame.key rig.wb).symm
    rw [MockStore.findLog_updateLog, hsame.key, hfind, Option.map_some, if_pos hkey]

/-- A write to another log changes nothing here. -/
theorem Tracked.elsewhere {feed : Feed} {store : MockStore} (h : Tracked rig created feed)
    (hfind : store.findLog (feed.state.key rig.wb) =
      feed.store.findLog (feed.state.key rig.wb)) :
    Tracked rig created { feed with store } :=
  ⟨h.sound, h.mnemonics, h.indexType, h.indices, hfind.symm ▸ h.stored⟩

/-- **What one event preserves.**  A tick appends the rows of this log; a write to another one
touches neither the log nor what has been emitted. -/
theorem Tracked.next {feed feed' : Feed} {e : Event} (h : Tracked rig created feed)
    (hmeets : rig.Meets feed e) (hstep : rig.next feed e = some feed') :
    Tracked rig created feed' ∧ feed'.sent.length = feed.sent.length + rig.rowsOf e := by
  cases e with
  | tick tickNo inputs =>
    obtain rfl := Option.some.inj hstep
    refine ⟨h.append hmeets, ?_⟩
    rw [Rig.append, List.length_append, length_emitRows, Rig.tickInputs, List.length_map,
      List.length_range]
    rfl
  | addOther el =>
    rw [Rig.next] at hstep
    split at hstep
    · exact absurd hstep (by simp)
    · rename_i hother
      obtain rfl := Option.some.inj hstep
      exact ⟨h.elsewhere (findLog_addLog_other hother), rfl⟩
  | updateOther el =>
    rw [Rig.next] at hstep
    split at hstep
    · exact absurd hstep (by simp)
    · rename_i hother
      obtain rfl := Option.some.inj hstep
      exact ⟨h.elsewhere (findLog_updateLog_other hother), rfl⟩

/-- **What a run preserves.** -/
theorem Tracked.run {feed feed' : Feed} {es : List Event} (h : Tracked rig created feed)
    (hrun : Run rig.next rig.Meets feed es feed') :
    Tracked rig created feed' ∧
      feed'.sent.length = feed.sent.length + (es.map rig.rowsOf).sum := by
  induction hrun with
  | nil feed => exact ⟨h, rfl⟩
  | cons hmeets hstep _ ih =>
    obtain ⟨hnext, hcount⟩ := h.next hmeets hstep
    obtain ⟨hend, hcount'⟩ := ih hnext
    refine ⟨hend, ?_⟩
    rw [hcount', hcount, List.map_cons, List.sum_cons]
    omega

end Steps

/-! ## 3. One stored row for each

Counting: lines with different indices are rows of their own, so the store has as many rows as
there were lines. -/

/-- The index that a line is for. -/
abbrev lineIndex (t : IndexType) (w : WrittenLine) : Option Value := w.index t

section Counting

variable {created log : StoredLog} {ws : List WrittenLine} {vs : List Value}

/-- Lines with different indices are stored one by one. -/
theorem length_of_stored (h : Stored created ws log)
    (hindices : ws.map (lineIndex created.indexType) = vs.map some) (hnodup : vs.Nodup) :
    log.rows.entries.length = ws.length := by
  have hkeys : (log.rows.entries.map Prod.fst).Nodup := by
    refine List.pairwise_map.mpr (log.rows.distinct.imp_of_mem fun {a b} ha _ hne heq => ?_)
    rw [← heq, Value.beq_self (h.entry a ha).1] at hne
    exact absurd hne (by simp)
  have hmem : ∀ v, v ∈ log.rows.entries.map Prod.fst ↔ v ∈ vs := by
    intro v
    constructor
    · intro hv
      obtain ⟨e, he, rfl⟩ := List.mem_map.mp hv
      obtain ⟨-, w, hlast, -⟩ := h.entry e he
      have hindex := List.mem_map_of_mem (f := lineIndex created.indexType) hlast.mem
      rw [hindices, lineIndex, hlast.index_eq] at hindex
      simpa using hindex
    · intro hv
      have hindex : some v ∈ ws.map (lineIndex created.indexType) := by
        rw [hindices]
        exact List.mem_map_of_mem hv
      obtain ⟨w, hw, hwv⟩ := List.mem_map.mp hindex
      obtain ⟨e, he, rfl⟩ := h.covered w hw v hwv
      exact List.mem_map_of_mem he
  have hperm := (List.perm_ext_iff_of_nodup hkeys hnodup).mpr hmem
  have hlength := congrArg List.length hindices
  rw [List.length_map, List.length_map] at hlength
  rw [hlength, ← hperm.length_eq, List.length_map]

/-- And each of them is stored as it is. -/
theorem mem_of_stored (h : Stored created ws log)
    (hindices : ws.map (lineIndex created.indexType) = vs.map some) (hnodup : vs.Nodup)
    {w : WrittenLine} (hw : w ∈ ws) : ∃ e ∈ log.rows.entries, e.2 = w.storedRow created := by
  have hnodup' : (ws.map (lineIndex created.indexType)).Nodup := by
    rw [hindices]
    exact hnodup.map (Option.some_injective _)
  have hindex := List.mem_map_of_mem (f := lineIndex created.indexType) hw
  rw [hindices] at hindex
  obtain ⟨v, -, hv⟩ := List.mem_map.mp hindex
  obtain ⟨e, he, rfl⟩ := h.covered w hw v hv.symm
  obtain ⟨-, w', hlast, hrow⟩ := h.entry e he
  have hsame : w' = w := List.inj_on_of_nodup_map hnodup' hlast.mem hw
    (hlast.index_eq.trans hv)
  exact ⟨e, he, hsame ▸ hrow⟩

end Counting

/-- The index of a row, as the store reads it. -/
def rowIndex (t : IndexType) (row : EmittedRow) : Option Value :=
  (parseIndex (some row.1) t).toOption.join

/-- The emitted rows are strictly in order along the log, and the store holds as many rows, each of
them as it was emitted. -/
structure EachNew (rig : Rig) (feed : Feed) : Prop where
  advance : ∃ vs : List Value, feed.sent.map (rowIndex feed.state.indexType) = vs.map some ∧
    vs.Pairwise fun a b => before a b feed.state.direction = .ok true
  held : ∃ log, feed.store.findLog (feed.state.key rig.wb) = some log ∧
    log.rows.entries.length = feed.sent.length ∧
    ∀ row ∈ feed.sent, ∃ e ∈ log.rows.entries, e.2 = ⟨row.1, row.2⟩

/-- Further along is what the code calls before, in the log's direction. -/
theorem before_of_growthKey_lt {t : IndexType} {d : Direction} {a b : Value} (ha : a.Orders t)
    (hb : b.Orders t) (h : growthKey d a < growthKey d b) : before a b d = .ok true := by
  cases d with
  | increasing =>
    rw [before, ha.lt?_eq hb]
    exact congrArg Except.ok (decide_eq_true h)
  | decreasing =>
    rw [before, hb.lt?_eq ha]
    exact congrArg Except.ok (decide_eq_true (neg_lt_neg_iff.mp h))

theorem indices_of_goodRows {state : LogState} {rows : List EmittedRow} {vs : List Value}
    (h : List.Forall₂ (GoodRow state) rows vs) :
    rows.map (rowIndex state.indexType) = vs.map some ∧
      (rows.map (line state)).map (lineIndex state.indexType) = vs.map some ∧
      ∀ v ∈ vs, v.Orders state.indexType := by
  induction h with
  | nil => exact ⟨rfl, rfl, by simp⟩
  | cons hrow _ ih =>
    obtain ⟨hrows, hlines, horders⟩ := ih
    refine ⟨?_, ?_, ?_⟩
    · rw [List.map_cons, List.map_cons, hrows, rowIndex, hrow.read]
      rfl
    · rw [List.map_cons, List.map_cons, List.map_cons, lineIndex, line_index hrow, hlines]
    · intro v hv
      rcases List.mem_cons.mp hv with rfl | hv
      · exact hrow.orders
      · exact horders v hv

/-- A log that is tracked has each row as a row of its own. -/
theorem Tracked.eachNew {rig : Rig} {created : StoredLog} {feed : Feed}
    (h : Tracked rig created feed) : EachNew rig feed := by
  obtain ⟨vs, hgood, hchain, -⟩ := h.indices
  obtain ⟨log, hfind, hstored⟩ := h.stored
  obtain ⟨hrows, hlines, horders⟩ := indices_of_goodRows hgood
  have hpairs := List.isChain_iff_pairwise.mp hchain
  have hnodup : vs.Nodup := hpairs.imp fun hlt heq => absurd hlt (by rw [heq]; exact lt_irrefl _)
  rw [← h.indexType] at hlines
  have hlength := length_of_stored hstored hlines hnodup
  rw [List.length_map] at hlength
  refine ⟨⟨vs, hrows, ?_⟩, ⟨log, hfind, hlength, fun row hrow => ?_⟩⟩
  · exact hpairs.imp_of_mem fun ha hb hlt =>
      before_of_growthKey_lt (horders _ ha) (horders _ hb) hlt
  · obtain ⟨v, hv⟩ := exists_index hgood row hrow
    obtain ⟨e, he, hrow'⟩ := mem_of_stored hstored hlines hnodup
      (List.mem_map_of_mem (f := line feed.state) hrow)
    exact ⟨e, he, hrow'.trans (line_stored h.mnemonics hv)⟩

/-! ## 4. Every run

From the seeding on, whatever the simulator draws and whatever else is written to the store. -/

/-- **In every run whose rows all advance, each row is a new row.**

The condition is on the steps: the indices of the rows of each tick go on from those that were
emitted before, strictly and in the log's direction.  It is one that the simulator does not
check. -/
theorem feed_rows_new {rig : Rig} {state : LogState} {store : MockStore} {input : RowInput}
    {es : List Event} {feed : Feed} (hdepth : state.Sound)
    (hnew : store.findLog (state.key rig.wb) = none)
    (hrun : Run rig.next rig.Meets (rig.seed ⟨state, store, []⟩ input) es feed) :
    EachNew rig feed ∧ feed.sent.length = 1 + (es.map rig.rowsOf).sum := by
  obtain ⟨htracked, hcount⟩ := (tracked_seed rig input hdepth hnew).run hrun
  exact ⟨htracked.eachNew, hcount⟩

/-- An empty store. -/
def emptyStore : MockStore where
  wells := []
  wellbores := []
  logs := []
  logsDistinct := nodup_keys_nil

/-- The first wellbore of a fleet of one, with a flat sine and no noise. -/
def loneRig : Rig where
  env := ⟨fun _ => .ofRatio 0 1, .ofRatio 5 1⟩
  wb := ⟨"sim-well-001".toList, "Simulated Well 001".toList, "sim-well-001-wb-1".toList,
    "Wellbore 1".toList⟩
  fleetSize := 1
  place := 0

/-- A row at a reading of the clock; a tick writes nulls for all of its channels. -/
def rowAt (micros : Fin maxMicros) : RowInput where
  now := ⟨micros, micros.isLt, true⟩
  draws _ := ⟨true, fun _ _ => .ofRatio 0 1⟩

/-- So many microseconds after noon of 2024-01-01, the day number 738885. -/
def pastNoon (micros : ℕ) : Fin maxMicros :=
  ⟨(738884 * 86400000000 + 43200000000 + micros) % maxMicros, Nat.mod_lt _ maxMicros_pos⟩

/-- The time log of the wellbore. -/
def timeLog : LogState where
  wmlUid := "sim-well-001-wb-1-log-time".toList
  name := "Time Log".toList
  indexType := .dateTime
  direction := .increasing
  curves := timeCurves
  depth := .ofRatio 1500 1
  lastTime := (rowAt (pastNoon 0)).now
  phase := .ofRatio 0 1
  catalog := by decide
  named := by decide

/-- The seeding at noon, on an empty store. -/
def seeded : Feed := loneRig.seed ⟨timeLog, emptyStore, []⟩ (rowAt (pastNoon 0))

/-- A tick a second later. -/
def later : List RowInput := loneRig.tickInputs 1 fun _ => rowAt (pastNoon 1000000)

/-- The seed row and the row of the tick are two rows. -/
theorem feed_rows_new_later :
    EachNew loneRig (loneRig.append seeded later) ∧
      (loneRig.append seeded later).sent.length = 1 + ([1] : List ℕ).sum := by
  have hadvances : Advances seeded.state (rowAt (pastNoon 1000000)).now := by decide +kernel
  have hmeets : loneRig.Meets seeded (.tick 1 fun _ => rowAt (pastNoon 1000000)) := by
    rw [Rig.Meets]
    exact ⟨hadvances, trivial⟩
  exact feed_rows_new (fun htime => absurd htime (by decide)) rfl
    (.cons hmeets rfl (.nil _))

/-- How many rows the store has of a log. -/
def rowsHeld (rig : Rig) (feed : Feed) : Option ℕ :=
  (feed.store.findLog (feed.state.key rig.wb)).map fun log => log.rows.entries.length

theorem EachNew.rowsHeld {rig : Rig} {feed : Feed} (h : EachNew rig feed) :
    rowsHeld rig feed = some feed.sent.length := by
  obtain ⟨log, hfind, hlength, -⟩ := h.held
  rw [Simulator.rowsHeld, hfind, Option.map_some, hlength]

/-- The depth log of the same wellbore, pulled out to the surface. -/
def depthLog : LogState where
  wmlUid := "sim-well-001-wb-1-log-depth".toList
  name := "Depth Log".toList
  indexType := .measuredDepth
  direction := .decreasing
  curves := depthCurves
  depth := .half
  lastTime := (rowAt (pastNoon 0)).now
  phase := .ofRatio 0 1
  catalog := by decide
  named := by decide

/-- Its seeding. -/
def seededDepth : Feed :=
  loneRig.seed ⟨depthLog, emptyStore, []⟩ (rowAt (pastNoon 0))

/-- A tick 0.4 ms after either seeding. -/
def sameInstant : Event := .tick 1 fun _ => rowAt (pastNoon 400)

/-- **A clock that stands still, and a depth that has reached the surface**: the store has one row for
the two that are emitted. -/
theorem rows_overwritten :
    (∃ feed, Run loneRig.next (fun _ _ => True) seeded [sameInstant] feed ∧
      feed.sent.length = 2 ∧ rowsHeld loneRig feed = some 1 ∧ ¬EachNew loneRig feed) ∧
    ∃ feed, Run loneRig.next (fun _ _ => True) seededDepth [sameInstant] feed ∧
      feed.sent.length = 2 ∧ rowsHeld loneRig feed = some 1 ∧ ¬EachNew loneRig feed := by
  have hfails : ∀ feed : Feed, feed.sent.length = 2 → rowsHeld loneRig feed = some 1 →
      ¬EachNew loneRig feed := by
    intro feed hsent hheld hnew
    rw [hnew.rowsHeld, hsent] at hheld
    exact absurd hheld (by decide)
  constructor
  · have hsent : (loneRig.append seeded [rowAt (pastNoon 400)]).sent.length = 2 := rfl
    have hheld : rowsHeld loneRig (loneRig.append seeded [rowAt (pastNoon 400)]) =
        some 1 := by decide +kernel
    exact ⟨_, .cons trivial rfl (.nil _), hsent, hheld, hfails _ hsent hheld⟩
  · have hsent : (loneRig.append seededDepth [rowAt (pastNoon 400)]).sent.length = 2 :=
      rfl
    have hheld : rowsHeld loneRig (loneRig.append seededDepth [rowAt (pastNoon 400)]) =
        some 1 := by decide +kernel
    exact ⟨_, .cons trivial rfl (.nil _), hsent, hheld, hfails _ hsent hheld⟩

end Simulator
end WitsmlViewer

/-
# Rows that an update writes again

`_ingest_logdata` keys rows by their index and stores whole rows: a line for an index that has a row
replaces that row, cell by cell in the order of the header's curves, with the log's null value for
every curve the line says nothing about.

* `rewritten_updatedLog`: what each row becomes, whatever curves the update names, in any order.
* `keeps_unsent_iff`: when a reader of the log sees nothing but the cells that were sent.
* `stays_under_its_mnemonic_iff`: when the cells of a row come back under the mnemonics that they
  were written for.  The first cell of a stored row is the index token, whichever curve the header
  names first.

A WITSML update is meant to change what it names and to leave the rest alone, and for headers the
store does this.  For data it does not.  The row is built from the update's line alone and put in
the place of the old one, so a curve that the line does not mention is null afterwards.  The two
equivalences say when nobody can tell, which is rarely; they are about what a reader sees, not
about how the rows are stored.

The index curve is not required to be the header's first in the second part, since nothing in the
store requires it.  Rows are stored with their index token in front in any case, and it is read
back under whatever mnemonic comes first.
-/
import WitsmlViewer.RoundTrip

namespace WitsmlViewer

open Py
open MockStore (logOfElem elemKey updatedLog)

/-! ## 1. What an update sends for an index

An update may have several lines for one index.  The last of them writes the row; but what was
"sent" for a curve is the last cell that any of them has for it. -/

/-- The lines for an index, in the order they are sent. -/
def sentFor (t : IndexType) (ws : List WrittenLine) (i : Value) : List WrittenLine :=
  ws.filter fun w => w.index t == some i

/-- The cell sent last for an index, under a mnemonic. -/
def lastSent (t : IndexType) (ws : List WrittenLine) (i : Value) (m : Str) : Option Str :=
  ((sentFor t ws i).filterMap fun w => w.cell m).getLast?

/-- The row that an update leaves at an existing row's index. -/
def rewrittenRow (log : StoredLog) (ws : List WrittenLine) (e : Entry) : StoredRow :=
  (((sentFor log.indexType ws e.1).getLast?).map fun w => w.storedRow log).getD e.2

section

variable {t : IndexType} {ws : List WrittenLine} {w : WrittenLine} {i : Value} {m : Str}

theorem sentFor_snoc : sentFor t (ws ++ [w]) i =
    if w.index t == some i then sentFor t ws i ++ [w] else sentFor t ws i := by
  rw [sentFor, List.filter_append, List.filter_singleton]
  cases w.index t == some i with
  | true => rfl
  | false => exact List.append_nil _

/-- The last line for an index decides about the curves that it has a cell for. -/
theorem lastSent_of_last {c : Str} (hlast : (sentFor t ws i).getLast? = some w)
    (hc : w.cell m = some c) : lastSent t ws i m = some c := by
  obtain ⟨before, hws⟩ := List.getLast?_eq_some_iff.mp hlast
  have hone : [w].filterMap (fun w => w.cell m) = [c] := by simp [hc]
  rw [lastSent, hws, List.filterMap_append, hone]
  exact List.getLast?_concat

/-- Without a line for the index nothing has been sent. -/
theorem lastSent_of_none (hnone : (sentFor t ws i).getLast? = none) :
    lastSent t ws i m = none := by
  rw [lastSent, List.getLast?_eq_none_iff.mp hnone]
  rfl

end

/-! ## 2. What an update does to a row

What an update makes of each row that was there before.  New rows are not spoken of; they take
nothing away. -/

/-- Every row of `log` is in `log'` as the lines `ws` rewrite it. -/
structure Rewritten (log : StoredLog) (ws : List WrittenLine) (log' : StoredLog) : Prop where
  sameHead : SameHead log log'
  row : ∀ e ∈ log.rows.entries, (e.1, rewrittenRow log ws e) ∈ log'.rows.entries

section

variable {log log' : StoredLog} {ws : List WrittenLine} {w : WrittenLine}

theorem Rewritten.refl (log : StoredLog) : Rewritten log [] log :=
  ⟨SameHead.refl log, fun _ he => he⟩

/-- A line that is for no index changes nothing. -/
theorem Rewritten.skip (h : Rewritten log ws log') (hw : w.index log.indexType = none) :
    Rewritten log (ws ++ [w]) log' := by
  refine ⟨h.sameHead, fun e he => ?_⟩
  have hne : (w.index log.indexType == some e.1) = false := by rw [hw]; rfl
  have hsent : sentFor log.indexType (ws ++ [w]) e.1 = sentFor log.indexType ws e.1 := by
    rw [sentFor_snoc, hne]
    rfl
  rw [rewrittenRow, hsent]
  exact h.row e he

/-- A line for an index leaves the row that it makes, and other rows alone. -/
theorem Rewritten.write (h : Rewritten log ws log') {r : KeyedRow log'.indexType}
    (hw : w.index log.indexType = some r.key) (hrow : r.row = w.storedRow log) :
    Rewritten log (ws ++ [w]) (log'.insert r) := by
  refine ⟨⟨h.sameHead.1, h.sameHead.2, h.sameHead.3, h.sameHead.4, h.sameHead.5⟩, fun e he => ?_⟩
  have hins : (log'.insert r).rows.entries = log'.rows.entries.set r.key r.row := rfl
  rw [hins, rewrittenRow, sentFor_snoc, hw]
  by_cases heq : (r.key == e.1) = true
  · -- this line is the last one for the row
    have hsome : (some r.key == some e.1) = true := heq
    rw [hsome, if_pos rfl, List.getLast?_concat, Option.map_some, Option.getD_some,
      ← Value.eq_of_beq _ _ heq, ← hrow]
    exact Dict.mem_set_self Value.eq_of_beq _ _ _
  · have hsome : (some r.key == some e.1) = false := by simpa using heq
    rw [hsome, if_neg (by decide)]
    refine Dict.mem_set_of_ne (h.row e he) ?_
    rw [Bool.eq_false_iff, Ne, Value.beq_iff]
    rintro ⟨hkey, hnan⟩
    exact heq (Value.beq_iff.mpr ⟨hkey.symm, fun hk => hnan (hkey.trans hk)⟩)

/-- A line whose index raises makes the update raise. -/
theorem incomingRow_of_error {e : PyError}
    (h : parseIndex (some w.token) log.indexType = .error e) :
    incomingRow log w.columns w.text = .error e := by
  obtain ⟨rest, hcells⟩ := w.cells_eq
  rw [WrittenLine.cells] at hcells
  unfold incomingRow
  split
  · rename_i hnil
    exact absurd (hcells.symm.trans hnil) (by simp)
  · rename_i token cells heq
    obtain ⟨rfl, rfl⟩ := List.cons.inj (hcells.symm.trans heq)
    split
    · rename_i hparse
      rw [← Except.error.inj (h.symm.trans hparse)]
    · rename_i hparse
      exact absurd (h.symm.trans hparse) (by simp)
    · rename_i hparse
      exact absurd (h.symm.trans hparse) (by simp)

/-- Ingestion that raises nothing rewrites the rows of every line. -/
theorem Rewritten.ingestLines {incoming : List Str} (hlog : log.mnemonics ≠ [])
    (hinc : incoming.Nodup) : ∀ {texts : List Str} {ws : List WrittenLine} {log' : StoredLog} {n : ℕ},
      Rewritten log ws log' → (ingestLines incoming texts log').2 = .ok n →
      Rewritten log (ws ++ texts.map fun text => ⟨incoming, text⟩)
        (ingestLines incoming texts log').1
  | [], ws, log', _, h, _ => by simpa [WitsmlViewer.ingestLines] using h
  | text :: texts, ws, log', n, h, hok => by
    have happend : ws ++ (text :: texts).map (fun text => (⟨incoming, text⟩ : WrittenLine)) =
        (ws ++ [⟨incoming, text⟩]) ++ texts.map fun text => ⟨incoming, text⟩ := by simp
    have htype := h.sameHead.indexType
    have hmnem : log'.mnemonics = log.mnemonics := h.sameHead.mnemonics
    rw [happend]
    rw [WitsmlViewer.ingestLines] at hok ⊢
    cases hparse : parseIndex (some (⟨incoming, text⟩ : WrittenLine).token) log'.indexType with
    | error e =>
      have herr := incomingRow_of_error hparse
      dsimp only at herr
      rw [herr] at hok
      exact absurd hok (by simp)
    | ok i =>
      have hindex : (⟨incoming, text⟩ : WrittenLine).index log.indexType = i := by
        rw [WrittenLine.index, ← htype, hparse]
        rfl
      cases i with
      | none =>
        have hnone := incomingRow_of_none hparse
        dsimp only at hnone
        rw [hnone] at hok ⊢
        exact (h.skip hindex).ingestLines hlog hinc hok
      | some i =>
        obtain ⟨r, hr, hkey, hrow⟩ := incomingRow_of_some (by rwa [hmnem]) hinc hparse
        dsimp only at hr
        rw [hr] at hok ⊢
        rw [← hkey] at hindex
        obtain ⟨n', hok', -⟩ := map_eq_ok.mp hok
        refine (h.write hindex ?_).ingestLines hlog hinc hok'
        rw [hrow, WrittenLine.storedRow, WrittenLine.storedRow, hmnem, h.sameHead.nullValue]

/-- **An update that raises nothing leaves at the index of each row what the last line for it makes
of it**, and the row itself where no line is for its index. -/
theorem rewritten_updatedLog {el : LogElem} {ld : LogDataElem} {n : ℕ} (hld : el.logData = some ld)
    (hlog : log.mnemonics ≠ []) (hcols : blockColumns ld ≠ []) (hinc : (blockColumns ld).Nodup)
    (hok : (ingestLogData log el).2 = .ok n) :
    Rewritten log (blockLines el) (updatedLog el log) := by
  have hcolumns : incomingMnemonics log ld = blockColumns ld := by
    rw [blockColumns] at hcols ⊢
    rw [incomingMnemonics]
    cases hmnem : childText ld.mnemonicList with
    | none =>
      rw [hmnem] at hcols
      exact absurd rfl hcols
    | some mnemList => rfl
  have hingest : ingestLogData log el = ingestLines (blockColumns ld) (dataLines ld) log := by
    rw [ingestLogData, hld]
    dsimp only
    rw [hcolumns, if_neg hcols]
  rw [hingest] at hok
  have hlines := (Rewritten.refl log).ingestLines hlog hinc hok
  rw [List.nil_append, ← hingest] at hlines
  have hblock : blockLines el = (dataLines ld).map fun text => ⟨blockColumns ld, text⟩ := by
    rw [blockLines, hld]
  rw [hblock]
  refine ⟨updatedLog_sameHead log el, fun e he => ?_⟩
  rw [(updatedLog_rows log el).2]
  exact hlines.row e he

end

/-! ## 3. What is lost

`KeepsUnsent` says what a partial update should do, cell by cell.  Whether it does is decided by
the last line for each index alone: what earlier lines sent is gone, too. -/

/-- The columns of an update: the log's index curve, and any of its other curves, each once. -/
structure NamesSome (log : StoredLog) (ld : LogDataElem) : Prop where
  index : ∃ m, log.indexCurve = some m ∧ (blockColumns ld).head? = some m
  distinct : (blockColumns ld).Nodup
  curves : ∀ m ∈ blockColumns ld, m ∈ log.mnemonics

/-- Every row that was there holds, under each curve, the cell sent last for its index, and what it
held before where none was sent.  A row whose index is not mentioned is the same row. -/
def KeepsUnsent (log : StoredLog) (ws : List WrittenLine) (log' : StoredLog) : Prop :=
  ∀ e ∈ log.rows.entries, ∃ row, (e.1, row) ∈ log'.rows.entries ∧
    (sentFor log.indexType ws e.1 = [] → row = e.2) ∧
    ∀ j m, log.mnemonics[j]? = some m →
      row.cell? j = (lastSent log.indexType ws e.1 m).or (e.2.cell? j)

/-- The last line `w` for a row's index takes nothing away: a curve that it has no cell for is null
already, and a header that does not begin with the index curve has the index token as its first
curve's cell. -/
structure NothingLost (log : StoredLog) (ws : List WrittenLine) (e : Entry) (w : WrittenLine) :
    Prop where
  unsent : ∀ j m, log.mnemonics[j + 1]? = some m → w.cell m = none →
    (lastSent log.indexType ws e.1 m).or e.2.cells[j]? = some log.nullValue
  first : ∀ m, log.mnemonics[0]? = some m → log.indexCurve ≠ some m →
    (lastSent log.indexType ws e.1 m).getD e.2.token = w.token

section

variable {log log' : StoredLog} {ws : List WrittenLine} {w : WrittenLine} {e : Entry}

theorem cell?_storedRow {j : ℕ} {m : Str} (hm : log.mnemonics[j + 1]? = some m) :
    (w.storedRow log).cell? (j + 1) = some ((w.cell m).getD log.nullValue) := by
  rw [StoredRow.cell?, WrittenLine.storedRow, List.getElem?_map, List.getElem?_drop, Nat.add_comm 1 j,
    hm]
  rfl

/-- The cell under the first column is the index token. -/
theorem cell_head {m : Str} (h : w.columns.head? = some m) : w.cell m = some w.token := by
  obtain ⟨rest, hcells⟩ := w.cells_eq
  obtain ⟨ms, hcols⟩ := List.head?_eq_some_iff.mp h
  rw [WrittenLine.cell, hcells, hcols, List.zip_cons_cons, Dict.get?]
  exact if_pos (beq_self_eq_true m)

/-- What the stored row says is what was sent or held, curve by curve, exactly when the line takes
nothing away.  For a curve that the line names, the cell is the line's; for any other it is the
null value, and that is right only if it was null before and nothing was sent for it. -/
theorem nothingLost_iff (hlast : (sentFor log.indexType ws e.1).getLast? = some w)
    (hindex : ∃ m, log.indexCurve = some m ∧ w.columns.head? = some m) :
    (∀ j m, log.mnemonics[j]? = some m →
      (w.storedRow log).cell? j = (lastSent log.indexType ws e.1 m).or (e.2.cell? j)) ↔
    NothingLost log ws e w := by
  obtain ⟨index, hcurve, hhead⟩ := hindex
  have htoken : (w.storedRow log).cell? 0 = some w.token := rfl
  have hold : e.2.cell? 0 = some e.2.token := rfl
  constructor
  · intro h
    refine ⟨fun j m hm hnone => ?_, fun m hm _ => ?_⟩
    · have hcell := h (j + 1) m hm
      rw [cell?_storedRow hm, hnone] at hcell
      exact hcell.symm
    · have hcell := h 0 m hm
      rw [htoken, hold] at hcell
      cases hs : lastSent log.indexType ws e.1 m with
      | none => rw [hs] at hcell; exact (Option.some.inj hcell).symm
      | some c => rw [hs] at hcell; exact (Option.some.inj hcell).symm
  · intro h j m hm
    cases j with
    | zero =>
      rw [htoken, hold]
      by_cases hm' : log.indexCurve = some m
      · obtain rfl : index = m := Option.some.inj (hcurve.symm.trans hm')
        rw [lastSent_of_last hlast (cell_head hhead)]
        rfl
      · have hcell := h.first m hm hm'
        rw [← hcell]
        cases lastSent log.indexType ws e.1 m <;> rfl
    | succ j =>
      rw [cell?_storedRow hm]
      cases hc : w.cell m with
      | none => exact (h.unsent j m hm hc).symm
      | some c =>
        rw [lastSent_of_last hlast hc]
        rfl

/-- The same for all rows of a log that an update has rewritten. -/
theorem keepsUnsent_iff (h : Rewritten log ws log')
    (hindex : ∀ w ∈ ws, ∃ m, log.indexCurve = some m ∧ w.columns.head? = some m) :
    KeepsUnsent log ws log' ↔
      ∀ e ∈ log.rows.entries, ∀ w ∈ (sentFor log.indexType ws e.1).getLast?,
        NothingLost log ws e w := by
  constructor
  · intro hkeeps e he w hlast
    have hlast := Option.mem_def.mp hlast
    have hsent : w ∈ sentFor log.indexType ws e.1 := List.mem_of_getLast? hlast
    obtain ⟨hw, hidx⟩ := List.mem_filter.mp hsent
    refine (nothingLost_iff hlast (hindex w hw)).mp fun j m hm => ?_
    obtain ⟨row, hrow, -, hcells⟩ := hkeeps e he
    -- the row at this index is the line's
    have hself : (e.1 == e.1) = true := by
      refine Value.beq_self fun hnan => ?_
      rw [hnan] at hidx
      cases hwi : w.index log.indexType with
      | none => rw [hwi] at hidx; exact absurd hidx (by simp)
      | some i => rw [hwi] at hidx; exact (Value.beq_iff.mp hidx).2 (Value.eq_of_beq _ _ hidx)
    have hstored := h.row e he
    rw [rewrittenRow, hlast, Option.map_some, Option.getD_some] at hstored
    have hget := Dict.get?_of_mem Value.eq_of_beq hself log'.rows.distinct hstored
    have hget' := Dict.get?_of_mem Value.eq_of_beq hself log'.rows.distinct hrow
    rw [← hcells j m hm, Option.some.inj (hget.symm.trans hget')]
  · intro hlost e he
    refine ⟨rewrittenRow log ws e, h.row e he, fun hnone => ?_, fun j m hm => ?_⟩
    · rw [rewrittenRow, hnone]
      rfl
    · rw [rewrittenRow]
      cases hlast : (sentFor log.indexType ws e.1).getLast? with
      | none =>
        rw [lastSent_of_none hlast]
        rfl
      | some w =>
        have hw : w ∈ ws := (List.mem_filter.mp (List.mem_of_getLast? hlast)).1
        exact (nothingLost_iff hlast (hindex w hw)).mpr (hlost e he w hlast) j m hm

end

/-- **Updating some curves leaves the others alone exactly when** the last line for the index of
each row takes nothing away from it.

The update names the index curve first and any of the others, in any order.  That it comes first is
what the source says of its own blocks (`store.py`, in `_ingest_logdata`): the first cell is taken
for the index without a look at the mnemonics.  A block that names it elsewhere is outside the
statement. -/
theorem keeps_unsent_iff {store : MockStore} {el : LogElem} {ld : LogDataElem} {log : StoredLog}
    (hfind : store.findLog (elemKey el) = some log) (hld : el.logData = some ld)
    (hnames : NamesSome log ld) (hok : (store.updateLog (some el)).2 = .ok (rcSuccess, none)) :
    (∃ log', (store.updateLog (some el)).1.findLog (elemKey el) = some log' ∧
      KeepsUnsent log (blockLines el) log') ↔
    ∀ e ∈ log.rows.entries, ∀ w ∈ (sentFor log.indexType (blockLines el) e.1).getLast?,
      NothingLost log (blockLines el) e w := by
  obtain ⟨index, hcurve, hhead⟩ := hnames.index
  have hcols : blockColumns ld ≠ [] := by
    rintro hnil
    rw [hnil] at hhead
    exact absurd hhead (by simp)
  have hlog : log.mnemonics ≠ [] := by
    have hmem := hnames.curves index (List.mem_of_mem_head? hhead)
    exact List.ne_nil_of_mem hmem
  have hingest : ∃ n, (ingestLogData log el).2 = .ok n := by
    rw [MockStore.updateLog, hfind] at hok
    obtain ⟨n, hn, -⟩ := map_eq_ok.mp hok
    exact ⟨n, hn⟩
  obtain ⟨n, hn⟩ := hingest
  have hrew := rewritten_updatedLog hld hlog hcols hnames.distinct hn
  have hafter : (store.updateLog (some el)).1.findLog (elemKey el) = some (updatedLog el log) := by
    rw [MockStore.findLog_updateLog, hfind, Option.map_some, if_pos rfl]
  have hindex : ∀ w ∈ blockLines el, ∃ m, log.indexCurve = some m ∧ w.columns.head? = some m := by
    intro w hw
    rw [blockLines, hld] at hw
    obtain ⟨text, -, rfl⟩ := List.mem_map.mp hw
    exact ⟨index, hcurve, hhead⟩
  rw [hafter, ← keepsUnsent_iff hrew hindex]
  simp only [Option.some.injEq, exists_eq_left']

instance (log : StoredLog) (ld : LogDataElem) : Decidable (NamesSome log ld) :=
  decidable_of_iff ((log.indexCurve.isSome ∧ (blockColumns ld).head? = log.indexCurve) ∧
      (blockColumns ld).Nodup ∧ ∀ m ∈ blockColumns ld, m ∈ log.mnemonics) (by
    constructor
    · rintro ⟨⟨hsome, hhead⟩, hdistinct, hcurves⟩
      obtain ⟨m, hm⟩ := Option.isSome_iff_exists.mp hsome
      exact ⟨⟨m, hm, hhead.trans hm⟩, hdistinct, hcurves⟩
    · rintro ⟨⟨m, hm, hhead⟩, hdistinct, hcurves⟩
      exact ⟨⟨by rw [hm]; rfl, hhead.trans hm.symm⟩, hdistinct, hcurves⟩)

/-- A log with two rows, and its first row as it is stored. -/
def threeCurves : LogElem :=
  logElem "L" .measuredDepth .increasing ["DEPTH", "GR", "ROP"] ["10,1,2", "20,3,4"]

def firstOfThree : Entry :=
  (indexOf .measuredDepth "10", ⟨"10".toList, ["1".toList, "2".toList]⟩)

/-- An update that names two of the three curves. -/
def twoCurvesBlock : LogDataElem :=
  ⟨some "DEPTH,GR".toList, none, [some "10,5".toList]⟩

def twoCurves : LogElem :=
  { logElem "L" .measuredDepth .increasing [] [] with logData := some twoCurvesBlock }

theorem threeCurves_first : firstOfThree ∈ (Objects.createdLog threeCurves).rows.entries := by
  have hrows : (Objects.createdLog threeCurves).rows.entries = [firstOfThree,
      (indexOf .measuredDepth "20", ⟨"20".toList, ["3".toList, "4".toList]⟩)] := by decide +kernel
  rw [hrows]
  exact List.mem_cons_self

/-- The update takes the reading of the curve that it does not name.  It is the ordinary partial
update, of one curve at one depth. -/
theorem unnamed_curve_lost :
    (storeOf [threeCurves]).findLog (elemKey twoCurves) = some (Objects.createdLog threeCurves) ∧
    twoCurves.logData = some twoCurvesBlock ∧
    NamesSome (Objects.createdLog threeCurves) twoCurvesBlock ∧
    ((storeOf [threeCurves]).updateLog (some twoCurves)).2 = .ok (rcSuccess, none) ∧
    ¬∃ log', ((storeOf [threeCurves]).updateLog (some twoCurves)).1.findLog (elemKey twoCurves) =
      some log' ∧ KeepsUnsent (Objects.createdLog threeCurves) (blockLines twoCurves) log' := by
  refine ⟨rfl, rfl, by decide +kernel, by decide +kernel, ?_⟩
  rintro ⟨log', hafter, hkeeps⟩
  obtain ⟨row, hrow, -, hcells⟩ := hkeeps _ threeCurves_first
  have hlog : log' = updatedLog twoCurves (Objects.createdLog threeCurves) :=
    (Option.some.inj hafter).symm
  have hrows : (updatedLog twoCurves (Objects.createdLog threeCurves)).rows.entries =
      [(indexOf .measuredDepth "10", ⟨"10".toList, ["5".toList, "-999.25".toList]⟩),
        (indexOf .measuredDepth "20", ⟨"20".toList, ["3".toList, "4".toList]⟩)] := by decide +kernel
  have hheld := hcells 2 "ROP".toList (by decide)
  have hkept : (lastSent (Objects.createdLog threeCurves).indexType (blockLines twoCurves)
      firstOfThree.1 "ROP".toList).or (firstOfThree.2.cell? 2) = some "2".toList := by decide +kernel
  rw [hkept] at hheld
  rw [hlog, hrows] at hrow
  rcases List.mem_cons.mp hrow with heq | hrow
  · rw [(Prod.mk.inj heq).2] at hheld
    exact absurd hheld (by decide)
  · have heq := (Prod.mk.inj (List.mem_singleton.mp hrow)).1
    exact absurd heq (by decide +kernel)

theorem keeps_unsent_iff_twoCurves :
    (∃ log', ((storeOf [threeCurves]).updateLog (some twoCurves)).1.findLog (elemKey twoCurves) =
      some log' ∧ KeepsUnsent (Objects.createdLog threeCurves) (blockLines twoCurves) log') ↔
    ∀ e ∈ (Objects.createdLog threeCurves).rows.entries,
      ∀ w ∈ (sentFor (Objects.createdLog threeCurves).indexType (blockLines twoCurves) e.1).getLast?,
        NothingLost (Objects.createdLog threeCurves) (blockLines twoCurves) e w :=
  keeps_unsent_iff rfl rfl (by decide +kernel) (by decide +kernel)

/-! ## 4. Cells and their mnemonics

Columns are looked up by mnemonic on the way in, and cells stand in the order of the header on the
way out; so a cell should come back where it was written.  The first column is the exception, as
the stored row has the index token there. -/

/-- A header as it may be: distinct mnemonics in any order, one of them the index curve's. -/
structure FreeHeader (log : StoredLog) : Prop where
  distinct : log.mnemonics.Nodup
  nonempty : ∀ m ∈ log.mnemonics, m ≠ []
  index : ∃ m ∈ log.mnemonics, log.indexCurve = some m

/-- A block of data with the index curve first and the other curves in any order. -/
def LedByIndex (log : StoredLog) (el : LogElem) : Prop :=
  ∀ ld ∈ el.logData, (blockColumns ld).Perm log.mnemonics ∧
    (blockColumns ld).head? = log.indexCurve

/-- What fills a line that is too short has no comma in it. -/
def FillsPlainly (log : StoredLog) (ws : List WrittenLine) : Prop :=
  ∀ w ∈ ws, ∀ m ∈ log.mnemonics, w.cell m = none → ',' ∉ log.nullValue

/-- In every line of a response, the cell under each mnemonic is the one written for it, in the last
line for that index. -/
def StaysUnder (log : StoredLog) (ws : List WrittenLine) (els : List LogElem) : Prop :=
  ∀ el ∈ els, ∀ r ∈ blockLines el, ∀ i w, r.index log.indexType = some i →
    LastWritten log.indexType ws i w → ∀ m ∈ log.mnemonics, ∀ c, w.cell m = some c →
      r.cell m = some c

/-- The header begins with the index curve, or its first curve's cell is the index token in every line
that is the last for its index. -/
def FirstIsIndex (log : StoredLog) (ws : List WrittenLine) : Prop :=
  log.mnemonics.head? = log.indexCurve ∨ ∀ i w, LastWritten log.indexType ws i w →
    ∀ m ∈ log.mnemonics.head?, ∀ c, w.cell m = some c → c = w.token

section

variable {log : StoredLog} {ws : List WrittenLine} {w : WrittenLine}

/-- The last line for an index is one line. -/
theorem LastWritten.unique {t : IndexType} {i : Value} {w w' : WrittenLine}
    (h : LastWritten t ws i w) (h' : LastWritten t ws i w') : w = w' := by
  have hlast : ∀ v, LastWritten t ws i v →
      (ws.filter fun u => decide (u.index t = some i)).getLast? = some v := by
    rintro v ⟨before, after, rfl, hv, hafter⟩
    have hnone : after.filter (fun u => decide (u.index t = some i)) = [] :=
      List.filter_eq_nil_iff.mpr fun u hu => by simpa using hafter u hu
    rw [List.filter_append, List.filter_cons, if_pos (decide_eq_true hv), hnone]
    exact List.getLast?_concat
  exact Option.some.inj ((hlast w h).symm.trans (hlast w' h'))

/-- Looking a mnemonic up in a stored row: the first curve has the index token, any other the cell
of the line that wrote the row. -/
theorem get?_storedRow {first : Str} {rest : List Str} (hmnems : log.mnemonics = first :: rest)
    {m : Str} (hm : m ∈ log.mnemonics) :
    Dict.get? (log.mnemonics.zip ((w.storedRow log).token :: (w.storedRow log).cells)) m =
      some (if m = first then w.token else (w.cell m).getD log.nullValue) := by
  have hcells : (w.storedRow log).cells = rest.map fun m => (w.cell m).getD log.nullValue := by
    rw [WrittenLine.storedRow, hmnems, List.drop_one, List.tail_cons]
  rw [hcells, hmnems, List.zip_cons_cons, Dict.get?]
  by_cases heq : m = first
  · rw [heq, if_pos (beq_self_eq_true _), if_pos rfl]
    rfl
  · have hne : (first == m) = false := by simpa using fun h => heq h.symm
    rw [hne, if_neg (by decide), if_neg heq]
    rw [hmnems] at hm
    have hrest := (List.mem_cons.mp hm).resolve_left heq
    clear hm hcells hmnems
    induction rest with
    | nil => exact absurd hrest List.not_mem_nil
    | cons a rest ih =>
      rw [List.map_cons, List.zip_cons_cons, Dict.get?]
      by_cases ha : a = m
      · rw [ha, if_pos (beq_self_eq_true _)]
      · rw [if_neg (by simpa using ha)]
        exact ih ((List.mem_cons.mp hrest).resolve_left fun h => ha h.symm)

/-- A rendered row is read as a line: its cells are those that are stored. -/
theorem cells_line {e : Entry} (hok : RowOk log.indexType e.1 e.2)
    (hrow : e.2 = w.storedRow log) (hnull : strip log.nullValue = log.nullValue)
    (hfill : ∀ m ∈ log.mnemonics, w.cell m = none → ',' ∉ log.nullValue) :
    (⟨log.mnemonics, e.2.line⟩ : WrittenLine).cells = e.2.token :: e.2.cells := by
  have hcell : ∀ c ∈ e.2.cells, strip c = c ∧ ',' ∉ c := by
    intro c hc
    rw [hrow] at hc
    obtain ⟨m, hm, rfl⟩ := List.mem_map.mp hc
    cases hcell : w.cell m with
    | none => exact ⟨hnull, hfill m (List.mem_of_mem_drop hm) hcell⟩
    | some c => exact cell_plain hcell
  have hsplit : split ',' e.2.line = e.2.token :: e.2.cells := by
    refine split_join (by simp) fun c hc => ?_
    rcases List.mem_cons.mp hc with rfl | hc
    · exact hok.noComma
    · exact (hcell c hc).2
  rw [WrittenLine.cells, hsplit, List.map_cons, hok.trimmed]
  refine congrArg (e.2.token :: ·) ?_
  exact (List.map_congr_left fun c hc => (hcell c hc).1).trans (List.map_id' _)

/-- The lines of a response for the whole log. -/
theorem blockLines_table (hcols : log.table ≠ [] → log.columns = some log.mnemonics) :
    blockLines (log.pageElem log.table) = log.table.map fun e => ⟨log.mnemonics, e.2.line⟩ := by
  by_cases hpg : log.table = []
  · rw [hpg]
    rfl
  · have hdata : (log.pageElem log.table).logData = some ⟨some (join ',' log.mnemonics),
        some (join ',' (log.units.map fun u => u.getD [])),
        (log.table.map Prod.snd).map fun row => some row.line⟩ := by
      simp [StoredLog.pageElem, StoredLog.renderData, hpg]
    obtain ⟨mnemList, hlist, hmnems⟩ := Option.map_eq_some_iff.mp (hcols hpg)
    rw [blockLines, hdata]
    dsimp only
    rw [StoredLog.dataLines_of_page fun e he => StoredLog.mem_table.mp he, List.map_map]
    refine List.map_congr_left fun e _ => ?_
    rw [Function.comp_apply, blockColumns]
    dsimp only
    rw [hlist]
    exact congrArg (fun cols => (⟨cols, e.2.line⟩ : WrittenLine)) hmnems

/-- The null value of a header is trimmed. -/
theorem strip_nullValue (el : LogElem) :
    strip (logOfElem el).nullValue = (logOfElem el).nullValue := by
  have hvalue : (logOfElem el).nullValue = (childText el.nullValue).getD defaultNullValue := rfl
  rw [hvalue]
  cases h : childText el.nullValue with
  | none => decide
  | some s => exact (childText_eq_some h).1

/-- A column that some block has is named without a comma. -/
theorem noComma_of_perm {ld : LogDataElem} (h : (blockColumns ld).Perm log.mnemonics) :
    ∀ m ∈ log.mnemonics, ',' ∉ m := by
  intro m hm
  have hmem := h.symm.subset hm
  rw [blockColumns] at hmem
  split at hmem
  · exact absurd hmem List.not_mem_nil
  · obtain ⟨raw, hraw, rfl⟩ := List.mem_map.mp hmem
    exact fun hcomma => not_mem_of_mem_split hraw (mem_of_mem_strip hcomma)

/-- A written line has the columns of one of the blocks. -/
theorem exists_block {el : LogElem} {updates : List LogElem}
    (hnames : ∀ b ∈ el :: updates, LedByIndex log b) (hw : w ∈ writtenLines el updates) :
    ∃ ld, w.columns = blockColumns ld ∧ (blockColumns ld).Perm log.mnemonics ∧
      (blockColumns ld).head? = log.indexCurve := by
  obtain ⟨b, hb, hw⟩ := List.mem_flatMap.mp hw
  rw [blockLines] at hw
  cases hld : b.logData with
  | none =>
    rw [hld] at hw
    exact absurd hw List.not_mem_nil
  | some ld =>
    rw [hld] at hw
    obtain ⟨text, -, rfl⟩ := List.mem_map.mp hw
    exact ⟨ld, rfl, hnames b hb ld hld⟩

end

section Read

variable {el : LogElem} {updates : List LogElem} {log : StoredLog}
  (hst : Stored (logOfElem el) (writtenLines el updates) log)

include hst

/-- The response for the whole log has one line for each row, under the mnemonics of the header.
Nothing here depends on which curve is the index. -/
theorem Stored.blockLines_eq (hheader : FreeHeader (logOfElem el))
    (hnames : ∀ b ∈ el :: updates, LedByIndex (logOfElem el) b) :
    blockLines (log.pageElem log.table) = log.table.map fun e => ⟨log.mnemonics, e.2.line⟩ := by
  refine blockLines_table fun hne => ?_
  obtain ⟨e, he⟩ := List.exists_mem_of_ne_nil _ hne
  obtain ⟨-, w, hw, -⟩ := hst.entry e (StoredLog.mem_table.mp he)
  obtain ⟨ld, -, hperm, -⟩ := exists_block hnames hw.mem
  obtain ⟨index, hindex, -⟩ := hheader.index
  have hcomma := noComma_of_perm hperm
  have htrim := (trimmed_logOfElem el).mnemonics
  have hnonempty := hheader.nonempty
  have hnamed : (logOfElem el).mnemonics ≠ [] := List.ne_nil_of_mem hindex
  rw [← hst.sameHead.mnemonics] at hcomma htrim hnonempty hnamed
  exact columns_eq hnamed (fun m hm => ⟨hnonempty m hm, hcomma m hm⟩) htrim

/-- What such a line says: the first curve has the index token, any other the cell written for it. -/
theorem Stored.reads_line (hfill : FillsPlainly (logOfElem el) (writtenLines el updates)) {e : Entry}
    (he : e ∈ log.rows.entries) {w : WrittenLine}
    (hw : LastWritten (logOfElem el).indexType (writtenLines el updates) e.1 w) {first : Str}
    {rest : List Str} (hfirst : (logOfElem el).mnemonics = first :: rest) {m : Str}
    (hm : m ∈ (logOfElem el).mnemonics) :
    (⟨log.mnemonics, e.2.line⟩ : WrittenLine).cell m =
        some (if m = first then w.token else (w.cell m).getD (logOfElem el).nullValue) ∧
      (⟨log.mnemonics, e.2.line⟩ : WrittenLine).index (logOfElem el).indexType = some e.1 := by
  obtain ⟨-, w', hw', hrow⟩ := hst.entry e he
  obtain rfl := hw.unique hw'
  have hok : RowOk (logOfElem el).indexType e.1 e.2 :=
    hst.sameHead.indexType ▸ log.rows.rowOk e he
  have hcells := cells_line hok hrow (strip_nullValue el) (hfill w hw.mem)
  rw [← hst.sameHead.mnemonics] at hcells
  refine ⟨?_, ?_⟩
  · rw [WrittenLine.cell, hcells, hrow, hst.sameHead.mnemonics]
    exact get?_storedRow hfirst hm
  · have htoken : (⟨log.mnemonics, e.2.line⟩ : WrittenLine).token = e.2.token := by
      rw [WrittenLine.token, hcells]
      rfl
    rw [WrittenLine.index, htoken, hok.parsed]
    rfl

end Read

/-- **Cells come back under the mnemonics they were written for exactly when** the header begins
with the index curve, or its first curve happens to have the index token for a cell in every line
that counts.

A header may list its curves in any order, and `indexCurve` names the index.  The store takes the
name from the header for `indexCurve`, and the first position for the data.  Where the two differ,
the column of the first curve shows the index, the curve's own cells are in no response, and no one
is told. -/
theorem stays_under_its_mnemonic_iff {store : MockStore} {el : LogElem} {updates : List LogElem}
    {q : LogQuery} (hid : el.uid.getD [] ≠ []) (hfree : ∀ log ∈ store.logs, log.key ≠ elemKey el)
    (hsole : store.Sole (elemKey el)) (hheader : FreeHeader (logOfElem el))
    (hnames : ∀ b ∈ el :: updates, LedByIndex (logOfElem el) b)
    (haddr : ∀ u ∈ updates, elemKey u = elemKey el)
    (hread : ∀ w ∈ writtenLines el updates, ReadableToken (logOfElem el).indexType [] w)
    (hfill : FillsPlainly (logOfElem el) (writtenLines el updates)) (hq : AsksForAll el q) :
    (∃ els, (writeAll store el updates).queryLogs q = .ok (rcSuccess, els) ∧
      StaysUnder (logOfElem el) (writtenLines el updates) els) ↔
    FirstIsIndex (logOfElem el) (writtenLines el updates) := by
  obtain ⟨index, hindex, hcurve⟩ := hheader.index
  have hnamed : (logOfElem el).mnemonics ≠ [] := List.ne_nil_of_mem hindex
  have heach : ∀ b ∈ el :: updates, NamesEach (logOfElem el) b := fun b hb ld hld =>
    (hnames b hb ld hld).1
  obtain ⟨log, hfind, hsole', hst⟩ :=
    stored_writeAll hid hfree hsole hnamed hheader.distinct heach haddr hread
  have ho : log.Orderable := fun e he => (hst.entry e he).1
  have hquery := MockStore.queryLogs_all hfind hsole' ho hq
  have hlines := hst.blockLines_eq hheader hnames
  obtain ⟨first, rest, hfirst⟩ := List.exists_cons_of_ne_nil hnamed
  have hhead : (logOfElem el).mnemonics.head? = some first := by rw [hfirst]; rfl
  have hfirstmem : first ∈ (logOfElem el).mnemonics := by rw [hfirst]; exact List.mem_cons_self
  constructor
  · rintro ⟨els, hels, hstays⟩
    obtain rfl : [log.pageElem log.table] = els :=
      (Prod.mk.inj (Except.ok.inj (hquery.symm.trans hels))).2
    refine Or.inr fun i w hw m hm c hc => ?_
    rw [hhead] at hm
    obtain rfl : first = m := Option.some.inj hm
    obtain ⟨e, he, rfl⟩ := hst.covered w hw.mem i hw.index_eq
    obtain ⟨hread, hidx⟩ := hst.reads_line hfill he hw hfirst hfirstmem
    have hline : (⟨log.mnemonics, e.2.line⟩ : WrittenLine) ∈ blockLines (log.pageElem log.table) := by
      rw [hlines]
      exact List.mem_map_of_mem (StoredLog.mem_table.mpr he)
    have hkept := hstays _ (List.mem_singleton_self _) _ hline e.1 w hidx hw first hfirstmem c hc
    rw [hread, if_pos rfl] at hkept
    exact (Option.some.inj hkept).symm
  · intro hcond
    refine ⟨_, hquery, ?_⟩
    intro elem helem r hr i w hi hw m hm c hc
    rw [List.mem_singleton.mp helem, hlines] at hr
    obtain ⟨e, he, rfl⟩ := List.mem_map.mp hr
    have he := StoredLog.mem_table.mp he
    obtain ⟨-, w', hw', -⟩ := hst.entry e he
    have hidx := (hst.reads_line hfill he hw' hfirst hm).2
    obtain rfl : e.1 = i := Option.some.inj (hidx.symm.trans hi)
    rw [(hst.reads_line hfill he hw hfirst hm).1]
    by_cases heq : m = first
    · subst heq
      rw [if_pos rfl]
      rcases hcond with hindex | htoken
      · -- the first column of the block is this curve
        obtain ⟨ld, hcols, -, hlead⟩ := exists_block hnames hw.mem
        have hself := cell_head (w := w) (m := m) (by rw [hcols, hlead, ← hindex, hhead])
        rw [← hself, hc]
      · rw [htoken _ w hw m hhead c hc]
    · rw [if_neg heq, hc]
      rfl

instance (log : StoredLog) (el : LogElem) : Decidable (LedByIndex log el) :=
  inferInstanceAs (Decidable (∀ ld ∈ el.logData, (blockColumns ld).Perm log.mnemonics ∧
    (blockColumns ld).head? = log.indexCurve))

/-- A header that names its index curve second, and one row. -/
def indexSecond : LogElem :=
  { logElem "L" .measuredDepth .increasing ["GR", "DEPTH"] [] with
    indexCurve := some "DEPTH".toList
    logData := some ⟨some "DEPTH,GR".toList, none, [some "10,5".toList]⟩ }

/-- Its header is as free as it may be. -/
theorem indexSecond_header : FreeHeader (logOfElem indexSecond) :=
  ⟨by decide, by decide, "DEPTH".toList, by decide, rfl⟩

/-- Its row comes back with the index under both mnemonics. -/
theorem index_under_both : FreeHeader (logOfElem indexSecond) ∧
    LedByIndex (logOfElem indexSecond) indexSecond ∧
    (∃ els, (writeAll (storeOf []) indexSecond []).queryLogs (queryAll "L") = .ok (rcSuccess, els) ∧
      els.flatMap blockLines = [⟨["GR".toList, "DEPTH".toList], "10,10".toList⟩]) ∧
    ¬∃ els, (writeAll (storeOf []) indexSecond []).queryLogs (queryAll "L") = .ok (rcSuccess, els) ∧
      StaysUnder (logOfElem indexSecond) (writtenLines indexSecond []) els := by
  have hrun : ∃ els, (writeAll (storeOf []) indexSecond []).queryLogs (queryAll "L") =
      .ok (rcSuccess, els) ∧
        els.flatMap blockLines = [⟨["GR".toList, "DEPTH".toList], "10,10".toList⟩] := ⟨_, rfl, rfl⟩
  refine ⟨indexSecond_header, by decide, hrun, ?_⟩
  rintro ⟨els, hels, hstays⟩
  obtain ⟨els', hels', hlines⟩ := hrun
  obtain rfl := (Prod.mk.inj (Except.ok.inj (hels.symm.trans hels'))).2
  obtain ⟨el, hel, hline⟩ := List.mem_flatMap.mp (hlines ▸ List.mem_singleton_self _)
  have hkept := hstays el hel _ hline (indexOf .measuredDepth "10") ⟨["DEPTH".toList, "GR".toList],
    "10,5".toList⟩ (by decide +kernel) ⟨[], [], rfl, by decide +kernel, by simp⟩ "GR".toList (by decide)
    "5".toList (by decide)
  exact absurd hkept (by decide)

theorem stays_under_its_mnemonic_iff_indexSecond :
    (∃ els, (writeAll (storeOf []) indexSecond []).queryLogs (queryAll "L") = .ok (rcSuccess, els) ∧
      StaysUnder (logOfElem indexSecond) (writtenLines indexSecond []) els) ↔
    FirstIsIndex (logOfElem indexSecond) (writtenLines indexSecond []) :=
  stays_under_its_mnemonic_iff (by decide) (by decide) (by decide) indexSecond_header (by decide)
    (by decide) (by decide +kernel) (fun _ _ _ _ _ => by decide)
    ⟨rfl, rfl, rfl, rfl, rfl, rfl, rfl, rfl⟩

end WitsmlViewer

/-
# Log data, written and read back

`AddToStore` creates a log, with rows if it ships any, and `UpdateInStore` writes more of them,
each block with its columns in an order of its own.  The store arranges a row's cells in the order
of the log's curves and keys it by its index; GetFromStore renders the rows, and `parse_log_data`
decodes them.

`log_data_round_trip`: what is read back is, for each index, the last line written for it, decoded
curve by curve, in the log's direction.  A log without rows is rendered without `<logData>`, and
then nothing is read back.

Both sides split lines at commas and strip the cells, so most of the way is a matter of showing
that what one side joins the other splits again.  Three things have to be kept in view on the way.
Two tokens may stand for one index, and the later one is then the row's.  A short line leaves its
last columns to the null value, which decodes to nothing on the other side.  And the two sides
decide independently what an index is: the store when it keys the row, the client when it reads the
token back.

An index written as a null value is not claimed to come back, nor is `nan`.  The store has rows for
both; what the client makes of them depends on where they stand in the order.
-/
import WitsmlViewer.Growth
import WitsmlViewer.Objects

namespace WitsmlViewer

open Py
open MockStore (logOfElem elemKey updatedLog)

/-! ## 1. What is written

A block names its columns; a line is a text below them.  The two are kept together, so that a cell
can be looked up under a mnemonic whatever block the line was in, and the lines of a whole history
can be put into one list. -/

/-- A `<data>` line, with the mnemonics of its block's columns. -/
structure WrittenLine where
  columns : List Str
  text : Str

namespace WrittenLine

variable (w : WrittenLine)

/-- The cells, split and stripped as both sides do it. -/
def cells : List Str := (split ',' w.text).map strip

/-- The cell that stands for the index. -/
def token : Str := w.cells.headD []

/-- The index that the line is for, if it has one. -/
def index (t : IndexType) : Option Value := (parseIndex (some w.token) t).toOption.join

/-- The line's cell for a curve; a short line has none for its last columns. -/
def cell (m : Str) : Option Str := Dict.get? (w.columns.zip w.cells) m

end WrittenLine

/-- The mnemonics of a block's columns. -/
def blockColumns (ld : LogDataElem) : List Str :=
  match childText ld.mnemonicList with
  | none => []
  | some mnemList => (split ',' mnemList).map strip

/-- The lines of an element's `<logData>`, if it has any. -/
def blockLines (el : LogElem) : List WrittenLine :=
  match el.logData with
  | none => []
  | some ld => (dataLines ld).map fun text => ⟨blockColumns ld, text⟩

/-- All that a creation and the updates after it write. -/
def writtenLines (el : LogElem) (updates : List LogElem) : List WrittenLine :=
  (el :: updates).flatMap blockLines

/-- The store after a creation and the updates. -/
def writeAll (store : MockStore) (el : LogElem) (updates : List LogElem) : MockStore :=
  updates.foldl (fun store u => (store.updateLog (some u)).1) (store.addLog (some el)).1

/-- The last line written for an index. -/
def LastWritten (t : IndexType) (ws : List WrittenLine) (i : Value) (w : WrittenLine) : Prop :=
  ∃ before after, ws = before ++ w :: after ∧ w.index t = some i ∧
    ∀ w' ∈ after, w'.index t ≠ some i

/-! ## 2. What should be read back

`ReadsBack` is the specification, and has no parser in it but that of one cell.  It is a statement
for each index of the history, not for each line: of the lines for one index the last counts. -/

/-- A header whose curves have distinct names, neither blank nor with a comma in them. -/
structure PlainHeader (log : StoredLog) : Prop where
  named : log.mnemonics ≠ []
  distinct : log.mnemonics.Nodup
  mnemonics : ∀ m ∈ log.mnemonics, m ≠ [] ∧ ',' ∉ m
  units : ∀ u ∈ log.units, ',' ∉ u.getD []
  nullValue : ',' ∉ log.nullValue

/-- A block has a column for each curve, the index first and the others in any order. -/
def NamesAll (log : StoredLog) (el : LogElem) : Prop :=
  ∀ ld ∈ el.logData, (blockColumns ld).Perm log.mnemonics ∧
    (blockColumns ld).head? = log.mnemonics.head?

/-- A block has a column for each curve, in any order. -/
def NamesEach (log : StoredLog) (el : LogElem) : Prop :=
  ∀ ld ∈ el.logData, (blockColumns ld).Perm log.mnemonics

/-- What stands for the index is none, or an index other than `nan` that is not written as a null;
its UTC reading lies in the years 1 to 9999. -/
def ReadableToken (t : IndexType) (nulls : List Str) (w : WrittenLine) : Prop :=
  ∃ i, parseIndex (some w.token) t = .ok i ∧ ∀ v, i = some v → v ≠ .num .nan ∧ w.token ∉ nulls

/-- A data-only query for the whole of the log that an element creates. -/
structure AsksForAll (el : LogElem) (q : LogQuery) : Prop where
  uid : q.uid = el.uid.getD []
  uidWell : q.uidWell = el.uidWell.getD []
  uidWellbore : q.uidWellbore = el.uidWellbore.getD []
  startDateTimeIndex : q.startDateTimeIndex = none
  endDateTimeIndex : q.endDateTimeIndex = none
  startIndex : q.startIndex = none
  endIndex : q.endIndex = none
  options : q.options = { returnElements := .dataOnly }

/-- A block reads what was written: the header's columns, and in the log's direction one row for each
index, which decodes the last line written for it. -/
structure ReadsBack (log : StoredLog) (nulls : List Str) (ws : List WrittenLine)
    (b : LogDataBlock) : Prop where
  mnemonics : b.mnemonics = log.mnemonics
  units : b.units = log.units
  ordered : b.rows.Pairwise fun r r' => r.key log.direction < r'.key log.direction
  complete : ∀ w ∈ ws, ∀ i, w.index log.indexType = some i → ∃ r ∈ b.rows, r.index = some i
  last : ∀ r ∈ b.rows, ∃ i w, r.index = some i ∧ LastWritten log.indexType ws i w ∧
    r.cells = (log.mnemonics.drop 1).map fun m => (w.cell m).bind (decodeReading nulls)

/-! ## 3. Writing

Line by line.  A line without an index is skipped, one with an index writes the row of that index,
and the invariant `Stored` says of the log after some lines what the lines have left in it. -/

/-- The row that a line is stored as: its cells in the order of the log's curves, and the null value
for those that it lacks. -/
def WrittenLine.storedRow (w : WrittenLine) (log : StoredLog) : StoredRow where
  token := w.token
  cells := (log.mnemonics.drop 1).map fun m => (w.cell m).getD log.nullValue

section Writing

variable {log : StoredLog} {w : WrittenLine}

/-- A line has a first cell, if only an empty one. -/
theorem WrittenLine.cells_eq (w : WrittenLine) : ∃ rest, w.cells = w.token :: rest := by
  have hne : w.cells ≠ [] := by
    rw [WrittenLine.cells, Ne, List.map_eq_nil_iff]
    exact split_ne_nil ',' w.text
  obtain ⟨c, rest, hcells⟩ := List.exists_cons_of_ne_nil hne
  exact ⟨rest, by rw [WrittenLine.token, hcells]; rfl⟩

/-- Zipping may stop short of the first list's end, but goes in its order. -/
theorem fst_zip_prefixed {α β : Type} : ∀ (l : List α) (l' : List β),
    (l.zip l').map Prod.fst <+: l
  | [], _ => by simp
  | _ :: _, [] => by simp
  | a :: l, b :: l' => by simpa using fst_zip_prefixed l l'

theorem incomingRow_of_none (h : parseIndex (some w.token) log.indexType = .ok none) :
    incomingRow log w.columns w.text = .ok none := by
  obtain ⟨rest, hcells⟩ := w.cells_eq
  rw [WrittenLine.cells] at hcells
  unfold incomingRow
  split
  · rfl
  · rename_i token cells heq
    obtain ⟨rfl, rfl⟩ := List.cons.inj (hcells.symm.trans heq)
    split
    · rename_i hparse
      exact absurd (h.symm.trans hparse) (by simp)
    · rfl
    · rename_i hparse
      exact absurd (h.symm.trans hparse) (by simp)

/-- A line with an index makes a row of the log's curves.  The cells are looked up by mnemonic, so
the order of the block's columns is gone from here on. -/
theorem incomingRow_of_some {i : Value} (hlog : log.mnemonics ≠ []) (hcols : w.columns.Nodup)
    (h : parseIndex (some w.token) log.indexType = .ok (some i)) :
    ∃ r, incomingRow log w.columns w.text = .ok (some r) ∧ r.key = i ∧ r.row = w.storedRow log := by
  obtain ⟨rest, hcells⟩ := w.cells_eq
  unfold incomingRow
  split
  · rename_i hnil
    rw [WrittenLine.cells, hnil] at hcells
    exact absurd hcells (by simp)
  · rename_i token cells heq
    rw [WrittenLine.cells] at hcells
    obtain ⟨rfl, rfl⟩ := List.cons.inj (hcells.symm.trans heq)
    split
    · rename_i hparse
      exact absurd (h.symm.trans hparse) (by simp)
    · rename_i hparse
      exact absurd (h.symm.trans hparse) (by simp)
    · rename_i idx hparse
      refine ⟨_, rfl, ?_, ?_⟩
      · exact (Option.some.inj (Except.ok.inj (h.symm.trans hparse))).symm
      · have hzip : ((w.columns.zip w.cells).map Prod.fst).Nodup :=
          (fst_zip_prefixed w.columns w.cells).sublist.nodup hcols
        have hget : ∀ m, Dict.get? ((w.columns.zip w.cells).foldl
            (fun d e => Dict.set d e.1 e.2) ([] : Dict Str Str)) m = w.cell m := by
          intro m
          rw [Dict.get?_foldl_set hzip, WrittenLine.cell]
          exact Option.or_none
        simp only [WrittenLine.storedRow, if_neg hlog, StoredRow.mk.injEq, true_and]
        refine List.map_congr_left fun m _ => ?_
        rw [← hget m, WrittenLine.cells, heq]

end Writing

/-! What the log holds after some lines. -/

/-- Each row is what the last line for its index is stored as, and no index is lost. -/
structure Stored (created : StoredLog) (ws : List WrittenLine) (log : StoredLog) : Prop where
  sameHead : SameHead created log
  entry : ∀ e ∈ log.rows.entries, e.1 ≠ .num .nan ∧ ∃ w,
    LastWritten created.indexType ws e.1 w ∧ e.2 = w.storedRow created
  covered : ∀ w ∈ ws, ∀ i, w.index created.indexType = some i → ∃ e ∈ log.rows.entries, e.1 = i

section Store

variable {created log : StoredLog} {ws : List WrittenLine} {w : WrittenLine}

theorem LastWritten.mem {t : IndexType} {i : Value} (h : LastWritten t ws i w) : w ∈ ws := by
  obtain ⟨before, after, rfl, -, -⟩ := h
  simp

theorem LastWritten.index_eq {t : IndexType} {i : Value} (h : LastWritten t ws i w) :
    w.index t = some i := by
  obtain ⟨-, -, -, hi, -⟩ := h
  exact hi

/-- A later line for another index, or none, leaves the last one what it is. -/
theorem LastWritten.snoc {t : IndexType} {i : Value} {v : WrittenLine}
    (h : LastWritten t ws i v) (hne : w.index t ≠ some i) : LastWritten t (ws ++ [w]) i v := by
  obtain ⟨before, after, rfl, hindex, hafter⟩ := h
  refine ⟨before, after ++ [w], by simp, hindex, fun w' hw' => ?_⟩
  rcases List.mem_append.mp hw' with hw' | hw'
  · exact hafter w' hw'
  · rw [List.mem_singleton.mp hw']
    exact hne

/-- A line that is for no index changes nothing. -/
theorem Stored.skip (h : Stored created ws log) (hw : w.index created.indexType = none) :
    Stored created (ws ++ [w]) log := by
  refine ⟨h.sameHead, fun e he => ?_, fun w' hw' i hi => ?_⟩
  · obtain ⟨hnan, v, hlast, hrow⟩ := h.entry e he
    exact ⟨hnan, v, hlast.snoc (by simp [hw]), hrow⟩
  · rcases List.mem_append.mp hw' with hw' | hw'
    · exact h.covered w' hw' i hi
    · rw [List.mem_singleton.mp hw', hw] at hi
      exact absurd hi (by simp)

/-- A line for an index makes or replaces the row of that index, and no other.  An index other than
`nan` equals itself, so the dictionary finds the row that there is. -/
theorem Stored.write (h : Stored created ws log) {r : KeyedRow log.indexType}
    (hw : w.index created.indexType = some r.key) (hnan : r.key ≠ .num .nan)
    (hrow : r.row = w.storedRow created) : Stored created (ws ++ [w]) (log.insert r) := by
  refine ⟨⟨h.sameHead.1, h.sameHead.2, h.sameHead.3, h.sameHead.4, h.sameHead.5⟩, ?_, ?_⟩
  · intro e he
    rcases Dict.mem_of_mem_set Value.eq_of_beq log.rows.distinct he with rfl | ⟨he, hne⟩
    · exact ⟨hnan, w, ⟨ws, [], by simp, hw, by simp⟩, hrow⟩
    · obtain ⟨henan, v, hlast, hv⟩ := h.entry e he
      refine ⟨henan, v, hlast.snoc fun heq => ?_, hv⟩
      rw [hw, Option.some.injEq] at heq
      rw [← heq, Value.beq_self hnan] at hne
      exact absurd hne (by simp)
  · intro w' hw' i hi
    have hself : (r.key, r.row) ∈ (log.insert r).rows.entries :=
      Dict.mem_set_self Value.eq_of_beq _ _ _
    rcases List.mem_append.mp hw' with hw' | hw'
    · obtain ⟨e, he, rfl⟩ := h.covered w' hw' i hi
      by_cases heq : (e.1 == r.key) = true
      · exact ⟨_, hself, (Value.eq_of_beq _ _ heq).symm⟩
      · exact ⟨e, Dict.mem_set_of_ne he (by simpa using heq), rfl⟩
    · rw [List.mem_singleton.mp hw', hw, Option.some.injEq] at hi
      exact ⟨_, hself, hi⟩

/-- **Ingestion stores every line it is given.**  The induction is on the lines from the left;
`Stored.skip` and `Stored.write` are its two steps. -/
theorem Stored.ingestLines {incoming : List Str} {nulls : List Str} (hlog : created.mnemonics ≠ [])
    (hinc : incoming.Nodup) : ∀ {texts : List Str} {ws : List WrittenLine} {log : StoredLog},
      Stored created ws log →
      (∀ text ∈ texts, ReadableToken created.indexType nulls ⟨incoming, text⟩) →
      Stored created (ws ++ texts.map fun text => ⟨incoming, text⟩)
        (ingestLines incoming texts log).1
  | [], ws, log, h, _ => by simpa [WitsmlViewer.ingestLines] using h
  | text :: texts, ws, log, h, hread => by
    have hrest : ∀ text ∈ texts, ReadableToken created.indexType nulls ⟨incoming, text⟩ :=
      fun x hx => hread x (List.mem_cons_of_mem _ hx)
    have happend : ws ++ (text :: texts).map (fun text => (⟨incoming, text⟩ : WrittenLine)) =
        (ws ++ [⟨incoming, text⟩]) ++ texts.map fun text => ⟨incoming, text⟩ := by simp
    obtain ⟨i, hparse, hi⟩ := hread text List.mem_cons_self
    have hindex : (⟨incoming, text⟩ : WrittenLine).index created.indexType = i := by
      rw [WrittenLine.index, hparse]
      rfl
    rw [← h.sameHead.indexType] at hparse
    rw [happend, WitsmlViewer.ingestLines]
    cases i with
    | none =>
      have hnone := incomingRow_of_none hparse
      dsimp only at hnone
      rw [hnone]
      exact (h.skip hindex).ingestLines hlog hinc hrest
    | some i =>
      have hmnem : log.mnemonics = created.mnemonics := by
        rw [StoredLog.mnemonics, h.sameHead.curves, StoredLog.mnemonics]
      obtain ⟨r, hr, hkey, hrow⟩ := incomingRow_of_some (by rwa [hmnem]) hinc hparse
      dsimp only at hr
      rw [hr]
      rw [← hkey] at hindex
      refine (h.write hindex ?_ ?_).ingestLines hlog hinc hrest
      · rw [hkey]
        exact (hi i rfl).1
      · rw [hrow, WrittenLine.storedRow, WrittenLine.storedRow, hmnem, h.sameHead.nullValue]

theorem Stored.ingestLogData {el : LogElem} {nulls : List Str} (hnamed : created.mnemonics ≠ [])
    (hdistinct : created.mnemonics.Nodup) (hnames : NamesEach created el)
    (hread : ∀ w ∈ blockLines el, ReadableToken created.indexType nulls w)
    (h : Stored created ws log) :
    Stored created (ws ++ blockLines el) (ingestLogData log el).1 := by
  rw [WitsmlViewer.ingestLogData]
  rw [blockLines] at hread ⊢
  cases hld : el.logData with
  | none => simpa using h
  | some ld =>
    rw [hld] at hread
    have hperm := hnames ld hld
    have hne : blockColumns ld ≠ [] := fun hnil => hnamed (by
      rw [hnil] at hperm
      exact hperm.symm.eq_nil)
    have hinc : incomingMnemonics log ld = blockColumns ld := by
      rw [blockColumns] at hne ⊢
      rw [incomingMnemonics]
      cases hmnem : childText ld.mnemonicList with
      | none =>
        rw [hmnem] at hne
        exact absurd rfl hne
      | some mnemList => rfl
    dsimp only
    rw [hinc, if_neg hne]
    have hlines : ∀ text ∈ dataLines ld,
        ReadableToken created.indexType nulls ⟨blockColumns ld, text⟩ := fun text htext =>
      hread _ (List.mem_map_of_mem htext)
    exact h.ingestLines hnamed (hperm.symm.nodup hdistinct) hlines

/-- Rows are stored by an update as by a creation; it only sets `objectGrowing` besides. -/
theorem Stored.updatedLog {el : LogElem} {nulls : List Str} (hnamed : created.mnemonics ≠ [])
    (hdistinct : created.mnemonics.Nodup) (hnames : NamesEach created el)
    (hread : ∀ w ∈ blockLines el, ReadableToken created.indexType nulls w)
    (h : Stored created ws log) : Stored created (ws ++ blockLines el) (updatedLog el log) := by
  obtain ⟨-, hentry, hcovered⟩ := h.ingestLogData hnamed hdistinct hnames hread
  have hrows := (updatedLog_rows log el).2
  rw [← hrows] at hentry hcovered
  exact ⟨h.sameHead.trans (updatedLog_sameHead log el), hentry, hcovered⟩

end Store

/-! The store that holds the log. -/

section Stores

variable {store : MockStore} {el : LogElem} {nulls : List Str}

theorem stored_created (hnamed : (logOfElem el).mnemonics ≠ [])
    (hdistinct : (logOfElem el).mnemonics.Nodup) (hnames : NamesEach (logOfElem el) el)
    (hread : ∀ w ∈ blockLines el, ReadableToken (logOfElem el).indexType nulls w) :
    Stored (logOfElem el) (blockLines el) (Objects.createdLog el) := by
  have hempty : Stored (logOfElem el) [] (logOfElem el) := by
    refine ⟨SameHead.refl _, fun e he => ?_, by simp⟩
    exact absurd he List.not_mem_nil
  have hfull := hempty.ingestLogData hnamed hdistinct hnames hread
  rwa [List.nil_append] at hfull

/-- Lines that can be read raise nothing on the way in. -/
theorem instantsInRange_of_readable
    (hread : ∀ w ∈ blockLines el, ReadableToken (logOfElem el).indexType nulls w) :
    InstantsInRange el := by
  intro ld hld _ text htext token htoken
  have hmem : (⟨blockColumns ld, text⟩ : WrittenLine) ∈ blockLines el := by
    rw [blockLines, Option.mem_def.mp hld]
    exact List.mem_map_of_mem htext
  obtain ⟨i, hparse, -⟩ := hread _ hmem
  have htok : (⟨blockColumns ld, text⟩ : WrittenLine).token = token := by
    rw [WrittenLine.token, WrittenLine.cells, List.headD_eq_head?_getD, Option.mem_def.mp htoken]
    rfl
  rw [htok] at hparse
  rw [hparse]
  rfl

/-- A log that has been added is found under its key. -/
theorem findLog_addLog_of_free (hid : el.uid.getD [] ≠ [])
    (hfree : ∀ log ∈ store.logs, log.key ≠ elemKey el) (hrange : InstantsInRange el) :
    (store.addLog (some el)).1.findLog (elemKey el) = some (Objects.createdLog el) := by
  obtain ⟨hkeys, hadd⟩ := addLog_of_free hid (fun ⟨log, hlog, hkey⟩ => hfree log hlog hkey) hrange
  rw [hadd, ← Objects.createdLog_key el]
  exact MockStore.findLog_of_mem (by simp)

theorem sole_addLog {log : StoredLog} {key : Str × Str × Str} {hdistinct}
    (hsole : store.Sole key) (hlog : log.key = key) :
    ({ store with logs := store.logs ++ [log], logsDistinct := hdistinct } : MockStore).Sole key := by
  intro log' hlog' huid hwell hwellbore
  rcases List.mem_append.mp hlog' with hlog' | hlog'
  · exact hsole log' hlog' huid hwell hwellbore
  · rw [List.mem_singleton.mp hlog', hlog]

/-- What the updates do to the log that they address. -/
theorem stored_updates {created : StoredLog} {key : Str × Str × Str}
    (hnamed : created.mnemonics ≠ []) (hdistinct : created.mnemonics.Nodup) :
    ∀ {updates : List LogElem} {store : MockStore} {log : StoredLog} {ws : List WrittenLine},
      store.findLog key = some log → store.Sole key → Stored created ws log →
      (∀ u ∈ updates, elemKey u = key ∧ NamesEach created u ∧
        ∀ w ∈ blockLines u, ReadableToken created.indexType nulls w) →
      ∃ log', (updates.foldl (fun store u => (store.updateLog (some u)).1) store).findLog key =
          some log' ∧
        (updates.foldl (fun store u => (store.updateLog (some u)).1) store).Sole key ∧
        Stored created (ws ++ updates.flatMap blockLines) log'
  | [], store, log, ws, hfind, hsole, hst, _ => ⟨log, hfind, hsole, by simpa using hst⟩
  | u :: updates, store, log, ws, hfind, hsole, hst, hups => by
    obtain ⟨hkey, hnames, hread⟩ := hups u List.mem_cons_self
    have hfind' : (store.updateLog (some u)).1.findLog key = some (updatedLog u log) := by
      rw [MockStore.findLog_updateLog, hfind, Option.map_some, if_pos hkey.symm]
    rw [List.flatMap_cons, ← List.append_assoc]
    exact stored_updates hnamed hdistinct hfind' (hsole.update u)
      (hst.updatedLog hnamed hdistinct hnames hread) fun v hv => hups v (List.mem_cons_of_mem _ hv)

/-- **The store holds what the creation and the updates have written.**  The updates address the
log by its key, and so change it and no other. -/
theorem stored_writeAll {updates : List LogElem} (hid : el.uid.getD [] ≠ [])
    (hfree : ∀ log ∈ store.logs, log.key ≠ elemKey el) (hsole : store.Sole (elemKey el))
    (hnamed : (logOfElem el).mnemonics ≠ []) (hdistinct : (logOfElem el).mnemonics.Nodup)
    (hnames : ∀ b ∈ el :: updates, NamesEach (logOfElem el) b)
    (haddr : ∀ u ∈ updates, elemKey u = elemKey el)
    (hread : ∀ w ∈ writtenLines el updates, ReadableToken (logOfElem el).indexType nulls w) :
    ∃ log, (writeAll store el updates).findLog (elemKey el) = some log ∧
      (writeAll store el updates).Sole (elemKey el) ∧
      Stored (logOfElem el) (writtenLines el updates) log := by
  have hblock : ∀ b ∈ el :: updates, ∀ w ∈ blockLines b,
      ReadableToken (logOfElem el).indexType nulls w := fun b hb w hw =>
    hread w (List.mem_flatMap.mpr ⟨b, hb, hw⟩)
  have hfirst := hblock el List.mem_cons_self
  obtain ⟨hkeys, hadd⟩ := addLog_of_free hid
    (fun ⟨log, hlog, hkey⟩ => hfree log hlog hkey) (instantsInRange_of_readable hfirst)
  have hfind := findLog_addLog_of_free hid hfree (instantsInRange_of_readable hfirst)
  have hsole' : (store.addLog (some el)).1.Sole (elemKey el) := by
    rw [hadd]
    exact sole_addLog hsole (Objects.createdLog_key el)
  have hcreated := stored_created hnamed hdistinct (hnames el List.mem_cons_self) hfirst
  have hups : ∀ u ∈ updates, elemKey u = elemKey el ∧ NamesEach (logOfElem el) u ∧
      ∀ w ∈ blockLines u, ReadableToken (logOfElem el).indexType nulls w := fun u hu =>
    ⟨haddr u hu, hnames u (List.mem_cons_of_mem _ hu), hblock u (List.mem_cons_of_mem _ hu)⟩
  rw [writeAll, writtenLines, List.flatMap_cons]
  exact stored_updates hnamed hdistinct hfind hsole' hcreated hups

end Stores

/-! ## 4. Reading

The way back.  Rendering joins the row's cells with commas and lists the mnemonics; the client
splits the list, looks for the index curve and decodes each line against the columns it has found.
-/

/-- What a stored row is read as. -/
def readRow (nulls : List Str) (e : Entry) : Row where
  index := some e.1
  cells := e.2.cells.map (decodeReading nulls)

/-- What a reader takes from an element is trimmed and not blank. -/
theorem childText_eq_some {raw : Option Str} {s : Str} (h : childText raw = some s) :
    strip s = s ∧ s ≠ [] := by
  obtain ⟨r, -, hr⟩ := Option.bind_eq_some_iff.mp h
  split at hr
  · exact absurd hr (by simp)
  · rename_i hne
    obtain rfl := Option.some.inj hr
    exact ⟨strip_strip r, hne⟩

/-- What is trimmed and not blank is taken as it is. -/
theorem childText_of_trimmed {s : Str} (h : strip s = s) (hne : s ≠ []) :
    childText (some s) = some s := by
  simp [childText, h, hne]

section Reading

variable {log : StoredLog} {nulls : List Str}

/-- The texts of a header are trimmed. -/
structure TrimmedHeader (log : StoredLog) : Prop where
  mnemonics : ∀ m ∈ log.mnemonics, strip m = m
  units : ∀ u ∈ log.units, ∀ s, u = some s → strip s = s ∧ s ≠ []

/-- A log that the store has made has such a header. -/
theorem trimmed_logOfElem (el : LogElem) : TrimmedHeader (logOfElem el) := by
  constructor
  · intro m hm
    obtain ⟨c, hc, rfl⟩ := List.mem_map.mp hm
    obtain ⟨lci, -, rfl⟩ := List.mem_map.mp hc
    cases htext : childText lci.mnemonic with
    | none => simp [strip]
    | some s => simpa [htext] using (childText_eq_some htext).1
  · intro u hu s hs
    obtain ⟨c, hc, rfl⟩ := List.mem_map.mp hu
    obtain ⟨lci, -, rfl⟩ := List.mem_map.mp hc
    exact childText_eq_some hs

/-- The mnemonic list is read as the header's mnemonics.  The index curve is the first of them,
which is what `PlainHeader` has been assumed for. -/
theorem columns_eq (hnamed : log.mnemonics ≠ [])
    (hplain : ∀ m ∈ log.mnemonics, m ≠ [] ∧ ',' ∉ m) (htrim : ∀ m ∈ log.mnemonics, strip m = m) :
    log.columns = some log.mnemonics := by
  have hjoin : strip (join ',' log.mnemonics) = join ',' log.mnemonics :=
    strip_join (by decide) htrim
  have hsplit : split ',' (join ',' log.mnemonics) = log.mnemonics :=
    split_join hnamed fun m hm => (hplain m hm).2
  have hne : join ',' log.mnemonics ≠ [] := by
    intro hnil
    rw [hnil] at hsplit
    have hblank : ([] : Str) ∈ log.mnemonics := by rw [← hsplit]; simp [split]
    exact (hplain [] hblank).1 rfl
  rw [StoredLog.columns, childText_of_trimmed hjoin hne, Option.map_some, hsplit]
  rw [List.map_congr_left htrim, List.map_id']

/-- The unit list is read as the header's units. -/
theorem columnUnits_eq (hplain : PlainHeader log) (htrim : TrimmedHeader log) :
    log.columnUnits log.mnemonics = log.units := by
  have hlen : log.units.length = log.mnemonics.length := by
    rw [StoredLog.units, StoredLog.mnemonics, List.length_map, List.length_map]
  have hunits : log.units ≠ [] := fun hnil => hplain.named (by
    rw [hnil, List.length_nil] at hlen
    exact List.length_eq_zero_iff.mp hlen.symm)
  have hsplit : split ',' (join ',' (log.units.map fun u => u.getD [])) =
      log.units.map fun u => u.getD [] := by
    refine split_join (by simpa using hunits) fun w hw => ?_
    obtain ⟨u, hu, rfl⟩ := List.mem_map.mp hw
    exact hplain.units u hu
  have hback : ∀ u ∈ log.units, childText (some (u.getD [])) = u := by
    intro u hu
    cases u with
    | none => rfl
    | some s =>
      obtain ⟨htrimmed, hne⟩ := htrim.units _ hu s rfl
      exact childText_of_trimmed htrimmed hne
  by_cases hnil : join ',' (log.units.map fun u => u.getD []) = []
  · -- one curve, without a unit
    rw [hnil] at hsplit
    obtain ⟨u, hone, hblank⟩ : ∃ u, log.units = [u] ∧ u.getD [] = [] := by
      cases hu : log.units with
      | nil => exact absurd hu hunits
      | cons u rest =>
        rw [hu, split, List.map_cons] at hsplit
        obtain ⟨hblank, hrest⟩ := List.cons.inj hsplit
        exact ⟨u, by rw [List.map_eq_nil_iff.mp hrest.symm], hblank.symm⟩
    have hu := hback u (by simp [hone])
    rw [hblank] at hu
    rw [StoredLog.columnUnits, hnil, ← hlen, hone, ← hu]
    rfl
  · have htrimmed : strip (join ',' (log.units.map fun u => u.getD [])) =
        join ',' (log.units.map fun u => u.getD []) := by
      refine strip_join (by decide) fun w hw => ?_
      obtain ⟨u, hu, rfl⟩ := List.mem_map.mp hw
      cases u with
      | none => rfl
      | some s => exact (htrim.units _ hu s rfl).1
    have hread : (log.units.map fun u => u.getD []).map (fun u => childText (some u)) =
        log.units := by
      rw [List.map_map]
      exact (List.map_congr_left hback).trans (List.map_id' _)
    rw [StoredLog.columnUnits, childText_of_trimmed htrimmed hnil]
    dsimp only
    rw [hsplit, hread, hlen, Nat.sub_self, List.replicate_zero, List.append_nil]

/-- A rendered row is decoded as the row it was. -/
theorem decodeLine_readRow {t : IndexType} {e : Entry} (h : RowOk t e.1 e.2)
    (hnull : e.2.token ∉ nulls) (hcells : ∀ c ∈ e.2.cells, ',' ∉ c) :
    decodeLine t nulls e.2.line = .ok (readRow nulls e) := by
  have hsplit : split ',' e.2.line = e.2.token :: e.2.cells := by
    refine split_join (by simp) fun c hc => ?_
    rcases List.mem_cons.mp hc with rfl | hc
    · exact h.noComma
    · exact hcells c hc
  rw [decodeLine, hsplit]
  dsimp only
  rw [h.decodeIndex, if_neg hnull]
  rfl

/-- **Parsing the whole log gives its rows under the header's columns**, or nothing if it has no
rows. -/
theorem parse_table (hplain : PlainHeader log) (htrim : TrimmedHeader log)
    {headerNull : Option Str} (hnulls : nullTokens log.renderIdentity headerNull = nulls)
    (hrow : ∀ e ∈ log.table, e.2.token ∉ nulls ∧ ∀ c ∈ e.2.cells, ',' ∉ c) :
    parseLogData [log.pageElem log.table] (some log.indexType) headerNull =
      .ok (if log.table = [] then [] else [⟨log.uid, log.uidWell, log.uidWellbore, log.indexType,
        ⟨log.mnemonics, log.units, log.indexType, log.table.map (readRow nulls)⟩⟩]) := by
  by_cases hpg : log.table = []
  · rw [if_pos hpg, hpg]
    rfl
  · rw [if_neg hpg]
    have hmem : ∀ e ∈ log.table, e ∈ log.rows.entries := fun e he => StoredLog.mem_table.mp he
    have hrows : (log.table.map fun e => e.2.line).mapM (decodeLine log.indexType nulls) =
        .ok (log.table.map (readRow nulls)) := by
      rw [List.mapM_map]
      exact mapM_eq_ok fun e he =>
        decodeLine_readRow (log.rows.rowOk e (hmem e he)) (hrow e he).1 (hrow e he).2
    have hdata : (log.pageElem log.table).logData = some ⟨some (join ',' log.mnemonics),
        some (join ',' (log.units.map fun u => u.getD [])),
        (log.table.map Prod.snd).map fun row => some row.line⟩ := by
      simp [StoredLog.pageElem, StoredLog.renderData, hpg]
    have hnulls' : nullTokens (log.pageElem log.table) headerNull = nulls := hnulls
    have hcols := columns_eq hplain.named hplain.mnemonics htrim.mnemonics
    obtain ⟨mnemList, hlist, hmnems⟩ := Option.map_eq_some_iff.mp hcols
    have hblock : (⟨log.mnemonics, log.columnUnits log.mnemonics, log.indexType,
        log.table.map (readRow nulls)⟩ : LogDataBlock) =
          ⟨log.mnemonics, log.units, log.indexType, log.table.map (readRow nulls)⟩ := by
      rw [columnUnits_eq hplain htrim]
    have helem : parseLogDataElem (some log.indexType) headerNull (log.pageElem log.table) =
        .ok (some ⟨log.uid, log.uidWell, log.uidWellbore, log.indexType,
          ⟨log.mnemonics, log.units, log.indexType, log.table.map (readRow nulls)⟩⟩) := by
      rw [parseLogDataElem, hdata]
      dsimp only
      rw [hlist]
      dsimp only
      rw [hmnems, hnulls', StoredLog.dataLines_of_page hmem, Option.getD_some, hrows, ← hblock]
      rfl
    rw [parseLogData, List.mapM_cons, helem]
    rfl

/-- A query for the whole log is answered by its table. -/
theorem answer_all {el : LogElem} {q : LogQuery} (ho : log.Orderable) (hq : AsksForAll el q)
    (maxRequestLatestValues : ℤ) :
    log.answer maxRequestLatestValues q = .ok (log.pageElem log.table, false) := by
  have hrange : queryRange q log.indexType = .ok (none, none) := by
    rw [queryRange, hq.startDateTimeIndex, hq.endDateTimeIndex, hq.startIndex, hq.endIndex]
    split <;> rfl
  have hpage : log.page none none none = (log.table, false) := by
    have hall : GrowingTable.window log.entryKey ⊥ log.table = log.table :=
      List.filter_eq_self.mpr fun e _ => by simp
    rw [StoredLog.page, StoredLog.tableTo_none, startKey, hall]
    rfl
  have hnone : BoundOk log.indexType none := fun v hv => absurd hv (by simp)
  rw [StoredLog.answer, hrange, hq.options]
  simp only [bind, Except.bind, StoredLog.render,
    StoredLog.selectRows_eq ho hnone hnone, hpage]
  rfl

/-- So is the store, if the log is its only one with that identity. -/
theorem MockStore.queryLogs_all {store : MockStore} {el : LogElem} {q : LogQuery}
    (hfind : store.findLog (elemKey el) = some log) (hsole : store.Sole (elemKey el))
    (ho : log.Orderable) (hq : AsksForAll el q) :
    store.queryLogs q = .ok (rcSuccess, [log.pageElem log.table]) := by
  rw [MockStore.queryLogs_of_sole hfind hsole hq.uidWell hq.uidWellbore hq.uid, answer_all ho hq]
  rfl

theorem SameHead.mnemonics {log log' : StoredLog} (h : SameHead log log') :
    log'.mnemonics = log.mnemonics := by
  rw [StoredLog.mnemonics, h.curves, StoredLog.mnemonics]

theorem SameHead.units {log log' : StoredLog} (h : SameHead log log') : log'.units = log.units := by
  rw [StoredLog.units, h.curves, StoredLog.units]

theorem SameHead.plain {log log' : StoredLog} (h : SameHead log log') (hplain : PlainHeader log) :
    PlainHeader log' := by
  obtain ⟨h1, h2, h3, h4, h5⟩ := hplain
  rw [← h.mnemonics] at h1 h2 h3
  rw [← h.units] at h4
  rw [← h.nullValue] at h5
  exact ⟨h1, h2, h3, h4, h5⟩

theorem SameHead.trimmed {log log' : StoredLog} (h : SameHead log log')
    (htrim : TrimmedHeader log) : TrimmedHeader log' := by
  obtain ⟨h1, h2⟩ := htrim
  rw [← h.mnemonics] at h1
  rw [← h.units] at h2
  exact ⟨h1, h2⟩

/-- What the log declares as its null value decodes to nothing. -/
theorem decodeReading_nullValue (el : LogElem) :
    decodeReading (nullTokens el none) (logOfElem el).nullValue = none := by
  have hmem : strip (logOfElem el).nullValue ∈ nullTokens el none := by
    have hvalue : (logOfElem el).nullValue = (childText el.nullValue).getD defaultNullValue := rfl
    rw [hvalue, nullTokens]
    cases h : childText el.nullValue with
    | none => exact (by decide : strip defaultNullValue ∈ commonNullSentinels)
    | some s =>
      simp only [Option.or_none, Option.getD_some, if_neg (childText_eq_some h).2]
      exact List.mem_cons_self
  exact if_pos (Or.inl hmem)

end Reading

/-! ## 5. The round trip

The two halves meet in the rows of the stored log: `Stored` says what they hold of the lines,
`parse_table` what is read of them. -/

/-- The cells of a line are trimmed and have no comma. -/
theorem cell_plain {w : WrittenLine} {m c : Str} (h : w.cell m = some c) :
    strip c = c ∧ ',' ∉ c := by
  have hmem := Dict.get?_mem (fun _ _ => eq_of_beq) h
  obtain ⟨raw, hraw, rfl⟩ := List.mem_map.mp (List.of_mem_zip hmem).2
  exact ⟨strip_strip raw, fun hcomma => not_mem_of_mem_split hraw (mem_of_mem_strip hcomma)⟩

/-- The cells of a row that a line is stored as. -/
theorem cells_storedRow {el : LogElem} (hplain : PlainHeader (logOfElem el)) (w : WrittenLine) :
    (∀ c ∈ (w.storedRow (logOfElem el)).cells, ',' ∉ c) ∧
      (w.storedRow (logOfElem el)).cells.map (decodeReading (nullTokens el none)) =
        ((logOfElem el).mnemonics.drop 1).map fun m =>
          (w.cell m).bind (decodeReading (nullTokens el none)) := by
  constructor
  · intro c hc
    obtain ⟨m, -, rfl⟩ := List.mem_map.mp hc
    cases hcell : w.cell m with
    | none => exact hplain.nullValue
    | some c => exact (cell_plain hcell).2
  · rw [WrittenLine.storedRow, List.map_map]
    refine List.map_congr_left fun m _ => ?_
    cases hcell : w.cell m with
    | none => simp [hcell, decodeReading_nullValue]
    | some c => simp [hcell]

/-- **Written, then read back**: for each index the last line written for it, curve by curve;
nothing at all if no line has an index.

Direction and order play no part in the writing.  The table is rendered in the log's direction,
whatever the order in which its rows were written, so a permutation of the blocks or of the lines
changes what is read back only where two lines are for one index.

The index tokens that count are those that either side can make something of.  For the others the
two sides may disagree, and `reads_back_nothing` has examples of what comes of it. -/
theorem log_data_round_trip {store : MockStore} {el : LogElem} {updates : List LogElem}
    {q : LogQuery} (hid : el.uid.getD [] ≠ []) (hfree : ∀ log ∈ store.logs, log.key ≠ elemKey el)
    (hsole : store.Sole (elemKey el)) (hplain : PlainHeader (logOfElem el))
    (hnames : ∀ b ∈ el :: updates, NamesAll (logOfElem el) b)
    (haddr : ∀ u ∈ updates, elemKey u = elemKey el)
    (hread : ∀ w ∈ writtenLines el updates,
      ReadableToken (logOfElem el).indexType (nullTokens el none) w)
    (hq : AsksForAll el q) :
    ∃ els results, (writeAll store el updates).queryLogs q = .ok (rcSuccess, els) ∧
      parseLogData els (some (logOfElem el).indexType) (childText el.nullValue) = .ok results ∧
      ((results = [] ∧ ∀ w ∈ writtenLines el updates, w.index (logOfElem el).indexType = none) ∨
        ∃ result, results = [result] ∧
          ReadsBack (logOfElem el) (nullTokens el none) (writtenLines el updates) result.block) := by
  have heach : ∀ b ∈ el :: updates, NamesEach (logOfElem el) b := fun b hb ld hld =>
    (hnames b hb ld hld).1
  obtain ⟨log, hfind, hsole', hst⟩ :=
    stored_writeAll hid hfree hsole hplain.named hplain.distinct heach haddr hread
  have ho : log.Orderable := fun e he => (hst.entry e he).1
  have hquery := MockStore.queryLogs_all hfind hsole' ho hq
  have hnulls : nullTokens log.renderIdentity (childText el.nullValue) = nullTokens el none := by
    rw [nullTokens, nullTokens, Option.or_none]
    rfl
  -- each row is a stored line, whose token is no null and whose cells have no comma
  have hlast : ∀ e ∈ log.table, ∃ w,
      LastWritten (logOfElem el).indexType (writtenLines el updates) e.1 w ∧
      e.2 = w.storedRow (logOfElem el) ∧ e.2.token ∉ nullTokens el none := by
    intro e he
    obtain ⟨-, w, hw, hrow⟩ := hst.entry e (StoredLog.mem_table.mp he)
    refine ⟨w, hw, hrow, ?_⟩
    obtain ⟨before, after, hsplit, hindex, -⟩ := hw
    obtain ⟨i, hparse, hi⟩ := hread w (by simp [hsplit])
    rw [WrittenLine.index, hparse] at hindex
    rw [hrow]
    exact (hi _ hindex).2
  have hparse := parse_table (hst.sameHead.plain hplain)
    (hst.sameHead.trimmed (trimmed_logOfElem el)) hnulls (fun e he => by
      obtain ⟨w, -, hrow, htoken⟩ := hlast e he
      refine ⟨htoken, ?_⟩
      rw [hrow]
      exact (cells_storedRow hplain w).1)
  rw [hst.sameHead.indexType] at hparse
  refine ⟨_, _, hquery, hparse, ?_⟩
  by_cases hempty : log.table = []
  · refine Or.inl ⟨if_pos hempty, fun w hw => ?_⟩
    cases hindex : w.index (logOfElem el).indexType with
    | none => rfl
    | some i =>
      obtain ⟨e, he, -⟩ := hst.covered w hw i hindex
      have hmem := StoredLog.mem_table.mpr he
      rw [hempty] at hmem
      exact absurd hmem List.not_mem_nil
  · refine Or.inr ⟨_, if_neg hempty, hst.sameHead.mnemonics, hst.sameHead.units, ?_, ?_, ?_⟩
    · rw [← hst.sameHead.direction, List.pairwise_map]
      exact StoredLog.table_ordered ho
    · intro w hw i hindex
      obtain ⟨e, he, rfl⟩ := hst.covered w hw i hindex
      exact ⟨_, List.mem_map_of_mem (StoredLog.mem_table.mpr he), rfl⟩
    · intro r hr
      obtain ⟨e, he, rfl⟩ := List.mem_map.mp hr
      obtain ⟨w, hw, hrow, -⟩ := hlast e he
      refine ⟨e.1, w, rfl, hw, ?_⟩
      rw [readRow, hrow]
      exact (cells_storedRow hplain w).2

instance (t : IndexType) (nulls : List Str) (w : WrittenLine) :
    Decidable (ReadableToken t nulls w) :=
  decidable_of_iff (∃ i ∈ (parseIndex (some w.token) t).toOption,
      ∀ v ∈ i, v ≠ .num .nan ∧ w.token ∉ nulls) (by
    rw [ReadableToken]
    cases parseIndex (some w.token) t with
    | error e => simp [Except.toOption]
    | ok i => simp [Except.toOption])

instance (log : StoredLog) (el : LogElem) : Decidable (NamesAll log el) :=
  inferInstanceAs (Decidable (∀ ld ∈ el.logData, (blockColumns ld).Perm log.mnemonics ∧
    (blockColumns ld).head? = log.mnemonics.head?))

/-- A decreasing log with a null value of its own, and two rows. -/
def writtenElem : LogElem :=
  { logElem "L" .measuredDepth .decreasing ["DEPTH", "GR", "ROP"] ["10,1,2", "20,n/a"] with
    nullValue := some "n/a".toList }

/-- A later block, with its columns in another order. -/
def laterElem : LogElem :=
  logElem "L" .measuredDepth .decreasing ["DEPTH", "ROP", "GR"] ["20.0,3,x", "abc,1", "15,,4"]

/-- The query for all of a log of wellbore `B` of well `W`. -/
def queryAll (uid : String) : LogQuery where
  uidWell := "W".toList
  uidWellbore := "B".toList
  uid := uid.toList
  options := { returnElements := .dataOnly }

/-- The row that the later block has written again comes back as it wrote it, under the right
mnemonics. -/
theorem log_data_round_trip_later : ∃ els results,
    (writeAll (storeOf []) writtenElem [laterElem]).queryLogs (queryAll "L") =
      .ok (rcSuccess, els) ∧
    parseLogData els (some (logOfElem writtenElem).indexType) (childText writtenElem.nullValue) =
      .ok results ∧
    ((results = [] ∧ ∀ w ∈ writtenLines writtenElem [laterElem],
        w.index (logOfElem writtenElem).indexType = none) ∨
      ∃ result, results = [result] ∧ ReadsBack (logOfElem writtenElem)
        (nullTokens writtenElem none) (writtenLines writtenElem [laterElem]) result.block) :=
  log_data_round_trip (by decide) (by decide) (by decide)
    ⟨by decide +kernel, by decide +kernel, by decide +kernel, by decide +kernel, by decide +kernel⟩
    (by decide +kernel) (by decide +kernel) (by decide +kernel) ⟨rfl, rfl, rfl, rfl, rfl, rfl, rfl, rfl⟩

/-- What is read back after the lines of one creation. -/
def readBack (el : LogElem) (updates : List LogElem) : Except PyError (List LogDataResult) := do
  let (_, els) ← (writeAll (storeOf []) el updates).queryLogs (queryAll "L")
  parseLogData els (some (logOfElem el).indexType) (childText el.nullValue)

/-- **A log without rows reads back as nothing**, not even its columns.  An instant whose UTC reading
precedes the year 1 takes the lines after it along, and two rows for `nan` are not in any order. -/
theorem reads_back_nothing :
    readBack (logElem "L" .measuredDepth .increasing ["DEPTH", "GR"] []) [] = .ok [] ∧
      (readBack (logElem "L" .dateTime .increasing ["TIME", "GR"] ["2020-01-01T00:00:00Z,1"])
        [logElem "L" .dateTime .increasing ["TIME", "GR"]
          ["0001-01-01T00:00:00+05:00,2", "2020-01-02T00:00:00Z,3"]]).map
            (List.map fun r => r.block.rows.length) = .ok [1] ∧
      (readBack (logElem "L" .measuredDepth .increasing ["DEPTH", "GR"] ["nan,1", "nan,2"]) []).map
        (List.map fun r => r.block.rows.length) = .ok [2] := by
  refine ⟨by decide +kernel, by decide +kernel, by decide +kernel⟩

end WitsmlViewer

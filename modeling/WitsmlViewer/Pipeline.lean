/-
# From the simulator to the table

The simulator, the store and the plant of `Restarts` as one system: a tick of a simulated log writes to
the store between any two events of the plant that reads from it.

The rows of a tick that advance are plain rows beyond the frontier (`Tracked.appendsPlain`), so the
account of `Durability` holds; and the stored rows up to a cursor are a first part of the emitted rows
(`Tracked.data_upTo`).  Together: what has been read is always what was emitted first
(`emitted_rows_arrive`).

It is the one statement that goes through the whole program.  The simulator draws rows, writes them
with its own rounding, the store keys and orders them, the client decodes them page by page, the
scheduler drops what it has handed on before, and a transaction puts the rest into a table, among
crashes.  Each module before this one knows one of these steps; here they have to fit, and the
places where they might not are the tokens: what the simulator writes must be read as an index, not
as a null, and strictly beyond the last.

`emitted_rows_arrive` says both that nothing is missing and that nothing is made up.  How often a
row may be there depends on the restarts, as in `Durability`.
-/
import WitsmlViewer.FreshRows
import WitsmlViewer.Durability

namespace WitsmlViewer
namespace Simulator

open Py GrowingTable Runs Checkpoints
open MockStore (elemKey updatedLog)

/-! ## 1. The system

The two parts share the store and nothing else.  An event is a tick of the simulated log or an
event of the plant, in any interleaving; the plant's events include updates of other logs by
anybody. -/

/-- A simulated log with the rows emitted so far, and the plant that ingests from its store. -/
structure Pipeline where
  state : LogState
  sent : List EmittedRow
  plant : Plant

namespace Pipeline

/-- A tick, or an event of the plant. -/
inductive Event
  | tick (tickNo : ℕ) (inputs : ℕ → RowInput)
  | plant (e : Plant.Event)

/-- The simulator's side of it. -/
def feed (s : Pipeline) : Feed := ⟨s.state, s.plant.engine.server, s.sent⟩

/-- The rows of a tick, and the state after them. -/
def rows (rig : Rig) (s : Pipeline) (tickNo : ℕ) (inputs : ℕ → RowInput) :
    List EmittedRow × LogState :=
  emitRows rig.env s.state (rig.tickInputs tickNo inputs)

/-- The update that it sends. -/
def update (rig : Rig) (s : Pipeline) (tickNo : ℕ) (inputs : ℕ → RowInput) : LogElem :=
  logUpdateElem rig.wb (s.rows rig tickNo inputs).2 (s.rows rig tickNo inputs).1

/-- A tick writes to the store of the plant. -/
def next (rig : Rig) (cfg : Settings) (dep : Deployment) (serverId : ℤ) (s : Pipeline) :
    Event → Option Pipeline
  | .tick tickNo inputs =>
    (s.plant.next cfg dep serverId (.engine (.update (s.update rig tickNo inputs)))).map fun plant =>
      ⟨(s.rows rig tickNo inputs).2, s.sent ++ (s.rows rig tickNo inputs).1, plant⟩
  | .plant e => (s.plant.next cfg dep serverId e).map fun plant => { s with plant := plant }

/-- The seeding, and the first start of the plant. -/
def start (rig : Rig) (cfg : Settings) (state : LogState) (store : MockStore) (input : RowInput) :
    Pipeline :=
  let feed := rig.seed ⟨state, store, []⟩ input
  ⟨feed.state, feed.sent, Plant.start cfg feed.store⟩

/-- Rows advance; only ticks write to the log, which has one header.  Other logs may change freely, and
the plant may fail and restart at any time. -/
def Meets (rig : Rig) (serverId : ℤ) (h : LogHeader) (s : Pipeline) : Event → Prop
  | .tick tickNo inputs => AllAdvance rig.env s.state (rig.tickInputs tickNo inputs)
  | .plant (.engine (.update el)) => elemKey el ≠ s.state.key rig.wb
  | .plant (.engine (.begin h')) => headerKey serverId h' = headerKey serverId h → h' = h
  | .plant _ => True

end Pipeline

/-! ## 2. A tick writes plain rows beyond the frontier

`ExactlyOnce` asks the writer of a log for plain rows beyond its frontier.  The simulator meets
this if its rows advance; most of it is about tokens, since a row is beyond the frontier for the
store only if its text says so. -/

section Tokens

variable {env : Env} {state state' : LogState} {row : EmittedRow}

/-- The token of a row is that of a state of the log. -/
def Shown (state : LogState) (row : EmittedRow) : Prop :=
  ∃ moved : LogState, moved.Sound ∧ SameLog state moved ∧ row.1 = moved.indexToken

/-- It is one of any state of the log. -/
theorem Shown.of_sameLog (h : SameLog state' state) (hs : Shown state row) : Shown state' row := by
  obtain ⟨moved, hsound, hsame, htoken⟩ := hs
  exact ⟨moved, hsound, h.trans hsame, htoken⟩

/-- The row that is emitted has such a token. -/
theorem shown_emitRow (env : Env) (allowNull : Bool) (input : RowInput) (h : state.Sound) :
    Shown state (emitRow env allowNull state input).1 :=
  ⟨advance env input.now state, h.advance env input.now, sameLog_advance env input.now state, rfl⟩

theorem shown_emitRows (env : Env) : ∀ (inputs : List RowInput) {state : LogState}, state.Sound →
    ∀ row ∈ (emitRows env state inputs).1, Shown state row
  | [], _, _, _, hrow => absurd hrow List.not_mem_nil
  | input :: inputs, state, h, row, hrow => by
    rcases List.mem_cons.mp hrow with rfl | hrow
    · exact shown_emitRow env true input h
    · have hsound : (emitRow env true state input).2.Sound := h.advance env input.now
      exact (shown_emitRows env inputs hsound row hrow).of_sameLog
        (sameLog_emitRow env true state input)

/-- A shown depth is a number that is not below zero. -/
theorem shown_rank_nonneg {x : Float64} (h : DepthOk x) : 0 ≤ (x.shown 3).rank := by
  rcases h.cases with ⟨d, rfl, hd⟩ | rfl
  · rw [Float64.shown_of_nonneg 3 hd]
    exact Float64.rank_ofUnits_nonneg (by positivity)
  · decide +kernel

/-- **No token is a null sentinel**: as numbers these are below zero or none, and no instant. -/
theorem indexToken_not_null (h : state.Sound) : state.indexToken ∉ commonNullSentinels := by
  unfold LogState.indexToken
  cases ht : state.indexType.isTime with
  | true =>
    intro hmem
    have hmark : 'T' ∈ isoUtc state.lastTime := by simp [isoUtc, isoMillis, strftimeSeconds]
    have hnone : ∀ s ∈ commonNullSentinels, 'T' ∉ s := by decide
    exact hnone _ hmem hmark
  | false =>
    intro hmem
    have hread := float?_fmtNum (h ht)
    have hnone : ∀ s ∈ commonNullSentinels, ∀ x ∈ float? s, x = .nan ∨ x.rank < 0 := by
      decide +kernel
    rcases hnone _ hmem _ hread with hnan | hneg
    · exact shown_ne_nan (h ht).1 hnan
    · exact absurd (shown_rank_nonneg (h ht)) (not_le.mpr hneg)

/-- A state's index is one that its text renders. -/
theorem exact_index (state : LogState) : Exact state.index := by
  unfold LogState.index
  split
  · have hmicros : state.lastTime.floorMillis.replaceUtc.floorMillis.replaceUtc.micros =
        state.lastTime.floorMillis.replaceUtc.micros := by
      simp only [Datetime.replaceUtc_micros, Datetime.floorMillis_micros]
      omega
    have haware : state.lastTime.floorMillis.replaceUtc.floorMillis.replaceUtc.aware =
        state.lastTime.floorMillis.replaceUtc.aware := by
      rw [Datetime.replaceUtc_aware, Datetime.replaceUtc_aware]
    rw [Exact, wire, Datetime.ext_micros hmicros haware]
  · rfl

/-- A shown row is read with its index, which renders without loss. -/
theorem Shown.plain (hs : Shown state row) {v : Value} (h : GoodRow state row v) :
    row.1 ∉ commonNullSentinels ∧ Exact v := by
  obtain ⟨moved, hsound, hsame, htoken⟩ := hs
  refine ⟨htoken ▸ indexToken_not_null hsound, ?_⟩
  have hread := parseIndex_indexToken hsound
  rw [← htoken, hsame.indexType, h.read] at hread
  rw [Option.some.inj (Except.ok.inj hread)]
  exact exact_index moved

end Tokens

section Update

variable {log : StoredLog} {el : LogElem} {nulls : List Str}

/-- **What an update writes**, line by line. -/
theorem mem_updateEntries (hnamed : log.mnemonics ≠ []) (hdistinct : log.mnemonics.Nodup)
    (hnames : NamesEach log el) (hread : ∀ w ∈ blockLines el, ReadableToken log.indexType nulls w)
    {e : Entry} (he : e ∈ log.updateEntries el) :
    ∃ w ∈ blockLines el, w.index log.indexType = some e.1 ∧ e.2 = w.storedRow log := by
  rw [StoredLog.updateEntries] at he
  rw [blockLines] at hread ⊢
  cases hld : el.logData with
  | none =>
    rw [hld] at he
    exact absurd he List.not_mem_nil
  | some ld =>
    rw [hld] at he hread
    have hperm := hnames ld hld
    have hne : blockColumns ld ≠ [] := fun hnil => hnamed (by
      rw [hnil] at hperm
      exact hperm.symm.eq_nil)
    have hinc : incomingMnemonics log ld = blockColumns ld := by
      rw [blockColumns] at hne ⊢
      rw [incomingMnemonics]
      cases hmnem : childText ld.mnemonicList with
      | none =>
        rw [hmnem] at hne
        exact absurd rfl hne
      | some mnemList => rfl
    dsimp only at he
    rw [hinc] at he
    obtain ⟨text, htext, hline⟩ := List.mem_filterMap.mp he
    have hw : (⟨blockColumns ld, text⟩ : WrittenLine) ∈
        (dataLines ld).map fun text => (⟨blockColumns ld, text⟩ : WrittenLine) :=
      List.mem_map_of_mem htext
    refine ⟨_, hw, ?_⟩
    obtain ⟨i, hparse, -⟩ := hread _ hw
    cases i with
    | none =>
      have hnone : incomingRow log (blockColumns ld) text = .ok none := incomingRow_of_none hparse
      rw [lineEntry, hnone] at hline
      exact absurd hline (by simp [Except.toOption])
    | some i =>
      obtain ⟨r, hr, hkey, hrow⟩ :=
        incomingRow_of_some hnamed (hperm.symm.nodup hdistinct) hparse
      dsimp only at hr
      rw [lineEntry, hr] at hline
      obtain rfl : (r.key, r.row) = e := by simpa [Except.toOption] using hline
      refine ⟨?_, hrow⟩
      rw [WrittenLine.index, hparse, hkey]
      rfl

end Update

section Tracked

variable {rig : Rig} {created log : StoredLog} {feed : Feed}

/-- What holds of the log that is tracked. -/
theorem Tracked.of_find (h : Tracked rig created feed)
    (hfind : feed.store.findLog (feed.state.key rig.wb) = some log) :
    Stored created (feed.sent.map (line feed.state)) log := by
  obtain ⟨log', hfind', hstored⟩ := h.stored
  rwa [Option.some.inj (hfind.symm.trans hfind')]

/-- Every emitted row is a good one. -/
theorem Tracked.good (h : Tracked rig created feed) :
    ∀ row ∈ feed.sent, ∃ v, GoodRow feed.state row v := by
  obtain ⟨vs, hgood, -, -⟩ := h.indices
  exact exists_index hgood

/-- The stored rows are the emitted ones, under their indices. -/
theorem Tracked.entry (h : Tracked rig created feed)
    (hfind : feed.store.findLog (feed.state.key rig.wb) = some log) {e : Entry}
    (he : e ∈ log.rows.entries) :
    ∃ row ∈ feed.sent, GoodRow feed.state row e.1 ∧ e.2 = ⟨row.1, row.2⟩ := by
  obtain ⟨-, w, hlast, hrow⟩ := (h.of_find hfind).entry e he
  obtain ⟨row, hmem, rfl⟩ := List.mem_map.mp hlast.mem
  obtain ⟨v, hv⟩ := h.good row hmem
  have hindex := hlast.index_eq
  rw [h.indexType, line_index hv] at hindex
  obtain rfl := Option.some.inj hindex
  exact ⟨row, hmem, hv, hrow.trans (line_stored h.mnemonics hv)⟩

/-- No stored index is ahead of that of the state. -/
theorem Tracked.le_index (h : Tracked rig created feed)
    (hfind : feed.store.findLog (feed.state.key rig.wb) = some log) {e : Entry}
    (he : e ∈ log.rows.entries) :
    growthKey feed.state.direction e.1 ≤ growthKey feed.state.direction feed.state.index := by
  obtain ⟨row, hmem, hgood, -⟩ := h.entry hfind he
  obtain ⟨vs, hall, hchain, hlast⟩ := h.indices
  obtain ⟨hrows, -, -⟩ := indices_of_goodRows hall
  have hv : e.1 ∈ vs := by
    have hindex := List.mem_map_of_mem (f := rowIndex feed.state.indexType) hmem
    rw [hrows, rowIndex, hgood.read] at hindex
    simpa [Except.toOption] using hindex
  obtain ⟨init, rfl⟩ := List.getLast?_eq_some_iff.mp hlast
  rcases List.mem_append.mp hv with hv | hv
  · have hpairs := (List.pairwise_append.mp (List.isChain_iff_pairwise.mp hchain)).2.2
    exact (hpairs _ hv _ (by simp)).le
  · rw [List.mem_singleton.mp hv]

/-- **Rows that all advance are plain rows beyond the frontier.** -/
theorem Tracked.appendsPlain (h : Tracked rig created feed)
    (hdir : created.direction = feed.state.direction) {inputs : List RowInput}
    (hadv : AllAdvance rig.env feed.state inputs)
    (hfind : feed.store.findLog (feed.state.key rig.wb) = some log) :
    log.AppendsPlain (logUpdateElem rig.wb (emitRows rig.env feed.state inputs).2
      (emitRows rig.env feed.state inputs).1) := by
  obtain ⟨vs, hgood, hchain, -, -, hsame⟩ := emitRows_spec rig.env inputs feed.state h.sound hadv
  have hshown := shown_emitRows rig.env inputs h.sound
  obtain ⟨out, hout⟩ : ∃ out, out = emitRows rig.env feed.state inputs := ⟨_, rfl⟩
  rw [← hout] at hgood hsame hshown ⊢
  have hdata : (logUpdateElem rig.wb out.2 out.1).logData = some (logDataOf out.2 out.1) := rfl
  have hrows := exists_index (hgood.imp fun row v hrow => hrow.of_sameLog hsame)
  have hhead := (h.of_find hfind).sameHead
  have hmnem : log.mnemonics = out.2.mnemonics :=
    hhead.mnemonics.trans (h.mnemonics.trans hsame.mnemonics.symm)
  have htype : log.indexType = out.2.indexType :=
    hhead.indexType.trans (h.indexType.trans hsame.indexType.symm)
  obtain ⟨hnamed, hnodup⟩ := named_created hmnem
  -- each entry is one of the rows, under its index
  have hentry : ∀ e ∈ log.updateEntries (logUpdateElem rig.wb out.2 out.1),
      ∃ row ∈ out.1, GoodRow feed.state row e.1 ∧ e.2 = ⟨row.1, row.2⟩ ∧ e.1 ∈ vs := by
    intro e he
    obtain ⟨w, hw, hindex, hrow⟩ := mem_updateEntries hnamed hnodup (namesEach_logDataOf hmnem hdata)
      (readable_logDataOf htype hrows hdata) he
    rw [lines_logDataOf hrows hdata] at hw
    obtain ⟨row, hmem, rfl⟩ := List.mem_map.mp hw
    obtain ⟨v, hv⟩ := hrows row hmem
    rw [htype, line_index hv] at hindex
    obtain rfl := Option.some.inj hindex
    have hv' := hv.of_sameLog hsame.symm
    refine ⟨row, hmem, hv', hrow.trans (line_stored hmnem hv), ?_⟩
    have hread := List.mem_map_of_mem (f := rowIndex feed.state.indexType) hmem
    rw [(indices_of_goodRows hgood).1, rowIndex, hv'.read] at hread
    simpa [Except.toOption] using hread
  have hkey : log.entryKey = fun e => growthKey feed.state.direction e.1 := by
    funext e
    rw [StoredLog.entryKey, hhead.direction, hdir]
  refine ⟨fun e he => ?_, fun e he => ?_⟩
  · obtain ⟨row, -, hrow, -, hv⟩ := hentry e he
    refine ⟨?_, fun f hf => ?_⟩
    · rw [htype, hsame.indexType]
      exact hrow.orders
    · rw [hkey]
      refine (h.le_index hfind hf).trans_lt ?_
      exact (List.pairwise_cons.mp (List.isChain_iff_pairwise.mp hchain)).1 _ hv
  · obtain ⟨row, hmem, hrow, hstored, -⟩ := hentry e he
    obtain ⟨htoken, hexact⟩ := (hshown row hmem).plain hrow
    refine ⟨?_, hexact⟩
    rw [visible, hstored]
    exact decide_eq_true htoken

end Tracked

/-! ## 3. The stored rows are the emitted ones

The store's table is ordered by index and the list of emitted rows by time; for a log whose rows
advance these are one order.  So what lies up to a cursor in the one is a first part of the other.
-/

/-- An emitted row under its index. -/
def entryOf (t : IndexType) (row : EmittedRow) : Option Entry :=
  (rowIndex t row).map fun v => (v, ⟨row.1, row.2⟩)

/-- The readings of an emitted row: its cells that are not null, under their curves. -/
def rowReadings (state : LogState) (row : EmittedRow) : List Datum :=
  (rowIndex state.indexType row).toList.flatMap fun v =>
    ((state.mnemonics.drop 1).zip row.2).filterMap fun c =>
      (decodeReading commonNullSentinels c.2).map fun reading => (c.1, v, reading.parts)

section Entries

variable {state : LogState} {rows : List EmittedRow} {vs : List Value} {log : StoredLog}

theorem rowIndex_of_good {row : EmittedRow} {v : Value} (h : GoodRow state row v) :
    rowIndex state.indexType row = some v := by
  rw [rowIndex, h.read]
  rfl

theorem entries_eq_zip (h : List.Forall₂ (GoodRow state) rows vs) :
    rows.filterMap (entryOf state.indexType) =
      (rows.zip vs).map fun p => (p.2, ⟨p.1.1, p.1.2⟩) := by
  induction h with
  | nil => rfl
  | cons hrow _ ih =>
    have hentry : entryOf state.indexType _ = some (_, _) :=
      congrArg (Option.map _) (rowIndex_of_good hrow)
    rw [List.filterMap_cons_some hentry, ih]
    rfl

theorem entries_indices (h : List.Forall₂ (GoodRow state) rows vs) :
    (rows.filterMap (entryOf state.indexType)).map Prod.fst = vs := by
  rw [entries_eq_zip h, List.map_map]
  exact List.map_snd_zip h.length_eq.ge

/-- Each row gives one entry. -/
theorem entries_take (h : List.Forall₂ (GoodRow state) rows vs) (k : ℕ) :
    (rows.take k).filterMap (entryOf state.indexType) =
      (rows.filterMap (entryOf state.indexType)).take k := by
  rw [entries_eq_zip h, entries_eq_zip (List.forall₂_take k h), ← List.map_take, List.zip,
    ← List.take_zipWith]

/-- **A stored row is read as what was emitted.** -/
theorem readings_of_good (hmnem : log.mnemonics = state.mnemonics) {row : EmittedRow} {v : Value}
    (h : GoodRow state row v) : log.readings (v, ⟨row.1, row.2⟩) = rowReadings state row := by
  obtain ⟨-, hsplit, htext, -, -⟩ := catalog_read state
  have hcolumns : log.columns = some state.mnemonics := by
    rw [StoredLog.columns, hmnem, htext, Option.map_some, hsplit]
  have hline : split ',' (StoredRow.mk row.1 row.2).line = row.1 :: row.2 := by
    refine split_join (List.cons_ne_nil _ _) fun cell hcell => ?_
    rcases List.mem_cons.mp hcell with rfl | hcell
    · exact (cell_of_ofCell h.token).2
    · exact (cell_of_ofCell (h.cells cell hcell)).2
  have hcells : (decodedRow (v, ⟨row.1, row.2⟩)).cells =
      row.2.map (decodeReading commonNullSentinels) := by
    rw [decodedRow, hline]
    rfl
  rw [StoredLog.readings, hcolumns, Option.getD_some, hcells, List.zip_map_right, List.filterMap_map,
    rowReadings, rowIndex_of_good h, Option.toList_some, List.flatMap_singleton]
  rfl

theorem data_entries (hmnem : log.mnemonics = state.mnemonics)
    (h : List.Forall₂ (GoodRow state) rows vs) :
    log.data (rows.filterMap (entryOf state.indexType)) = ↑(rows.flatMap (rowReadings state)) := by
  have hreadings : (rows.filterMap (entryOf state.indexType)).flatMap log.readings =
      rows.flatMap (rowReadings state) := by
    induction h with
    | nil => rfl
    | cons hrow _ ih =>
      have hentry : entryOf state.indexType _ = some (_, _) :=
        congrArg (Option.map _) (rowIndex_of_good hrow)
      rw [List.filterMap_cons_some hentry, List.flatMap_cons, List.flatMap_cons, ih,
        readings_of_good hmnem hrow]
  rw [StoredLog.data, hreadings]

end Entries

/-- The entries of an ordered table up to one of them are a first part of it, which ends there. -/
theorem filter_le_eq_take {ε : Type} {key : ε → ℤ} {t : List ε} (h : Ordered key t) {e : ε}
    (he : e ∈ t) : ∃ k ≤ t.length, t.filter (fun g => decide (key g ≤ key e)) = t.take k ∧
      (t.take k).getLast? = some e := by
  obtain ⟨l, r, rfl⟩ := List.append_of_mem he
  obtain ⟨-, hafter, hbefore⟩ := List.pairwise_append.mp h
  have hl : l.filter (fun g => decide (key g ≤ key e)) = l :=
    List.filter_eq_self.mpr fun g hg => decide_eq_true (hbefore g hg e List.mem_cons_self).le
  have hr : r.filter (fun g => decide (key g ≤ key e)) = [] :=
    List.filter_eq_nil_iff.mpr fun g hg => by
      have hlt := (List.pairwise_cons.mp hafter).1 g hg
      simpa using hlt
  have htake : (l ++ e :: r).take (l.length + 1) = l ++ [e] := by
    rw [List.take_append, List.take_of_length_le (Nat.le_succ _), Nat.add_sub_cancel_left]
    rfl
  refine ⟨l.length + 1, by simp, ?_, ?_⟩
  · rw [htake, List.filter_append, List.filter_cons, hl, hr, if_pos (decide_eq_true le_rfl)]
  · rw [htake, List.getLast?_append]
    rfl

section Stored

variable {rig : Rig} {created log : StoredLog} {feed : Feed}

theorem Tracked.orderable (h : Tracked rig created feed)
    (hfind : feed.store.findLog (feed.state.key rig.wb) = some log) : log.Orderable :=
  fun e he => ((h.of_find hfind).entry e he).1

theorem Tracked.entryKey_eq (h : Tracked rig created feed)
    (hdir : created.direction = feed.state.direction)
    (hfind : feed.store.findLog (feed.state.key rig.wb) = some log) :
    log.entryKey = fun e => growthKey feed.state.direction e.1 := by
  funext e
  rw [StoredLog.entryKey, (h.of_find hfind).sameHead.direction, hdir]

/-- **The table is what was emitted, in order.** -/
theorem Tracked.table_eq (h : Tracked rig created feed)
    (hdir : created.direction = feed.state.direction)
    (hfind : feed.store.findLog (feed.state.key rig.wb) = some log) :
    log.table = feed.sent.filterMap (entryOf feed.state.indexType) := by
  obtain ⟨vs, hgood, hchain, -⟩ := h.indices
  have hindices := entries_indices hgood
  have hpairs := List.isChain_iff_pairwise.mp hchain
  have hordered : Ordered log.entryKey (feed.sent.filterMap (entryOf feed.state.indexType)) := by
    rw [h.entryKey_eq hdir hfind]
    rw [← hindices] at hpairs
    have hentries := List.pairwise_map.mp hpairs
    exact hentries
  have hnodup : ((feed.sent.filterMap (entryOf feed.state.indexType)).map Prod.fst).Nodup := by
    rw [hindices]
    exact hpairs.imp fun hlt heq => absurd hlt (by rw [heq]; exact lt_irrefl _)
  have hmem : ∀ e ∈ log.rows.entries, e ∈ feed.sent.filterMap (entryOf feed.state.indexType) := by
    intro e he
    obtain ⟨row, hrow, hv, hstored⟩ := h.entry hfind he
    refine List.mem_filterMap.mpr ⟨row, hrow, ?_⟩
    rw [entryOf, rowIndex_of_good hv, Option.map_some, ← hstored]
  refine (log.table_ordered (h.orderable hfind)).eq_of_mem_iff hordered fun e => ?_
  rw [StoredLog.mem_table]
  refine ⟨hmem e, fun he => ?_⟩
  -- no index is lost, and there is one row for each
  obtain ⟨row, hrow, hentry⟩ := List.mem_filterMap.mp he
  obtain ⟨v, hv⟩ := h.good row hrow
  have hindex : (line feed.state row).index created.indexType = some v := by
    rw [h.indexType]
    exact line_index hv
  obtain ⟨e', he', hkey⟩ := (h.of_find hfind).covered _ (List.mem_map_of_mem hrow) v hindex
  rw [entryOf, rowIndex_of_good hv, Option.map_some, Option.some.injEq] at hentry
  have hsame : e'.1 = e.1 := by rw [hkey, ← hentry]
  exact List.inj_on_of_nodup_map hnodup (hmem e' he') he hsame ▸ he'

/-- **What is stored up to a cursor was emitted first.** -/
theorem Tracked.data_upTo (h : Tracked rig created feed)
    (hdir : created.direction = feed.state.direction)
    (hfind : feed.store.findLog (feed.state.key rig.wb) = some log) {c : Option Value}
    (hc : ∀ v, c = some v → ∃ e ∈ log.rows.entries, v = e.1) :
    log.data log.table = ↑(feed.sent.flatMap (rowReadings feed.state)) ∧
      ∃ k ≤ feed.sent.length,
        log.data (log.upTo c) = ↑((feed.sent.take k).flatMap (rowReadings feed.state)) ∧
        (feed.sent.take k).getLast?.bind (rowIndex feed.state.indexType) = c := by
  obtain ⟨vs, hgood, -⟩ := h.indices
  have hmnem : log.mnemonics = feed.state.mnemonics :=
    (h.of_find hfind).sameHead.mnemonics.trans h.mnemonics
  have htable := h.table_eq hdir hfind
  refine ⟨by rw [htable, data_entries hmnem hgood], ?_⟩
  cases c with
  | none => exact ⟨0, Nat.zero_le _, congrArg log.data log.upTo_none, rfl⟩
  | some v =>
    obtain ⟨e, he, rfl⟩ := hc v rfl
    obtain ⟨k, hk, hfilter, hlast⟩ := filter_le_eq_take
      (log.table_ordered (h.orderable hfind)) (StoredLog.mem_table.mpr he)
    rw [htable, ← entries_take hgood] at hlast
    have hupTo : log.upTo (some e.1) =
        (feed.sent.take k).filterMap (entryOf feed.state.indexType) := by
      rw [entries_take hgood, ← htable, ← hfilter]
      rfl
    refine ⟨k, ?_, ?_, ?_⟩
    · rw [htable] at hk
      exact hk.trans (List.length_filterMap_le _ _)
    · rw [hupTo, data_entries hmnem (List.forall₂_take k hgood)]
    · have hindices := (indices_of_goodRows (List.forall₂_take k hgood)).1
      have hvs := entries_indices (List.forall₂_take k hgood)
      have hend := congrArg (Option.map Prod.fst) hlast
      rw [← List.getLast?_map, hvs] at hend
      have hrow : ((feed.sent.take k).getLast?).map (rowIndex feed.state.indexType) =
          some (some e.1) := by
        rw [← List.getLast?_map, hindices, List.getLast?_map, hend]
        rfl
      obtain ⟨row, hlastRow, hindex⟩ := Option.map_eq_some_iff.mp hrow
      rw [hlastRow]
      exact hindex

end Stored

/-! ## 4. Runs

The invariant joins those of the two parts, with one log in both: the simulator's is tracked, and
the plant's account is of the same. -/

section Run

variable {rig : Rig} {cfg : Settings} {dep : Deployment} {serverId : ℤ} {h : LogHeader}
  {created log : StoredLog}

/-- Only an update changes the store. -/
theorem server_next {s s' : Plant} {e : Plant.Event} (hnext : s.next cfg dep serverId e = some s') :
    (∃ el, e = .engine (.update el) ∧
      s'.engine.server = (s.engine.server.updateLog (some el)).1) ∨
    (∀ el, e ≠ .engine (.update el)) ∧ s'.engine.server = s.engine.server := by
  have hanswered : ∀ (engine : Engine) key f a,
      (engine.answered cfg key f a).server = engine.server := by
    intro engine key f a
    rw [Engine.answered]
    split
    · rfl
    · rfl
    · split <;> rfl
  cases e with
  | engine e =>
    simp only [Plant.next] at hnext
    split at hnext
    · exact absurd hnext (by simp)
    · obtain ⟨engine, hengine, rfl⟩ := Option.map_eq_some_iff.mp hnext
      cases e with
      | update el => exact Or.inl ⟨el, rfl, (Option.some.inj hengine) ▸ rfl⟩
      | begin h' =>
        refine Or.inr ⟨by simp, ?_⟩
        simp only [Engine.next] at hengine
        split at hengine
        · exact absurd hengine (by simp)
        · rw [← Option.some.inj hengine, Engine.begun]
          split <;> rfl
      | answer key =>
        obtain ⟨f, -, rfl⟩ := Option.map_eq_some_iff.mp hengine
        exact Or.inr ⟨by simp, hanswered _ key f _⟩
      | fail key a =>
        simp only [Engine.next] at hengine
        split at hengine
        · obtain ⟨f, -, rfl⟩ := Option.map_eq_some_iff.mp hengine
          exact Or.inr ⟨by simp, hanswered _ key f a⟩
        · exact absurd hengine (by simp)
  | commit i =>
    obtain ⟨p, -, rfl⟩ := Option.map_eq_some_iff.mp hnext
    exact Or.inr ⟨by simp, rfl⟩
  | fail i =>
    obtain ⟨p, -, rfl⟩ := Option.map_eq_some_iff.mp hnext
    exact Or.inr ⟨by simp, rfl⟩
  | snapshot =>
    rw [← Option.some.inj hnext]
    refine Or.inr ⟨by simp, ?_⟩
    split <;> rfl
  | restart loaded => exact Or.inr ⟨by simp, (Option.some.inj hnext) ▸ rfl⟩

namespace Pipeline

/-- What holds of the system from the seeding on. -/
structure Inv (rig : Rig) (cfg : Settings) (dep : Deployment) (serverId : ℤ)
    (hn : 2 ≤ cfg.maxReturnNodes) (h : LogHeader) (created : StoredLog) (s : Pipeline)
    (log : StoredLog) : Prop where
  tracked : Tracked rig created s.feed
  direction : created.direction = s.state.direction
  key : h.logKey = s.state.key rig.wb
  plant : s.plant.Inv cfg dep serverId hn h log
  safe : Safe (s.plant.ledger dep serverId h log)

/-- **Every event keeps it.** -/
theorem Inv.next {hn : 2 ≤ cfg.maxReturnNodes} {s s' : Pipeline}
    (hi : s.Inv rig cfg dep serverId hn h created log)
    (hzone : dep.keepsZone = true ∨ h.indexType.isTime = false) {e : Event}
    (hmeets : s.Meets rig serverId h e) (hnext : s.next rig cfg dep serverId e = some s') :
    ∃ log', s'.Inv rig cfg dep serverId hn h created log' := by
  have hplant : ∀ {e : Plant.Event} {plant : Plant}, s.plant.Grows serverId h e →
      s.plant.next cfg dep serverId e = some plant →
      ∃ log', plant.Inv cfg dep serverId hn h log' ∧ Safe (plant.ledger dep serverId h log') := by
    intro e plant hg hstep
    obtain ⟨log', hi', hsame | hmoved⟩ := hi.plant.next hzone hg hstep
    · exact ⟨log', hi', hsame.symm ▸ hi.safe⟩
    · exact ⟨log', hi', hi.safe.step hmoved⟩
  cases e with
  | tick tickNo inputs =>
    rw [Pipeline.next] at hnext
    obtain ⟨plant, hstep, rfl⟩ := Option.map_eq_some_iff.mp hnext
    have hg : s.plant.Grows serverId h (.engine (.update (s.update rig tickNo inputs))) := by
      intro _ log' hlog'
      rw [hi.key] at hlog'
      exact hi.tracked.appendsPlain hi.direction hmeets hlog'
    obtain ⟨log', hi', hsafe⟩ := hplant hg hstep
    obtain ⟨-, -, -, -, -, hsame⟩ :=
      emitRows_spec rig.env (rig.tickInputs tickNo inputs) s.state hi.tracked.sound hmeets
    obtain ⟨el, heq, hserver⟩ | ⟨hnone, -⟩ := server_next hstep
    · obtain rfl : s.update rig tickNo inputs = el := by simpa using heq
      refine ⟨log', ?_, hi.direction.trans hsame.direction.symm, hi.key.trans (hsame.key rig.wb).symm,
        hi', hsafe⟩
      have happend := hi.tracked.append hmeets
      rw [feed, hserver]
      exact happend
    · exact absurd rfl (hnone _)
  | plant e =>
    obtain ⟨plant, hstep, rfl⟩ := Option.map_eq_some_iff.mp hnext
    have hg : s.plant.Grows serverId h e := by
      cases e with
      | engine e =>
        cases e with
        | update el =>
          intro hkey
          exact absurd (hkey.trans hi.key) hmeets
        | begin h' => exact hmeets
        | answer key => trivial
        | fail key a => trivial
      | commit i => trivial
      | fail i => trivial
      | snapshot => trivial
      | restart loaded => trivial
    obtain ⟨log', hi', hsafe⟩ := hplant hg hstep
    refine ⟨log', ?_, hi.direction, hi.key, hi', hsafe⟩
    refine hi.tracked.elsewhere ?_
    obtain ⟨el, rfl, hserver⟩ | ⟨-, hserver⟩ := server_next hstep
    · rw [hserver]
      exact findLog_updateLog_other hmeets
    · rw [hserver]
      rfl

/-- How far a simulated log has arrived after its first `k` rows were read: the cursor is at the last of
them, none of their readings is missing except in lost transactions, and each restart may bring every
row once more, as a run without one brings these rows alone. -/
structure Arrived (serverId : ℤ) (h : LogHeader) (s : Pipeline) (k : ℕ) : Prop where
  within : k ≤ s.sent.length
  cursor : s.plant.cursor serverId h =
    (s.sent.take k).getLast?.bind (rowIndex s.state.indexType)
  covered : ↑((s.sent.take k).flatMap (rowReadings s.state)) ≤
    s.plant.db.data (headerKey serverId h) +
      persistData serverId (headerKey serverId h) s.plant.waiting +
      persistData serverId (headerKey serverId h) s.plant.lost
  bounded : s.plant.db.data (headerKey serverId h) +
      persistData serverId (headerKey serverId h) s.plant.waiting +
      persistData serverId (headerKey serverId h) s.plant.lost ≤
    s.plant.restarts • ↑(s.sent.flatMap (rowReadings s.state)) +
      ↑((s.sent.take k).flatMap (rowReadings s.state))

/-- So a first part of the emitted rows has arrived. -/
theorem Inv.arrived {hn : 2 ≤ cfg.maxReturnNodes} {s : Pipeline}
    (hi : s.Inv rig cfg dep serverId hn h created log) : ∃ k, s.Arrived serverId h k := by
  have hfind := hi.plant.engine.find
  rw [hi.key] at hfind
  obtain ⟨hall, k, hk, hread, hcursor⟩ :=
    hi.tracked.data_upTo hi.direction hfind hi.plant.engine.cursor
  have hopen : (s.plant.ledger dep serverId h log).handed =
      s.plant.db.data (headerKey serverId h) +
        persistData serverId (headerKey serverId h) s.plant.waiting +
        persistData serverId (headerKey serverId h) s.plant.lost :=
    congrArg (fun x => s.plant.db.data (headerKey serverId h) + x + _) (openData_add s.plant.waiting)
  refine ⟨k, hk, hcursor.symm, ?_, ?_⟩
  · rw [← hopen]
    exact hread.symm.le.trans hi.safe.covered
  · rw [← hopen]
    exact hi.safe.bounded.trans_eq
      (congrArg₂ (fun all read => s.plant.restarts • all + read) hall hread)

/-! The beginning. -/

variable {state : LogState} {store : MockStore} {input : RowInput}

/-- A log of this identity alone is sole. -/
theorem sole_addLog_self {el : LogElem} {key : Str × Str × Str} (hsole : store.Sole key)
    (hkey : elemKey el = key) : (store.addLog (some el)).1.Sole key := by
  have hcreated : (ingestLogData (MockStore.logOfElem el) el).1.key = key :=
    (ingestLogData_key _ _).trans hkey
  rw [MockStore.addLog]
  dsimp only
  split
  · exact hsole
  · split
    · exact hsole
    · split
      · exact hsole
      · exact sole_addLog hsole hcreated

/-- The log that is created grows as the simulator says. -/
theorem direction_created (firstRow : EmittedRow) :
    (rig.created state firstRow).direction = state.direction := by
  have hread : ∀ d : Direction, parseDirection (childText (some d.value)) = d := by
    intro d
    cases d <;> decide
  exact hread state.direction

/-- **The seeded log is as the plant needs it.** -/
theorem inv_start (hn : 2 ≤ cfg.maxReturnNodes) (hdepth : state.Sound)
    (hnew : store.findLog (state.key rig.wb) = none) (hsole : store.Sole (state.key rig.wb))
    (hfind : (rig.seed ⟨state, store, []⟩ input).store.findLog (state.key rig.wb) = some log)
    (hheader : log.HasHeader h) :
    (start rig cfg state store input).Inv rig cfg dep serverId hn h
      (rig.created (emitRow rig.env false state input).2 (emitRow rig.env false state input).1)
      log := by
  have htracked := tracked_seed rig input hdepth hnew
  have hsame := sameLog_emitRow rig.env false state input
  have hstate : (rig.seed ⟨state, store, []⟩ input).state = (emitRow rig.env false state input).2 := rfl
  have hsent : (rig.seed ⟨state, store, []⟩ input).sent = [(emitRow rig.env false state input).1] :=
    rfl
  have hlogKey : log.key = state.key rig.wb := (MockStore.mem_of_findLog hfind).2
  have hkey' : (rig.seed ⟨state, store, []⟩ input).state.key rig.wb = state.key rig.wb := by
    rw [hstate, hsame.key]
  have hfind' := hfind
  rw [← hkey'] at hfind'
  have hreadable : log.Readable := by
    have hplain : ∀ e ∈ log.rows.entries, visible e = true ∧ Exact e.1 := by
      intro e he
      obtain ⟨row, hrow, hgood, hstored⟩ := htracked.entry hfind' he
      rw [hsent, List.mem_singleton] at hrow
      subst hrow
      obtain ⟨htoken, hexact⟩ :=
        ((shown_emitRow rig.env false input hdepth).of_sameLog hsame.symm).plain hgood
      refine ⟨?_, hexact⟩
      rw [visible, hstored]
      exact decide_eq_true htoken
    exact ⟨htracked.orderable hfind', fun e he => (hplain e he).1, fun e he => (hplain e he).2⟩
  have hsole' : (rig.seed ⟨state, store, []⟩ input).store.Sole log.key := by
    rw [hlogKey]
    exact sole_addLog_self hsole (by rw [elemKey_create, hsame.key])
  rw [← hlogKey] at hfind
  obtain ⟨hplant, hledger⟩ := Plant.inv_start dep serverId hn hfind hsole' hreadable hheader
  refine ⟨htracked, direction_created _, ?_, hplant, ?_⟩
  · rw [hheader.spec.1, hlogKey]
    exact hkey'.symm
  · exact hledger.symm ▸ ⟨Multiset.zero_le _, Multiset.zero_le _, Multiset.zero_le _,
      Multiset.zero_le _, Multiset.zero_le _⟩

end Pipeline

end Run

/-! The time log of a fleet of one: its seed row is read and saved, two ticks follow, and the process
crashes before the transaction of the next call is committed. -/

instance decidableAllAdvance (env : Env) : (state : LogState) → (inputs : List RowInput) →
    Decidable (AllAdvance env state inputs)
  | _, [] => .isTrue trivial
  | state, input :: inputs =>
    have := decidableAllAdvance env (emitRow env true state input).2 inputs
    inferInstanceAs (Decidable (Advances state input.now ∧
      AllAdvance env (emitRow env true state input).2 inputs))

instance (rig : Rig) (serverId : ℤ) (h : LogHeader) (s : Pipeline) :
    (e : Pipeline.Event) → Decidable (s.Meets rig serverId h e)
  | .tick tickNo inputs =>
    inferInstanceAs (Decidable (AllAdvance rig.env s.state (rig.tickInputs tickNo inputs)))
  | .plant (.engine (.update el)) =>
    inferInstanceAs (Decidable (elemKey el ≠ s.state.key rig.wb))
  | .plant (.engine (.begin h')) =>
    inferInstanceAs (Decidable (headerKey serverId h' = headerKey serverId h → h' = h))
  | .plant (.engine (.answer _)) => inferInstanceAs (Decidable True)
  | .plant (.engine (.fail _ _)) => inferInstanceAs (Decidable True)
  | .plant (.commit _) => inferInstanceAs (Decidable True)
  | .plant (.fail _) => inferInstanceAs (Decidable True)
  | .plant .snapshot => inferInstanceAs (Decidable True)
  | .plant (.restart _) => inferInstanceAs (Decidable True)

theorem seeded_isSome : (seeded.store.findLog (timeLog.key loneRig.wb)).isSome = true := by
  decide +kernel

/-- The log as it is seeded. -/
def seededLog : StoredLog := Option.get _ seeded_isSome

theorem seededLog_header_isSome :
    (seededLog.renderHeader.bind parseLogHeader).toOption.isSome = true := by decide +kernel

def timeLogHeader : LogHeader := Option.get _ seededLog_header_isSome

/-- A row at a reading of the clock, with no noise and no nulls. -/
def clearRowAt (micros : Fin maxMicros) : RowInput where
  now := ⟨micros, micros.isLt, true⟩
  draws _ := ⟨false, fun _ _ => .ofRatio 0 1⟩

/-- A driver that keeps zones, and columns that hold every row. -/
def zonedDeployment : Deployment := ⟨true, fun _ => true⟩

/-- A call of the time log. -/
def timeLogCall (answers : ℕ) : List Pipeline.Event :=
  (.begin timeLogHeader :: List.replicate answers (.answer (headerKey 1 timeLogHeader))).map fun e =>
    .plant (.engine e)

/-- The events up to the crash. -/
def timeLogCrash : List Pipeline.Event :=
  timeLogCall 1 ++ [.plant (.commit 0), .plant .snapshot,
    .tick 1 fun _ => clearRowAt (pastNoon 1000000),
    .tick 2 fun _ => clearRowAt (pastNoon 2000000)] ++ timeLogCall 2 ++
    [.plant (.restart true)] ++ timeLogCall 2 ++ [.plant (.commit 0)]

def timeLogStart : Pipeline :=
  Pipeline.start loneRig pageSettings timeLog emptyStore (rowAt (pastNoon 0))

theorem timeLogCrash_isSome : (replay (Pipeline.next loneRig pageSettings zonedDeployment 1)
    (fun s e => decide (s.Meets loneRig 1 timeLogHeader e)) timeLogStart timeLogCrash).isSome =
      true := by decide +kernel

def timeLogCrashed : Pipeline := Option.get _ timeLogCrash_isSome

end Simulator
end WitsmlViewer

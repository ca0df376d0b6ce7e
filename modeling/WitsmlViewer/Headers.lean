/-
# Headers, rendered and read back

A header-only response carries a log's fields, the index of its least and of its greatest row, and
one element for each curve.  `header_reads` says what `parse_log_headers` makes of it, for any log:
nothing in a stored log can make either side raise.

`extents_agree_iff` compares it with a data response.  The header's start is the least index
(`_emit_extents` takes `min` and `max`), the data's first row is the first in the log's direction.

For an increasing log these are the same row.  For a decreasing one they are the two ends,
exchanged, so the header says that the log starts where its data ends.  The fixtures of the
client's tests have it the other way: a decreasing log there starts at its greatest depth.

Nothing in the backend reads the extents of a header once they have been parsed, so no row is
ingested twice or not at all for their sake.
-/
import WitsmlViewer.RoundTrip

namespace WitsmlViewer

open Py
open MockStore (logOfElem elemKey updatedLog)

/-! ## 1. The least and the greatest index

`min` and `max` over indices of one kind.  They raise nothing, and what they return is one of the
indices; with `nan` among them it need not be an extreme one, which is why `Orderable` leaves `nan`
out. -/

section

variable {t : IndexType}

theorem Value.OfKind.lt?_ok {a b : Value} (ha : a.OfKind t) (hb : b.OfKind t) :
    ∃ r, a.lt? b = .ok r := by
  cases a with
  | text s => exact ha.elim
  | num x => cases b with
    | text s => exact hb.elim
    | num y => exact ⟨_, rfl⟩
    | dt d => exact absurd ha (by rw [Value.OfKind, hb.1]; decide)
  | dt d => cases b with
    | text s => exact hb.elim
    | num y => exact absurd hb (by rw [Value.OfKind, ha.1]; decide)
    | dt e => exact ⟨_, if_pos (ha.2.trans hb.2.symm)⟩

/-- Among indices of one kind `min` and `max` raise nothing, even next to a `nan`. -/
theorem extremum_mem (smallest : Bool) {vs : List Value} (h : ∀ v ∈ vs, v.OfKind t)
    (hne : vs ≠ []) : ∃ m ∈ vs, extremum smallest vs = .ok (some m) := by
  have hfold : ∀ (vs : List Value) (v : Value), v.OfKind t → (∀ u ∈ vs, u.OfKind t) →
      ∃ m ∈ v :: vs, vs.foldlM (extremum.better smallest) v = .ok m := by
    intro vs
    induction vs with
    | nil => exact fun v _ _ => ⟨v, by simp, rfl⟩
    | cons u vs ih =>
      intro v hv hvs
      have hu : u.OfKind t := hvs u (by simp)
      obtain ⟨b, hb, hbetter⟩ : ∃ b, (b = v ∨ b = u) ∧
          extremum.better smallest v u = .ok b := by
        obtain ⟨r, hr⟩ : ∃ r, (if smallest then u.lt? v else v.lt? u) = .ok r := by
          cases smallest with
          | true => exact hu.lt?_ok hv
          | false => exact hv.lt?_ok hu
        refine ⟨if r then u else v, ?_, by rw [extremum.better, hr]; rfl⟩
        cases r with
        | true => exact Or.inr rfl
        | false => exact Or.inl rfl
      have hbo : b.OfKind t := by rcases hb with rfl | rfl <;> assumption
      obtain ⟨m, hm, hrun⟩ := ih b hbo fun w hw => hvs w (by simp [hw])
      refine ⟨m, ?_, ?_⟩
      · rcases List.mem_cons.mp hm with rfl | hm
        · rcases hb with rfl | rfl <;> simp
        · simp [hm]
      · rw [List.foldlM_cons, hbetter]
        exact hrun
  cases vs with
  | nil => exact absurd rfl hne
  | cons v vs =>
    obtain ⟨m, hm, hrun⟩ := hfold vs v (h v (by simp)) fun u hu => h u (by simp [hu])
    exact ⟨m, hm, by simp [extremum, hrun, Except.map]⟩

/-- An extent is the token of a row that has the extreme index; without rows there is none. -/
theorem extentToken_spec (smallest : Bool) {entries : Dict Value StoredRow}
    (h : ∀ e ∈ entries, RowOk t e.1 e.2) :
    (entries = [] ∧ StoredLog.extentToken smallest entries = .ok none) ∨
      ∃ e ∈ entries, extremum smallest (entries.map Prod.fst) = .ok (some e.1) ∧
        StoredLog.extentToken smallest entries = .ok (some e.2.token) := by
  by_cases hnil : entries = []
  · exact Or.inl ⟨hnil, by rw [hnil]; rfl⟩
  · have hkinds : ∀ v ∈ entries.map Prod.fst, v.OfKind t := by
      intro v hv
      obtain ⟨e, he, rfl⟩ := List.mem_map.mp hv
      exact (h e he).ofKind
    obtain ⟨m, hm, hrun⟩ := extremum_mem smallest hkinds (by simpa using hnil)
    obtain ⟨f, hf, rfl⟩ := List.mem_map.mp hm
    obtain ⟨e, he⟩ := Option.isSome_iff_exists.mp (List.find?_isSome.mpr
      ⟨f, hf, decide_eq_true (rfl : f.1 = f.1)⟩ :
        (entries.find? fun e => decide (e.1 = f.1)).isSome = true)
    have hkey : e.1 = f.1 := by simpa using List.find?_some he
    refine Or.inr ⟨e, List.mem_of_find?_eq_some he, by rw [hrun, hkey], ?_⟩
    rw [StoredLog.extentToken, hrun]
    simp only [bind, Except.bind, Option.bind_some, he, Option.map_some]

/-- What a header's reader makes of an extent's token. -/
def readExtent (t : IndexType) (raw : Option Str) : Except PyError (Option Value) :=
  if t.isTime then (parseDatetime (childText raw)).map (Option.map .dt)
  else .ok ((parseFloat (childText raw)).map .num)

/-- It is the index that the row is keyed by. -/
theorem RowOk.readExtent {key : Value} {row : StoredRow} (h : RowOk t key row) :
    readExtent t (some row.token) = .ok (some key) := by
  have hchild : childText (some row.token) = some row.token :=
    childText_of_trimmed h.trimmed h.token_ne_nil
  have hp := h.parsed
  simp only [parseIndex, h.trimmed, h.token_ne_nil, if_false] at hp
  rw [WitsmlViewer.readExtent, hchild]
  split at hp
  · rename_i ht
    rw [if_pos ht]
    exact hp
  · rename_i ht
    rw [if_neg ht]
    rw [← hp, parseFloat, Option.bind_some, h.trimmed]

end

/-! ## 2. The whole header

Field by field, the header is rendered and read.  What a reader does to a text is to strip it and
to drop it if it is blank, so what is read back is said in the same terms, for logs of any origin.
-/

section

variable {log : StoredLog}

/-- An extent of some of the log's rows, rendered and read. -/
structure ExtentReads (log : StoredLog) (smallest : Bool) (entries : Dict Value StoredRow)
    (raw : Option Str) (d : Option Datetime) : Prop where
  token : StoredLog.extentToken smallest entries = .ok raw
  instant : parseDatetime (childText (if log.indexType.isTime then raw else none)) = .ok d
  blank : entries = [] → raw = none
  extreme : entries ≠ [] → raw.isSome = true ∧ ∃ e ∈ entries,
    extremum smallest (entries.map Prod.fst) = .ok (some e.1) ∧
    (if log.indexType.isTime then d.map Value.dt else (parseFloat (childText raw)).map Value.num) =
      some e.1

variable (log) in
/-- An extent is read as the index of the row that it is taken from, or as none. -/
theorem extent_reads (smallest : Bool) {entries : Dict Value StoredRow}
    (h : ∀ e ∈ entries, RowOk log.indexType e.1 e.2) :
    ∃ raw d, ExtentReads log smallest entries raw d := by
  rcases extentToken_spec smallest h with ⟨hnil, hrun⟩ | ⟨e, he, hext, hrun⟩
  · refine ⟨none, none, hrun, ?_, fun _ => rfl, fun hne => absurd hnil hne⟩
    split <;> rfl
  · have hread := (h e he).readExtent
    have hne : entries ≠ [] := List.ne_nil_of_mem he
    rw [readExtent] at hread
    cases ht : log.indexType.isTime with
    | false =>
      rw [ht, if_neg (by decide), Except.ok.injEq] at hread
      refine ⟨some e.2.token, none, hrun, by rw [ht]; rfl, fun hnil => absurd hnil hne, fun _ => ?_⟩
      exact ⟨rfl, e, he, hext, by rw [ht]; exact hread⟩
    | true =>
      rw [ht, if_pos rfl] at hread
      obtain ⟨d, hd, hkey⟩ := map_eq_ok.mp hread
      refine ⟨some e.2.token, d, hrun, by rw [ht]; exact hd, fun hnil => absurd hnil hne, fun _ => ?_⟩
      exact ⟨rfl, e, he, hext, by rw [ht]; exact hkey⟩

/-- What is read back of a curve. -/
structure CurveReads (c : CurveMeta) (info : LogCurveInfo) : Prop where
  mnemonic : info.mnemonic = (childText (some c.mnemonic)).getD []
  unit : info.unit = childText c.unit
  description : info.curveDescription = childText c.description
  typeLogData : info.typeLogData = childText c.typeLogData

/-- A curve is rendered and read.  Its extents are those of the rows that have a cell for it. -/
theorem curve_reads (log : StoredLog) (c : CurveMeta) :
    ∃ elem info, log.renderCurve c = .ok elem ∧ parseLogCurveInfo elem = .ok info ∧
      CurveReads c info := by
  let present := log.rows.entries.filter fun e : Value × StoredRow =>
    (e.2.cell? (log.mnemonics.idxOf c.mnemonic)).any fun cell =>
      log.mnemonics.idxOf c.mnemonic = 0 || strip cell ∉ log.nullSet
  have hpresent : ∀ e ∈ present, RowOk log.indexType e.1 e.2 := fun e he =>
    log.rows.rowOk e (List.mem_filter.mp he).1
  obtain ⟨lo, dlo, hlo⟩ := extent_reads log true hpresent
  obtain ⟨hi, dhi, hhi⟩ := extent_reads log false hpresent
  let elem : LogCurveInfoElem := {
    uid := none
    mnemonic := some c.mnemonic
    unit := c.unit
    curveDescription := c.description
    typeLogData := c.typeLogData
    nullValue := some ((c.nullValue.filter (· ≠ [])).getD log.nullValue)
    minIndex := if log.indexType.isTime then none else lo
    maxIndex := if log.indexType.isTime then none else hi
    minDateTimeIndex := if log.indexType.isTime then lo else none
    maxDateTimeIndex := if log.indexType.isTime then hi else none }
  have hrender : log.renderCurve c = .ok elem := by
    have hlo' := hlo.token
    have hhi' := hhi.token
    simp only [StoredLog.renderCurve, bind, Except.bind]
    rw [hlo', hhi']
  have hparse : ∃ info, parseLogCurveInfo elem = .ok info ∧ CurveReads c info := by
    have hlo' := hlo.instant
    have hhi' := hhi.instant
    simp only [parseLogCurveInfo, bind, Except.bind, elem, hlo', hhi']
    exact ⟨_, rfl, rfl, rfl, rfl, rfl⟩
  obtain ⟨info, hinfo, hreads⟩ := hparse
  exact ⟨elem, info, hrender, hinfo, hreads⟩

/-- The index that a header gives as its start. -/
def LogHeader.startExtent (h : LogHeader) : Option Value :=
  if h.indexType.isTime then h.startDatetimeIndex.map .dt else h.startIndex.map .num

/-- The index that a header gives as its end. -/
def LogHeader.endExtent (h : LogHeader) : Option Value :=
  if h.indexType.isTime then h.endDatetimeIndex.map .dt else h.endIndex.map .num

/-- What is read back of a header. -/
structure HeaderReads (log : StoredLog) (h : LogHeader) : Prop where
  uid : h.uid = log.uid ∧ h.uidWell = log.uidWell ∧ h.uidWellbore = log.uidWellbore
  name : h.name = childText log.name
  nameWell : h.nameWell = childText log.nameWell
  nameWellbore : h.nameWellbore = childText log.nameWellbore
  indexType : h.indexType = log.indexType
  indexCurve : h.indexCurve = childText log.indexCurve
  direction : h.direction = log.direction
  nullValue : h.nullValue = childText (some log.nullValue)
  indexUom : h.indexUom = if log.indexType.isTime ∨ log.rows.entries = [] then none
    else (log.indexUom.filter (· ≠ [])).map strip
  start : log.rows.entries ≠ [] → ∃ e ∈ log.rows.entries,
    extremum true (log.rows.entries.map Prod.fst) = .ok (some e.1) ∧ h.startExtent = some e.1
  stop : log.rows.entries ≠ [] → ∃ e ∈ log.rows.entries,
    extremum false (log.rows.entries.map Prod.fst) = .ok (some e.1) ∧ h.endExtent = some e.1
  curves : List.Forall₂ CurveReads log.curves h.curves

theorem parseDirection_text (d : Direction) : parseDirection (childText (some d.value)) = d := by
  cases d <;> decide

/-- A unit is rendered with the start of the log, and an empty one is read as none. -/
theorem uom_reads (time : Bool) (start uom : Option Str) :
    ((if time || start.isNone then none else some (uom.getD [])).filter (· ≠ [])).map strip =
      if time = true ∨ start.isNone = true then none else (uom.filter (· ≠ [])).map strip := by
  cases time with
  | true => rfl
  | false =>
    cases start with
    | none => rfl
    | some s => cases uom <;> rfl

/-- **Every stored log's header is rendered and read back.**  No hypothesis: a row's token is what
its key was read from, so an extent can be read, and every other field is a text that is passed on
or dropped. -/
theorem header_reads (log : StoredLog) :
    ∃ elem h, log.renderHeader = .ok elem ∧ parseLogHeader elem = .ok h ∧ HeaderReads log h := by
  obtain ⟨lo, dlo, hlo⟩ := extent_reads log true log.rows.rowOk
  obtain ⟨hi, dhi, hhi⟩ := extent_reads log false log.rows.rowOk
  choose elemOf infoOf hrender hinfo hcurve using curve_reads log
  have hcurves : log.curves.mapM log.renderCurve = .ok (log.curves.map elemOf) :=
    mapM_eq_ok fun c _ => hrender c
  have hinfos : (log.curves.map elemOf).mapM parseLogCurveInfo = .ok (log.curves.map infoOf) := by
    rw [List.mapM_map]
    exact mapM_eq_ok fun c _ => hinfo c
  have hlo' := hlo.token
  have hhi' := hhi.token
  have hdlo := hlo.instant
  have hdhi := hhi.instant
  let elem : LogElem := { log.renderIdentity with
    nameWell := log.nameWell
    nameWellbore := log.nameWellbore
    name := log.name
    indexType := some log.indexType.value
    indexCurve := log.indexCurve
    direction := some log.direction.value
    objectGrowing := some (if log.objectGrowing then "true".toList else "false".toList)
    nullValue := some log.nullValue
    startIndex := if log.indexType.isTime then none else lo
    endIndex := if log.indexType.isTime then none else hi
    startIndexUom := if log.indexType.isTime || lo.isNone then none
      else some (log.indexUom.getD [])
    startDateTimeIndex := if log.indexType.isTime then lo else none
    endDateTimeIndex := if log.indexType.isTime then hi else none
    logCurveInfo := log.curves.map elemOf }
  have helem : log.renderHeader = .ok elem := by
    simp only [StoredLog.renderHeader, bind, Except.bind, hcurves]
    rw [hlo', hhi']
  have hparse : ∃ h, parseLogHeader elem = .ok h ∧ HeaderReads log h := by
    simp only [parseLogHeader, bind, Except.bind, elem, hinfos, hdlo, hdhi]
    refine ⟨_, rfl, ⟨rfl, rfl, rfl⟩, rfl, rfl, rfl, parseIndexType_text _, rfl,
      parseDirection_text _, rfl, ?_, fun hne => ?_, fun hne => ?_, ?_⟩
    · have hnone : lo.isNone = true ↔ log.rows.entries = [] := by
        refine ⟨fun hlo' => ?_, fun hnil => by rw [hlo.blank hnil]; rfl⟩
        by_contra hne
        rw [Option.isNone_iff_eq_none.mp hlo'] at hlo
        exact absurd (hlo.extreme hne).1 (by decide)
      rw [uom_reads]
      simp only [hnone]
    · obtain ⟨-, e, he, hext, hkey⟩ := hlo.extreme hne
      refine ⟨e, he, hext, ?_⟩
      rw [← hkey, LogHeader.startExtent]
      simp only [parseIndexType_text]
      split <;> rfl
    · obtain ⟨-, e, he, hext, hkey⟩ := hhi.extreme hne
      refine ⟨e, he, hext, ?_⟩
      rw [← hkey, LogHeader.endExtent]
      simp only [parseIndexType_text]
      split <;> rfl
    · rw [List.forall₂_map_right_iff]
      exact List.forall₂_same.mpr fun c _ => hcurve c
  obtain ⟨h, hh, hreads⟩ := hparse
  exact ⟨elem, h, helem, hh, hreads⟩

end

/-! ## 3. Extents and data

To compare the two responses one asks for both: a header-only query and a data-only query, for the
whole log and without a page cap that would cut the data short. -/

/-- The index of each row of a data response, read from its first cell. -/
def responseIndices (t : IndexType) (el : LogElem) : List (Option Value) :=
  (blockLines el).map fun w => w.index t

/-- A query for one log, without bounds and without a page cap. -/
def StoredLog.wholeQuery (log : StoredLog) (returnElements : ReturnElements) : LogQuery where
  uidWell := log.uidWell
  uidWellbore := log.uidWellbore
  uid := log.uid
  options := { returnElements := returnElements }

/-- The header-only response gives the indices of the first and of the last row of the data-only
response as the log's extents. -/
def ExtentsAgree (maxRequestLatestValues : ℤ) (log : StoredLog) : Prop :=
  ∃ header data h, log.answer maxRequestLatestValues (log.wholeQuery .headerOnly) =
      .ok (header, false) ∧
    parseLogHeaders [header] = .ok [h] ∧
    log.answer maxRequestLatestValues (log.wholeQuery .dataOnly) = .ok (data, false) ∧
    (∃ v, (responseIndices log.indexType data).head? = some (some v) ∧ h.startExtent = some v) ∧
    ∃ v, (responseIndices log.indexType data).getLast? = some (some v) ∧ h.endExtent = some v

section

variable {log : StoredLog}

/-- The rows of the data response have the indices of the table, in its order. -/
theorem responseIndices_table (log : StoredLog) :
    responseIndices log.indexType (log.pageElem log.table) = log.table.map fun e => some e.1 := by
  by_cases hpg : log.table = []
  · rw [hpg]
    rfl
  · have hdata : (log.pageElem log.table).logData = some ⟨some (join ',' log.mnemonics),
        some (join ',' (log.units.map fun u => u.getD [])),
        (log.table.map Prod.snd).map fun row => some row.line⟩ := by
      simp [StoredLog.pageElem, StoredLog.renderData, hpg]
    rw [responseIndices, blockLines, hdata]
    dsimp only
    rw [StoredLog.dataLines_of_page fun e he => StoredLog.mem_table.mp he, List.map_map, List.map_map]
    refine List.map_congr_left fun e he => ?_
    have hok := log.rows.rowOk e (StoredLog.mem_table.mp he)
    obtain ⟨rest, hsplit⟩ := split_join_cons hok.noComma e.2.cells
    rw [Function.comp_apply, Function.comp_apply, WrittenLine.index, WrittenLine.token,
      WrittenLine.cells, StoredRow.line, hsplit, List.map_cons, List.headD_cons, hok.trimmed,
      hok.parsed]
    rfl

/-- A row whose index is extreme, and the first or last row of the table, are one row of a log that
grows that way.  This is the only place where the direction comes in. -/
theorem extremum_eq_iff (ho : log.Orderable) (d : Direction) {e f : Entry}
    (he : e ∈ log.rows.entries) (hf : f ∈ log.rows.entries)
    (hext : extremum (d == .decreasing) (log.rows.entries.map Prod.fst) = .ok (some e.1)) :
    f.1 = e.1 ↔ ∀ g ∈ log.rows.entries, growthKey d g.1 ≤ growthKey d f.1 := by
  have horders : ∀ v ∈ log.rows.entries.map Prod.fst, v.Orders log.indexType := by
    intro v hv
    obtain ⟨g, hg, rfl⟩ := List.mem_map.mp hv
    exact ho.orders hg
  obtain ⟨m, -, hrun, hmax⟩ := extremum_spec d horders
    (List.ne_nil_of_mem (List.mem_map_of_mem he))
  obtain rfl : m = e.1 := Option.some.inj (Except.ok.inj (hrun.symm.trans hext))
  constructor
  · intro heq g hg
    rw [heq]
    exact hmax g.1 (List.mem_map_of_mem hg)
  · intro hall
    refine growthKey_inj (ho.orders hf) (ho.orders he) (le_antisymm ?_ (hall e he))
    exact hmax f.1 (List.mem_map_of_mem hf)

/-- The first and the last row of a table that has any, and where the others are between them. -/
theorem table_ends (ho : log.Orderable) (hne : log.rows.entries ≠ []) :
    ∃ first ∈ log.rows.entries, ∃ last ∈ log.rows.entries,
      log.table.head? = some first ∧ log.table.getLast? = some last ∧
      ∀ g ∈ log.rows.entries, log.entryKey first ≤ log.entryKey g ∧
        log.entryKey g ≤ log.entryKey last := by
  have htable : log.table ≠ [] := by
    obtain ⟨e, he⟩ := List.exists_mem_of_ne_nil _ hne
    exact List.ne_nil_of_mem (StoredLog.mem_table.mpr he)
  have hord := StoredLog.table_ordered ho
  have hhead : log.table.head? = some (log.table.head htable) := List.head?_eq_some_head htable
  have hlast : log.table.getLast? = some (log.table.getLast htable) :=
    List.getLast?_eq_some_getLast htable
  refine ⟨_, StoredLog.mem_table.mp (List.head_mem htable), _,
    StoredLog.mem_table.mp (List.getLast_mem htable), hhead, hlast, fun g hg => ⟨?_, ?_⟩⟩
  · obtain ⟨e, l, hl⟩ := List.exists_cons_of_ne_nil htable
    have hg := StoredLog.mem_table.mpr hg
    simp only [hl, List.head_cons]
    rw [hl] at hg hord
    rcases List.mem_cons.mp hg with rfl | hg
    · exact le_refl _
    · exact (List.rel_of_pairwise_cons hord hg).le
  · obtain ⟨l, e, hl⟩ := (List.eq_nil_or_concat' log.table).resolve_left htable
    have hg := StoredLog.mem_table.mpr hg
    simp only [hl, List.getLast_append_singleton]
    rw [hl] at hg hord
    rcases List.mem_append.mp hg with hg | hg
    · exact ((List.pairwise_append.mp hord).2.2 g hg e (List.mem_singleton_self e)).le
    · rw [List.mem_singleton.mp hg]

/-- The rows of a log that all stand at one place are one row. -/
theorem length_eq_one (ho : log.Orderable) (hne : log.rows.entries ≠ [])
    (hall : ∀ e ∈ log.rows.entries, ∀ f ∈ log.rows.entries, log.entryKey e = log.entryKey f) :
    log.rows.entries.length = 1 := by
  have hlen : log.table.length = log.rows.entries.length := List.length_insertionSort _ _
  have hord := StoredLog.table_ordered ho
  cases htable : log.table with
  | nil =>
    rw [htable, List.length_nil] at hlen
    exact absurd (List.length_eq_zero_iff.mp hlen.symm) hne
  | cons e l =>
    cases l with
    | nil => rw [← hlen, htable]; rfl
    | cons f l =>
      rw [htable] at hord
      have hlt := List.rel_of_pairwise_cons hord List.mem_cons_self
      have heq := hall e (StoredLog.mem_table.mp (by rw [htable]; simp))
        f (StoredLog.mem_table.mp (by rw [htable]; simp))
      exact absurd heq hlt.ne

/-- A header-only query without a range is answered by the header. -/
theorem answer_header {q : LogQuery} {header : LogElem} (hrender : log.renderHeader = .ok header)
    (hoptions : q.options = { returnElements := .headerOnly })
    (hrange : queryRange q log.indexType = .ok (none, none)) (maxRequestLatestValues : ℤ) :
    log.answer maxRequestLatestValues q = .ok (header, false) := by
  rw [StoredLog.answer, hrange, hoptions]
  change (log.renderHeader).map (·, false) = _
  rw [hrender]
  rfl

/-- One header is read from a response with one. -/
theorem parseLogHeaders_singleton {header : LogElem} {h : LogHeader}
    (hparse : parseLogHeader header = .ok h) : parseLogHeaders [header] = .ok [h] := by
  rw [parseLogHeaders, List.mapM_cons, hparse]
  rfl

/-- What it means for the extents to agree, once it is known what the two responses say. -/
theorem extentsAgree_iff_ends (maxRequestLatestValues : ℤ) (ho : log.Orderable) {header : LogElem}
    {h : LogHeader} (hrender : log.renderHeader = .ok header) (hparse : parseLogHeader header = .ok h)
    {first last : Entry} (hhead : log.table.head? = some first)
    (htail : log.table.getLast? = some last) {lo hi : Value} (hstart : h.startExtent = some lo)
    (hstop : h.endExtent = some hi) :
    ExtentsAgree maxRequestLatestValues log ↔ first.1 = lo ∧ last.1 = hi := by
  have hrange : queryRange (log.wholeQuery .headerOnly) log.indexType = .ok (none, none) := by
    rw [queryRange]
    split <;> rfl
  have hheader := answer_header hrender rfl hrange maxRequestLatestValues
  have hheaders := parseLogHeaders_singleton hparse
  have hasks : AsksForAll log.renderIdentity (log.wholeQuery .dataOnly) :=
    ⟨rfl, rfl, rfl, rfl, rfl, rfl, rfl, rfl⟩
  have hdata := answer_all ho hasks maxRequestLatestValues
  have hindices := responseIndices_table log
  constructor
  · rintro ⟨header', data', h', hheader', hheaders', hdata', ⟨v, hv, hv'⟩, w, hw, hw'⟩
    obtain rfl := (Prod.mk.inj (Except.ok.inj (hheader.symm.trans hheader'))).1
    obtain rfl := (List.cons.inj (Except.ok.inj (hheaders.symm.trans hheaders'))).1
    obtain rfl := (Prod.mk.inj (Except.ok.inj (hdata.symm.trans hdata'))).1
    rw [hindices, List.head?_map, hhead] at hv
    rw [hindices, List.getLast?_map, htail] at hw
    rw [hstart] at hv'
    rw [hstop] at hw'
    exact ⟨(Option.some.inj (Option.some.inj hv)).trans (Option.some.inj hv').symm,
      (Option.some.inj (Option.some.inj hw)).trans (Option.some.inj hw').symm⟩
  · rintro ⟨hstart', hstop'⟩
    refine ⟨header, _, h, hheader, hheaders, hdata, ⟨lo, ?_, hstart⟩, hi, ?_, hstop⟩
    · rw [hindices, List.head?_map, hhead, ← hstart']
      rfl
    · rw [hindices, List.getLast?_map, htail, ← hstop']
      rfl

/-- The extents of a log agree with its data exactly when it is increasing or has one row. -/
theorem extentsAgree_iff (maxRequestLatestValues : ℤ) (hne : log.rows.entries ≠ [])
    (ho : log.Orderable) : ExtentsAgree maxRequestLatestValues log ↔
      log.direction = .increasing ∨ log.rows.entries.length = 1 := by
  obtain ⟨header, h, hrender, hparse, hreads⟩ := header_reads log
  obtain ⟨first, hfirst, last, hlast, hhead, htail, hbetween⟩ := table_ends ho hne
  obtain ⟨lo, hlo, hlomin, hstart⟩ := hreads.start hne
  obtain ⟨hi, hhi, hhimax, hstop⟩ := hreads.stop hne
  rw [extentsAgree_iff_ends maxRequestLatestValues ho hrender hparse hhead htail hstart hstop,
    extremum_eq_iff ho .decreasing hlo hfirst hlomin, extremum_eq_iff ho .increasing hhi hlast hhimax]
  cases hd : log.direction with
  | increasing =>
    refine ⟨fun _ => Or.inl rfl, fun _ => ⟨fun g hg => ?_, fun g hg => ?_⟩⟩
    · have := (hbetween g hg).1
      simp only [StoredLog.entryKey, hd, growthKey] at this ⊢
      omega
    · have := (hbetween g hg).2
      simp only [StoredLog.entryKey, hd, growthKey] at this ⊢
      omega
  | decreasing =>
    constructor
    · -- the first row has the greatest index, and `min` says it has the least
      rintro ⟨hleast, -⟩
      refine Or.inr (length_eq_one ho hne fun e he f hf => ?_)
      have he' := hleast e he
      have hf' := hleast f hf
      have he'' := (hbetween e he).1
      have hf'' := (hbetween f hf).1
      simp only [StoredLog.entryKey, hd] at he'' hf'' ⊢
      omega
    · intro hone
      have hone := hone.resolve_left (by decide)
      have hsame : ∀ g ∈ log.rows.entries, g = first ∧ g = last := by
        obtain ⟨e, he⟩ := List.length_eq_one_iff.mp hone
        intro g hg
        rw [he, List.mem_singleton] at hg hfirst hlast
        exact ⟨hg.trans hfirst.symm, hg.trans hlast.symm⟩
      refine ⟨fun g hg => ?_, fun g hg => ?_⟩
      · rw [(hsame g hg).1]
      · rw [(hsame g hg).2]

/-- **The extents agree with the data exactly when** the log is increasing or has one row; so after
any updates.

The log has rows, and no row for `nan`.  Updates may add rows at either end and in between, and
write rows again; as the extents are computed from the rows at each request, there is no history in
the statement, and the updates are in it only to say so. -/
theorem extents_agree_iff (maxRequestLatestValues : ℤ) (log : StoredLog) (updates : List LogElem)
    (hne : (updates.foldl (fun l u => updatedLog u l) log).rows.entries ≠ [])
    (ho : (updates.foldl (fun l u => updatedLog u l) log).Orderable) :
    ExtentsAgree maxRequestLatestValues (updates.foldl (fun l u => updatedLog u l) log) ↔
      log.direction = .increasing ∨
        (updates.foldl (fun l u => updatedLog u l) log).rows.entries.length = 1 := by
  have hdir : (updates.foldl (fun l u => updatedLog u l) log).direction = log.direction := by
    clear hne ho
    induction updates generalizing log with
    | nil => rfl
    | cons u updates ih => exact (ih _).trans (updatedLog_sameHead log u).direction
  rw [extentsAgree_iff _ hne ho, hdir]

end

instance (log : StoredLog) : Decidable log.Orderable :=
  inferInstanceAs (Decidable (∀ e ∈ log.rows.entries, e.1 ≠ .num .nan))

/-- A log that grows upwards, from 3000 to 2990. -/
def upwards : StoredLog :=
  Objects.createdLog (logElem "L" .measuredDepth .decreasing ["DEPTH", "GR"] ["3000,1", "2990,2"])

/-- Its header starts at 2990, where its data ends. -/
theorem upwards_disagrees : upwards.rows.entries ≠ [] ∧ upwards.Orderable ∧
    ¬ExtentsAgree 10000 upwards := by
  have hne : upwards.rows.entries ≠ [] := by
    have hlen : upwards.rows.entries.length = 2 := by decide +kernel
    exact List.ne_nil_of_length_pos (by omega)
  have ho : upwards.Orderable := by decide +kernel
  refine ⟨hne, ho, fun h => ?_⟩
  have hcond := (extentsAgree_iff 10000 hne ho).mp h
  exact absurd hcond (by decide +kernel)

/-- The equivalence after one more row has been written at its end. -/
theorem extents_agree_iff_upwards :
    ExtentsAgree 10000 ([logElem "L" .measuredDepth .decreasing ["DEPTH", "GR"] ["2980,3"]].foldl
      (fun l u => updatedLog u l) upwards) ↔
    upwards.direction = .increasing ∨
      ([logElem "L" .measuredDepth .decreasing ["DEPTH", "GR"] ["2980,3"]].foldl
        (fun l u => updatedLog u l) upwards).rows.entries.length = 1 :=
  extents_agree_iff 10000 upwards [logElem "L" .measuredDepth .decreasing ["DEPTH", "GR"] ["2980,3"]]
    (List.ne_nil_of_length_pos (by decide +kernel)) (by decide +kernel)

end WitsmlViewer

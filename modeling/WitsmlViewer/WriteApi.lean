/-
# The write API's log header (`app.api.store_write`)

`build_log_xml` renders a JSON body as a `<log>` element, the store makes a log of it, and the
header-only response goes through `parse_log_headers`.  Every field is passed on by each of the
four but one: the body's `indexUom` has no element.  The unit that a response gives with the start
of a depth log is then the first curve's, and without rows there is no start.

`header_survives_iff`: when the header read back is the one that was sent, whatever is written to
the store in between.

The field is declared in the body's model, beside those that are passed on, and `build_log_xml`
never mentions it.  So the unit that comes back is never the one that was sent, but may be equal to
it.
-/
import WitsmlViewer.Headers

namespace WitsmlViewer

open Py
open MockStore (logOfElem elemKey updatedLog)

/-! ## 1. Bodies

The bodies of the API as their models declare them, and what it means for a header read back to be
the one that was sent.  A valid body has trimmed texts: the model accepts others, and these are
dropped or stripped on the way, as any XML text is. -/

structure CurveBody where
  mnemonic : Str
  unit : Option Str := none
  curveDescription : Option Str := none
  typeLogData : Option Str := none

/-- The body of a request for a new log. -/
structure LogBody where
  uid : Str
  uidWell : Str
  uidWellbore : Str
  name : Option Str := none
  nameWell : Option Str := none
  nameWellbore : Option Str := none
  indexType : Str := "measured depth".toList
  indexCurve : Option Str := none
  direction : Str := "increasing".toList
  nullValue : Option Str := none
  indexUom : Option Str := none
  curves : List CurveBody := []

/-- `build_log_xml`. -/
def buildLogXml (body : LogBody) : LogElem where
  uid := some body.uid
  uidWell := some body.uidWell
  uidWellbore := some body.uidWellbore
  nameWell := body.nameWell
  nameWellbore := body.nameWellbore
  name := body.name
  indexType := some body.indexType
  indexCurve := (body.indexCurve.filter (· ≠ [])).or (body.curves.head?.map CurveBody.mnemonic)
  direction := some body.direction
  nullValue := body.nullValue
  logCurveInfo := body.curves.map fun curve => {
    uid := some curve.mnemonic
    mnemonic := some curve.mnemonic
    unit := curve.unit
    curveDescription := curve.curveDescription
    typeLogData := curve.typeLogData
    nullValue := none
    minIndex := none
    maxIndex := none
    minDateTimeIndex := none
    maxDateTimeIndex := none }

/-- A text that is neither blank nor padded. -/
def Trimmed (s : Str) : Prop := s ≠ [] ∧ strip s = s

instance (s : Str) : Decidable (Trimmed s) := inferInstanceAs (Decidable (_ ∧ _))

def CurveBody.texts (c : CurveBody) : List Str :=
  c.mnemonic :: [c.unit, c.curveDescription, c.typeLogData].reduceOption

/-- Every text of a body. -/
def LogBody.texts (body : LogBody) : List Str :=
  [body.uid, body.uidWell, body.uidWellbore, body.indexType, body.direction] ++
    [body.name, body.nameWell, body.nameWellbore, body.indexCurve, body.nullValue,
      body.indexUom].reduceOption ++ body.curves.flatMap CurveBody.texts

/-- Trimmed texts, distinct curves, an index type and a direction of the enumerations. -/
structure LogBody.Valid (body : LogBody) : Prop where
  texts : ∀ s ∈ body.texts, Trimmed s
  distinct : (body.curves.map CurveBody.mnemonic).Nodup
  indexType : ∃ t : IndexType, body.indexType = t.value
  direction : ∃ d : Direction, body.direction = d.value

/-- The fields of a body are those of a header read back: the index curve is the first one when
omitted, the null value the default. -/
structure LogBody.Survives (body : LogBody) (h : LogHeader) : Prop where
  name : h.name = body.name
  nameWell : h.nameWell = body.nameWell
  nameWellbore : h.nameWellbore = body.nameWellbore
  indexType : h.indexType.value = body.indexType
  indexCurve : h.indexCurve = body.indexCurve.or (body.curves.head?.map CurveBody.mnemonic)
  direction : h.direction.value = body.direction
  nullValue : h.nullValue = some (body.nullValue.getD defaultNullValue)
  indexUom : ∀ uom, body.indexUom = some uom → h.indexUom = some uom
  curves : List.Forall₂ (fun c info => info.mnemonic = c.mnemonic ∧ info.unit = c.unit ∧
    info.curveDescription = c.curveDescription ∧ info.typeLogData = c.typeLogData)
      body.curves h.curves

/-! ## 2. What a log keeps of its header

Updates write rows and set `objectGrowing`, and change nothing else of a log.  So a header that has
survived its creation survives everything after it, but for its extents, and for the one unit that
is rendered with them. -/

/-- Two states of one log with one header: they differ in rows and `objectGrowing` at most. -/
structure KeepsHeader (log log' : StoredLog) : Prop where
  head : SameHead log log'
  name : log'.name = log.name
  nameWell : log'.nameWell = log.nameWell
  nameWellbore : log'.nameWellbore = log.nameWellbore
  indexCurve : log'.indexCurve = log.indexCurve
  indexUom : log'.indexUom = log.indexUom

theorem KeepsHeader.refl (log : StoredLog) : KeepsHeader log log :=
  ⟨SameHead.refl log, rfl, rfl, rfl, rfl, rfl⟩

theorem KeepsHeader.trans {log log' log'' : StoredLog} (h : KeepsHeader log log')
    (h' : KeepsHeader log' log'') : KeepsHeader log log'' :=
  ⟨h.head.trans h'.head, h'.name.trans h.name, h'.nameWell.trans h.nameWell,
    h'.nameWellbore.trans h.nameWellbore, h'.indexCurve.trans h.indexCurve,
    h'.indexUom.trans h.indexUom⟩

theorem updatedLog_keepsHeader (log : StoredLog) (el : LogElem) :
    KeepsHeader log (updatedLog el log) := by
  have h : KeepsHeader log (ingestLogData log el).1 :=
    ingestLogData_induction (P := KeepsHeader log)
      (fun _ _ h => ⟨⟨h.1.1, h.1.2, h.1.3, h.1.4, h.1.5⟩, h.2, h.3, h.4, h.5, h.6⟩)
      (KeepsHeader.refl log) el
  unfold MockStore.updatedLog
  split <;> rename_i hin <;> rw [hin] at h
  · exact ⟨⟨h.1.1, h.1.2, h.1.3, h.1.4, h.1.5⟩, h.2, h.3, h.4, h.5, h.6⟩
  · exact h

section

variable {store : MockStore} {key : Str × Str × Str} {log : StoredLog}

/-- Updates of any logs keep every log's header. -/
theorem findLog_updates : ∀ (updates : List LogElem) {store : MockStore} {log : StoredLog},
    store.findLog key = some log → store.Sole key →
    ∃ log', (updates.foldl (fun store u => (store.updateLog (some u)).1) store).findLog key =
        some log' ∧
      (updates.foldl (fun store u => (store.updateLog (some u)).1) store).Sole key ∧
      KeepsHeader log log'
  | [], _, log, hfind, hsole => ⟨log, hfind, hsole, KeepsHeader.refl log⟩
  | u :: updates, store, log, hfind, hsole => by
    have hnext : ∃ next, (store.updateLog (some u)).1.findLog key = some next ∧
        KeepsHeader log next := by
      rw [MockStore.findLog_updateLog, hfind, Option.map_some]
      by_cases hk : key = elemKey u
      · exact ⟨_, by rw [if_pos hk], updatedLog_keepsHeader log u⟩
      · exact ⟨_, by rw [if_neg hk], KeepsHeader.refl log⟩
    obtain ⟨next, hfind', hsame⟩ := hnext
    obtain ⟨log', hlog', hsole', hsame'⟩ := findLog_updates updates hfind' (hsole.update u)
    exact ⟨log', hlog', hsole', hsame.trans hsame'⟩

end

/-! ## 3. There and back

From the body to the log, from the log to the response, from the response to the header.  The
middle part is `header_reads`, which holds of any log; what is left is to follow each field through
the other two. -/

theorem childText_trimmed {s : Str} (h : Trimmed s) : childText (some s) = some s :=
  childText_of_trimmed h.2 h.1

/-- An optional trimmed text survives each reader. -/
theorem childText_of_valid {s : Option Str} (h : ∀ t, s = some t → Trimmed t) :
    childText s = s := by
  cases s with
  | none => rfl
  | some t => exact childText_trimmed (h t rfl)

section

variable {body : LogBody}

/-- An optional text of a valid body is trimmed. -/
theorem LogBody.Valid.option (h : body.Valid) {s : Option Str}
    (hs : s ∈ [body.name, body.nameWell, body.nameWellbore, body.indexCurve, body.nullValue,
      body.indexUom]) : ∀ t, s = some t → Trimmed t := by
  rintro t rfl
  refine h.texts t (List.mem_append_left _ (List.mem_append_right _ ?_))
  exact List.reduceOption_mem_iff.mpr hs

theorem LogBody.Valid.curve (h : body.Valid) {c : CurveBody} (hc : c ∈ body.curves) :
    Trimmed c.mnemonic ∧ ∀ s ∈ [c.unit, c.curveDescription, c.typeLogData], ∀ t, s = some t →
      Trimmed t := by
  have hmem : ∀ t ∈ c.texts, Trimmed t := fun t ht =>
    h.texts t (List.mem_append_right _ (List.mem_flatMap.mpr ⟨c, hc, ht⟩))
  refine ⟨hmem _ List.mem_cons_self, ?_⟩
  rintro s hs t rfl
  exact hmem t (List.mem_cons_of_mem _ (List.reduceOption_mem_iff.mpr hs))

/-- The log that the store makes of a body. -/
theorem logOfElem_buildLogXml (h : body.Valid) :
    (logOfElem (buildLogXml body)).curves = body.curves.map (fun c =>
      ⟨c.mnemonic, c.unit, c.curveDescription, c.typeLogData, none⟩) ∧
    (logOfElem (buildLogXml body)).indexCurve =
      body.indexCurve.or (body.curves.head?.map CurveBody.mnemonic) ∧
    (logOfElem (buildLogXml body)).indexUom = body.curves.head?.bind CurveBody.unit := by
  have hcurves : (logOfElem (buildLogXml body)).curves = body.curves.map (fun c =>
      ⟨c.mnemonic, c.unit, c.curveDescription, c.typeLogData, none⟩) := by
    have hread : (logOfElem (buildLogXml body)).curves = body.curves.map (fun c =>
        ⟨(childText (some c.mnemonic)).getD [], childText c.unit, childText c.curveDescription,
          childText c.typeLogData, none⟩) := by
      change (body.curves.map _).map _ = _
      rw [List.map_map]
      rfl
    rw [hread]
    refine List.map_congr_left fun c hc => ?_
    obtain ⟨hmnem, hopts⟩ := h.curve hc
    rw [childText_trimmed hmnem, childText_of_valid (hopts c.unit (by simp)),
      childText_of_valid (hopts c.curveDescription (by simp)),
      childText_of_valid (hopts c.typeLogData (by simp))]
    rfl
  refine ⟨hcurves, ?_, ?_⟩
  · have hindex : (logOfElem (buildLogXml body)).indexCurve =
        (childText (buildLogXml body).indexCurve).or
          ((logOfElem (buildLogXml body)).curves.head?.map CurveMeta.mnemonic) := rfl
    have hfilter : body.indexCurve.filter (· ≠ []) = body.indexCurve := by
      cases hi : body.indexCurve with
      | none => rfl
      | some s =>
        have hs := h.option (s := body.indexCurve) (by simp) s hi
        simp [hs.1]
    have htext : ∀ t, (buildLogXml body).indexCurve = some t → Trimmed t := by
      intro t ht
      rw [buildLogXml] at ht
      dsimp only at ht
      rw [hfilter] at ht
      rcases Option.or_eq_some_iff.mp ht with ht | ⟨-, ht⟩
      · exact h.option (s := body.indexCurve) (by simp) t ht
      · obtain ⟨c, hc, rfl⟩ := Option.map_eq_some_iff.mp ht
        exact (h.curve (List.mem_of_mem_head? hc)).1
    rw [hindex, childText_of_valid htext, hcurves, List.head?_map, Option.map_map, buildLogXml]
    dsimp only
    rw [hfilter, Option.or_assoc]
    refine congrArg (body.indexCurve.or ·) ?_
    cases body.curves.head? <;> rfl
  · have huom : (logOfElem (buildLogXml body)).indexUom =
        (logOfElem (buildLogXml body)).curves.head?.bind CurveMeta.unit := rfl
    rw [huom, hcurves, List.head?_map, Option.bind_map]
    rfl

end

/-- The header-only response for one log, read. -/
def readHeader (store : MockStore) (uidWell uidWellbore uid : Str) :
    Except PyError (List LogHeader) := do
  let (_, els) ← store.queryLogs { logHeaderQuery uidWell uidWellbore with uid := uid }
  parseLogHeaders els

/-- The header read is that of the one log with this key. -/
theorem readHeader_eq {store : MockStore} {key : Str × Str × Str} {log : StoredLog}
    (hfind : store.findLog key = some log) (hsole : store.Sole key) :
    ∃ h, readHeader store key.1 key.2.1 key.2.2 = .ok [h] ∧ HeaderReads log h := by
  obtain ⟨elem, h, hrender, hparse, hreads⟩ := header_reads log
  refine ⟨h, ?_, hreads⟩
  let q : LogQuery := { logHeaderQuery key.1 key.2.1 with uid := key.2.2 }
  have hrange : queryRange q log.indexType = .ok (none, none) := by
    rw [queryRange]
    split <;> rfl
  have hquery : store.queryLogs q = .ok (rcSuccess, [elem]) := by
    rw [MockStore.queryLogs_of_sole hfind hsole rfl rfl rfl, answer_header hrender rfl hrange]
    rfl
  rw [readHeader, hquery]
  exact parseLogHeaders_singleton hparse

section

variable {body : LogBody} {log : StoredLog} {h : LogHeader}

/-- A relation may be replaced by one that follows from it for the members of the list. -/
theorem forall₂_of_mem {α β : Type} {R S : α → β → Prop} {l : List α} {m : List β}
    (h : List.Forall₂ R l m) (himp : ∀ a ∈ l, ∀ b, R a b → S a b) : List.Forall₂ S l m := by
  induction h with
  | nil => exact .nil
  | cons hab _ ih =>
    exact .cons (himp _ List.mem_cons_self _ hab) (ih fun a ha => himp a (List.mem_cons_of_mem _ ha))

/-- Every field but the unit comes back. -/
theorem survives_iff_uom (hvalid : body.Valid) (hkeeps : KeepsHeader (logOfElem (buildLogXml body)) log)
    (hreads : HeaderReads log h) :
    body.Survives h ↔ ∀ uom, body.indexUom = some uom → h.indexUom = some uom := by
  obtain ⟨hcurves, hindex, -⟩ := logOfElem_buildLogXml hvalid
  refine ⟨fun hs => hs.indexUom, fun huom => ⟨?_, ?_, ?_, ?_, ?_, ?_, ?_, huom, ?_⟩⟩
  · have hfield : log.name = childText body.name := hkeeps.name
    have htext := childText_of_valid (hvalid.option (s := body.name) (by simp))
    rw [hreads.name, hfield, htext, htext]
  · have hfield : log.nameWell = childText body.nameWell := hkeeps.nameWell
    have htext := childText_of_valid (hvalid.option (s := body.nameWell) (by simp))
    rw [hreads.nameWell, hfield, htext, htext]
  · have hfield : log.nameWellbore = childText body.nameWellbore := hkeeps.nameWellbore
    have htext := childText_of_valid (hvalid.option (s := body.nameWellbore) (by simp))
    rw [hreads.nameWellbore, hfield, htext, htext]
  · obtain ⟨t, ht⟩ := hvalid.indexType
    have hfield : log.indexType = parseIndexType (childText (some body.indexType)) :=
      hkeeps.head.indexType
    rw [hreads.indexType, hfield, ht, parseIndexType_text]
  · have htext : ∀ t, body.indexCurve.or (body.curves.head?.map CurveBody.mnemonic) = some t →
        Trimmed t := by
      intro t ht
      rcases Option.or_eq_some_iff.mp ht with ht | ⟨-, ht⟩
      · exact hvalid.option (s := body.indexCurve) (by simp) t ht
      · obtain ⟨c, hc, rfl⟩ := Option.map_eq_some_iff.mp ht
        exact (hvalid.curve (List.mem_of_mem_head? hc)).1
    rw [hreads.indexCurve, hkeeps.indexCurve, hindex, childText_of_valid htext]
  · obtain ⟨d, hd⟩ := hvalid.direction
    have hfield : log.direction = parseDirection (childText (some body.direction)) :=
      hkeeps.head.direction
    rw [hreads.direction, hfield, hd, parseDirection_text]
  · have hfield : log.nullValue = (childText body.nullValue).getD defaultNullValue :=
      hkeeps.head.nullValue
    have htext := hvalid.option (s := body.nullValue) (by simp)
    rw [hreads.nullValue, hfield, childText_of_valid htext]
    cases hn : body.nullValue with
    | none => decide
    | some s => exact childText_trimmed (htext s hn)
  · have hall := hreads.curves
    rw [hkeeps.head.curves, hcurves, List.forall₂_map_left_iff] at hall
    refine forall₂_of_mem hall fun c hc info hinfo => ?_
    obtain ⟨hmnem, hopts⟩ := hvalid.curve hc
    rw [hinfo.mnemonic, hinfo.unit, hinfo.description, hinfo.typeLogData, childText_trimmed hmnem,
      childText_of_valid (hopts c.unit (by simp)),
      childText_of_valid (hopts c.curveDescription (by simp)),
      childText_of_valid (hopts c.typeLogData (by simp))]
    exact ⟨rfl, rfl, rfl, rfl⟩

/-- The unit that comes back is the first curve's, with the start of a depth log. -/
theorem indexUom_reads (hvalid : body.Valid) (hkeeps : KeepsHeader (logOfElem (buildLogXml body)) log)
    (hreads : HeaderReads log h) (uom : Str) :
    h.indexUom = some uom ↔ log.indexType.isTime = false ∧ log.rows.entries ≠ [] ∧
      body.curves.head?.bind CurveBody.unit = some uom := by
  obtain ⟨-, -, huom⟩ := logOfElem_buildLogXml hvalid
  have hunit : (log.indexUom.filter (· ≠ [])).map strip = body.curves.head?.bind CurveBody.unit := by
    rw [hkeeps.indexUom, huom]
    cases hu : body.curves.head?.bind CurveBody.unit with
    | none => rfl
    | some u =>
      obtain ⟨c, hc, hcu⟩ := Option.bind_eq_some_iff.mp hu
      have htrim := (hvalid.curve (List.mem_of_mem_head? hc)).2 c.unit (by simp) u hcu
      simp [htrim.1, htrim.2]
  rw [hreads.indexUom, hunit]
  by_cases hcond : log.indexType.isTime ∨ log.rows.entries = []
  · rw [if_pos hcond]
    refine ⟨fun hnone => absurd hnone (by simp), ?_⟩
    rintro ⟨ht, hrows, -⟩
    rcases hcond with hc | hc
    · rw [ht] at hc
      exact absurd hc (by decide)
    · exact absurd hc hrows
  · rw [if_neg hcond]
    have hcond := not_or.mp hcond
    refine ⟨fun hu => ⟨by simpa using hcond.1, hcond.2, hu⟩, fun hu => hu.2.2⟩

end

/-- **The header survives exactly when** the body names no unit for the index, or the log is a
depth log that has rows and its first curve is in that unit.

The condition depends on the rows at the time of the reading, not only on the body.  A depth log
that names its unit has lost it when it has just been created, and has it back once it has a row,
provided that the unit of the index curve is the same. -/
theorem header_survives_iff {store : MockStore} {body : LogBody} (hvalid : body.Valid)
    (hfree : ∀ log ∈ store.logs, log.key ≠ (body.uidWell, body.uidWellbore, body.uid))
    (updates : List LogElem) :
    (∃ h, readHeader (writeAll store (buildLogXml body) updates) body.uidWell body.uidWellbore
      body.uid = .ok [h] ∧ body.Survives h) ↔
    body.indexUom = none ∨ body.curves.head?.bind CurveBody.unit = body.indexUom ∧
      ∃ log, (writeAll store (buildLogXml body) updates).findLog
          (body.uidWell, body.uidWellbore, body.uid) = some log ∧
        log.indexType.isTime = false ∧ log.rows.entries ≠ [] := by
  have hids : ∀ s ∈ [body.uid, body.uidWell, body.uidWellbore], s ≠ [] := by
    intro s hs
    refine (hvalid.texts s (List.mem_append_left _ (List.mem_append_left _ ?_))).1
    simp only [List.mem_cons, List.not_mem_nil, or_false] at hs ⊢
    tauto
  have huid : body.uid ≠ [] := hids _ (by simp)
  have hwell : body.uidWell ≠ [] := hids _ (by simp)
  have hwellbore : body.uidWellbore ≠ [] := hids _ (by simp)
  have hkey : elemKey (buildLogXml body) = (body.uidWell, body.uidWellbore, body.uid) := rfl
  have hcreated : Objects.createdLog (buildLogXml body) = logOfElem (buildLogXml body) := rfl
  -- the log is there, and alone under its identity
  have huid' : (buildLogXml body).uid.getD [] ≠ [] := huid
  have hfind : (store.addLog (some (buildLogXml body))).1.findLog
      (body.uidWell, body.uidWellbore, body.uid) = some (logOfElem (buildLogXml body)) := by
    rw [← hkey, ← hcreated]
    exact findLog_addLog_of_free huid' hfree fun ld hld => absurd hld (by simp [buildLogXml])
  have hsole : (store.addLog (some (buildLogXml body))).1.Sole
      (body.uidWell, body.uidWellbore, body.uid) := by
    intro log _ h1 h2 h3
    rw [StoredLog.key, h1.resolve_left huid, h2.resolve_left hwell, h3.resolve_left hwellbore]
  obtain ⟨log, hlog, hsole', hkeeps⟩ := findLog_updates updates hfind hsole
  obtain ⟨h, hread, hreads⟩ := readHeader_eq hlog hsole'
  have hsurvives : (∃ h, readHeader (writeAll store (buildLogXml body) updates) body.uidWell
      body.uidWellbore body.uid = .ok [h] ∧ body.Survives h) ↔ body.Survives h := by
    constructor
    · rintro ⟨h', hread', hs⟩
      obtain rfl := (List.cons.inj (Except.ok.inj (hread.symm.trans hread'))).1
      exact hs
    · exact fun hs => ⟨h, hread, hs⟩
  rw [hsurvives, survives_iff_uom hvalid hkeeps hreads]
  have hwrite : (writeAll store (buildLogXml body) updates).findLog
      (body.uidWell, body.uidWellbore, body.uid) = some log := hlog
  cases hu : body.indexUom with
  | none => exact ⟨fun _ => Or.inl rfl, fun _ uom huom => absurd huom (by simp)⟩
  | some uom =>
    have hone : (∀ uom', some uom = some uom' → h.indexUom = some uom') ↔
        h.indexUom = some uom := by
      refine ⟨fun hall => hall uom rfl, ?_⟩
      rintro heq uom' hsome
      rw [← Option.some.inj hsome]
      exact heq
    rw [hone, indexUom_reads hvalid hkeeps hreads]
    constructor
    · rintro ⟨ht, hrows, hunit⟩
      exact Or.inr ⟨hunit, log, hwrite, ht, hrows⟩
    · intro hcond
      obtain ⟨hunit, log', hlog', ht, hrows⟩ := hcond.resolve_left (by simp)
      obtain rfl := Option.some.inj (hwrite.symm.trans hlog')
      exact ⟨ht, hrows, hunit⟩

/-- A depth log in metres, with the unit of its index named. -/
def metricBody : LogBody where
  uid := "L".toList
  uidWell := "W".toList
  uidWellbore := "B".toList
  indexUom := some "m".toList
  curves := [{ mnemonic := "DEPTH".toList, unit := some "m".toList },
    { mnemonic := "GR".toList, unit := some "gAPI".toList }]

theorem metricBody_valid : metricBody.Valid :=
  ⟨by decide, by decide, ⟨.measuredDepth, by decide⟩, ⟨.increasing, by decide⟩⟩

/-- Before any row is written its header comes back without the unit. -/
theorem metricBody_unit_lost : metricBody.Valid ∧
    (∃ h, readHeader (writeAll (storeOf []) (buildLogXml metricBody) []) "W".toList "B".toList
      "L".toList = .ok [h] ∧ h.indexUom = none) ∧
    ¬∃ h, readHeader (writeAll (storeOf []) (buildLogXml metricBody) []) metricBody.uidWell
      metricBody.uidWellbore metricBody.uid = .ok [h] ∧ metricBody.Survives h := by
  have hrun : ∃ h, readHeader (writeAll (storeOf []) (buildLogXml metricBody) []) "W".toList
      "B".toList "L".toList = .ok [h] ∧ h.indexUom = none := ⟨_, rfl, rfl⟩
  refine ⟨metricBody_valid, hrun, ?_⟩
  rintro ⟨h, hread, hs⟩
  obtain ⟨h', hread', hnone⟩ := hrun
  obtain rfl := (List.cons.inj (Except.ok.inj (hread.symm.trans hread'))).1
  have huom := hs.indexUom "m".toList rfl
  rw [hnone] at huom
  exact absurd huom (by simp)

/-- With a row its header comes back with the unit. -/
theorem header_survives_iff_metricBody :
    (∃ h, readHeader (writeAll (storeOf []) (buildLogXml metricBody)
        [logElem "L" .measuredDepth .increasing ["DEPTH", "GR"] ["10,1"]]) metricBody.uidWell
      metricBody.uidWellbore metricBody.uid = .ok [h] ∧ metricBody.Survives h) ↔
    metricBody.indexUom = none ∨
      metricBody.curves.head?.bind CurveBody.unit = metricBody.indexUom ∧
      ∃ log, (writeAll (storeOf []) (buildLogXml metricBody)
          [logElem "L" .measuredDepth .increasing ["DEPTH", "GR"] ["10,1"]]).findLog
            (metricBody.uidWell, metricBody.uidWellbore, metricBody.uid) = some log ∧
        log.indexType.isTime = false ∧ log.rows.entries ≠ [] :=
  header_survives_iff metricBody_valid (by decide) _

end WitsmlViewer

/-
# Reading XMLout (`app.witsml.parse`)

An XML document is modelled by what the parsers look at: for every `<log>` element its attributes,
the text of the children they ask for by name, and the `<data>` texts of its `<logData>`.
Serialising and reparsing a tree gives these back, so the tree itself is left out.  An element
without text and an absent one are the same to `childText`, as they are to the source's `_text`.

The parser is lenient by intent: a number that does not read, an unknown index type or direction,
and a missing child all become a default or nothing, and no line of data is ever refused.  A cell
that is one of the null tokens, or blank, is null; any other cell of a data column that is no
number stays as a text.  Which texts count as null is decided by the element at hand and by the
caller, and no caller names the log's declared null (`DeclaredNulls` is about what follows from
that).

`parseLogData` is fallible all the same: an instant whose UTC reading leaves the years 1 to 9999
raises out of `astimezone`, past the `ValueError` that `parseDatetime` handles.  One such line
costs the whole answer.
-/
import WitsmlViewer.Domain

namespace WitsmlViewer

open Py

/-! ## 1. Elements

The fields are raw texts, as they stand in the document.  They are not stripped: that is what
`childText` does, at the moment a parser asks, and the store reads some of the same texts in its
own way. -/

/-- `_text(parent, name)` on the child's raw text: stripped, and `None` when nothing is left. -/
def childText (raw : Option Str) : Option Str :=
  raw.bind fun s => if strip s = [] then none else some (strip s)

/-- A `<logCurveInfo>` element. -/
structure LogCurveInfoElem where
  uid : Option Str
  mnemonic : Option Str
  unit : Option Str
  curveDescription : Option Str
  typeLogData : Option Str
  nullValue : Option Str
  minIndex : Option Str
  maxIndex : Option Str
  minDateTimeIndex : Option Str
  maxDateTimeIndex : Option Str
deriving DecidableEq

/-- A `<logData>` element. -/
structure LogDataElem where
  mnemonicList : Option Str
  unitList : Option Str
  data : List (Option Str)
deriving DecidableEq

/-- A `<log>` element.  Attributes that are missing are `none`; the two pairs of index bounds are
texts of the four children that carry them, and `indexUom` is the `uom` of the depth ones. -/
structure LogElem where
  uid : Option Str := none
  uidWell : Option Str := none
  uidWellbore : Option Str := none
  nameWell : Option Str := none
  nameWellbore : Option Str := none
  name : Option Str := none
  indexType : Option Str := none
  indexCurve : Option Str := none
  direction : Option Str := none
  objectGrowing : Option Str := none
  nullValue : Option Str := none
  startIndex : Option Str := none
  endIndex : Option Str := none
  startIndexUom : Option Str := none
  startDateTimeIndex : Option Str := none
  endDateTimeIndex : Option Str := none
  logCurveInfo : List LogCurveInfoElem := []
  logData : Option LogDataElem := none
deriving DecidableEq

/-- A `<well>` element. -/
structure WellElem where
  uid : Option Str
  name : Option Str := none
  region : Option Str := none
  field : Option Str := none
  country : Option Str := none
  operator : Option Str := none
  statusWell : Option Str := none
  timeZone : Option Str := none
deriving DecidableEq

/-- A `<wellbore>` element. -/
structure WellboreElem where
  uid : Option Str
  uidWell : Option Str
  name : Option Str := none
  nameWell : Option Str := none
  statusWellbore : Option Str := none
deriving DecidableEq

/-! ## 2. Scalars

Each of these is total in the source except the reading of an instant. -/

def parseBool (value : Option Str) : Option Bool :=
  value.map fun s => decide (lower (strip s) ∈ ["true".toList, "1".toList, "yes".toList])

/-- `parse_float`: what `float` refuses is no number. -/
def parseFloat (value : Option Str) : Option Float64 := value.bind fun s => float? (strip s)

/-- `dt.astimezone(UTC)` of a reading with the given offset (a naive one counts as UTC). -/
def astimezoneUtc (wall : ℕ) (offset : Option ℤ) : Except PyError Datetime :=
  if h : 0 ≤ (wall : ℤ) - offset.getD 0 ∧ (wall : ℤ) - offset.getD 0 < maxMicros then
    .ok ⟨((wall : ℤ) - offset.getD 0).toNat, by omega, true⟩
  else .error .overflowError

/-- `parse_datetime`: ISO-8601 to an aware UTC instant; `None` where the text is not ISO. -/
def parseDatetime (value : Option Str) : Except PyError (Option Datetime) :=
  match value with
  | none => .ok none
  | some value =>
    let s := strip value
    if s = [] then .ok none
    else
      let s := if s.getLast? = some 'Z' then s.dropLast ++ "+00:00".toList else s
      match fromisoformat? s with
      | none => .ok none
      | some (wall, offset) => (astimezoneUtc wall offset).map some

/-- `_index_type`: the enumeration's texts in any case, else whatever speaks of a time or of a
depth, else `other`, whose indices are read as numbers. -/
def parseIndexType (value : Option Str) : IndexType :=
  match value with
  | none => .measuredDepth
  | some value =>
    if value = [] then .measuredDepth
    else
      let norm := lower (strip value)
      match [IndexType.dateTime, .elapsedTime, .measuredDepth, .verticalDepth, .other].find?
          (fun it => it.value == norm) with
      | some it => it
      | none =>
        if "time".toList <:+: norm then .dateTime
        else if "depth".toList <:+: norm then .measuredDepth
        else .other

/-- An index type is read back from its name. -/
theorem parseIndexType_value (t : IndexType) : parseIndexType (some t.value) = t := by
  cases t <;> decide +kernel

/-- And so it is where the name is the text of an element. -/
theorem parseIndexType_text (t : IndexType) : parseIndexType (childText (some t.value)) = t := by
  cases t <;> decide +kernel

/-- `_direction`: only the text `decreasing`, in any case, makes a log decreasing. -/
def parseDirection (value : Option Str) : Direction :=
  match value with
  | none => .increasing
  | some value => if lower (strip value) = "decreasing".toList then .decreasing else .increasing

/-! ## 3. Wells, wellbores and log headers

Field by field as in the source.  A header is refused only if one of its instants raises. -/

def parseWells (els : List WellElem) : List Well :=
  els.map fun el => {
    uid := el.uid.getD []
    name := childText el.name
    region := childText el.region
    field := childText el.field
    country := childText el.country
    operator := childText el.operator
    status := childText el.statusWell
    timeZone := childText el.timeZone }

def parseWellbores (els : List WellboreElem) : List Wellbore :=
  els.map fun el => {
    uid := el.uid.getD []
    uidWell := el.uidWell.getD []
    name := childText el.name
    nameWell := childText el.nameWell
    status := childText el.statusWellbore }

/-- A curve of a header, with its own extent. -/
def parseLogCurveInfo (lci : LogCurveInfoElem) : Except PyError LogCurveInfo := do
  let minDatetimeIndex ← parseDatetime (childText lci.minDateTimeIndex)
  let maxDatetimeIndex ← parseDatetime (childText lci.maxDateTimeIndex)
  .ok {
    uid := lci.uid.filter (· ≠ [])
    mnemonic := (childText lci.mnemonic).getD []
    unit := childText lci.unit
    curveDescription := childText lci.curveDescription
    nullValue := childText lci.nullValue
    typeLogData := childText lci.typeLogData
    minIndex := parseFloat (childText lci.minIndex)
    maxIndex := parseFloat (childText lci.maxIndex)
    minDatetimeIndex := minDatetimeIndex
    maxDatetimeIndex := maxDatetimeIndex }

/-- One header; the index type is that of the element, and the extents are read as instants and as
numbers alike. -/
def parseLogHeader (el : LogElem) : Except PyError LogHeader := do
  let curves ← el.logCurveInfo.mapM parseLogCurveInfo
  let startDatetimeIndex ← parseDatetime (childText el.startDateTimeIndex)
  let endDatetimeIndex ← parseDatetime (childText el.endDateTimeIndex)
  .ok {
    uid := el.uid.getD []
    uidWell := el.uidWell.getD []
    uidWellbore := el.uidWellbore.getD []
    name := childText el.name
    nameWell := childText el.nameWell
    nameWellbore := childText el.nameWellbore
    indexType := parseIndexType (childText el.indexType)
    indexCurve := childText el.indexCurve
    direction := parseDirection (childText el.direction)
    objectGrowing := parseBool (childText el.objectGrowing)
    nullValue := childText el.nullValue
    -- `_attr_uom`: a non-empty attribute, stripped
    indexUom := (el.startIndexUom.filter (· ≠ [])).map strip
    startIndex := parseFloat (childText el.startIndex)
    endIndex := parseFloat (childText el.endIndex)
    startDatetimeIndex := startDatetimeIndex
    endDatetimeIndex := endDatetimeIndex
    curves := curves }

def parseLogHeaders (els : List LogElem) : Except PyError (List LogHeader) :=
  els.mapM parseLogHeader

/-! ## 4. Log data

A line is split at its commas and decoded cell by cell.  The first cell is the index and is decoded
under the log's type; the others are decoded alike, whatever their curve.  A line with fewer cells
than columns is short, and one with more keeps its extra cells, which no column claims. -/

/-- One log's parsed, null-stripped block plus its identity. -/
structure LogDataResult where
  uid : Str
  uidWell : Str
  uidWellbore : Str
  indexType : IndexType
  block : LogDataBlock
deriving DecidableEq

/-- `_null_tokens`: the common sentinels and the null that the element or the caller names. -/
def nullTokens (el : LogElem) (headerNull : Option Str) : List Str :=
  match (childText el.nullValue).or headerNull with
  | none => commonNullSentinels
  | some s => if s = [] then commonNullSentinels else strip s :: commonNullSentinels

/-- `_decode_cell` of a cell that is not the index: a number if it reads as one, else the text
itself. -/
def decodeReading (nulls : List Str) (raw : Str) : Option Reading :=
  let val := strip raw
  if val ∈ nulls ∨ val = [] then none
  else match parseFloat (some val) with
    | some num => some (.num num)
    | none => some (.text val)

/-- `_decode_cell` of the index.  On a depth log a cell that is no number is kept as a text, so
that such a row has an index that no other index of the log can be compared with. -/
def decodeIndex (indexType : IndexType) (nulls : List Str) (raw : Str) :
    Except PyError (Option Value) :=
  let val := strip raw
  if val ∈ nulls ∨ val = [] then .ok none
  else if indexType.isTime then (parseDatetime (some val)).map (Option.map .dt)
  else match parseFloat (some val) with
    | some num => .ok (some (.num num))
    | none => .ok (some (.text val))

/-- One `<data>` line.  A line has at least one cell: `split` is never empty. -/
def decodeLine (indexType : IndexType) (nulls : List Str) (text : Str) : Except PyError Row :=
  match split ',' text with
  | [] => .ok ⟨none, []⟩
  | raw :: raws =>
    (decodeIndex indexType nulls raw).map fun idx => ⟨idx, raws.map (decodeReading nulls)⟩

/-- The `<data>` elements that have text. -/
def dataLines (ld : LogDataElem) : List Str :=
  ld.data.filterMap fun text => text.filter (· ≠ [])

/-- The result of one `<log>` element, unless it has no `<logData>` or no mnemonics.  Without
mnemonics there is no column to read a cell under, and the element is passed over as if it had no
data. -/
def parseLogDataElem (indexType : Option IndexType) (headerNull : Option Str) (el : LogElem) :
    Except PyError (Option LogDataResult) :=
  match el.logData with
  | none => .ok none
  | some ld =>
    match childText ld.mnemonicList with
    | none => .ok none
    | some mnemList => do
      let mnemonics := (split ',' mnemList).map strip
      let units : List (Option Str) := match childText ld.unitList with
        | some unitList => (split ',' unitList).map fun u => childText (some u)
        | none => List.replicate mnemonics.length none
      let units := units ++ List.replicate (mnemonics.length - units.length) none
      let itype := indexType.getD (parseIndexType (childText el.indexType))
      let rows ← (dataLines ld).mapM (decodeLine itype (nullTokens el headerNull))
      .ok (some {
        uid := el.uid.getD []
        uidWell := el.uidWell.getD []
        uidWellbore := el.uidWellbore.getD []
        indexType := itype
        block := ⟨mnemonics, units, itype, rows⟩ })

/-- `parse_log_data`. -/
def parseLogData (els : List LogElem) (indexType : Option IndexType) (headerNull : Option Str) :
    Except PyError (List LogDataResult) :=
  (els.mapM (parseLogDataElem indexType headerNull)).map List.reduceOption

/-! ## 5. What a cell decodes to

What the rest of the development needs to know of an index cell: its kind. -/

/-- What `parse_datetime` reads is aware. -/
theorem aware_of_parseDatetime {s : Option Str} {d : Datetime}
    (h : parseDatetime s = .ok (some d)) : d.aware = true := by
  cases s with
  | none => simp [parseDatetime] at h
  | some s =>
    simp only [parseDatetime] at h
    split at h
    · simp at h
    · split at h
      · simp at h
      · obtain ⟨d', hd', hsome⟩ := map_eq_ok.mp h
        rw [← Option.some.inj hsome]
        unfold astimezoneUtc at hd'
        split at hd'
        · rw [← Except.ok.inj hd']
        · simp at hd'

/-- The indices that a cell of a log of this type decodes to: a number or a text that is none, or an
instant in UTC. -/
def Value.Decoded (t : IndexType) : Value → Prop
  | .num _ => t.isTime = false
  | .text s => t.isTime = false ∧ float? s = none
  | .dt d => t.isTime = true ∧ d.aware = true

/-- A cell that decodes to an index decodes to one of the log's kind.  For a time log this means
that every index can be ordered; for a depth log it leaves `nan` and texts. -/
theorem decoded_of_decodeIndex {t : IndexType} {nulls : List Str} {raw : Str} {v : Value}
    (h : decodeIndex t nulls raw = .ok (some v)) : v.Decoded t := by
  simp only [decodeIndex] at h
  split at h
  · simp at h
  · split at h
    · rename_i ht
      obtain ⟨d, hd, hv⟩ := map_eq_ok.mp h
      cases d with
      | none => simp at hv
      | some d =>
        rw [Option.map_some, Option.some.injEq] at hv
        rw [← hv]
        exact ⟨ht, aware_of_parseDatetime hd⟩
    · rename_i ht
      have ht : t.isTime = false := by simpa using ht
      split at h
      · simp only [Except.ok.injEq, Option.some.injEq] at h
        rw [← h]
        exact ht
      · rename_i hnum
        simp only [Except.ok.injEq, Option.some.injEq] at h
        rw [← h]
        refine ⟨ht, ?_⟩
        rw [parseFloat, Option.bind_some, strip_strip] at hnum
        exact hnum

end WitsmlViewer

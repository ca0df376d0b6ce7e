/-
# Query-by-example builders (`app.witsml.queries`)

A query is modelled by the fields that a server reads from it.  The only computation here is the
rendering of a bound: floats as the shortest text that reads back (`fmtNum`), instants in UTC to
the millisecond (`isoUtc`).

The builders decide how a poll resumes.  The start bound of a data query is the log's cursor,
rendered; the store parses it again, and serves from there on.  What is lost on this way is lost
for the poll, so the two lemmas at the end are the ground that every statement about resuming
stands on: `float?_fmtNum` says that a float comes back exactly, `parseDatetime_isoMillis` that an
instant comes back floored to the millisecond.  For an increasing log a floor is harmless, since it
shows a row again and the dedupe drops it; for a decreasing one it can skip a row (`Resuming`).
-/
import WitsmlViewer.Parse

namespace WitsmlViewer

open Py

/-! ## 1. Rendering

Both raise on a value of the other kind, which the builder excludes by looking at the index type
first. -/

/-- `_iso_utc`.  A float has no `tzinfo`. -/
def isoUtc : Value → Except PyError Str
  | .text s => .ok s
  | .num _ => .error .attributeError
  | .dt t => .ok (strftimeSeconds t ++ '.' :: pad 3 t.millisecond ++ ['Z'])

/-- `_fmt_num`: integers without a point, other floats by `repr`.  An infinite bound cannot be
converted to an integer and raises. -/
def fmtNum : Value → Except PyError Str
  | .text s => .ok s
  | .dt t => isoUtc (.dt t)
  | .num x => .ok (if x.isInteger then strInt x.toInt else repr x)

/-! ## 2. Queries

The parts of a query that decide its answer.  The XML text around them and the other `OptionsIn`
settings, which no modelled store reads, are left out. -/

/-- The OptionsIn that the store looks at. -/
structure OptionsIn where
  returnElements : ReturnElements
  maxReturnNodes : Option ℤ := none
  requestLatestValues : Option ℤ := none
deriving DecidableEq

/-- A `<log>` query with its options. -/
structure LogQuery where
  uidWell : Str
  uidWellbore : Str
  uid : Str
  startDateTimeIndex : Option Str := none
  endDateTimeIndex : Option Str := none
  startIndex : Option Str := none
  endIndex : Option Str := none
  indexUom : Str := []
  mnemonics : List Str := []
  options : OptionsIn
deriving DecidableEq

/-- `log_header_query`: a header-only query for every log of a wellbore. -/
def logHeaderQuery (uidWell uidWellbore : Str) : LogQuery :=
  { uidWell := uidWell, uidWellbore := uidWellbore, uid := []
    options := { returnElements := .headerOnly } }

/-- `log_data_query`: the data-only poll of one log.  A time log is asked by instants and any other
log by numbers; a bound that is `None` is left out, and then the store serves from the beginning. -/
def logDataQuery (uidWell uidWellbore uid : Str) (mnemonics : List Str) (indexType : IndexType)
    (start stop : Option Value) (indexUom : Option Str) (maxReturnNodes : Option ℤ) :
    Except PyError LogQuery :=
  if mnemonics = [] then .error .valueError
  else if indexType.isTime then do
    let s ← start.mapM isoUtc
    let e ← stop.mapM isoUtc
    .ok { uidWell, uidWellbore, uid, startDateTimeIndex := s, endDateTimeIndex := e, mnemonics
          options := { returnElements := .dataOnly, maxReturnNodes } }
  else do
    let s ← start.mapM fmtNum
    let e ← stop.mapM fmtNum
    .ok { uidWell, uidWellbore, uid, startIndex := s, endIndex := e
          indexUom := indexUom.getD [], mnemonics
          options := { returnElements := .dataOnly, maxReturnNodes } }

/-! ## 3. What a reader makes of a rendered bound

Rendered texts contain no blank, comma or underscore, and nothing in them needs stripping
(`plain`), so a reader that strips and a reader that splits both get the text as it was written. -/

/-- A float comes back exactly, whichever of the two layouts it was written in. -/
theorem float?_fmtNum {x : Float64} {s : Str} (h : fmtNum (.num x) = .ok s) : float? s = some x := by
  simp only [fmtNum, Except.ok.injEq] at h
  subst h
  split
  · rename_i hint
    match x with
    | .fin d => exact float?_strInt hint
    | .inf _ => simp [Float64.isInteger] at hint
    | .nan => simp [Float64.isInteger] at hint
  · exact float?_repr x

/-- The text of an instant: the seconds as `strftime` writes them, three digits of the fraction,
and a `Z`.  The fraction is cut off and not rounded. -/
def isoMillis (t : Datetime) : Str := strftimeSeconds t ++ '.' :: pad 3 t.millisecond ++ ['Z']

/-- It has no character that a reader would drop. -/
theorem isoMillis_plain (t : Datetime) : ∀ c ∈ isoMillis t, plain c = true := by
  have hpad : ∀ k n, (pad k n).all plain = true := fun k n =>
    List.all_eq_true.mpr fun c hc => plain_of_isDigit (pad_isDigit k n c hc)
  have hmarks : plain '-' = true ∧ plain 'T' = true ∧ plain ':' = true ∧ plain '.' = true ∧
      plain 'Z' = true := by decide
  refine List.all_eq_true.mp ?_
  simp only [isoMillis, strftimeSeconds, List.all_append, List.all_cons, List.all_nil, hpad,
    hmarks, Bool.and_self]

/-- Reading such a text from a child of an element gives it back. -/
theorem childText_of_plain {s : Str} (hne : s ≠ []) (h : ∀ c ∈ s, plain c = true) :
    childText (some s) = some s := by
  simp [childText, strip_of_plain h, hne]

/-- **An instant comes back floored to the millisecond, in UTC.**  The text ends in a `Z`, which
the reader turns into an offset of zero, and its year has the four digits that the reader asks
for. -/
theorem parseDatetime_isoMillis (t : Datetime) :
    parseDatetime (some (isoMillis t)) = .ok (some t.floorMillis.replaceUtc) := by
  have hne : isoMillis t ≠ [] := by simp [isoMillis]
  have hlast : (isoMillis t).getLast? = some 'Z' := List.getLast?_concat
  have hdrop : (isoMillis t).dropLast ++ "+00:00".toList = isoText t := by
    rw [isoMillis, List.dropLast_concat, isoText]
  have hread := fromisoformat?_isoText t
  have hlt := t.floorMillis.inRange
  simp only [parseDatetime, strip_of_plain (isoMillis_plain t), hne, if_false, hlast, if_true,
    hdrop, hread]
  rw [astimezoneUtc, dif_pos (by simp only [Option.getD_some]; omega)]
  refine congrArg (fun d => Except.ok (some d)) (Datetime.ext_micros ?_ rfl)
  change ((t.floorMillis.micros : ℤ) - (some (0 : ℤ)).getD 0).toNat = t.floorMillis.micros
  rw [Option.getD_some, sub_zero, Int.toNat_natCast]

end WitsmlViewer

/-
# Malformed rows

What a poll makes of a response whose `<data>` elements hold arbitrary text.

A line starts with an index, or it should: with a finite number in a depth log, with an ISO instant
in a time log.  That is a matter of its text, and `lineIndex` reads it off.  What the code takes
for an index is something else (`heard`).  It takes every text of a depth log that is neither blank
nor a null token, words, `nan` and infinities included; and it never takes a null token, though
that may be a number.  In a time log both agree but for null tokens, and but for instants whose UTC
reading leaves the years 1 to 9999, which raise.

`ingests_iff` says when the difference does not matter: `Manageable` lists what a response may
hold.  Both sides are about texts and about what is handed on; the decoded rows in between appear
on neither.

What "as it should be" means is in `Ingests`.  Every well-formed line that is the last of its index
and beyond the cursor delivers its readings, each once; a malformed line makes no difference, that
is, the outcome is the one that the response would have without it; and the cursor that is saved is
well-formed and behind everything that comes later.  Nothing is promised about the order of the
samples within a response.

The direction from right to left needs the whole of section 6: a line that is manageable and not
well-formed must be shown to have no effect, and there are several kinds of such lines.  The other
direction needs to exhibit, for each way of not being manageable, something in the outcome that is
wrong.
-/
import WitsmlViewer.Py.Timestamp
import WitsmlViewer.Polls
import WitsmlViewer.UnorderedRows

namespace WitsmlViewer

open Py

/-! ## 1. Lines

Only texts.  A line is split at its commas, and its first cell is what an index is read from;
`nulls` are the tokens that the parser has for the element, so that what the code hears depends on
the element as well. -/

/-- A well-formed index: a finite number, or an instant in UTC. -/
def Value.WellFormed (t : IndexType) : Value → Prop
  | .num x => t.isTime = false ∧ x.isFinite = true
  | .text _ => False
  | .dt d => t.isTime = true ∧ d.aware = true

/-- The first cell of a line. -/
def indexCell (line : Str) : Str := (split ',' line).headD []

/-- The well-formed index that a line starts with, if it does: a finite number, or an ISO instant. -/
def lineIndex (t : IndexType) (line : Str) : Option Value :=
  if t.isTime then ((parseDatetime (some (strip (indexCell line)))).toOption.join).map .dt
  else (parseFloat (some (strip (indexCell line)))).bind fun x =>
    if x.isFinite then some (.num x) else none

/-- What the code takes for the index of a line: `_decode_cell` of its first cell.  A cell that
raises counts as not heard here; that nothing raises is a separate part of `Manageable`. -/
def heard (t : IndexType) (nulls : List Str) (line : Str) : Option Value :=
  (decodeIndex t nulls (indexCell line)).toOption.join

/-- The other cells of a line. -/
def lineCells (nulls : List Str) (line : Str) : List (Option Reading) :=
  (split ',' line).tail.map (decodeReading nulls)

/-- The last of the lines that start with an index. -/
def LastLine (t : IndexType) (lines : List Str) (i : Value) (line : Str) : Prop :=
  ∃ before after, lines = before ++ line :: after ∧ lineIndex t line = some i ∧
    ∀ l ∈ after, lineIndex t l ≠ some i

/-! ## 2. Responses

The parser returns the logs of a response that have mnemonics, and the client takes the first of
them.  So the lines that matter are those of one element; but a line of any other can raise, and
then the poll is lost. -/

/-- The lines of an element that are read: without mnemonics none are. -/
def readLines (el : LogElem) : List Str :=
  match el.logData with
  | none => []
  | some ld => if (childText ld.mnemonicList).isNone then [] else dataLines ld

/-- Whether an element has mnemonics to read its lines under. -/
def LogElem.named (el : LogElem) : Bool :=
  el.logData.any fun ld => (childText ld.mnemonicList).isSome

/-- An element with some of its lines. -/
def LogElem.keepLines (p : Str → Bool) (el : LogElem) : LogElem :=
  { el with logData := el.logData.map fun ld => { ld with data := ld.data.filter (Option.any p) } }

/-- The log of a response that a poll takes: the first one that can be read. -/
def pageElem (els : List LogElem) : Option LogElem := els.find? LogElem.named

def pageLines (els : List LogElem) : List Str := (pageElem els).elim [] readLines

/-- The null tokens of the page. -/
def pageNulls (els : List LogElem) : List Str := (pageElem els).elim [] fun el => nullTokens el none

/-- The mnemonics and units of the page: what is parsed of the response without its lines. -/
def pageHeader (t : IndexType) (els : List LogElem) : LogDataBlock :=
  match parseLogData (els.map (LogElem.keepLines fun _ => false)) (some t) none with
  | .ok (first :: _) => first.block
  | _ => ⟨[], [], t, []⟩

/-- What a line of the page says under an index: its readings, each under its mnemonic. -/
def lineSamples (t : IndexType) (els : List LogElem) (i : Value) (line : Str) : List CurveSample :=
  (pageHeader t els).samplesAt i ⟨some i, lineCells (pageNulls els) line⟩

/-- One response through the five functions: parse, the continuation of its page, the merge of the
one page, and the completion of the poll. -/
def ingestResponse (cfg : Settings) (t : IndexType) (d : Direction) (last : Option Value)
    (els : List LogElem) : Except PyError (List CurveSample × Option Value) := do
  let batch ← parseLogData els (some t) none
  match batch with
  | [] => .ok ([], last)
  | first :: _ => ingestBlock cfg d last first.block

/-! ## 3. What should happen, and when it does

The specification and the condition, one after the other.  The specification is stated in terms of
`lineIndex`, the condition in terms of both readings of a line. -/

/-- An index is strictly beyond a cursor. -/
def BeyondCursor (d : Direction) (last : Option Value) (i : Value) : Prop :=
  ∀ v, last = some v → growthKey d v < growthKey d i

/-- A response is ingested as it should be.  `delivered` ranges over the texts of the lines, and
`ignored` compares with the response that has the well-formed lines only, so that neither can be
met by leaving lines out of consideration. -/
structure Ingests (cfg : Settings) (t : IndexType) (d : Direction) (last : Option Value)
    (els : List LogElem) (samples : List CurveSample) (cursor : Option Value) : Prop where
  /-- Nothing raises. -/
  completes : ingestResponse cfg t d last els = .ok (samples, cursor)
  /-- The lines without a well-formed index might as well not be there. -/
  ignored : ∃ samples', ingestResponse cfg t d last
      (els.map (LogElem.keepLines fun line => (lineIndex t line).isSome)) = .ok (samples', cursor) ∧
    samples.Perm samples'
  /-- Every line with a well-formed index beyond the cursor is delivered; of the lines with the same
  index it is the last one, as a merge has it. -/
  delivered : ∀ line ∈ pageLines els, ∀ i, lineIndex t line = some i → BeyondCursor d last i →
    ∃ line', LastLine t (pageLines els) i line' ∧ ∀ x ∈ lineSamples t els i line', x ∈ samples
  /-- And nothing else is. -/
  sound : ∀ x ∈ samples, BeyondCursor d last x.index ∧
    ∃ line, LastLine t (pageLines els) x.index line ∧ x ∈ lineSamples t els x.index line
  /-- The saved cursor is well-formed. -/
  saved : ∀ v, cursor = some v → (aware v).WellFormed t
  /-- What comes later, beyond every well-formed index so far, is beyond the saved cursor too. -/
  onward : ∀ i, BeyondCursor d last i → (∀ line ∈ pageLines els, ∀ j, lineIndex t line = some j →
    growthKey d j < growthKey d i) → BeyondCursor d cursor i

/-- The last of the lines that the code takes to have an index.  `nan` equals no index, so every line
with it is a last one. -/
def LastHeard (t : IndexType) (nulls lines : List Str) (v : Value) (line : Str) : Prop :=
  ∃ before after, lines = before ++ line :: after ∧ heard t nulls line = some v ∧
    ∀ l ∈ after, ∀ w, heard t nulls l = some w → (v == w) = false

/-- What a response may hold.  Nothing in it mentions what the helpers compute, only the lines, the
tokens and the cursor before the poll. -/
structure Manageable (t : IndexType) (d : Direction) (last : Option Value) (els : List LogElem) :
    Prop where
  /-- No line starts with an instant that leaves the years 1 to 9999, unless that is a null token. -/
  instants : ∀ el ∈ els, ∀ line ∈ readLines el,
    (decodeIndex t (nullTokens el none) (indexCell line)).isOk = true
  /-- Nothing but numbers and instants is taken for an index, and no infinity that lies ahead. -/
  numbers : ∀ line ∈ pageLines els, ∀ v, heard t (pageNulls els) line = some v →
    (∀ s, v ≠ .text s) ∧ v ≠ .num (.inf (d == .decreasing))
  /-- If anything is taken for an index, `nan` is not the first, and one is well-formed. -/
  front : ∀ v ∈ ((pageLines els).filterMap (heard t (pageNulls els))).head?, v ≠ .num .nan ∧
    ∃ i ∈ (pageLines els).filterMap (heard t (pageNulls els)), i.WellFormed t
  /-- Without a cursor, a line with any other index says nothing. -/
  fresh : last = none → ∀ v line, LastHeard t (pageNulls els) (pageLines els) v line →
    ¬v.WellFormed t → lineSamples t els v line = []
  /-- Where the last line of an index beyond the cursor has a null token for it, it says what the last
  line says that has none: nothing, if there is no such line. -/
  nulls : ∀ i line, BeyondCursor d last i → LastLine t (pageLines els) i line →
    heard t (pageNulls els) line = none → ∀ x, x ∈ lineSamples t els i line ↔
      ∃ line', x ∈ lineSamples t els i line' ∧
        LastLine t ((pageLines els).filter fun l => (heard t (pageNulls els) l).isSome) i line'

/-! ## 4. Indices

How the two readings of a line relate to each other, and where `nan` and the infinities lie with
respect to the well-formed indices. -/

section Indices

variable {t : IndexType} {nulls : List Str} {line : Str} {v i : Value}

/-- A well-formed index is one that the helpers can take. -/
theorem Value.WellFormed.heard (h : v.WellFormed t) : v.Heard t := by
  cases v with
  | num x => exact h.1
  | text s => exact h
  | dt d => exact h

theorem Value.WellFormed.ne_nan (h : v.WellFormed t) : v ≠ .num .nan := by
  rintro rfl
  exact absurd h.2 (by decide)

theorem Value.WellFormed.orders (h : v.WellFormed t) : v.Orders t := h.heard.orders h.ne_nan

theorem Value.WellFormed.beq_eq (h : v.WellFormed t) : (v == i) = decide (v = i) := by
  rw [Bool.eq_iff_iff, Value.beq_iff, decide_eq_true_eq]
  exact ⟨And.left, fun heq => ⟨heq, h.ne_nan⟩⟩

instance (t : IndexType) : (v : Value) → Decidable (v.WellFormed t)
  | .num x => inferInstanceAs (Decidable (t.isTime = false ∧ x.isFinite = true))
  | .text _ => inferInstanceAs (Decidable False)
  | .dt d => inferInstanceAs (Decidable (t.isTime = true ∧ d.aware = true))

/-- An infinity that does not lie ahead lies behind every well-formed index. -/
theorem Value.Heard.behind {d : Direction} (hv : v.Heard t) (hwell : ¬v.WellFormed t)
    (hnan : v ≠ .num .nan) (hahead : v ≠ .num (.inf (d == .decreasing))) (hi : i.WellFormed t) :
    growthKey d v < growthKey d i := by
  cases v with
  | text s => exact hv.elim
  | dt e => exact absurd hv hwell
  | num x =>
    cases i with
    | text s => exact hi.elim
    | dt e =>
      rw [Value.Heard, hi.1] at hv
      cases hv
    | num y =>
      obtain ⟨z, rfl⟩ := Float64.exists_of_isFinite hi.2
      cases x with
      | fin w => exact absurd ⟨hv, rfl⟩ hwell
      | nan => exact absurd rfl hnan
      | inf neg =>
        cases d <;> cases neg
        · exact absurd rfl hahead
        · exact Float64.lt_rank_fin z
        · exact neg_lt_neg (Float64.rank_fin_lt z)
        · exact absurd rfl hahead

/-- The infinity that lies ahead does so for every well-formed index. -/
theorem Value.WellFormed.before_infinity {d : Direction} (hi : i.WellFormed t)
    (hinf : (Value.num (.inf (d == .decreasing))).Heard t) :
    growthKey d i < growthKey d (.num (.inf (d == .decreasing))) := by
  cases i with
  | text s => exact hi.elim
  | dt e =>
    rw [Value.Heard, hi.1] at hinf
    cases hinf
  | num y =>
    obtain ⟨z, rfl⟩ := Float64.exists_of_isFinite hi.2
    cases d
    · exact Float64.rank_fin_lt z
    · exact neg_lt_neg (Float64.lt_rank_fin z)

theorem wellFormed_lineIndex (h : lineIndex t line = some i) : i.WellFormed t := by
  rw [lineIndex] at h
  by_cases ht : t.isTime = true
  · rw [if_pos ht] at h
    obtain ⟨d, hd, rfl⟩ := Option.map_eq_some_iff.mp h
    cases hp : parseDatetime (some (strip (indexCell line))) with
    | error e =>
      rw [hp] at hd
      exact absurd hd (by simp [Except.toOption])
    | ok o =>
      rw [hp] at hd
      obtain rfl : o = some d := by simpa [Except.toOption] using hd
      exact ⟨ht, aware_of_parseDatetime hp⟩
  · rw [if_neg ht] at h
    obtain ⟨x, -, hx⟩ := Option.bind_eq_some_iff.mp h
    by_cases hfin : x.isFinite = true
    · rw [if_pos hfin] at hx
      obtain rfl := Option.some.inj hx
      exact ⟨by simpa using ht, hfin⟩
    · rw [if_neg hfin] at hx
      cases hx

/-- What the code takes for a well-formed index is one. -/
theorem lineIndex_of_heard (h : heard t nulls line = some v) :
    (v.WellFormed t → lineIndex t line = some v) ∧ (¬v.WellFormed t → lineIndex t line = none) := by
  have hcell : ¬(strip (indexCell line) ∈ nulls ∨ strip (indexCell line) = []) := by
    intro hnull
    rw [heard, decodeIndex, if_pos hnull] at h
    cases h
  rw [heard, decodeIndex, if_neg hcell] at h
  by_cases ht : t.isTime = true
  · rw [if_pos ht] at h
    have hline : lineIndex t line = some v := by
      rw [lineIndex, if_pos ht]
      cases hp : parseDatetime (some (strip (indexCell line))) with
      | error e =>
        rw [hp] at h
        cases h
      | ok o =>
        rw [hp] at h
        cases o with
        | none => cases h
        | some d => exact h
    exact ⟨fun _ => hline, fun hv => absurd (wellFormed_lineIndex hline) hv⟩
  · rw [if_neg ht] at h
    rw [lineIndex, if_neg ht]
    cases hp : parseFloat (some (strip (indexCell line))) with
    | none =>
      rw [hp] at h
      obtain rfl : Value.text (strip (indexCell line)) = v := by simpa [Except.toOption] using h
      exact ⟨False.elim, fun _ => rfl⟩
    | some x =>
      rw [hp] at h
      obtain rfl : Value.num x = v := by simpa [Except.toOption] using h
      by_cases hfin : x.isFinite = true
      · exact ⟨fun _ => by simp [hfin], fun hv => absurd ⟨by simpa using ht, hfin⟩ hv⟩
      · exact ⟨fun hv => absurd hv.2 hfin, fun _ => by simp [hfin]⟩

/-- A well-formed index is taken for what it is, unless it is a null token. -/
theorem heard_of_lineIndex (nulls : List Str) (h : lineIndex t line = some i) :
    heard t nulls line = some i ∨ heard t nulls line = none := by
  cases hv : heard t nulls line with
  | none => exact Or.inr rfl
  | some v =>
    by_cases hwell : v.WellFormed t
    · rw [(lineIndex_of_heard hv).1 hwell] at h
      exact Or.inl h
    · rw [(lineIndex_of_heard hv).2 hwell] at h
      cases h

/-- The last line of an index is one line. -/
theorem LastLine.unique {lines : List Str} {line' : Str} (h : LastLine t lines i line)
    (h' : LastLine t lines i line') : line = line' := by
  obtain ⟨before, after, hsplit, hi, hafter⟩ := h
  obtain ⟨before', after', hsplit', hi', hafter'⟩ := h'
  rw [hsplit] at hsplit'
  rcases List.append_eq_append_iff.mp hsplit' with ⟨mid, rfl, heq⟩ | ⟨mid, rfl, heq⟩
  · cases mid with
    | nil => exact (List.cons.inj heq).1
    | cons m mid =>
      obtain ⟨-, rfl⟩ := List.cons.inj heq
      exact absurd hi' (hafter line' (by simp))
  · cases mid with
    | nil => exact (List.cons.inj heq).1.symm
    | cons m mid =>
      obtain ⟨-, rfl⟩ := List.cons.inj heq
      exact absurd hi (hafter' line (by simp))

/-- Of the lines with an index there is a last one. -/
theorem exists_lastLine {lines : List Str} (hline : line ∈ lines) (hi : lineIndex t line = some i) :
    ∃ line', LastLine t lines i line' := by
  induction lines using List.reverseRecOn with
  | nil => exact absurd hline List.not_mem_nil
  | append_singleton lines l ih =>
    by_cases hl : lineIndex t l = some i
    · exact ⟨l, lines, [], rfl, hl, by simp⟩
    · have hold : line ∈ lines := by
        rcases List.mem_append.mp hline with hline | hline
        · exact hline
        · rw [List.mem_singleton.mp hline] at hi
          exact absurd hi hl
      obtain ⟨line', before, after, rfl, hi', hafter⟩ := ih hold
      refine ⟨line', before, after ++ [l], by simp, hi', fun l' hl' => ?_⟩
      rcases List.mem_append.mp hl' with hl' | hl'
      · exact hafter l' hl'
      · rw [List.mem_singleton.mp hl']
        exact hl

/-- A last line stays the last one when other lines are dropped. -/
theorem LastLine.filter {lines : List Str} {p : Str → Bool} (h : LastLine t lines i line)
    (hp : p line = true) : LastLine t (lines.filter p) i line := by
  obtain ⟨before, after, rfl, hi, hafter⟩ := h
  refine ⟨before.filter p, after.filter p, ?_, hi, fun l hl => hafter l (List.mem_filter.mp hl).1⟩
  rw [List.filter_append, List.filter_cons, if_pos hp]

/-- Under a well-formed index, the last line that the code takes to have it is the last of the lines
that it takes to have any. -/
theorem lastHeard_iff {lines : List Str} (hi : i.WellFormed t) :
    LastHeard t nulls lines i line ↔
      LastLine t (lines.filter fun l => (heard t nulls l).isSome) i line := by
  constructor
  · rintro ⟨before, after, rfl, hv, hafter⟩
    refine ⟨before.filter fun l => (heard t nulls l).isSome,
      after.filter fun l => (heard t nulls l).isSome, ?_, (lineIndex_of_heard hv).1 hi,
      fun l hl hli => ?_⟩
    · rw [List.filter_append, List.filter_cons, if_pos (by rw [hv]; rfl)]
    · obtain ⟨hl, hsome⟩ := List.mem_filter.mp hl
      rcases heard_of_lineIndex nulls hli with hlv | hlv
      · have hne := hafter l hl i hlv
        rw [Value.beq_self hi.ne_nan] at hne
        cases hne
      · rw [hlv] at hsome
        cases hsome
  · rintro ⟨before, after, hsplit, hline, hafter⟩
    obtain ⟨front, back, rfl, -, hback⟩ := List.filter_eq_append_iff.mp hsplit
    obtain ⟨skipped, back', rfl, -, hkeep, hrest⟩ := List.filter_eq_cons_iff.mp hback
    have hv : heard t nulls line = some i := by
      rcases heard_of_lineIndex nulls hline with hv | hv
      · exact hv
      · rw [hv] at hkeep
        cases hkeep
    refine ⟨front ++ skipped, back', by simp, hv, fun l hl w hw => ?_⟩
    rw [hi.beq_eq, decide_eq_false_iff_not]
    rintro rfl
    have hmem : l ∈ after := by
      rw [← hrest]
      exact List.mem_filter.mpr ⟨hl, by rw [hw]; rfl⟩
    exact hafter l hmem ((lineIndex_of_heard hw).1 hi)

end Indices

/-! ## 5. What is parsed

Parsing, line by line.  The page of a response is a function of its lines and of its header, and
dropping lines drops their rows: this is what allows the comparison with a response that has fewer
lines. -/

section Parsing

variable {t : IndexType}

/-- The row of a line whose index cell decodes. -/
def lineRow (t : IndexType) (nulls : List Str) (line : Str) : Row :=
  ⟨heard t nulls line, lineCells nulls line⟩

/-- A line decodes to its index and its other cells. -/
theorem decodeLine_eq (nulls : List Str) (line : Str) :
    decodeLine t nulls line =
      (decodeIndex t nulls (indexCell line)).map fun idx => ⟨idx, lineCells nulls line⟩ := by
  cases hsplit : split ',' line with
  | nil => exact absurd hsplit (split_ne_nil ',' line)
  | cons raw raws => rw [decodeLine, indexCell, lineCells, hsplit]; rfl

theorem decodeLine_eq_ok {nulls : List Str} {line : Str}
    (h : (decodeIndex t nulls (indexCell line)).isOk = true) :
    decodeLine t nulls line = .ok (lineRow t nulls line) := by
  rw [decodeLine_eq, lineRow, heard]
  cases hv : decodeIndex t nulls (indexCell line) with
  | error e =>
    rw [hv] at h
    cases h
  | ok v => rfl

theorem dataLines_filter (p : Str → Bool) (ld : LogDataElem) :
    dataLines { ld with data := ld.data.filter (Option.any p) } = (dataLines ld).filter p := by
  rw [dataLines, dataLines, List.filterMap_filter, List.filter_filterMap]
  refine List.filterMap_congr fun text _ => ?_
  cases text with
  | none => rfl
  | some s =>
    by_cases hs : s = [] <;> by_cases hp : p s = true <;> simp [Option.filter, hs, hp]

/-- The lines that are read of an element with fewer lines. -/
theorem readLines_keepLines (p : Str → Bool) (el : LogElem) :
    readLines (el.keepLines p) = (readLines el).filter p := by
  rw [readLines, readLines, LogElem.keepLines]
  cases el.logData with
  | none => rfl
  | some ld =>
    simp only [Option.map_some, dataLines_filter]
    split <;> simp

theorem named_keepLines (p : Str → Bool) (el : LogElem) : (el.keepLines p).named = el.named := by
  rw [LogElem.named, LogElem.named, LogElem.keepLines]
  cases el.logData <;> rfl

theorem keepLines_false (p : Str → Bool) (el : LogElem) :
    (el.keepLines p).keepLines (fun _ => false) = el.keepLines fun _ => false := by
  have hnone : (Option.any fun _ : Str => false) = fun _ => false := by
    funext text
    cases text <;> rfl
  rw [LogElem.keepLines, LogElem.keepLines, LogElem.keepLines]
  cases el.logData with
  | none => rfl
  | some ld => simp [hnone]

/-- A log element is its decoded lines under a header. -/
theorem parseLogDataElem_eq (t : IndexType) (el : LogElem) :
    (el.named = false ∧ readLines el = [] ∧ parseLogDataElem (some t) none el = .ok none ∧
      parseLogDataElem (some t) none (el.keepLines fun _ => false) = .ok none) ∨
    (el.named = true ∧ ∃ make : List Row → LogDataResult,
      (∀ rows, (make rows).block = { (make []).block with rows := rows }) ∧
      (parseLogDataElem (some t) none el = ((readLines el).mapM
        (decodeLine t (nullTokens el none))).map fun rows => some (make rows)) ∧
      parseLogDataElem (some t) none (el.keepLines fun _ => false) = .ok (some (make []))) := by
  rw [parseLogDataElem, parseLogDataElem, readLines, LogElem.named, LogElem.keepLines]
  cases el.logData with
  | none => exact Or.inl ⟨rfl, rfl, rfl, rfl⟩
  | some ld =>
    cases hmnem : childText ld.mnemonicList with
    | none => exact Or.inl ⟨by simp [hmnem], by simp [hmnem], by simp [hmnem], by simp [hmnem]⟩
    | some mnemList =>
      simp only [hmnem]
      refine Or.inr ⟨by simp [hmnem], _, fun rows => ?_, rfl, ?_⟩
      · rfl
      · have hempty :
            dataLines { ld with data := ld.data.filter (Option.any fun _ => false) } = [] := by
          rw [dataLines_filter]
          simp
        simp only [Option.map_some, hmnem]
        rw [hempty]
        rfl

theorem parseLogData_cons (t : IndexType) (el : LogElem) (els : List LogElem) :
    parseLogData (el :: els) (some t) none = (parseLogDataElem (some t) none el).bind fun o =>
      (parseLogData els (some t) none).map fun rest => o.toList ++ rest := by
  rw [parseLogData, parseLogData, List.mapM_cons]
  cases parseLogDataElem (some t) none el with
  | error e => rfl
  | ok o =>
    simp only [bind, Except.bind]
    cases els.mapM (parseLogDataElem (some t) none) with
    | error e => rfl
    | ok outs => cases o <;> rfl

theorem pageHeader_cons (t : IndexType) (el : LogElem) (els : List LogElem) :
    (el.named = false → pageHeader t (el :: els) = pageHeader t els) ∧
      ∀ o, parseLogDataElem (some t) none (el.keepLines fun _ => false) = .ok (some o) →
        pageHeader t (el :: els) = o.block := by
  have hblank : ∀ els : List LogElem, ∃ batch,
      parseLogData (els.map (LogElem.keepLines fun _ => false)) (some t) none = .ok batch := by
    intro els
    induction els with
    | nil => exact ⟨[], rfl⟩
    | cons el els ih =>
      obtain ⟨rest, hrest⟩ := ih
      rw [List.map_cons, parseLogData_cons, hrest]
      rcases parseLogDataElem_eq t el with ⟨-, -, -, hnone⟩ | ⟨-, make, -, -, hsome⟩
      · exact ⟨_, by rw [hnone]; rfl⟩
      · exact ⟨_, by rw [hsome]; rfl⟩
  constructor
  · intro hnamed
    rcases parseLogDataElem_eq t el with ⟨-, -, -, hnone⟩ | ⟨htrue, -⟩
    · have hsame : parseLogData ((el :: els).map (LogElem.keepLines fun _ => false)) (some t) none =
          parseLogData (els.map (LogElem.keepLines fun _ => false)) (some t) none := by
        rw [List.map_cons, parseLogData_cons, hnone]
        change (parseLogData _ _ _).map _ = _
        cases parseLogData (els.map (LogElem.keepLines fun _ => false)) (some t) none <;> rfl
      rw [pageHeader, pageHeader, hsame]
    · rw [hnamed] at htrue
      cases htrue
  · intro o ho
    obtain ⟨rest, hrest⟩ := hblank els
    rw [pageHeader, List.map_cons, parseLogData_cons, ho, hrest]
    rfl

/-- **A response whose index cells decode**: its page is the rows of its lines, under its header. -/
theorem parseLogData_page {els : List LogElem} (h : ∀ el ∈ els, ∀ line ∈ readLines el,
      (decodeIndex t (nullTokens el none) (indexCell line)).isOk = true) :
    (pageElem els = none ∧ parseLogData els (some t) none = .ok []) ∨
    ∃ first rest, parseLogData els (some t) none = .ok (first :: rest) ∧ pageElem els ≠ none ∧
      first.block =
        { pageHeader t els with rows := (pageLines els).map (lineRow t (pageNulls els)) } := by
  induction els with
  | nil => exact Or.inl ⟨rfl, rfl⟩
  | cons el els ih =>
    have hrest := ih fun el' hel' => h el' (List.mem_cons_of_mem _ hel')
    have hlines : (readLines el).mapM (decodeLine t (nullTokens el none)) =
        .ok ((readLines el).map (lineRow t (nullTokens el none))) :=
      mapM_eq_ok fun line hline => decodeLine_eq_ok (h el List.mem_cons_self line hline)
    rw [parseLogData_cons]
    rcases parseLogDataElem_eq t el with ⟨hnamed, -, hnone, -⟩ | ⟨hnamed, make, hmake, hparse, hblank⟩
    · -- an element without mnemonics is passed over
      have hpage : pageElem (el :: els) = pageElem els := by
        rw [pageElem, List.find?_cons, hnamed]
        rfl
      rw [hnone, hpage, pageLines, pageNulls, hpage, (pageHeader_cons t el els).1 hnamed]
      rcases hrest with ⟨hpage', hbatch⟩ | ⟨first, rest, hbatch, hpage', hblock⟩
      · exact Or.inl ⟨hpage', by rw [hbatch]; rfl⟩
      · exact Or.inr ⟨first, rest, by rw [hbatch]; rfl, hpage', hblock⟩
    · have hpage : pageElem (el :: els) = some el := by
        rw [pageElem, List.find?_cons, hnamed]
      have hbatch : ∃ rest, parseLogData els (some t) none = .ok rest := by
        rcases hrest with ⟨-, hbatch⟩ | ⟨first, rest, hbatch, -⟩
        · exact ⟨_, hbatch⟩
        · exact ⟨_, hbatch⟩
      obtain ⟨rest, hrest⟩ := hbatch
      refine Or.inr ⟨make ((readLines el).map (lineRow t (nullTokens el none))), rest, ?_, ?_, ?_⟩
      · rw [hparse, hlines, hrest]
        rfl
      · rw [hpage]
        exact Option.some_ne_none _
      · rw [hmake, pageLines, pageNulls, hpage, (pageHeader_cons t el els).2 _ hblank]
        rfl

/-- Parsing raises if an index cell does. -/
theorem decodes_of_parseLogData {els : List LogElem} {batch : List LogDataResult}
    (h : parseLogData els (some t) none = .ok batch) : ∀ el ∈ els, ∀ line ∈ readLines el,
      (decodeIndex t (nullTokens el none) (indexCell line)).isOk = true := by
  intro el hel line hline
  obtain ⟨outs, houts, -⟩ := map_eq_ok.mp h
  obtain ⟨out, hout, hparse⟩ := exists_of_forall₂ (mapM_eq_ok_iff.mp houts).flip hel
  rcases parseLogDataElem_eq t el with ⟨-, hnil, -⟩ | ⟨-, make, -, heq, -⟩
  · rw [hnil] at hline
    exact absurd hline List.not_mem_nil
  · rw [heq] at hparse
    obtain ⟨rows, hrows, -⟩ := map_eq_ok.mp hparse
    obtain ⟨row, hrow, hdecode⟩ := exists_of_forall₂ (mapM_eq_ok_iff.mp hrows).flip hline
    rw [decodeLine_eq] at hdecode
    obtain ⟨v, hv, -⟩ := map_eq_ok.mp hdecode
    rw [hv]
    rfl

/-! Dropping lines changes nothing about a response but its lines. -/

theorem pageElem_keepLines (p : Str → Bool) (els : List LogElem) :
    pageElem (els.map (LogElem.keepLines p)) = (pageElem els).map (LogElem.keepLines p) := by
  rw [pageElem, pageElem, List.find?_map]
  refine congrArg _ (List.find?_congr fun el _ => ?_)
  exact named_keepLines p el

theorem pageLines_keepLines (p : Str → Bool) (els : List LogElem) :
    pageLines (els.map (LogElem.keepLines p)) = (pageLines els).filter p := by
  rw [pageLines, pageLines, pageElem_keepLines]
  cases pageElem els with
  | none => rfl
  | some el => exact readLines_keepLines p el

theorem pageNulls_keepLines (p : Str → Bool) (els : List LogElem) :
    pageNulls (els.map (LogElem.keepLines p)) = pageNulls els := by
  rw [pageNulls, pageNulls, pageElem_keepLines]
  cases pageElem els <;> rfl

theorem pageHeader_keepLines (p : Str → Bool) (els : List LogElem) :
    pageHeader t (els.map (LogElem.keepLines p)) = pageHeader t els := by
  rw [pageHeader, pageHeader, List.map_map]
  refine congrArg (fun els => match parseLogData els (some t) none with
    | .ok (first :: _) => first.block
    | _ => ⟨[], [], t, []⟩) (List.map_congr_left fun el _ => ?_)
  exact keepLines_false p el

end Parsing

/-! ## 6. What is ingested

From the lines to the samples and the cursor.  `ingestResponse_spec` is the case in which the page
has numbers and instants only; texts are handled by `cursor_of_text`, since they raise or stand
alone. -/

section Ingestion

variable {cfg : Settings} {t : IndexType} {d : Direction} {last : Option Value} {els : List LogElem}

/-- The samples of a line are at the index that the line is read under. -/
theorem index_of_mem_lineSamples {i : Value} {line : Str} {x : CurveSample}
    (h : x ∈ lineSamples t els i line) : x.index = i := by
  have hx := @index_of_mem_samplesOf (pageHeader t els)
    ⟨some i, lineCells (pageNulls els) line⟩ x h
  exact (Option.some.inj hx).symm

/-- The entries of the page are its last lines. -/
theorem mem_entries {nulls lines : List Str} {i : Value} {r : Row} :
    (i, r) ∈ indexRows [] (lines.map (lineRow t nulls)) ↔
      ∃ line, LastHeard t nulls lines i line ∧ lineRow t nulls line = r := by
  rw [mem_indexRows]
  constructor
  · rintro ⟨before, after, hsplit, hi, hafter⟩
    obtain ⟨front, back, rfl, rfl, hback⟩ := List.map_eq_append_iff.mp hsplit
    obtain ⟨line, rest, rfl, rfl, rfl⟩ := List.map_eq_cons_iff.mp hback
    exact ⟨line, ⟨front, rest, rfl, hi, fun l hl w hw =>
      hafter (lineRow t nulls l) (List.mem_map_of_mem hl) w hw⟩, rfl⟩
  · rintro ⟨line, ⟨before, after, rfl, hi, hafter⟩, rfl⟩
    refine ⟨before.map (lineRow t nulls), after.map (lineRow t nulls), by simp, hi,
      fun r' hr' j hj => ?_⟩
    obtain ⟨l, hl, rfl⟩ := List.mem_map.mp hr'
    exact hafter l hl j hj

/-- **A response in which nothing but numbers and instants is taken for an index.** -/
theorem ingestResponse_spec (cfg : Settings) (hdecodes : ∀ el ∈ els, ∀ line ∈ readLines el,
      (decodeIndex t (nullTokens el none) (indexCell line)).isOk = true)
    (hheard : ∀ line ∈ pageLines els, ∀ v, heard t (pageNulls els) line = some v → v.Heard t)
    (hlast : ∀ v, last = some v → (aware v).Orders t) :
    ∃ samples cursor, ingestResponse cfg t d last els = .ok (samples, cursor.or last) ∧
      samples.Perm (((indexRows [] ((pageLines els).map (lineRow t (pageNulls els)))).filter
        fun e => kept d last e.1).flatMap fun e => (pageHeader t els).samplesAt e.1 e.2) ∧
      Leads d ((pageLines els).filterMap (heard t (pageNulls els))) cursor := by
  rcases parseLogData_page hdecodes with ⟨hpage, hparse⟩ | ⟨first, rest, hparse, -, hblock⟩
  · have hlines : pageLines els = [] := by rw [pageLines, hpage]; rfl
    refine ⟨[], none, by rw [ingestResponse, hparse]; rfl, ?_, ?_⟩
    · rw [hlines]
      exact List.Perm.refl _
    · rw [hlines]
      exact .nothing
  · obtain ⟨samples, cursor, hrun, hperm, hleads⟩ := @ingestBlock_spec t first.block d last
      cfg (fun r hr i hi => by
        rw [hblock] at hr
        obtain ⟨line, hline, rfl⟩ := List.mem_map.mp hr
        exact hheard line hline i hi) hlast
    refine ⟨samples, cursor, by rw [ingestResponse, hparse]; exact hrun, ?_, ?_⟩
    · rw [hblock] at hperm
      exact hperm
    · have hindices : first.block.rows.filterMap Row.index =
          (pageLines els).filterMap (heard t (pageNulls els)) := by
        rw [hblock, List.filterMap_map]
        rfl
      rw [← hindices]
      exact hleads

/-- What is handed on, line by line. -/
theorem mem_samples {samples : List CurveSample} {x : CurveSample}
    (hperm : samples.Perm (((indexRows [] ((pageLines els).map (lineRow t (pageNulls els)))).filter
      fun e => kept d last e.1).flatMap fun e => (pageHeader t els).samplesAt e.1 e.2)) :
    x ∈ samples ↔ ∃ line, LastHeard t (pageNulls els) (pageLines els) x.index line ∧
      kept d last x.index = true ∧ x ∈ lineSamples t els x.index line := by
  rw [hperm.mem_iff, List.mem_flatMap]
  constructor
  · rintro ⟨⟨i, r⟩, he, hx⟩
    obtain ⟨he, hkept⟩ := List.mem_filter.mp he
    obtain ⟨line, hline, rfl⟩ := mem_entries.mp he
    have hx' : x ∈ lineSamples t els i line := hx
    obtain rfl := index_of_mem_lineSamples hx'
    exact ⟨line, hline, hkept, hx'⟩
  · rintro ⟨line, hline, hkept, hx⟩
    exact ⟨(x.index, lineRow t (pageNulls els) line),
      List.mem_filter.mpr ⟨mem_entries.mpr ⟨line, hline, rfl⟩, hkept⟩, hx⟩

/-- A text that is taken for an index becomes the cursor, if nothing raises. -/
theorem cursor_of_text {samples : List CurveSample} {cursor : Option Value} {line s : Str}
    (hline : line ∈ pageLines els) (hs : heard t (pageNulls els) line = some (.text s))
    (hrun : ingestResponse cfg t d last els = .ok (samples, cursor)) :
    ∃ s', cursor = some (.text s') := by
  obtain ⟨batch, hparse, hrest⟩ := bind_eq_ok.mp hrun
  rcases parseLogData_page (decodes_of_parseLogData hparse) with
    ⟨hpage, -⟩ | ⟨first, rest, hparse', -, hblock⟩
  · rw [pageLines, hpage] at hline
    exact absurd hline List.not_mem_nil
  · obtain rfl := Except.ok.inj (hparse.symm.trans hparse')
    refine ingestBlock_text (r := lineRow t (pageNulls els) line) ?_ hs hrest
    rw [hblock]
    exact List.mem_map_of_mem hline

/-- What has no samples can be left out. -/
theorem flatMap_filter_and {α β : Type} {p q : α → Bool} {f : α → List β} {l : List α}
    (h : ∀ a ∈ l, p a = true → q a = false → f a = []) :
    (l.filter p).flatMap f = (l.filter fun a => q a && p a).flatMap f := by
  induction l with
  | nil => rfl
  | cons a l ih =>
    have ih := ih fun b hb => h b (List.mem_cons_of_mem _ hb)
    by_cases hp : p a = true
    · by_cases hq : q a = true
      · simp [hp, hq, ih]
      · simp [hp, hq, ih, h a List.mem_cons_self hp (by simpa using hq)]
    · simp [hp, ih]

/-- If nothing but well-formed indices has samples to hand on, those samples are the ones that the
lines with well-formed indices would give by themselves. -/
theorem samples_perm {nulls lines : List Str} {header : LogDataBlock} {samples : List CurveSample}
    (hperm : samples.Perm (((indexRows [] (lines.map (lineRow t nulls))).filter
      fun e => kept d last e.1).flatMap fun e => header.samplesAt e.1 e.2))
    (hodd : ∀ v line, LastHeard t nulls lines v line → kept d last v = true → ¬v.WellFormed t →
      header.samplesAt v (lineRow t nulls line) = []) :
    samples.Perm (((indexRows [] ((lines.map (lineRow t nulls)).filter
      fun r => r.index.any fun v => decide (v.WellFormed t))).filter
        fun e => kept d last e.1).flatMap fun e => header.samplesAt e.1 e.2) := by
  refine hperm.trans (List.Perm.of_eq ?_)
  rw [flatMap_filter_and (q := fun e => decide (e.1.WellFormed t)), ← filter_indexRows,
    List.filter_filter]
  · refine congrArg (List.flatMap _) (List.filter_congr fun e _ => Bool.and_comm _ _)
  · rintro ⟨v, r⟩ he hkept hwell
    obtain ⟨line, hline, rfl⟩ := mem_entries.mp he
    exact hodd v line hline hkept (by simpa using hwell)

/-- An index passes the dedupe if it is beyond the cursor, and well-formed ones only then. -/
theorem kept_iff {i : Value} (hi : i.WellFormed t) : kept d last i = true ↔ BeyondCursor d last i := by
  cases last with
  | none => simp [kept, BeyondCursor]
  | some v => simp [kept, BeyondCursor, hi.ne_nan]

/-- Without infinities ahead, a cursor among indices that do not begin with `nan` is well-formed if any
of them is. -/
theorem Leads.wellFormed {is : List Value} {cursor : Option Value} {i : Value} (h : Leads d is cursor)
    (hheard : ∀ v ∈ is, v.Heard t) (hahead : ∀ v ∈ is, v ≠ .num (.inf (d == .decreasing)))
    (hfront : ∀ v ∈ is.head?, v ≠ .num .nan) (hi : i ∈ is) (hwell : i.WellFormed t) :
    ∃ m, cursor = some m ∧ m ∈ is ∧ m.WellFormed t ∧
      ∀ u ∈ is, u.WellFormed t → growthKey d u ≤ growthKey d m := by
  cases h with
  | nothing => exact absurd hi List.not_mem_nil
  | unordered is => exact absurd rfl (hfront _ rfl)
  | @furthest _ m _ _ hm hne hmax =>
    refine ⟨m, rfl, hm, ?_, fun u hu hwellu => hmax u hu hwellu.ne_nan⟩
    by_contra hodd
    have hbehind := (hheard m hm).behind hodd hne (hahead m hm) hwell
    exact absurd (hmax i hi hwell.ne_nan) (not_le.mpr hbehind)

section Manageable

variable (h : Manageable t d last els)

include h

/-- In a manageable response nothing but numbers and instants is heard. -/
theorem Manageable.heard {line : Str} (hline : line ∈ pageLines els) {v : Value}
    (hv : WitsmlViewer.heard t (pageNulls els) line = some v) : v.Heard t := by
  have hdecoded : v.Decoded t := by
    rw [WitsmlViewer.heard] at hv
    cases hd : decodeIndex t (pageNulls els) (indexCell line) with
    | error e =>
      rw [hd] at hv
      cases hv
    | ok o =>
      rw [hd] at hv
      obtain rfl : o = some v := by simpa [Except.toOption] using hv
      exact decoded_of_decodeIndex hd
  cases v with
  | num x => exact hdecoded
  | text s => exact absurd rfl ((h.numbers line hline _ hv).1 s)
  | dt e => exact hdecoded

/-- Whatever passes the dedupe without a well-formed index has nothing to say. -/
theorem Manageable.silent (hlast : ∀ v, last = some v → (aware v).WellFormed t) {v : Value}
    {line : Str} (hline : LastHeard t (pageNulls els) (pageLines els) v line)
    (hkept : kept d last v = true) (hwell : ¬v.WellFormed t) : lineSamples t els v line = [] := by
  cases hl : last with
  | none => exact h.fresh hl v line hline hwell
  | some c =>
    subst hl
    obtain ⟨before, after, hsplit, hv, -⟩ := hline
    have hmem : line ∈ pageLines els := by rw [hsplit]; simp
    simp only [kept, Option.all_some, Bool.and_eq_true, decide_eq_true_eq] at hkept
    have hbehind := (h.heard hmem hv).behind (d := d) hwell hkept.1 (h.numbers line hmem v hv).2
      (hlast c rfl)
    rw [growthKey_aware] at hbehind
    omega

/-- **A manageable response is ingested as it should be.**

The decoded rows are those of the well-formed indices, and others that make no difference: `nan` and
infinities behind are passed over by the furthest index, and nothing of them is handed on. -/
theorem Manageable.ingests (cfg : Settings) (hlast : ∀ v, last = some v → (aware v).WellFormed t) :
    ∃ samples cursor, Ingests cfg t d last els samples cursor := by
  set nulls := pageNulls els with hnulls
  set keep := fun line => (lineIndex t line).isSome with hkeep
  have hlastOrders : ∀ v, last = some v → (aware v).Orders t := fun v hv => (hlast v hv).orders
  have hheard : ∀ v ∈ (pageLines els).filterMap (WitsmlViewer.heard t nulls), v.Heard t := by
    intro v hv
    obtain ⟨line, hline, hv⟩ := List.mem_filterMap.mp hv
    exact h.heard hline hv
  obtain ⟨samples, cursor, hrun, hperm, hleads⟩ := ingestResponse_spec cfg h.instants
    (fun line hline v hv => h.heard hline hv) hlastOrders
  -- the same response without its malformed lines
  obtain ⟨samples', cursor', hrun', hperm', hleads'⟩ := @ingestResponse_spec t d last
    (els.map (LogElem.keepLines keep)) cfg (by
      intro el' hel' line hline
      obtain ⟨el, hel, rfl⟩ := List.mem_map.mp hel'
      rw [readLines_keepLines] at hline
      exact h.instants el hel line (List.mem_filter.mp hline).1) (by
      intro line hline v hv
      rw [pageLines_keepLines] at hline
      rw [pageNulls_keepLines] at hv
      exact h.heard (List.mem_filter.mp hline).1 hv) hlastOrders
  rw [pageLines_keepLines, pageNulls_keepLines, pageHeader_keepLines, ← hnulls] at hperm'
  rw [pageLines_keepLines, pageNulls_keepLines, ← hnulls] at hleads'
  have hwellKept : ∀ line ∈ (pageLines els).filter keep, ∀ v,
      WitsmlViewer.heard t nulls line = some v → v.WellFormed t := by
    intro line hline v hv
    by_contra hodd
    have hsome := (List.mem_filter.mp hline).2
    rw [hkeep] at hsome
    simp only [(lineIndex_of_heard hv).2 hodd] at hsome
    cases hsome
  -- both hand on what the lines with well-formed indices say
  have hsame : ((pageLines els).filter keep).filter
        (fun line => (WitsmlViewer.heard t nulls line).any fun v => decide (v.WellFormed t)) =
      (pageLines els).filter
        fun line => (WitsmlViewer.heard t nulls line).any fun v => decide (v.WellFormed t) := by
    rw [List.filter_filter]
    refine List.filter_congr fun line _ => ?_
    cases hv : WitsmlViewer.heard t nulls line with
    | none => simp
    | some v =>
      by_cases hwell : v.WellFormed t
      · simp [hwell, hkeep, (lineIndex_of_heard hv).1 hwell]
      · simp [hwell]
  have hrows : ∀ lines : List Str, (lines.map (lineRow t nulls)).filter
        (fun r => r.index.any fun v => decide (v.WellFormed t)) =
      (lines.filter fun line => (WitsmlViewer.heard t nulls line).any
        fun v => decide (v.WellFormed t)).map (lineRow t nulls) := fun lines => List.filter_map ..
  have hboth : samples.Perm samples' := by
    have hleft := samples_perm hperm fun v line hline hkept hwell =>
      h.silent hlast hline hkept hwell
    have hright := samples_perm hperm' fun v line hline _ hwell => by
      obtain ⟨before, after, hsplit, hv, -⟩ := hline
      exact absurd (hwellKept line (by rw [hsplit]; simp) v hv) hwell
    rw [hrows, hsame, ← hrows] at hright
    exact hleft.trans hright.symm
  -- and both leave the same cursor
  have hcursor : cursor = cursor' ∧ ∀ m, cursor = some m → m.WellFormed t ∧
      ∃ line ∈ pageLines els, lineIndex t line = some m := by
    cases hidx : (pageLines els).filterMap (WitsmlViewer.heard t nulls) with
    | nil =>
      have hnone : ∀ line ∈ pageLines els, WitsmlViewer.heard t nulls line = none :=
        List.filterMap_eq_nil_iff.mp hidx
      have hidx' : ((pageLines els).filter keep).filterMap (WitsmlViewer.heard t nulls) = [] :=
        List.filterMap_eq_nil_iff.mpr fun line hline => hnone line (List.mem_filter.mp hline).1
      rw [hidx] at hleads
      rw [hidx'] at hleads'
      cases hleads
      cases hleads'
      exact ⟨rfl, by simp⟩
    | cons v is =>
      obtain ⟨i, hi, hwell⟩ := (h.front v (by rw [← hnulls, hidx]; rfl)).2
      obtain ⟨m, rfl, hm, hmwell, hmax⟩ := hleads.wellFormed hheard (by
          intro u hu
          obtain ⟨line, hline, hu⟩ := List.mem_filterMap.mp hu
          exact (h.numbers line hline u hu).2) (fun u hu => (h.front u hu).1) hi hwell
      have hkeptIndex : ∀ u, u.WellFormed t →
          u ∈ (pageLines els).filterMap (WitsmlViewer.heard t nulls) →
          u ∈ ((pageLines els).filter keep).filterMap (WitsmlViewer.heard t nulls) := by
        intro u hu huin
        obtain ⟨line, hline, hv⟩ := List.mem_filterMap.mp huin
        refine List.mem_filterMap.mpr ⟨line, List.mem_filter.mpr ⟨hline, ?_⟩, hv⟩
        rw [hkeep]
        simp only [(lineIndex_of_heard hv).1 hu]
        rfl
      have hwell' : ∀ u ∈ ((pageLines els).filter keep).filterMap (WitsmlViewer.heard t nulls),
          u.WellFormed t := by
        intro u hu
        obtain ⟨line, hline, hv⟩ := List.mem_filterMap.mp hu
        exact hwellKept line hline u hv
      have hold : ∀ u ∈ ((pageLines els).filter keep).filterMap (WitsmlViewer.heard t nulls),
          u ∈ (pageLines els).filterMap (WitsmlViewer.heard t nulls) := by
        intro u hu
        obtain ⟨line, hline, hv⟩ := List.mem_filterMap.mp hu
        exact List.mem_filterMap.mpr ⟨line, (List.mem_filter.mp hline).1, hv⟩
      obtain ⟨m', rfl, hm', hm'well, hmax'⟩ := hleads'.wellFormed (fun u hu => (hwell' u hu).heard)
        (fun u hu heq => by
          have := hwell' u hu
          rw [heq] at this
          exact absurd this.2 (by cases d <;> decide))
        (fun u hu => (hwell' u (List.mem_of_mem_head? hu)).ne_nan) (hkeptIndex m hmwell hm) hmwell
      have heq : m = m' := growthKey_inj hmwell.orders hm'well.orders
        (le_antisymm (hmax' m (hkeptIndex m hmwell hm) hmwell) (hmax m' (hold m' hm') hm'well))
      refine ⟨congrArg some heq, fun u hu => ?_⟩
      obtain rfl := Option.some.inj hu
      obtain ⟨line, hline, hv⟩ := List.mem_filterMap.mp hm
      exact ⟨hmwell, line, hline, (lineIndex_of_heard hv).1 hmwell⟩
  have hspoken : ∀ {i : Value} {line : Str}, i.WellFormed t → LastLine t (pageLines els) i line →
      WitsmlViewer.heard t nulls line = some i → LastHeard t nulls (pageLines els) i line :=
    fun hi hline hv => (lastHeard_iff hi).mpr (hline.filter (by rw [hv]; rfl))
  refine ⟨samples, cursor.or last, ?_⟩
  constructor
  case completes => exact hrun
  case ignored => exact ⟨samples', by rw [hcursor.1]; exact hrun', hboth⟩
  case delivered =>
    intro line hline i hi hbeyond
    have hwell := wellFormed_lineIndex hi
    obtain ⟨line', hlast'⟩ := exists_lastLine hline hi
    refine ⟨line', hlast', fun x hx => ?_⟩
    have hxi := index_of_mem_lineSamples hx
    subst hxi
    obtain ⟨-, -, -, hi', -⟩ := id hlast'
    rcases heard_of_lineIndex nulls hi' with hv | hv
    · exact (mem_samples hperm).mpr
        ⟨line', hspoken hwell hlast' hv, (kept_iff hwell).mpr hbeyond, hx⟩
    · -- another line speaks for the null token
      obtain ⟨line'', hx'', hline''⟩ := (h.nulls _ line' hbeyond hlast' hv x).mp hx
      exact (mem_samples hperm).mpr
        ⟨line'', (lastHeard_iff hwell).mpr hline'', (kept_iff hwell).mpr hbeyond, hx''⟩
  case sound =>
    intro x hx
    obtain ⟨line, hline, hkept, hx⟩ := (mem_samples hperm).mp hx
    by_cases hwell : x.index.WellFormed t
    · have hbeyond := (kept_iff hwell).mp hkept
      obtain ⟨before, after, hsplit, hv, -⟩ := id hline
      have hlineIndex := (lineIndex_of_heard hv).1 hwell
      obtain ⟨line₀, hlast₀⟩ := exists_lastLine
        (show line ∈ pageLines els by rw [hsplit]; simp) hlineIndex
      refine ⟨hbeyond, line₀, hlast₀, ?_⟩
      obtain ⟨-, -, -, hi₀, -⟩ := id hlast₀
      rcases heard_of_lineIndex nulls hi₀ with hv₀ | hv₀
      · have hunique := LastLine.unique ((lastHeard_iff hwell).mp (hspoken hwell hlast₀ hv₀))
          ((lastHeard_iff hwell).mp hline)
        rw [hunique]
        exact hx
      · exact (h.nulls _ line₀ hbeyond hlast₀ hv₀ x).mpr
          ⟨line, hx, (lastHeard_iff hwell).mp hline⟩
    · rw [h.silent hlast hline hkept hwell] at hx
      exact absurd hx List.not_mem_nil
  case saved =>
    intro v hv
    cases hc : cursor with
    | none =>
      rw [hc] at hv
      exact hlast v hv
    | some m =>
      rw [hc] at hv
      obtain rfl := Option.some.inj hv
      have hm := (hcursor.2 m hc).1
      rw [hm.heard.aware_eq]
      exact hm
  case onward =>
    intro i hbeyond hahead v hv
    cases hc : cursor with
    | none =>
      rw [hc] at hv
      exact hbeyond v hv
    | some m =>
      rw [hc] at hv
      obtain rfl := Option.some.inj hv
      obtain ⟨-, line, hline, hm⟩ := hcursor.2 m hc
      exact hahead line hline m hm

end Manageable

/-- **And only a manageable response is.**

What spoils a response shows in what is handed on, or in the cursor: a text or an infinity ahead
becomes the cursor if nothing raises, `nan` does where it comes first, and without a cursor every odd
index is handed on with its readings. -/
theorem Ingests.manageable {samples : List CurveSample} {cursor : Option Value}
    (hlast : ∀ v, last = some v → (aware v).WellFormed t)
    (h : Ingests cfg t d last els samples cursor) : Manageable t d last els := by
  have hdecodes : ∀ el ∈ els, ∀ line ∈ readLines el,
      (decodeIndex t (nullTokens el none) (indexCell line)).isOk = true := by
    obtain ⟨batch, hparse, -⟩ := bind_eq_ok.mp h.completes
    exact decodes_of_parseLogData hparse
  have hpageDecodes : ∀ line ∈ pageLines els, ∀ v, heard t (pageNulls els) line = some v →
      v.Decoded t := by
    intro line hline v hv
    rw [heard] at hv
    cases hd : decodeIndex t (pageNulls els) (indexCell line) with
    | error e =>
      rw [hd] at hv
      cases hv
    | ok o =>
      rw [hd] at hv
      obtain rfl : o = some v := by simpa [Except.toOption] using hv
      exact decoded_of_decodeIndex hd
  have hnotext : ∀ line ∈ pageLines els, ∀ v, heard t (pageNulls els) line = some v →
      ∀ s, v ≠ .text s := by
    rintro line hline v hv s rfl
    obtain ⟨s', rfl⟩ := cursor_of_text hline hv h.completes
    exact h.saved _ rfl
  have hheard : ∀ line ∈ pageLines els, ∀ v, heard t (pageNulls els) line = some v →
      v.Heard t := by
    intro line hline v hv
    have hdecoded := hpageDecodes line hline v hv
    cases v with
    | num x => exact hdecoded
    | text s => exact absurd rfl (hnotext line hline _ hv s)
    | dt e => exact hdecoded
  obtain ⟨samples', cont, hrun, hperm, hleads⟩ := ingestResponse_spec cfg (d := d) hdecodes hheard
    fun v hv => (hlast v hv).orders
  obtain ⟨rfl, rfl⟩ := Prod.mk.inj (Except.ok.inj (h.completes.symm.trans hrun))
  -- if there is an index, the cursor is one, and well-formed
  have hcont : ∀ v ∈ (pageLines els).filterMap (heard t (pageNulls els)), ∃ m, cont = some m ∧
      m.WellFormed t ∧ m ∈ (pageLines els).filterMap (heard t (pageNulls els)) ∧
      (∀ u ∈ ((pageLines els).filterMap (heard t (pageNulls els))).head?, u ≠ .num .nan) ∧
      (v ≠ .num .nan → growthKey d v ≤ growthKey d m) := by
    intro v hv
    have hall : ∀ u ∈ (pageLines els).filterMap (heard t (pageNulls els)), u.Heard t := by
      intro u hu
      obtain ⟨line, hline, hu⟩ := List.mem_filterMap.mp hu
      exact hheard line hline u hu
    generalize (pageLines els).filterMap (heard t (pageNulls els)) = is at hleads hv hall
    cases hleads with
    | nothing => exact absurd hv List.not_mem_nil
    | unordered is => exact absurd rfl (h.saved _ rfl).ne_nan
    | @furthest i m is hi hm hne hmax =>
      have hwell := h.saved m rfl
      rw [(hall m hm).aware_eq] at hwell
      exact ⟨m, rfl, hwell, hm, by simpa using hi, hmax v hv⟩
  refine ⟨hdecodes, fun line hline v hv => ⟨hnotext line hline v hv, ?_⟩, fun v hv => ?_,
    fun hnone v line hline hodd => ?_, fun i line hbeyond hline hnull x => ⟨fun hx => ?_, ?_⟩⟩
  · rintro rfl
    obtain ⟨m, -, hwell, -, -, hle⟩ := hcont _ (List.mem_filterMap.mpr ⟨line, hline, hv⟩)
    have := hwell.before_infinity (d := d) (hheard line hline _ hv)
    exact absurd (hle (by cases d <;> simp)) (not_le.mpr this)
  · obtain ⟨m, -, hwell, hm, hfront, -⟩ := hcont v (List.mem_of_mem_head? hv)
    exact ⟨hfront v hv, m, hm, hwell⟩
  · refine List.eq_nil_iff_forall_not_mem.mpr fun x hx => ?_
    obtain rfl := index_of_mem_lineSamples hx
    have hin : x ∈ samples := (mem_samples hperm).mpr ⟨line, hline, by rw [hnone]; rfl, hx⟩
    obtain ⟨-, line', ⟨-, -, -, hi, -⟩, -⟩ := h.sound x hin
    exact hodd (wellFormed_lineIndex hi)
  · obtain ⟨before, after, hsplit, hi, -⟩ := id hline
    obtain ⟨line', hline', hall⟩ := h.delivered line (by rw [hsplit]; simp) i hi hbeyond
    obtain rfl := hline.unique hline'
    obtain ⟨line'', hline'', -, hx'⟩ := (mem_samples hperm).mp (hall x hx)
    obtain rfl := index_of_mem_lineSamples hx
    exact ⟨line'', hx', (lastHeard_iff (wellFormed_lineIndex hi)).mp hline''⟩
  · rintro ⟨line', hx, hline'⟩
    obtain rfl := index_of_mem_lineSamples hx
    obtain ⟨-, -, -, hi, -⟩ := id hline'
    have hwell := wellFormed_lineIndex hi
    have hin : x ∈ samples := (mem_samples hperm).mpr
      ⟨line', (lastHeard_iff hwell).mpr hline', (kept_iff hwell).mpr hbeyond, hx⟩
    obtain ⟨-, line₀, hline₀, hx₀⟩ := h.sound x hin
    rw [hline.unique hline₀]
    exact hx₀

/-- The log element of a success with these lines of data. -/
def linesElem (lines : List String) : LogElem where
  logData := some ⟨some "DEPTH,GR".toList, none, lines.map fun l => some l.toList⟩

/-- A row before the cursor, one without an index, one with a null for it, one with too many cells, one
with `nan`, and one with too few cells. -/
def mixedLines : List LogElem := [linesElem ["9,1", ",2", "-999.25,3", "11,4,5,6", "nan,7", "12"]]

/-- The lines are manageable: no word and no infinity stands for an index, and `nan` comes after a
proper one. -/
theorem manageable_mixedLines :
    Manageable .measuredDepth .increasing (depth? "10") mixedLines := by
  have hindices : (pageLines mixedLines).filterMap (heard .measuredDepth (pageNulls mixedLines)) =
      ["9", "11", "nan", "12"].filterMap depth? := by decide +kernel
  refine ⟨by decide +kernel, fun line hline v hv => ?_, fun v hv => ?_, fun h => ?_,
    fun i line hbeyond hline hnull => ?_⟩
  · have hin := List.mem_filterMap.mpr ⟨line, hline, hv⟩
    rw [hindices] at hin
    have hahead : ∀ v ∈ ["9", "11", "nan", "12"].filterMap depth?, v ≠ .num (.inf false) := by
      decide +kernel
    refine ⟨?_, hahead v hin⟩
    obtain ⟨token, -, hv⟩ := List.mem_filterMap.mp hin
    obtain ⟨x, -, rfl⟩ := Option.map_eq_some_iff.mp hv
    exact fun s hs => by cases hs
  · have hfront : ∀ v ∈ (["9", "11", "nan", "12"].filterMap depth?).head?, v ≠ .num .nan ∧
        ∃ i ∈ ["9", "11", "nan", "12"].filterMap depth?, i.WellFormed .measuredDepth := by
      decide +kernel
    rw [hindices] at hv ⊢
    exact hfront v hv
  · exact absurd h (by decide +kernel)
  · -- the null token is a number, but one before the cursor
    have hbehind : ∀ line ∈ pageLines mixedLines,
        heard .measuredDepth (pageNulls mixedLines) line = none →
        ∀ i ∈ lineIndex .measuredDepth line, ∃ v ∈ depth? "10",
          growthKey .increasing i ≤ growthKey .increasing v := by decide +kernel
    obtain ⟨before, after, hsplit, hi, -⟩ := hline
    obtain ⟨v, hv, hle⟩ := hbehind line (by rw [hsplit]; simp) hnull i hi
    exact absurd (hbeyond v hv) (not_lt.mpr hle)

end Ingestion

/-! ## 7. The poll

`ingestResponse` is what a poll does with a success that needs no second page.  The call of the
client is unfolded once, and what it raises is what `ingestResponse` raises. -/

/-- A call whose first answer is a success with nothing more to come. -/
theorem LogDataCall.getLogData_page (call : LogDataCall) {start : Option Value} {q : LogQuery}
    {answers : ℕ → Answer} {reply : Reply} {els : List LogElem}
    (hstart : call.fetchStart start = .ok (call.initial start, q)) (hans : answers 0 = .ok reply)
    (hok : isError reply.result = false) (hlast : isTruncated reply.result = false)
    (hels : reply.logs = .ok els) :
    (call.getLogData start answers).1 = (parseLogData els (some call.indexType) none).bind
      fun batch => (call.absorb (call.initial start) batch).bind fun out => call.result out.1 := by
  have hstep : call.fetchStep (call.initial start) (answers 0) =
      (parseLogData els (some call.indexType) none).bind fun batch =>
        (call.absorb (call.initial start) batch).bind fun out => (call.result out.1).map .inr := by
    simp [fetchStep, hans, hok, hlast, hels, bind, Except.bind]
  obtain ⟨fuel, hfuel⟩ : ∃ fuel, maxTruncationIterations = fuel + 1 := ⟨999, rfl⟩
  rw [getLogData, hstart]
  dsimp only
  rw [hfuel, fetchLoop, hstep]
  cases parseLogData els (some call.indexType) none with
  | error e => rfl
  | ok batch =>
    simp only [Except.bind]
    cases call.absorb (call.initial start) batch with
    | error e => rfl
    | ok out =>
      dsimp only
      cases call.result out.1 <;> rfl

/-- **A poll that gets one page makes of it what `ingestResponse` does**, or nothing where that
raises. -/
theorem Polled.poll_page {cfg : Settings} {serverId : ℤ} {h : LogHeader} {s : Polled}
    {task : IngestTask} {answers : ℕ → Answer} {reply : Reply} {els : List LogElem}
    (hkey : (pollState serverId h s.warm).key = headerKey serverId h)
    (hbegin : beginIngest cfg serverId s.warm h = .ok (some task))
    (hans : answers 0 = .ok reply) (hok : isError reply.result = false)
    (hlast : isTruncated reply.result = false) (hels : reply.logs = .ok els) :
    match ingestResponse cfg (pollState serverId h s.warm).indexType
      (pollState serverId h s.warm).direction (pollState serverId h s.warm).lastIndex els with
    | .ok (samples, cursor) =>
      (s.poll cfg serverId h answers).handed = s.handed ++ [samples] ∧
        (s.poll cfg serverId h answers).cursors = s.cursors ++ [cursor]
    | .error _ => s.poll cfg serverId h answers = s := by
  obtain ⟨hstate, hcall, q, hstart⟩ := beginIngest_eq_ok cfg serverId h hbegin
  -- the state that the completion publishes is the one that the next poll begins with
  have hdone : ∀ {result : LogDataResult} {warm samples},
      completeIngest cfg s.warm task result = .ok (warm, samples) → ∀ {cursor},
      continuationIndex result.block (pollState serverId h s.warm).direction = .ok cursor →
      (pollState serverId h warm).lastIndex = cursor.or (pollState serverId h s.warm).lastIndex := by
    intro result warm samples hrun cursor hcursor
    obtain ⟨-, cursor', -, -, hcursor', hget⟩ := completeIngest_eq_ok cfg hrun
    rw [hstate] at hcursor' hget
    obtain rfl := Except.ok.inj (hcursor.symm.trans hcursor')
    rw [pollState, hget, if_pos hkey, Option.getD_some]
  rw [Polled.poll, hbegin]
  dsimp only
  rw [hcall, hstate, LogDataCall.getLogData_page _ hstart hans hok hlast hels, ingestResponse]
  have htype : (ingestCall cfg h (pollState serverId h s.warm)).indexType =
    (pollState serverId h s.warm).indexType := rfl
  rw [htype]
  cases hparse : parseLogData els (some (pollState serverId h s.warm).indexType) none with
  | error e => rfl
  | ok batch =>
    cases batch with
    | nil =>
      -- an empty block passes every stage
      have hempty : ∀ result : LogDataResult, result.block.rows = [] →
          ∃ warm, completeIngest cfg s.warm task result = .ok (warm, []) := by
        rintro ⟨uid, well, wellbore, itype, mnems, units, itype', rows⟩ hrows
        obtain rfl : rows = [] := hrows
        rw [completeIngest]
        cases task.state.lastIndex with
        | none => exact ⟨_, rfl⟩
        | some v => exact ⟨_, rfl⟩
      simp only [LogDataCall.absorb, LogDataCall.initial, LogDataCall.result, if_true, bind,
        Except.bind]
      generalize hresult : LogDataResult.mk _ _ _ _ _ = result
      have hrows : result.block.rows = [] := by rw [← hresult]
      obtain ⟨warm, hwarm⟩ := hempty result hrows
      have hcont : continuationIndex result.block (pollState serverId h s.warm).direction =
          .ok none := by rw [continuationIndex, rowIndices, hrows]; rfl
      rw [hwarm]
      dsimp only
      rw [hdone hwarm hcont, Option.none_or]
      exact ⟨rfl, rfl⟩
    | cons first rest =>
      simp only [ingestBlock, LogDataCall.absorb, LogDataCall.initial, Except.bind, bind]
      have hdir : (ingestCall cfg h (pollState serverId h s.warm)).direction =
        (pollState serverId h s.warm).direction := rfl
      rw [hdir]
      cases continuationIndex first.block (pollState serverId h s.warm).direction with
      | error e => rfl
      | ok next =>
        simp only [Except.map, LogDataCall.result, List.nil_append, List.cons_ne_nil, if_false]
        cases hmerge : mergeBlocks [first.block] with
        | error e => rfl
        | ok merged =>
          simp only [bind, Except.bind]
          cases hdedup : dedupeBoundary merged (pollState serverId h s.warm).lastIndex
              (pollState serverId h s.warm).direction with
          | error e => simp [completeIngest, hstate, hdedup, bind, Except.bind]
          | ok deduped =>
            cases hsamples : deduped.samples cfg with
            | error e => simp [completeIngest, hstate, hdedup, hsamples, bind, Except.bind]
            | ok samples =>
              cases hcont : continuationIndex merged (pollState serverId h s.warm).direction with
              | error e =>
                simp [completeIngest, hstate, hdedup, hsamples, hcont, bind, Except.bind]
              | ok cursor =>
                have hcomplete : ∀ result : LogDataResult, result.block = merged →
                    ∃ warm, completeIngest cfg s.warm task result = .ok (warm, samples) := by
                  rintro result rfl
                  simp [completeIngest, hstate, hdedup, hsamples, hcont, bind, Except.bind]
                simp only [hsamples]
                generalize hresult : LogDataResult.mk _ _ _ _ merged = result
                have hblock : result.block = merged := by rw [← hresult]
                obtain ⟨warm, hwarm⟩ := hcomplete result hblock
                rw [hwarm]
                dsimp only
                rw [hdone hwarm (by rw [hblock, hcont])]
                exact ⟨rfl, rfl⟩

end WitsmlViewer

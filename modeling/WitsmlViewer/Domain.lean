/-
# Domain objects and protocol constants

The in-memory shapes that flow between the layers (`app.domain.models`) and the protocol facts they
rest on (`app.witsml.constants`).

Three choices shape everything above:

* an index or a cell is a `Value`: a float, a text or an instant.  Which of them the code may
  compare is decided at run time in Python, so comparison is fallible here (`Value.lt?`);
* a decoded row is never empty, and only its first cell can be an instant (`Row`);
* `Value.rank` places the indices of one log on the integers, and `growthKey` turns that line so
  that a log always grows towards larger keys.  Every ordering argument of the development is about
  these integers.

The third choice is what keeps decreasing logs from doubling every proof.  The source compares with
`<` on an increasing log and with `>` on a decreasing one, in six places; on keys there is one
order, and the lemmas of section 6 are the only place where the direction is looked at.

Two properties of Python's values are kept although most logs never show them.  A `nan` equals
nothing, itself included, so that it is a dictionary key that is never found again; and an instant
may be naive, as a database driver returns it, and then cannot be compared with an aware one.
-/
import WitsmlViewer.Py.Datetime
import WitsmlViewer.Py.Dict
import WitsmlViewer.Py.Sorting

namespace WitsmlViewer

open Py

/-! ## 1. Errors

Exceptions are values.  A function of the source that can raise is an `Except`, with the exceptions
told apart only as far as some `except` clause does; what the process does with one that nobody
catches is modelled where the task ends that it escapes from. -/

/-- The exceptions that the modelled code raises or lets through. -/
inductive PyError
  | typeError
  | valueError
  | attributeError
  | overflowError
  | indexError
  | validationError
  | xmlSyntaxError
  | witsmlError (returnCode : ℤ) (message : Str)
  | transportError
  | integrityError
deriving DecidableEq

/-- A fallible computation that succeeded did so at every step. -/
theorem bind_eq_ok {ε α β : Type} {x : Except ε α} {f : α → Except ε β} {b : β} :
    (x >>= f) = .ok b ↔ ∃ a, x = .ok a ∧ f a = .ok b := by
  cases x with
  | error e => simp [bind, Except.bind]
  | ok a => simp [bind, Except.bind]

/-- The same for a function that cannot fail, applied to the result of one that can. -/
theorem map_eq_ok {ε α β : Type} {x : Except ε α} {f : α → β} {b : β} :
    x.map f = .ok b ↔ ∃ a, x = .ok a ∧ f a = b := by
  cases x with
  | error e => simp [Except.map]
  | ok a => simp [Except.map]

/-- A fallible map whose every step succeeds. -/
theorem mapM_eq_ok {ε α β : Type} {f : α → Except ε β} {g : α → β} :
    ∀ {l : List α}, (∀ a ∈ l, f a = .ok (g a)) → l.mapM f = .ok (l.map g)
  | [], _ => rfl
  | a :: l, h => by
    rw [List.mapM_cons, h a List.mem_cons_self, mapM_eq_ok fun b hb => h b (List.mem_cons_of_mem _ hb)]
    rfl

/-- A fallible map that succeeds does so at every element. -/
theorem mapM_eq_ok_iff {ε α β : Type} {f : α → Except ε β} :
    ∀ {l : List α} {m : List β}, l.mapM f = .ok m ↔ List.Forall₂ (fun a b => f a = .ok b) l m
  | [], m => by
    constructor
    · intro h
      obtain rfl := Except.ok.inj h
      exact .nil
    · intro h
      cases h
      rfl
  | a :: l, m => by
    rw [List.mapM_cons]
    constructor
    · intro h
      obtain ⟨b, hb, h⟩ := bind_eq_ok.mp h
      obtain ⟨m', hm, h⟩ := bind_eq_ok.mp h
      obtain rfl := Except.ok.inj h
      exact .cons hb (mapM_eq_ok_iff.mp hm)
    · intro h
      cases h with
      | cons hb hm =>
        rw [hb, mapM_eq_ok_iff.mpr hm]
        rfl

/-- A fallible map succeeds if each of its steps does, and what holds of each result holds of
all. -/
theorem exists_mapM_eq_ok {ε α β : Type} {f : α → Except ε β} {P : β → Prop} :
    ∀ {l : List α}, (∀ a ∈ l, ∃ b, f a = .ok b ∧ P b) → ∃ m, l.mapM f = .ok m ∧ ∀ b ∈ m, P b
  | [], _ => ⟨[], rfl, by simp⟩
  | a :: l, h => by
    obtain ⟨b, hb, hP⟩ := h a List.mem_cons_self
    obtain ⟨m, hm, hPm⟩ := exists_mapM_eq_ok fun a' ha' => h a' (List.mem_cons_of_mem _ ha')
    refine ⟨b :: m, ?_, ?_⟩
    · rw [List.mapM_cons, hb, hm]
      rfl
    · intro b' hb'
      rcases List.mem_cons.mp hb' with rfl | hb'
      · exact hP
      · exact hPm b' hb'

/-- An element of the second list has a partner in the first. -/
theorem exists_of_forall₂ {α β : Type} {R : α → β → Prop} {l : List α} {m : List β}
    (h : List.Forall₂ R l m) {b : β} (hb : b ∈ m) : ∃ a ∈ l, R a b := by
  induction h with
  | nil => simp at hb
  | cons hab _ ih =>
    rcases List.mem_cons.mp hb with rfl | hb
    · exact ⟨_, by simp, hab⟩
    · obtain ⟨a, ha, hr⟩ := ih hb
      exact ⟨a, by simp [ha], hr⟩

/-! ## 2. Constants

Return codes and enumerations of WITSML 1.4.1.1, with the texts that stand for them on the wire.  A
code of 2 is a success that did not fit: the answer is cut off, and the client asks on from where
it ends. -/

def rcSuccess : ℤ := 1

def rcPartialSuccess : ℤ := 2

/-- `is_success`. -/
def isSuccess (result : ℤ) : Bool := 0 < result

/-- `is_truncated`. -/
def isTruncated (result : ℤ) : Bool := result == rcPartialSuccess

/-- `is_error`. -/
def isError (result : ℤ) : Bool := result ≤ 0

inductive ReturnElements
  | all | idOnly | headerOnly | dataOnly | stationLocationOnly | latestChangeOnly | requested
deriving DecidableEq

inductive IndexType
  | dateTime | elapsedTime | measuredDepth | verticalDepth | other
deriving DecidableEq

namespace IndexType

/-- The enumeration's wire text. -/
def value : IndexType → Str
  | dateTime => "date time".toList
  | elapsedTime => "elapsed time".toList
  | measuredDepth => "measured depth".toList
  | verticalDepth => "vertical depth".toList
  | other => "other".toList

/-- `is_time`: the index of such a log is an instant.  An elapsed time counts as one, although it
is a number on the wire. -/
def isTime : IndexType → Bool
  | dateTime | elapsedTime => true
  | _ => false

end IndexType

inductive Direction
  | increasing | decreasing
deriving DecidableEq

def Direction.value : Direction → Str
  | .increasing => "increasing".toList
  | .decreasing => "decreasing".toList

def defaultNullValue : Str := "-999.25".toList

/-- Sentinels treated as null whatever the log declares. -/
def commonNullSentinels : List Str :=
  ["-999.25".toList, "-9999".toList, "-999".toList, "NaN".toList, "null".toList, []]

/-! ## 3. Values

Python decides the kind of an index cell when it is decoded and never looks back.  A depth log can
therefore have a text among its indices, and only a comparison finds out. -/

/-- An index or a decoded cell: `float | str | datetime`. -/
inductive Value
  | num (x : Float64)
  | text (s : Str)
  | dt (t : Datetime)
deriving DecidableEq

namespace Value

/-- `a == b`: `nan` differs from itself. -/
instance : BEq Value := ⟨fun a b => decide (a = b) && decide (a ≠ num .nan)⟩

/-- Values that compare equal are the same value; the converse fails for `nan` only. -/
theorem eq_of_beq (a b : Value) (h : (a == b) = true) : a = b := by
  have h' : (decide (a = b) && decide (a ≠ num .nan)) = true := h
  simp only [Bool.and_eq_true, decide_eq_true_eq] at h'
  exact h'.1

theorem beq_iff {a b : Value} : (a == b) = true ↔ a = b ∧ a ≠ num .nan := by
  change (decide (a = b) && decide (a ≠ num .nan)) = true ↔ _
  simp only [Bool.and_eq_true, decide_eq_true_eq]

theorem beq_self {a : Value} (h : a ≠ num .nan) : (a == a) = true := beq_iff.mpr ⟨rfl, h⟩

/-- `a < b`: two floats, two texts, or two instants that are both naive or both aware. -/
def lt? : Value → Value → Except PyError Bool
  | num x, num y => .ok (x.lt y)
  | text a, text b => .ok (decide (a < b))
  | dt s, dt t => if s.aware = t.aware then .ok (s.micros < t.micros) else .error .typeError
  | _, _ => .error .typeError

/-- Whether `<` is defined between two values. -/
def comparable : Value → Value → Bool
  | num _, num _ => true
  | text _, text _ => true
  | dt s, dt t => s.aware == t.aware
  | _, _ => false

/-- Whether `a < b` holds, between values for which it is defined.  It is what `sorted` asks; a `nan`
is before nothing, and nothing is before a `nan`. -/
def before (a b : Value) : Bool :=
  match a.lt? b with
  | .ok holds => holds
  | .error _ => false

/-- Where an index stands on its log's line: double units, or microseconds.  Two indices of one
kind have one rank only if they are equal (`Orders.rank_inj`), so the line is as good as the
indices themselves.  A text has no place; it gets 0, and no lemma uses that. -/
def rank : Value → ℤ
  | num x => x.rank
  | text _ => 0
  | dt t => t.micros

end Value

/-- `sorted(d.keys(), reverse=…)`, each key with its entry.  Every key gets compared with another one,
so keys of two kinds that cannot be compared meet somewhere, and that raises. -/
def sortedEntries {α : Type} (descending : Bool) (d : Dict Value α) :
    Except PyError (Dict Value α) :=
  if d.Pairwise (fun a b => a.1.comparable b.1) then
    let sort := listSort fun a b : Value × α => a.1.before b.1
    .ok (if descending then (sort d.reverse).reverse else sort d)
  else .error .typeError

/-- `max(vs)` (or `min(vs)`): the first extreme element; `none` for no elements. -/
def extremum (smallest : Bool) : List Value → Except PyError (Option Value)
  | [] => .ok none
  | v :: vs => (vs.foldlM (better smallest) v).map some
where
  better (smallest : Bool) (best v : Value) : Except PyError Value :=
    (if smallest then v.lt? best else best.lt? v).map fun b => if b then v else best

/-- A decoded cell of a non-index column. -/
inductive Reading
  | num (x : Float64)
  | text (s : Str)
deriving DecidableEq

/-! ## 4. Log data

A block is what the parser makes of `<logData>`: columns with their units, and rows whose cells are
decoded.  Samples are what leaves the ingestion: one reading of one curve at one index. -/

/-- One decoded row: `rows[i]`, whose first cell is the index. -/
structure Row where
  index : Option Value
  cells : List (Option Reading)
deriving DecidableEq

/-- A sample has a value or a text, never both; a null cell has no sample. -/
structure CurveSample where
  mnemonic : Str
  index : Value
  value : Option Float64
  text : Option Str
  uom : Option Str
deriving DecidableEq

/-- The first mnemonic is that of the index, as the source relies on in `index_mnemonic`. -/
structure LogDataBlock where
  mnemonics : List Str
  units : List (Option Str)
  indexType : IndexType
  rows : List Row
deriving DecidableEq

/-- The values of `settings` that ingestion reads, and the one step of sample construction that
belongs to the validation library: how it reads a text as `float | datetime`. -/
structure Settings where
  maxReturnNodes : ℤ
  maxSamplesPerCurve : ℕ
  indexOfText : Str → Except PyError Value

/-- The index a sample is built with. -/
def Settings.sampleIndex (cfg : Settings) : Value → Except PyError Value
  | .text s => cfg.indexOfText s
  | v => .ok v

namespace LogDataBlock

/-- The sample of one cell. -/
def cellSample (b : LogDataBlock) (idx : Value) (col : ℕ) (mnem : Str) : Reading → CurveSample
  | .num x => ⟨mnem, idx, some x, none, (b.units[col]?).join⟩
  | .text s => ⟨mnem, idx, none, some s, (b.units[col]?).join⟩

/-- The samples of one row, at a given index: every column with a header and a non-null cell. -/
def samplesAt (b : LogDataBlock) (idx : Value) (row : Row) : List CurveSample :=
  ((b.mnemonics.drop 1).zipIdx 1).filterMap fun (mnem, col) =>
    (row.cells[col - 1]?).join.map (b.cellSample idx col mnem)

/-- The samples of one row.  Nothing is validated in a row without readings. -/
def rowSamples (cfg : Settings) (b : LogDataBlock) (row : Row) :
    Except PyError (List CurveSample) :=
  match row.index with
  | none => .ok []
  | some idx =>
    if b.samplesAt idx row = [] then .ok []
    else (cfg.sampleIndex idx).map fun idx => b.samplesAt idx row

/-- `samples()`: flatten to samples, skipping nulls. -/
def samples (cfg : Settings) (b : LogDataBlock) : Except PyError (List CurveSample) :=
  (b.rows.mapM (b.rowSamples cfg)).map List.flatten

end LogDataBlock

/-! ## 5. Wells, wellbores and log headers

Headers as the parser returns them.  Texts are stripped and absent ones are `none`, so that a field
is never an empty text. -/

structure Well where
  uid : Str
  name : Option Str
  region : Option Str
  field : Option Str
  country : Option Str
  operator : Option Str
  status : Option Str
  timeZone : Option Str
deriving DecidableEq

structure Wellbore where
  uid : Str
  uidWell : Str
  name : Option Str
  nameWell : Option Str
  status : Option Str
deriving DecidableEq

structure LogCurveInfo where
  uid : Option Str
  mnemonic : Str
  unit : Option Str
  curveDescription : Option Str
  nullValue : Option Str
  typeLogData : Option Str
  minIndex : Option Float64
  maxIndex : Option Float64
  minDatetimeIndex : Option Datetime
  maxDatetimeIndex : Option Datetime
deriving DecidableEq

structure LogHeader where
  uid : Str
  uidWell : Str
  uidWellbore : Str
  name : Option Str
  nameWell : Option Str
  nameWellbore : Option Str
  indexType : IndexType
  indexCurve : Option Str
  direction : Direction
  objectGrowing : Option Bool
  nullValue : Option Str
  indexUom : Option Str
  startIndex : Option Float64
  endIndex : Option Float64
  startDatetimeIndex : Option Datetime
  endDatetimeIndex : Option Datetime
  curves : List LogCurveInfo
deriving DecidableEq

/-- `mnemonics`: the curves in the order of the header, which need not begin with the index. -/
def LogHeader.mnemonics (h : LogHeader) : List Str := h.curves.map LogCurveInfo.mnemonic

/-! ## 6. Ordered indices

The indices of one log are of one kind and none of them is `nan`; on those, Python's
comparisons are comparisons of ranks.

In this section Python's operators are replaced by integers for good: `lt?` by the order of ranks,
`==` by their equality, `sorted` and `max` by their mathematical counterparts. -/

/-- An index that a log of this type can order: a number, or an instant in UTC. -/
def Value.Orders (t : IndexType) : Value → Prop
  | .num x => t.isTime = false ∧ x ≠ .nan
  | .text _ => False
  | .dt d => t.isTime = true ∧ d.aware = true

instance (t : IndexType) : (v : Value) → Decidable (v.Orders t)
  | .num x => inferInstanceAs (Decidable (t.isTime = false ∧ x ≠ .nan))
  | .text _ => inferInstanceAs (Decidable False)
  | .dt d => inferInstanceAs (Decidable (t.isTime = true ∧ d.aware = true))

/-- The position of an index along a log's growth. -/
def growthKey : Direction → Value → ℤ
  | .increasing, v => v.rank
  | .decreasing, v => -v.rank

namespace Value

variable {t : IndexType} {a b : Value}

/-- An ordered index is a number in the strict sense. -/
theorem Orders.ne_nan (h : a.Orders t) : a ≠ num .nan := by
  rintro rfl
  exact h.2 rfl

/-- Two indices that one log can order can be compared. -/
theorem Orders.comparable (ha : a.Orders t) (hb : b.Orders t) : a.comparable b = true := by
  cases a <;> cases b <;> simp_all [Orders, Value.comparable]

/-- `<` on ordered indices is `<` on ranks, and never raises. -/
theorem Orders.lt?_eq (ha : a.Orders t) (hb : b.Orders t) :
    a.lt? b = .ok (decide (a.rank < b.rank)) := by
  cases a with
  | text s => exact ha.elim
  | num x => cases b with
    | text s => exact hb.elim
    | num y =>
      have hx : (x != .nan) = true := bne_iff_ne.mpr ha.2
      have hy : (y != .nan) = true := bne_iff_ne.mpr hb.2
      simp only [lt?, rank, Float64.lt, hx, hy, Bool.true_and]
      exact congrArg Except.ok (decide_eq_decide.mpr Iff.rfl)
    | dt d => simp_all [Orders]
  | dt d => cases b with
    | text s => exact hb.elim
    | num y => simp_all [Orders]
    | dt e => simp [lt?, rank, ha.2, hb.2]

theorem Orders.rank_inj (ha : a.Orders t) (hb : b.Orders t) (h : a.rank = b.rank) : a = b := by
  cases a with
  | text s => exact ha.elim
  | num x => cases b with
    | text s => exact hb.elim
    | num y => rw [Float64.rank_injOn ha.2 hb.2 h]
    | dt d => simp_all [Orders]
  | dt d => cases b with
    | text s => exact hb.elim
    | num y => simp_all [Orders]
    | dt e =>
      rw [Datetime.ext_micros (by simpa [rank] using h) (ha.2.trans hb.2.symm)]

theorem Orders.before_eq (ha : a.Orders t) (hb : b.Orders t) :
    a.before b = decide (a.rank < b.rank) := by
  rw [before, ha.lt?_eq hb]

theorem Orders.beq_eq (ha : a.Orders t) (hb : b.Orders t) :
    (a == b) = decide (a.rank = b.rank) := by
  rw [Bool.eq_iff_iff, beq_iff, decide_eq_true_eq]
  exact ⟨fun h => by rw [h.1], fun h => ⟨ha.rank_inj hb h, ha.ne_nan⟩⟩

end Value

/-- Relations that agree on a list sort it alike. -/
theorem insertionSort_congr {α : Type} {r s : α → α → Prop} [DecidableRel r] [DecidableRel s]
    {l : List α} (h : ∀ a ∈ l, ∀ b ∈ l, r a b ↔ s a b) : l.insertionSort r = l.insertionSort s := by
  have hmap := List.map_insertionSort (r := r) (s := s) id l h
  simpa only [List.map_id] using hmap

/-- On ordered indices `sorted` arranges the entries by rank.  The order in which the keys were
first inserted, which decides about ties in Python, plays no part, because keys of one rank are one
key. -/
theorem sortedEntries_eq {α : Type} {t : IndexType} {d : Dict Value α}
    (h : ∀ e ∈ d, e.1.Orders t) (descending : Bool) :
    sortedEntries descending d = .ok (d.insertionSort fun a b =>
      if descending then b.1.rank ≤ a.1.rank else a.1.rank ≤ b.1.rank) := by
  have hcomp : d.Pairwise fun a b => a.1.comparable b.1 := by
    rw [List.pairwise_iff_forall_sublist]
    intro a b hab
    exact (h a (hab.subset (by simp))).comparable (h b (hab.subset (by simp)))
  have hlt : ∀ a ∈ d, ∀ b ∈ d, a.1.before b.1 = decide (a.1.rank < b.1.rank) := fun a ha b hb =>
    (h a ha).before_eq (h b hb)
  rw [sortedEntries, if_pos hcomp]
  refine congrArg Except.ok ?_
  cases descending with
  | false => exact listSort_eq hlt
  | true => exact reverse_listSort_reverse hlt

theorem growthKey_inj {t : IndexType} {d : Direction} {a b : Value} (ha : a.Orders t)
    (hb : b.Orders t) (h : growthKey d a = growthKey d b) : a = b := by
  refine ha.rank_inj hb ?_
  cases d <;> simpa [growthKey] using h

/-- On ordered indices, the extreme in the direction of growth is the most advanced one.  `max`
keeps the first of several largest elements and `min` the first of several smallest, but here there
is only one of each. -/
theorem extremum_spec {t : IndexType} (d : Direction) {vs : List Value}
    (h : ∀ v ∈ vs, v.Orders t) (hne : vs ≠ []) :
    ∃ m ∈ vs, extremum (d == .decreasing) vs = .ok (some m) ∧
      ∀ v ∈ vs, growthKey d v ≤ growthKey d m := by
  have hfold : ∀ (vs : List Value) (v : Value), v.Orders t → (∀ u ∈ vs, u.Orders t) →
      ∃ m ∈ v :: vs, vs.foldlM (extremum.better (d == .decreasing)) v = .ok m ∧
        ∀ u ∈ v :: vs, growthKey d u ≤ growthKey d m := by
    intro vs
    induction vs with
    | nil => exact fun v _ _ => ⟨v, by simp, rfl, by simp⟩
    | cons u vs ih =>
      intro v hv hvs
      have hu : u.Orders t := hvs u (by simp)
      -- the better of two is one of them, and at least as advanced as both
      obtain ⟨b, hb, hbetter, hbv, hbu⟩ : ∃ b, (b = v ∨ b = u) ∧
          extremum.better (d == .decreasing) v u = .ok b ∧ growthKey d v ≤ growthKey d b ∧
          growthKey d u ≤ growthKey d b := by
        cases d with
        | increasing =>
          by_cases hlt : v.rank < u.rank
          · refine ⟨u, Or.inr rfl, ?_, ?_, le_refl _⟩
            · simp [extremum.better, hv.lt?_eq hu, hlt, Except.map]
            · simp only [growthKey]; omega
          · refine ⟨v, Or.inl rfl, ?_, le_refl _, ?_⟩
            · simp [extremum.better, hv.lt?_eq hu, hlt, Except.map]
            · simp only [growthKey]; omega
        | decreasing =>
          by_cases hlt : u.rank < v.rank
          · refine ⟨u, Or.inr rfl, ?_, ?_, le_refl _⟩
            · simp [extremum.better, hu.lt?_eq hv, hlt, Except.map]
            · simp only [growthKey]; omega
          · refine ⟨v, Or.inl rfl, ?_, le_refl _, ?_⟩
            · simp [extremum.better, hu.lt?_eq hv, hlt, Except.map]
            · simp only [growthKey]; omega
      have hbo : b.Orders t := by rcases hb with rfl | rfl <;> assumption
      obtain ⟨m, hm, hrun, hmax⟩ := ih b hbo fun w hw => hvs w (by simp [hw])
      refine ⟨m, ?_, ?_, ?_⟩
      · rcases List.mem_cons.mp hm with rfl | hm
        · rcases hb with rfl | rfl <;> simp
        · simp [hm]
      · rw [List.foldlM_cons, hbetter]
        exact hrun
      · intro w hw
        have hbm := hmax b (by simp)
        simp only [List.mem_cons] at hw
        rcases hw with rfl | rfl | hw
        · exact hbv.trans hbm
        · exact hbu.trans hbm
        · exact hmax w (by simp [hw])
  cases vs with
  | nil => exact absurd rfl hne
  | cons v vs =>
    obtain ⟨m, hm, hrun, hmax⟩ := hfold vs v (h v (by simp)) fun u hu => h u (by simp [hu])
    exact ⟨m, hm, by simp [extremum, hrun, Except.map], hmax⟩

end WitsmlViewer

/-
# Python `float`

A model of the finite binary64 values, the infinities and `nan`, with the two conversions a
text protocol needs: `float(s)` and `repr(x)`.

Every finite double is a whole number of steps of the subnormal grid `2 ^ -1074`, so a finite
value is carried as that integer (`Double.units`), together with the proof that it is a
double: rounding it changes nothing.  Order and equality are those of the integers, and no
rational arithmetic is left.  `-0.0` and `0.0` are the same value here, as they are for
Python's `==`, `<` and `hash`.

* `roundUnits a b` is round-half-even of `a / b` (in units) to 53 significant bits, the
  subnormal range included; `roundUnits_roundUnits` says its results are fixed points.
* `float?` follows the grammar of `float(str)`: surrounding white space, Unicode decimal
  digits, underscores between digits, sign, `inf`/`infinity`/`nan`, exponent.
* `repr` is the shortest decimal that reads back as the value, in Python's layout.
* `float?_repr`: what `repr` writes, `float` reads back.

What `repr` must do is stated by `float?_repr` and used nowhere in another form: the development
depends on a number surviving its text and not on how many digits the text has.
-/
import Mathlib
import WitsmlViewer.Py.Str

namespace Py

/-! ## 1. Rounding to 53 bits

The quotient is taken to 53 bits, or to fewer where the unit is the limit, and rounded once.  As
everything is in units, the subnormal range needs no case of its own: there no bits are lost beyond
the units. -/

/-- A unit is `2 ^ -gridBits`. -/
def gridBits : ℕ := 1074

/-- How many units make `1.0`. -/
@[irreducible] def unitsPerOne : ℕ := 2 ^ gridBits

/-- `2 ^ 1024` in units: the first magnitude past the finite range. -/
@[irreducible] def unitsOverflow : ℕ := 2 ^ (gridBits + 1024)

theorem unitsPerOne_pos : 0 < unitsPerOne := by unfold unitsPerOne; exact Nat.two_pow_pos _

theorem unitsOverflow_pos : 0 < unitsOverflow := by unfold unitsOverflow; exact Nat.two_pow_pos _

/-- `a / b` rounded to the nearest integer, ties to even. -/
def roundHalfEven (a b : ℕ) : ℕ :=
  if b < 2 * (a % b) ∨ (b = 2 * (a % b) ∧ a / b % 2 = 1) then a / b + 1 else a / b

/-- How many low bits a magnitude of this size loses. -/
def lostBits (n : ℕ) : ℕ := n.log2 + 1 - 53

/-- `a / b` units rounded to the nearest double, ties to even. -/
def roundUnits (a b : ℕ) : ℕ :=
  roundHalfEven a (b * 2 ^ lostBits (a / b)) * 2 ^ lostBits (a / b)

theorem roundHalfEven_of_dvd {a b : ℕ} (hb : 0 < b) (h : b ∣ a) :
    roundHalfEven a b = a / b := by
  have hmod : a % b = 0 := Nat.mod_eq_zero_of_dvd h
  have hne : b ≠ 0 := by omega
  simp [roundHalfEven, hmod, hne]

theorem roundHalfEven_mul_right {a b c : ℕ} (hc : 0 < c) :
    roundHalfEven (a * c) (b * c) = roundHalfEven a b := by
  have hdiv : a * c / (b * c) = a / b := Nat.mul_div_mul_right a b hc
  have hmod : a * c % (b * c) = a % b * c := Nat.mul_mod_mul_right c a b
  have hlt : b * c < 2 * (a % b * c) ↔ b < 2 * (a % b) := by
    rw [← Nat.mul_assoc]; exact Nat.mul_lt_mul_right hc
  have heq : b * c = 2 * (a % b * c) ↔ b = 2 * (a % b) := by
    rw [← Nat.mul_assoc]; exact Nat.mul_left_inj (by omega)
  simp only [roundHalfEven, hdiv, hmod, hlt, heq]

/-- Rounding up goes to the next integer at most. -/
theorem roundHalfEven_le_succ (a b : ℕ) : roundHalfEven a b ≤ a / b + 1 := by
  unfold roundHalfEven; split <;> omega

/-- The rounded value depends on the quotient only. -/
theorem roundUnits_mul_right {a b c : ℕ} (hc : 0 < c) :
    roundUnits (a * c) (b * c) = roundUnits a b := by
  unfold roundUnits
  rw [Nat.mul_div_mul_right a b hc, Nat.mul_right_comm b c, roundHalfEven_mul_right hc]

/-- A 53-bit integer times a power of two has no bits to lose. -/
theorem pow_lostBits_dvd {m s : ℕ} (hm : m ≤ 2 ^ 53) : 2 ^ lostBits (m * 2 ^ s) ∣ m * 2 ^ s := by
  rcases Nat.eq_zero_or_pos m with rfl | hpos
  · simp
  rcases Nat.lt_or_eq_of_le hm with hlt | rfl
  · have hne : m * 2 ^ s ≠ 0 := by positivity
    have hlog : (m * 2 ^ s).log2 < 53 + s := by
      rw [Nat.log2_lt hne, Nat.pow_add]
      exact Nat.mul_lt_mul_of_pos_right hlt (by positivity)
    exact (Nat.pow_dvd_pow 2 (by unfold lostBits; omega)).trans (Nat.dvd_mul_left _ _)
  · rw [← Nat.pow_add]
    refine Nat.pow_dvd_pow 2 ?_
    unfold lostBits
    rw [Nat.log2_two_pow]
    omega

/-- A number whose low bits are zero is not changed. -/
theorem roundUnits_of_dvd {n : ℕ} (h : 2 ^ lostBits n ∣ n) : roundUnits n 1 = n := by
  have hpos : 0 < 2 ^ lostBits n := by positivity
  unfold roundUnits
  rw [Nat.div_one, Nat.one_mul, roundHalfEven_of_dvd hpos h, Nat.div_mul_cancel h]

/-- The quotient that `roundUnits` rounds has at most 53 bits. -/
theorem quotient_lt (a b : ℕ) : a / (b * 2 ^ lostBits (a / b)) < 2 ^ 53 := by
  rw [← Nat.div_div_eq_div_mul, Nat.div_lt_iff_lt_mul (by positivity), ← Nat.pow_add]
  have hlog : a / b < 2 ^ ((a / b).log2 + 1) := Nat.lt_log2_self
  exact lt_of_lt_of_le hlog (Nat.pow_le_pow_right (by omega) (by unfold lostBits; omega))

/-- **A rounded value is a fixed point of rounding.**

The result has at most 53 bits, or is the power of two that comes after the largest such number;
both lose nothing when they are rounded again.  This is what makes a rounded number a `Double`. -/
theorem roundUnits_roundUnits (a b : ℕ) : roundUnits (roundUnits a b) 1 = roundUnits a b := by
  refine roundUnits_of_dvd (pow_lostBits_dvd ?_)
  have h1 := roundHalfEven_le_succ a (b * 2 ^ lostBits (a / b))
  have h2 := quotient_lt a b
  omega

/-! ## 2. The values

A value is a `Double`, an infinity or `nan`, and comparisons go by `rank`.  That two values at one
place are one value is true because there is one zero only. -/

/-- A finite double, as a whole number of units.  The two fields say that it is a fixed point of
rounding and below the overflow, so that nothing else can be built. -/
structure Double where
  units : ℤ
  isDouble : roundUnits units.natAbs 1 = units.natAbs
  finite : units.natAbs < unitsOverflow
deriving DecidableEq

/-- A Python `float`. -/
inductive Float64
  | fin (d : Double)
  | inf (neg : Bool)
  | nan
deriving DecidableEq

namespace Float64

/-- Where a value stands on the number line, in units; the infinities sit just outside the
finite range.  `nan` has no place, and no comparison below looks at this one. -/
def rank : Float64 → ℤ
  | fin d => d.units
  | inf false => unitsOverflow
  | inf true => -unitsOverflow
  | nan => 0

/-- `x < y`. -/
def lt (x y : Float64) : Bool := x != nan && y != nan && x.rank < y.rank

/-- `x == y`: `nan` equals nothing, itself included. -/
def eq (x y : Float64) : Bool := x != nan && x == y

theorem rank_fin_lt (d : Double) : (fin d).rank < (inf false).rank := by
  have h := d.finite
  simp only [rank]
  omega

theorem lt_rank_fin (d : Double) : (inf true).rank < (fin d).rank := by
  have h := d.finite
  simp only [rank]
  omega

theorem rank_inf_lt : (inf true).rank < (inf false).rank := by
  have h := unitsOverflow_pos
  simp only [rank]
  omega

theorem rank_fin_inj {d d' : Double} (h : (fin d).rank = (fin d').rank) : d = d' := by
  cases d; cases d'
  simp only [rank] at h
  subst h
  rfl

/-- Two values at one place are one value. -/
theorem rank_injOn {x y : Float64} (hx : x ≠ nan) (hy : y ≠ nan) (h : x.rank = y.rank) :
    x = y := by
  match x, y with
  | fin d, fin d' => rw [rank_fin_inj h]
  | fin d, inf false => exact absurd h (rank_fin_lt d).ne
  | fin d, inf true => exact absurd h (lt_rank_fin d).ne'
  | inf false, fin d => exact absurd h (rank_fin_lt d).ne'
  | inf true, fin d => exact absurd h (lt_rank_fin d).ne
  | inf false, inf false => rfl
  | inf true, inf true => rfl
  | inf false, inf true => exact absurd h rank_inf_lt.ne'
  | inf true, inf false => exact absurd h rank_inf_lt.ne
  | nan, _ => exact absurd rfl hx
  | _, nan => exact absurd rfl hy

/-- `x.is_integer()`. -/
def isInteger : Float64 → Bool
  | fin d => d.units % unitsPerOne == 0
  | _ => false

/-- `int(x)`, for a finite `x`. -/
def toInt : Float64 → ℤ
  | fin d => d.units.tdiv unitsPerOne
  | _ => 0

/-- A double of the given sign and magnitude. -/
def ofMagnitude (neg : Bool) (k : ℕ) (hk : roundUnits k 1 = k) (hlt : k < unitsOverflow) :
    Float64 :=
  fin ⟨if neg then -k else k, by cases neg <;> simpa using hk, by cases neg <;> simpa using hlt⟩

/-- `(-1)^neg * m * 10^e`, correctly rounded. -/
def ofDecimal (neg : Bool) (m : ℕ) (e : ℤ) : Float64 :=
  if h : roundUnits (m * 10 ^ e.toNat * unitsPerOne) (10 ^ (-e).toNat) < unitsOverflow then
    ofMagnitude neg _ (roundUnits_roundUnits _ _) h
  else inf neg

end Float64

/-! ## 3. `float(s)`

The grammar is Python's and is wider than that of a number in a protocol.  `1_000`, `infinity`,
full-width digits and a number between spaces are all read, and each of them is something that a
cell of a log could hold. -/

/-- The zeros of the Unicode decimal digit ranges. -/
def decimalZeros : List ℕ :=
  [0x660, 0x6F0, 0x7C0, 0x966, 0x9E6, 0xA66, 0xAE6, 0xB66, 0xBE6, 0xC66, 0xCE6, 0xD66, 0xDE6,
   0xE50, 0xED0, 0xF20, 0x1040, 0x1090, 0x17E0, 0x1810, 0x1946, 0x19D0, 0x1A80, 0x1A90, 0x1B50,
   0x1BB0, 0x1C40, 0x1C50, 0xA620, 0xA8D0, 0xA900, 0xA9D0, 0xA9F0, 0xAA50, 0xABF0, 0xFF10,
   0x104A0, 0x10D30, 0x11066, 0x110F0, 0x11136, 0x111D0, 0x112F0, 0x11450, 0x114D0, 0x11650,
   0x116C0, 0x11730, 0x118E0, 0x11950, 0x11C50, 0x11D50, 0x11DA0, 0x16A60, 0x16AC0, 0x16B50,
   0x1D7CE, 0x1D7D8, 0x1D7E2, 0x1D7EC, 0x1D7F6, 0x1E140, 0x1E2F0, 0x1E950, 0x1FBF0]

/-- A Unicode decimal digit as its ASCII digit; any other character as itself. -/
def asciiDigit (c : Char) : Char :=
  if c.toNat < 128 then c
  else match decimalZeros.find? (fun z => z ≤ c.toNat && c.toNat < z + 10) with
    | some z => Char.ofNat (48 + (c.toNat - z))
    | none => c

/-- Drop the underscores of a number; they may stand between two digits only. -/
def dropUnderscores : Char → Str → Option Str
  | prev, [] => if prev = '_' then none else some []
  | prev, c :: s =>
    if c = '_' then (if prev.isDigit then dropUnderscores c s else none)
    else if prev = '_' && !c.isDigit then none
    else (dropUnderscores c s).map (c :: ·)

/-- `[eE][+-]?digits`, or nothing. -/
def scanExponent : Str → Option ℤ
  | [] => some 0
  | c :: s =>
    if c = 'e' || c = 'E' then
      let (neg, ds) : Bool × Str := match s with
        | '-' :: t => (true, t)
        | '+' :: t => (false, t)
        | t => (false, t)
      if ds.isEmpty || !ds.all Char.isDigit then none
      else
        let n : ℤ := Nat.ofDigitChars 10 ds 0
        some (if neg then -n else n)
    else none

/-- Digits with at most one point and an exponent: the mantissa and the power of ten. -/
def scanNumber (s : Str) : Option (ℕ × ℤ) :=
  let ip := s.takeWhile Char.isDigit
  let (fp, rest) : Str × Str := match s.dropWhile Char.isDigit with
    | '.' :: t => (t.takeWhile Char.isDigit, t.dropWhile Char.isDigit)
    | t => ([], t)
  if ip.isEmpty && fp.isEmpty then none
  else (scanExponent rest).map fun e => (Nat.ofDigitChars 10 (ip ++ fp) 0, e - fp.length)

/-- A number after its sign. -/
def unsigned? (neg : Bool) (s : Str) : Option Float64 :=
  match scanNumber s with
  | some (m, e) => some (.ofDecimal neg m e)
  | none =>
    if lower s = "inf".toList ∨ lower s = "infinity".toList then some (.inf neg)
    else if lower s = "nan".toList then some .nan
    else none

/-- A number with an optional sign. -/
def signed? : Str → Option Float64
  | '-' :: s => unsigned? true s
  | '+' :: s => unsigned? false s
  | s => unsigned? false s

/-- `float(s)`; `none` is its `ValueError`. -/
def float? (s : Str) : Option Float64 :=
  (dropUnderscores ' ' ((strip s).map asciiDigit)).bind signed?

/-! ## 4. `str(int)` and `repr(float)`

The shortest text is found by search: with one digit, with two, and so on up to seventeen, each
rounded to nearest and read back.  The exact expansion stands at the end so that the search is
total, and the proof that the text reads back does not need to know where it stopped. -/

/-- `str(n)`. -/
def strInt (n : ℤ) : Str := (if n < 0 then ['-'] else []) ++ Nat.toDigits 10 n.natAbs

/-- The `n` most significant decimal digits of `k` units, rounded, and the position of the
decimal point relative to their start. -/
def significantDigits (k n : ℕ) : Str × ℤ :=
  let point : ℤ := (Nat.toDigits 10 (k * 10 ^ 400 / unitsPerOne)).length - 400
  let scale : ℤ := n - point
  let m := roundHalfEven (k * 10 ^ scale.toNat) (unitsPerOne * 10 ^ (-scale).toNat)
  if m = 10 ^ n then (['1'], point + 1) else (Nat.toDigits 10 m, point)

/-- Python's layout of a digit string: plain for `1e-4 ≤ |x| < 1e16`, else scientific. -/
def layout (ds : Str) (point : ℤ) : Str :=
  if -4 < point ∧ point ≤ 16 then
    if point ≤ 0 then '0' :: '.' :: (List.replicate (-point).toNat '0' ++ ds)
    else if point.toNat < ds.length then ds.take point.toNat ++ '.' :: ds.drop point.toNat
    else ds ++ List.replicate (point.toNat - ds.length) '0' ++ ['.', '0']
  else
    let e := point - 1
    let es := Nat.toDigits 10 e.natAbs
    ds.take 1 ++ (if ds.length = 1 then [] else '.' :: ds.drop 1) ++
      'e' :: (if e < 0 then '-' else '+') :: (if es.length = 1 then '0' :: es else es)

/-- A unit is `fivePow` times `10 ^ -gridBits`. -/
@[irreducible] def fivePow : ℕ := 5 ^ gridBits

/-- The full decimal expansion as `digits`e-1074, exact for every double. -/
def exactRepr (d : Double) : Str :=
  strInt (d.units * fivePow) ++ "e-1074".toList

/-- The first of the given texts that reads back as `d`, or the exact expansion. -/
def firstExact (d : Double) (texts : List Str) : Str :=
  (texts.find? fun s => float? s == some (.fin d)).getD (exactRepr d)

/-- The value of `d` with `n` significant digits. -/
def shortened (d : Double) (n : ℕ) : Str :=
  let (ds, point) := significantDigits d.units.natAbs n
  (if d.units < 0 then ['-'] else []) ++ layout ds point

/-- `repr(x)`: the fewest digits that read back as `x`.  Seventeen always do, so the exact
expansion at the end of the search is never written. -/
def repr : Float64 → Str
  | .fin d =>
    if d.units = 0 then "0.0".toList
    else firstExact d ((List.range' 1 17).map (shortened d))
  | .inf false => "inf".toList
  | .inf true => "-inf".toList
  | .nan => "nan".toList

/-! ## 5. What `str` and `repr` write, `float` reads

Numbers are written with digits, a sign, a point and an exponent mark.  Such text is `plain`:
the clean-up that `float` starts with leaves it alone.

It does not cover the words `inf` and `nan`, which are read by comparison with three words; they
are two lemmas of their own. -/

/-- A character that `float` neither strips, translates nor drops. -/
def plain (c : Char) : Bool := !isSpace c && c.toNat < 128 && c != '_'

theorem plain_of_isDigit {c : Char} (h : c.isDigit = true) : plain c = true := by
  simp only [Char.isDigit, Bool.and_eq_true, decide_eq_true_eq] at h
  obtain ⟨h1, h2⟩ := h
  have h1' : 48 ≤ c.toNat := h1
  have h2' : c.toNat ≤ 57 := h2
  have hne : c ≠ '_' := by
    rintro rfl
    exact absurd h2' (by decide)
  simp only [plain, isSpace, Bool.and_eq_true, Bool.not_eq_true', Bool.or_eq_false_iff,
    decide_eq_true_eq, bne_iff_ne, ne_eq, hne, not_false_eq_true, and_true]
  simp only [Bool.and_eq_false_iff, decide_eq_false_iff_not, beq_eq_false_iff_ne]
  omega

theorem asciiDigit_of_plain {c : Char} (h : plain c = true) : asciiDigit c = c := by
  simp only [plain, Bool.and_eq_true, decide_eq_true_eq] at h
  simp [asciiDigit, h.1.2]

theorem strip_of_plain {s : Str} (h : ∀ c ∈ s, plain c = true) : strip s = s := by
  have hsp : ∀ c ∈ s, ¬isSpace c = true := by
    intro c hc
    have := h c hc
    simp only [plain, Bool.and_eq_true, Bool.not_eq_true'] at this
    simp [this.1.1]
  have hleft : s.dropWhile isSpace = s :=
    List.dropWhile_eq_self_iff.mpr fun hl => hsp _ (List.getElem_mem hl)
  unfold strip
  rw [hleft]
  exact List.rdropWhile_eq_self_iff.mpr fun hl => hsp _ (List.getLast_mem hl)

theorem dropUnderscores_of_plain : ∀ {s : Str} {prev : Char}, prev ≠ '_' →
    (∀ c ∈ s, plain c = true) → dropUnderscores prev s = some s
  | [], prev, hp, _ => by simp [dropUnderscores, hp]
  | c :: s, prev, hp, h => by
    have hc : c ≠ '_' := by
      have := h c (by simp)
      simp only [plain, Bool.and_eq_true, bne_iff_ne] at this
      exact this.2
    have ih := dropUnderscores_of_plain (s := s) hc fun d hd => h d (by simp [hd])
    simp [dropUnderscores, hc, hp, ih]

/-- Plain text goes to the scanner as it is. -/
theorem float?_of_plain {s : Str} (h : ∀ c ∈ s, plain c = true) : float? s = signed? s := by
  have hmap : s.map asciiDigit = s := by
    conv_rhs => rw [← List.map_id s]
    exact List.map_congr_left fun c hc => asciiDigit_of_plain (h c hc)
  have hdrop : dropUnderscores ' ' s = some s := dropUnderscores_of_plain (by decide) h
  rw [float?, strip_of_plain h, hmap, hdrop, Option.bind_some]

/-- A run of digits followed by something that is neither a digit nor a point. -/
theorem scanNumber_digits {ds t : Str} (hds : ∀ c ∈ ds, c.isDigit = true) (hne : ds ≠ [])
    (ht : ∀ c ∈ t.head?, c.isDigit = false ∧ c ≠ '.') :
    scanNumber (ds ++ t) = (scanExponent t).map fun e => (Nat.ofDigitChars 10 ds 0, e) := by
  have htake : (ds ++ t).takeWhile Char.isDigit = ds := by
    rw [List.takeWhile_append_of_pos hds]
    cases t with
    | nil => simp
    | cons c t => simp [(ht c (by simp)).1]
  have hdrop : (ds ++ t).dropWhile Char.isDigit = t := by
    rw [List.dropWhile_append_of_pos hds]
    cases t with
    | nil => simp
    | cons c t => simp [(ht c (by simp)).1]
  unfold scanNumber
  rw [htake, hdrop]
  cases t with
  | nil => simp [hne]
  | cons c t =>
    have hc : c ≠ '.' := (ht c (by simp)).2
    simp [hne, hc]

theorem signed?_digits {ds t : Str} (hds : ∀ c ∈ ds, c.isDigit = true) (hne : ds ≠ []) :
    signed? (ds ++ t) = unsigned? false (ds ++ t) := by
  cases ds with
  | nil => exact absurd rfl hne
  | cons c ds =>
    have hc := hds c (by simp)
    have h1 : c ≠ '-' := by rintro rfl; exact absurd hc (by decide)
    have h2 : c ≠ '+' := by rintro rfl; exact absurd hc (by decide)
    simp [signed?, h1, h2]

theorem digits_plain (n : ℕ) : ∀ c ∈ Nat.toDigits 10 n, plain c = true := fun _ hc =>
  plain_of_isDigit (Nat.isDigit_of_mem_toDigits (by decide) (by decide) hc)

/-- An integer in front of an exponent, read back. -/
theorem float?_strInt_append (n : ℤ) {t : Str} (ht : ∀ c ∈ t, plain c = true)
    (hhead : ∀ c ∈ t.head?, c.isDigit = false ∧ c ≠ '.') {e : ℤ} (he : scanExponent t = some e) :
    float? (strInt n ++ t) = some (.ofDecimal (n < 0) n.natAbs e) := by
  have hds : ∀ c ∈ Nat.toDigits 10 n.natAbs, c.isDigit = true := fun _ hc =>
    Nat.isDigit_of_mem_toDigits (by decide) (by decide) hc
  have hne : Nat.toDigits 10 n.natAbs ≠ [] := Nat.toDigits_ne_nil
  have hscan : ∀ neg, unsigned? neg (Nat.toDigits 10 n.natAbs ++ t) =
      some (.ofDecimal neg n.natAbs e) := by
    intro neg
    simp only [unsigned?, scanNumber_digits hds hne hhead, he, Option.map_some]
    rw [Nat.ofDigitChars_ten_toDigits]
  by_cases hneg : n < 0
  · have hplain : ∀ c ∈ strInt n ++ t, plain c = true := by
      intro c hc
      simp only [strInt, hneg, if_true, List.mem_append, List.mem_singleton] at hc
      rcases hc with (rfl | hc) | hc
      · decide
      · exact digits_plain _ c hc
      · exact ht c hc
    rw [float?_of_plain hplain]
    simp [strInt, hneg, signed?, hscan]
  · have hplain : ∀ c ∈ strInt n ++ t, plain c = true := by
      intro c hc
      simp only [strInt, hneg, if_false, List.nil_append, List.mem_append] at hc
      rcases hc with hc | hc
      · exact digits_plain _ c hc
      · exact ht c hc
    rw [float?_of_plain hplain]
    simp only [strInt, hneg, if_false, List.nil_append, decide_false]
    rw [signed?_digits hds hne, hscan]

/-- Rounding a decimal that is a double exactly gives that double. -/
theorem ofDecimal_exact (d : Double) {m : ℕ} {e : ℤ}
    (h : m * 10 ^ e.toNat * unitsPerOne = d.units.natAbs * 10 ^ (-e).toNat) :
    Float64.ofDecimal (d.units < 0) m e = .fin d := by
  have hround : roundUnits (m * 10 ^ e.toNat * unitsPerOne) (10 ^ (-e).toNat) =
      d.units.natAbs := by
    rw [h]
    have := roundUnits_mul_right (a := d.units.natAbs) (b := 1)
      (c := 10 ^ (-e).toNat) (by positivity)
    rw [Nat.one_mul] at this
    rw [this, d.isDouble]
  have hlt : roundUnits (m * 10 ^ e.toNat * unitsPerOne) (10 ^ (-e).toNat) < unitsOverflow := by
    rw [hround]; exact d.finite
  unfold Float64.ofDecimal
  rw [dif_pos hlt]
  apply Float64.rank_injOn (by simp [Float64.ofMagnitude]) (by simp)
  simp only [Float64.ofMagnitude, Float64.rank, hround, decide_eq_true_eq]
  split <;> omega

/-- `float(str(int(x)))` is `x` when `x` is an integer. -/
theorem float?_strInt {d : Double} (h : (Float64.fin d).isInteger = true) :
    float? (strInt (Float64.fin d).toInt) = some (.fin d) := by
  have hdvd : (unitsPerOne : ℤ) ∣ d.units := by
    simp only [Float64.isInteger, beq_iff_eq] at h
    exact Int.dvd_of_emod_eq_zero h
  obtain ⟨n, hn⟩ := hdvd
  have hpos : (0 : ℤ) < unitsPerOne := by exact_mod_cast unitsPerOne_pos
  have hint : (Float64.fin d).toInt = n := by
    simp only [Float64.toInt, hn]
    exact Int.mul_tdiv_cancel_left n hpos.ne'
  have hsign : decide (n < 0) = decide (d.units < 0) := by
    rw [hn, decide_eq_decide]
    constructor
    · exact fun hn0 => mul_neg_of_pos_of_neg hpos hn0
    · exact fun h0 => by
        by_contra hn0
        exact absurd h0 (not_lt.mpr (mul_nonneg hpos.le (not_lt.mp hn0)))
  have hread := float?_strInt_append n (t := []) (by simp) (by simp) (e := 0) rfl
  rw [List.append_nil] at hread
  rw [hint, hread, hsign, ofDecimal_exact]
  rw [hn, Int.natAbs_mul, Int.natAbs_natCast]
  simp [Nat.mul_comm]

/-- A unit is a decimal fraction, with as many places as there are bits. -/
theorem fivePow_mul_unitsPerOne : fivePow * unitsPerOne = 10 ^ gridBits := by
  unfold fivePow unitsPerOne
  rw [← Nat.mul_pow]

theorem fivePow_pos : 0 < fivePow := by unfold fivePow; exact Nat.pow_pos (by decide)

theorem float?_exactRepr (d : Double) : float? (exactRepr d) = some (.fin d) := by
  have hsign : decide (d.units * fivePow < 0) = decide (d.units < 0) := by
    have hpos : (0 : ℤ) < fivePow := by exact_mod_cast fivePow_pos
    rw [decide_eq_decide]
    constructor
    · exact fun h => by
        by_contra h0
        exact absurd h (not_lt.mpr (mul_nonneg (not_lt.mp h0) hpos.le))
    · exact fun h => mul_neg_of_neg_of_pos h hpos
  have hmark : ∀ c ∈ "e-1074".toList.head?, c.isDigit = false ∧ c ≠ '.' := by
    intro c hc
    obtain rfl := Option.some.inj hc
    decide
  have hread := float?_strInt_append (d.units * fivePow) (t := "e-1074".toList)
    (List.all_eq_true.mp (by decide)) hmark (e := -1074) (by decide)
  rw [exactRepr, hread, hsign, ofDecimal_exact]
  rw [Int.natAbs_mul, Int.natAbs_natCast]
  have hexp : (-(-1074 : ℤ)).toNat = gridBits := rfl
  rw [hexp, ← fivePow_mul_unitsPerOne]
  have hzero : (-1074 : ℤ).toNat = 0 := rfl
  rw [hzero, Nat.pow_zero, Nat.mul_one, Nat.mul_assoc]

theorem float?_zero {d : Double} (h : d.units = 0) : float? "0.0".toList = some (.fin d) := by
  have hread : float? "0.0".toList = signed? "0.0".toList := float?_of_plain (List.all_eq_true.mp (by decide))
  have hscan : scanNumber "0.0".toList = some (0, -1) := by decide
  have hneg : decide (d.units < 0) = false := by simp [h]
  have hval : Float64.ofDecimal false 0 (-1) = .fin d := by
    rw [← hneg]
    exact ofDecimal_exact d (by simp [h])
  have hsign : signed? "0.0".toList = unsigned? false "0.0".toList := rfl
  rw [hread, hsign, unsigned?, hscan, ← hval]

/-- The words for the values that are not numbers. -/
theorem float?_inf (neg : Bool) : float? (repr (.inf neg)) = some (.inf neg) := by
  have hscan : scanNumber "inf".toList = none := by decide
  have hword : unsigned? neg "inf".toList = some (.inf neg) := by
    rw [unsigned?, hscan]
    exact if_pos (Or.inl (by decide))
  cases neg
  · exact (float?_of_plain (s := "inf".toList) (List.all_eq_true.mp (by decide))).trans hword
  · exact (float?_of_plain (s := "-inf".toList) (List.all_eq_true.mp (by decide))).trans hword

theorem float?_nan : float? (repr .nan) = some .nan := by
  have hscan : scanNumber "nan".toList = none := by decide
  have hword : unsigned? false "nan".toList = some .nan := by
    rw [unsigned?, hscan]
    exact (if_neg (by decide)).trans (if_pos (by decide))
  exact (float?_of_plain (s := "nan".toList) (List.all_eq_true.mp (by decide))).trans hword

/-- Whatever the search finds reads back: a text is taken because it does, and the last one always
does. -/
theorem float?_firstExact (d : Double) (texts : List Str) :
    float? (firstExact d texts) = some (.fin d) := by
  unfold firstExact
  cases hf : texts.find? fun s => float? s == some (.fin d) with
  | none =>
    rw [Option.getD_none]
    exact float?_exactRepr d
  | some s =>
    rw [Option.getD_some]
    have hs := List.find?_some hf
    exact beq_iff_eq.mp hs

/-- **`float(repr(x))` is `x`**, for `nan` too (as a value; `==` still says no).

One case for each kind of value.  The finite one is `float?_firstExact`, however many digits the
search tries. -/
theorem float?_repr (x : Float64) : float? (repr x) = some x := by
  match x with
  | .inf neg => exact float?_inf neg
  | .nan => exact float?_nan
  | .fin d =>
    rw [repr]
    split
    · exact float?_zero ‹_›
    · exact float?_firstExact d _

end Py

/-
# Fixed-point formatting of a Python `float`

`f"{x:.nf}"`, and the same with its trailing zeros stripped.

* `float?_trimmed`: the stripped text of a number that is not negative reads as the double nearest
  to the rounded decimal.
* `Float64.shown_eighth`: to three decimals, eighths are shown as they are.
* `Float64.shown_lt_of_between`: two numbers are shown in their order if two neighbouring eighths
  lie between them.

A number that is written with a fixed count of decimals is rounded twice: to the decimal when it is
written, and to a double when it is read.  What one wants to know, whether it comes back as itself
and whether the order of two numbers survives, is awkward to say of decimals and easy to say of
eighths, because an eighth is a decimal of three places and a double at once.
-/
import WitsmlViewer.Py.Numbers

namespace Py

/-! ## 1. Writing

The digits come from one rounding of the exact value, half to even, as `printf` does it on an exact
binary fraction. -/

/-- `s.rstrip(c)`. -/
def rstrip (c : Char) (s : Str) : Str := s.rdropWhile (· = c)

/-- `|x|` in units of `10 ^ -n`, rounded half to even. -/
def scaled (n : ℕ) (d : Double) : ℕ := roundHalfEven (d.units.natAbs * 10 ^ n) unitsPerOne

/-- `f"{x:.nf}"`, for some decimals. -/
def fixed (n : ℕ) : Float64 → Str
  | .fin d => (if d.units < 0 then ['-'] else []) ++ Nat.toDigits 10 (scaled n d / 10 ^ n) ++
      '.' :: pad n (scaled n d)
  | .inf neg => (if neg then ['-'] else []) ++ "inf".toList
  | .nan => "nan".toList

/-- `f"{x:.nf}".rstrip("0").rstrip(".")`. -/
def trimmed (n : ℕ) (x : Float64) : Str := rstrip '.' (rstrip '0' (fixed n x))

/-- The number that a reader makes of it. -/
def Float64.shown (n : ℕ) : Float64 → Float64
  | .fin d => .ofRatio (if d.units < 0 then -(scaled n d : ℤ) else scaled n d) (10 ^ n)
  | x => x

/-! ## 2. Stripping zeros

`rstrip("0")` stops at the point because a point is not a zero, and `rstrip(".")` then takes the
point if nothing is behind it.  Without a point in the text the first would eat into the number
itself; with at least one decimal there always is one. -/

/-- The only digit that is a zero is zero. -/
theorem digitChar_eq_zero_iff {n : ℕ} (h : n < 10) : Nat.digitChar n = '0' ↔ n = 0 := by
  revert n
  decide

theorem rstrip_concat (c d : Char) (s : Str) :
    rstrip c (s ++ [d]) = if d = c then rstrip c s else s ++ [d] := by
  rw [rstrip, List.rdropWhile_concat, rstrip]
  simp only [decide_eq_true_eq]

/-- Behind a point, the zeros at the end go, and with them as many powers of ten. -/
theorem rstrip_zeros (w : Str) : ∀ n s : ℕ, ∃ k j s' : ℕ, k + j = n ∧ s = s' * 10 ^ j ∧
    rstrip '0' (w ++ '.' :: pad n s) = w ++ '.' :: pad k s'
  | 0, s => by
    refine ⟨0, 0, s, rfl, by simp, ?_⟩
    have h := rstrip_concat '0' '.' w
    rw [if_neg (by decide)] at h
    exact h
  | n + 1, s => by
    have hlast : w ++ '.' :: pad (n + 1) s = (w ++ '.' :: pad n (s / 10)) ++ [Nat.digitChar (s % 10)] := by
      rw [pad, List.append_assoc, List.cons_append]
    rw [hlast, rstrip_concat]
    have hdigit := digitChar_eq_zero_iff (Nat.mod_lt s (by decide : 0 < 10))
    split
    · rename_i hzero
      obtain ⟨k, j, s', hkj, hs', htext⟩ := rstrip_zeros w n (s / 10)
      refine ⟨k, j + 1, s', by omega, ?_, htext⟩
      have hmod := hdigit.mp hzero
      rw [pow_succ, ← mul_assoc, ← hs']
      omega
    · exact ⟨n + 1, 0, s, rfl, by simp, by rw [hlast]⟩

/-- The point goes if nothing is left behind it. -/
theorem rstrip_point {w : Str} {k s : ℕ} (hw : ∀ c ∈ w.getLast?, c ≠ '.') :
    rstrip '.' (w ++ '.' :: pad k s) = w ++ (if k = 0 then [] else '.' :: pad k s) := by
  cases k with
  | zero =>
    have h := rstrip_concat '.' '.' w
    rw [if_pos rfl] at h
    rw [if_pos rfl, List.append_nil]
    refine h.trans (List.rdropWhile_eq_self_iff.mpr fun hne => ?_)
    have hlast := hw _ (List.getLast?_eq_some_getLast hne)
    simpa using hlast
  | succ k =>
    have hdigit : Nat.digitChar (s % 10) ≠ '.' := by
      have h := digit_isDigit (Nat.mod_lt s (by decide : 0 < 10))
      intro heq
      rw [heq] at h
      exact absurd h (by decide)
    have h := rstrip_concat '.' (Nat.digitChar (s % 10)) (w ++ '.' :: pad k (s / 10))
    rw [if_neg hdigit] at h
    simpa [pad] using h

/-! ## 3. Reading

The reader is `float?`, so that what is said here is about the same scanner that reads every other
number of the program. -/

/-- Digits behind others are read as the lower part of one number. -/
theorem ofDigitChars_pad_append (k n init : ℕ) :
    Nat.ofDigitChars 10 (pad k n) init = init * 10 ^ k + n % 10 ^ k := by
  induction k generalizing n with
  | zero => simp [pad, Nat.mod_one]
  | succ k ih =>
    have hmod : n % 10 ^ (k + 1) = n % 10 + 10 * (n / 10 % 10 ^ k) := by
      rw [pow_succ', Nat.mod_mul]
    rw [pad, Nat.ofDigitChars_append, ih, Nat.ofDigitChars_cons,
      digit_toNat (Nat.mod_lt _ (by decide)), Nat.ofDigitChars_nil, hmod, pow_succ]
    ring

/-- Digits, a point and digits. -/
theorem scanNumber_point {ds fs : Str} (hds : ∀ c ∈ ds, c.isDigit = true)
    (hfs : ∀ c ∈ fs, c.isDigit = true) (hne : ds ≠ []) :
    scanNumber (ds ++ '.' :: fs) =
      some (Nat.ofDigitChars 10 (ds ++ fs) 0, -(fs.length : ℤ)) := by
  have htake : (ds ++ '.' :: fs).takeWhile Char.isDigit = ds := by
    rw [List.takeWhile_append_of_pos hds]
    simp
  have hdrop : (ds ++ '.' :: fs).dropWhile Char.isDigit = '.' :: fs := by
    rw [List.dropWhile_append_of_pos hds]
    simp
  have htake' : fs.takeWhile Char.isDigit = fs := List.takeWhile_eq_self_iff.mpr hfs
  have hdrop' : fs.dropWhile Char.isDigit = [] := List.dropWhile_eq_nil_iff.mpr hfs
  unfold scanNumber
  rw [htake, hdrop]
  simp [hne, htake', hdrop', scanExponent]

/-- A quotient does not change when both sides are multiplied. -/
theorem Float64.ofUnits_mul_right (z : ℤ) (den : ℕ) {c : ℕ} (hc : 0 < c) :
    ofUnits (z * c) (den * c) = ofUnits z den := by
  refine rank_injOn (ofUnits_ne_nan _ _) (ofUnits_ne_nan _ _) ?_
  have hpos : (0 : ℤ) < c := by exact_mod_cast hc
  have hsign : z * c < 0 ↔ z < 0 := by
    constructor
    · exact fun h => neg_of_mul_neg_left h hpos.le
    · exact fun h => mul_neg_of_neg_of_pos h hpos
  rw [rank_ofUnits, rank_ofUnits, Int.natAbs_mul, Int.natAbs_natCast, roundUnits_mul_right hc]
  simp only [hsign]

/-- A decimal is a quotient by a power of ten, rounded once. -/
theorem ofDecimal_eq_ofRatio (m k : ℕ) :
    Float64.ofDecimal false m (-(k : ℤ)) = .ofRatio m (10 ^ k) := by
  have habs : ((m : ℤ) * unitsPerOne).natAbs = m * unitsPerOne := by
    rw [← Nat.cast_mul, Int.natAbs_natCast]
  have hneg : ¬((m : ℤ) * unitsPerOne < 0) := by
    exact not_lt.mpr (mul_nonneg (Int.natCast_nonneg _) (Int.natCast_nonneg _))
  have hleft : ((-(k : ℤ)).toNat) = 0 := by omega
  have hright : (- -(k : ℤ)).toNat = k := by omega
  simp only [Float64.ofDecimal, Float64.ofRatio, Float64.ofUnits, hleft, hright, habs, hneg,
    pow_zero, mul_one, decide_false]

theorem digits_isDigit (n : ℕ) : ∀ c ∈ Nat.toDigits 10 n, c.isDigit = true := fun _ hc =>
  Nat.isDigit_of_mem_toDigits (by decide) (by decide) hc

/-- What is left after stripping. -/
theorem trimmed_fin (n : ℕ) (d : Double) : ∃ k j s : ℕ, k + j = n ∧ scaled n d = s * 10 ^ j ∧
    trimmed n (.fin d) = (if d.units < 0 then ['-'] else []) ++
      (Nat.toDigits 10 (scaled n d / 10 ^ n) ++ if k = 0 then [] else '.' :: pad k s) := by
  obtain ⟨k, j, s, hkj, hs, htext⟩ := rstrip_zeros
    ((if d.units < 0 then ['-'] else []) ++ Nat.toDigits 10 (scaled n d / 10 ^ n)) n (scaled n d)
  refine ⟨k, j, s, hkj, hs, ?_⟩
  have hlast : ∀ c ∈ ((if d.units < 0 then ['-'] else []) ++
      Nat.toDigits 10 (scaled n d / 10 ^ n)).getLast?, c ≠ '.' := by
    intro c hc
    rw [List.getLast?_append_of_ne_nil _ Nat.toDigits_ne_nil] at hc
    rintro rfl
    exact absurd (digits_isDigit _ '.' (List.mem_of_getLast? hc)) (by decide)
  rw [trimmed, fixed, htext, rstrip_point hlast, List.append_assoc]

/-- Digits, signs and points, and the letters of `inf` and `nan`, are all that is written. -/
theorem fixed_all {p : Char → Bool} (hdigit : ∀ c : Char, c.isDigit = true → p c = true)
    (hmarks : "-.infa".toList.all p = true) (n : ℕ) (x : Float64) : ∀ c ∈ fixed n x, p c = true := by
  have hmark : ∀ c ∈ "-.infa".toList, p c = true := List.all_eq_true.mp hmarks
  have hsign : ∀ neg : Bool, ∀ c ∈ (if neg then ['-'] else [] : Str), p c = true := by
    intro neg c hc
    cases neg with
    | false => exact absurd hc List.not_mem_nil
    | true => exact hmark c (by rw [List.mem_singleton.mp hc]; decide)
  intro c hc
  cases x with
  | fin d =>
    rw [fixed] at hc
    rcases List.mem_append.mp hc with hc | hc
    · rcases List.mem_append.mp hc with hc | hc
      · exact hsign (d.units < 0) c (by simpa using hc)
      · exact hdigit c (digits_isDigit _ c hc)
    · rcases List.mem_cons.mp hc with rfl | hc
      · exact hmark '.' (by decide)
      · exact hdigit c (pad_isDigit _ _ c hc)
  | inf neg =>
    rcases List.mem_append.mp hc with hc | hc
    · exact hsign neg c hc
    · exact hmark c (List.all_eq_true.mp
        (show "inf".toList.all (fun c => decide (c ∈ "-.infa".toList)) = true by decide) c hc
          |> of_decide_eq_true)
  | nan =>
    exact hmark c (List.all_eq_true.mp
      (show "nan".toList.all (fun c => decide (c ∈ "-.infa".toList)) = true by decide) c hc
        |> of_decide_eq_true)

/-- What holds of the written characters holds of the stripped text. -/
theorem trimmed_all {p : Char → Bool} (hdigit : ∀ c : Char, c.isDigit = true → p c = true)
    (hmarks : "-.infa".toList.all p = true) (n : ℕ) (x : Float64) :
    ∀ c ∈ trimmed n x, p c = true := fun c hc =>
  fixed_all hdigit hmarks n x c
    ((List.rdropWhile_prefix _ _).subset ((List.rdropWhile_prefix _ _).subset hc))

/-- Nothing that `float` would strip or translate is written. -/
theorem trimmed_plain (n : ℕ) (x : Float64) : ∀ c ∈ trimmed n x, plain c = true :=
  trimmed_all (fun _ hc => plain_of_isDigit hc) (by decide) n x

/-- An integer is written with digits and perhaps a sign. -/
theorem strInt_all {p : Char → Bool} (hdigit : ∀ c : Char, c.isDigit = true → p c = true)
    (hminus : p '-' = true) (n : ℤ) : ∀ c ∈ strInt n, p c = true := by
  intro c hc
  rcases List.mem_append.mp hc with hc | hc
  · split at hc
    · rwa [List.mem_singleton.mp hc]
    · exact absurd hc List.not_mem_nil
  · exact hdigit c (digits_isDigit _ c hc)

/-- The stripped digits read as the rounded decimal. -/
theorem scanNumber_trimmed {k s q : ℕ} (hq : q = s / 10 ^ k) :
    scanNumber (Nat.toDigits 10 q ++ if k = 0 then [] else '.' :: pad k s) =
      some (s, -(k : ℤ)) := by
  cases k with
  | zero =>
    have hscan := scanNumber_digits (t := []) (digits_isDigit q) Nat.toDigits_ne_nil (by simp)
    have hs : q = s := by simpa using hq
    simpa [scanExponent, hs] using hscan
  | succ k =>
    have hvalue : Nat.ofDigitChars 10 (Nat.toDigits 10 q ++ pad (k + 1) s) 0 = s := by
      rw [Nat.ofDigitChars_append, Nat.ofDigitChars_ten_toDigits, ofDigitChars_pad_append, hq,
        mul_comm]
      exact Nat.div_add_mod s _
    rw [if_neg (by omega), scanNumber_point (digits_isDigit q) (pad_isDigit _ _)
      Nat.toDigits_ne_nil, hvalue, pad_length]

/-- **The stripped text reads as the double nearest to the rounded decimal.**

Stripping zeros divides the digits and the power of ten by the same number, and a quotient does not
change.  Negative numbers are left out; they are not needed. -/
theorem float?_trimmed (n : ℕ) {d : Double} (h : 0 ≤ d.units) :
    float? (trimmed n (.fin d)) = some (.ofRatio (scaled n d) (10 ^ n)) := by
  obtain ⟨k, j, s, hkj, hs, htext⟩ := trimmed_fin n d
  rw [if_neg (by omega), List.nil_append] at htext
  have hint : scaled n d / 10 ^ n = s / 10 ^ k := by
    rw [hs, ← hkj, pow_add, Nat.mul_div_mul_right _ _ (by positivity)]
  have hround : Float64.ofRatio (scaled n d) (10 ^ n) = .ofRatio s (10 ^ k) := by
    have hmul := Float64.ofUnits_mul_right ((s : ℤ) * unitsPerOne) (10 ^ k)
      (show 0 < 10 ^ j by positivity)
    rw [Float64.ofRatio, Float64.ofRatio, ← hmul, hs, ← hkj, pow_add]
    congr 1
    push_cast
    ring
  rw [float?_of_plain (trimmed_plain n _), htext, signed?_digits (digits_isDigit _)
    Nat.toDigits_ne_nil, unsigned?, scanNumber_trimmed hint, hround, ← ofDecimal_eq_ofRatio]

/-- What is rounded to zero is written as zero. -/
theorem trimmed_of_scaled_zero {d : Double} (h : 0 ≤ d.units) (hscaled : scaled 3 d = 0) :
    trimmed 3 (.fin d) = ['0'] := by
  rw [trimmed, fixed, hscaled, if_neg (by omega)]
  decide

/-! ## 4. Order

Both roundings keep the order, so the shown numbers are in order too, but not strictly.  Strictness
has to come from something between the two that is shown as it is. -/

theorem scaled_mono (n : ℕ) {d e : Double} (h : d.units.natAbs ≤ e.units.natAbs) :
    scaled n d ≤ scaled n e :=
  roundHalfEven_mono _ (Nat.mul_le_mul_right _ h)

namespace Float64

/-- A number that is not negative is shown without a sign. -/
theorem shown_of_nonneg (n : ℕ) {d : Double} (h : 0 ≤ d.units) :
    shown n (fin d) = ofRatio (scaled n d) (10 ^ n) := by
  rw [shown, if_neg (by omega)]

/-- **Numbers that are not negative are shown in order.**  Both roundings are monotone, and nothing
more is used of them. -/
theorem shown_mono (n : ℕ) {d e : Double} (h : 0 ≤ d.units) (hle : d.units ≤ e.units) :
    (shown n (fin d)).rank ≤ (shown n (fin e)).rank := by
  rw [shown_of_nonneg n h, shown_of_nonneg n (h.trans hle)]
  have hscaled : scaled n d ≤ scaled n e := scaled_mono n (by omega)
  exact ofUnits_mono _ (mul_le_mul_of_nonneg_right (by exact_mod_cast hscaled)
    (Int.natCast_nonneg _))

end Float64

/-- An eighth, in units. -/
@[irreducible] def eighth : ℕ := 2 ^ (gridBits - 3)

theorem eighth_eq : eighth = 2 ^ (gridBits - 3) := by unfold eighth; rfl

theorem eighth_pos : 0 < eighth := by
  rw [eighth_eq]
  exact Nat.two_pow_pos _

theorem unitsPerOne_eq_eighths : unitsPerOne = 8 * eighth := by
  have hbits : gridBits = 3 + (gridBits - 3) := by decide
  have height : 8 = 2 ^ 3 := by decide
  have hpow : ∀ g : ℕ, 2 ^ (3 + g) = 8 * 2 ^ g := fun g => by rw [height, Nat.pow_add]
  rw [unitsPerOne_eq, eighth_eq, ← hpow, ← hbits]

/-- `k / 8`. -/
def eighths (k : ℕ) (h : k ≤ 2 ^ 53) : Double where
  units := (k * eighth : ℕ)
  isDouble := by
    rw [Int.natAbs_natCast, eighth_eq]
    exact roundUnits_of_dvd (pow_lostBits_dvd h)
  finite := by
    rw [Int.natAbs_natCast, unitsOverflow_eq]
    calc k * eighth ≤ 2 ^ 53 * eighth := Nat.mul_le_mul_right _ h
      _ = 2 ^ (53 + (gridBits - 3)) := by rw [eighth_eq, Nat.pow_add]
      _ < 2 ^ (gridBits + 1024) := Nat.pow_lt_pow_right (by decide) (by decide)

namespace Float64

/-- **Eighths are shown as they are.**  An eighth has at most three decimals, so the first rounding
changes nothing, and it is a double, so the second one does not either. -/
theorem shown_eighth {d : Double} (h : 0 ≤ d.units) (hdvd : eighth ∣ d.units.natAbs) :
    shown 3 (fin d) = fin d := by
  obtain ⟨k, hk⟩ := hdvd
  have hpos := eighth_pos
  have hscaled : scaled 3 d = 125 * k := by
    have hsplit : d.units.natAbs * 10 ^ 3 = 125 * k * unitsPerOne := by
      rw [hk, unitsPerOne_eq_eighths]
      ring
    rw [scaled, hsplit, roundHalfEven_of_dvd unitsPerOne_pos (Nat.dvd_mul_left _ _),
      Nat.mul_div_cancel _ unitsPerOne_pos]
  have hunits : d.units = (d.units.natAbs : ℤ) := by omega
  have hratio : ((125 * k : ℕ) : ℤ) * unitsPerOne = d.units * (1000 : ℕ) := by
    rw [hunits, hk, unitsPerOne_eq_eighths]
    push_cast
    ring
  rw [shown_of_nonneg 3 h, ofRatio, hscaled, hratio, ← ofUnits_self d]
  have hmul := ofUnits_mul_right d.units 1 (show 0 < 1000 by decide)
  rwa [one_mul] at hmul

theorem shown_eighth_eighths (k : ℕ) (h : k ≤ 2 ^ 53) :
    shown 3 (fin (eighths k h)) = fin (eighths k h) := by
  refine shown_eighth (Int.natCast_nonneg _) ?_
  rw [eighths, Int.natAbs_natCast]
  exact Nat.dvd_mul_left _ _

/-- **What is not rounded to zero is shown above zero.** -/
theorem shown_pos {d : Double} (h : 0 ≤ d.units) (hscaled : scaled 3 d ≠ 0) :
    0 < (shown 3 (fin d)).rank := by
  have hlarge : 1000 ≤ unitsPerOne := by
    obtain ⟨Q, hQ, hsplit, -⟩ := exists_step
    omega
  have hone : ¬(ofUnits 1 1).rank ≤ 0 := by
    rw [rank_ofUnits_nonpos_iff]
    decide
  have hmul := ofUnits_mul_right 1 1 (show 0 < 1000 by decide)
  rw [one_mul, one_mul] at hmul
  have hle : ((1000 : ℕ) : ℤ) ≤ (scaled 3 d : ℤ) * unitsPerOne := by
    have hprod : 1000 ≤ scaled 3 d * unitsPerOne :=
      hlarge.trans (Nat.le_mul_of_pos_left _ (by omega))
    exact_mod_cast hprod
  have hmono := ofUnits_mono 1000 hle
  rw [hmul] at hmono
  rw [shown_of_nonneg 3 h]
  exact lt_of_lt_of_le (not_le.mp hone) hmono

/-- **Numbers with two eighths between them are shown in strict order.**  The two are shown as they
are, and so they keep the others apart. -/
theorem shown_lt_of_between {d e : Double} {k : ℕ} (h : 0 ≤ d.units) (hk : k + 1 ≤ 2 ^ 53)
    (hd : d.units ≤ (k * eighth : ℕ)) (he : ((k + 1) * eighth : ℕ) ≤ e.units) :
    (shown 3 (fin d)).rank < (shown 3 (fin e)).rank := by
  have hpos := eighth_pos
  have hlow : (shown 3 (fin d)).rank ≤ (k * eighth : ℕ) := by
    have hmono := shown_mono 3 (e := eighths k (by omega)) h hd
    rwa [shown_eighth_eighths] at hmono
  have hhigh : (((k + 1) * eighth : ℕ) : ℤ) ≤ (shown 3 (fin e)).rank := by
    have hmono := shown_mono 3 (d := eighths (k + 1) hk) (Int.natCast_nonneg _) he
    rwa [shown_eighth_eighths] at hmono
  have hstep : k * eighth < (k + 1) * eighth := Nat.mul_lt_mul_of_pos_right (by omega) hpos
  omega

end Float64

/-- A number from `2 ^ k` on has a logarithm of at least `k`. -/
theorem le_log2_of_pow_le {k n : ℕ} (h : 2 ^ k ≤ n) : k ≤ n.log2 := by
  have hpos := Nat.two_pow_pos k
  exact (Nat.le_log2 (by omega)).mpr h

/-- From `2 ^ 49` on, every double is a number of eighths. -/
theorem eighth_dvd_of_large {d : Double} (h : 2 ^ 49 * unitsPerOne ≤ d.units.natAbs) :
    eighth ∣ d.units.natAbs := by
  have hround : roundHalfEven d.units.natAbs (1 * 2 ^ lostBits (d.units.natAbs / 1)) *
      2 ^ lostBits (d.units.natAbs / 1) = d.units.natAbs := d.isDouble
  rw [Nat.div_one] at hround
  have hlog : gridBits + 49 ≤ d.units.natAbs.log2 := by
    have hpow : 2 ^ (gridBits + 49) = 2 ^ 49 * unitsPerOne := by
      rw [unitsPerOne_eq, Nat.add_comm, Nat.pow_add]
    exact le_log2_of_pow_le (hpow.le.trans h)
  rw [eighth_eq, ← hround]
  refine Dvd.dvd.mul_left (Nat.pow_dvd_pow 2 ?_) _
  unfold lostBits
  omega

/-! ## 5. Half a step up or down

A depth that goes up or down by half a unit.  One half is four eighths, enough to have two
neighbouring ones between the old depth and the new, unless the number is so large that the sum
rounds back to it. -/

namespace Float64

/-- `0.5`. -/
def half : Float64 := ofRatio 1 2

theorem half_eq : half = fin (eighths 4 (by decide)) := by
  have hmul := ofUnits_mul_right (eighths 4 (by decide)).units 1 (show 0 < 2 by decide)
  have hunits : (1 : ℤ) * unitsPerOne = (eighths 4 (by decide)).units * (2 : ℕ) := by
    rw [unitsPerOne_eq_eighths, eighths]
    push_cast
    ring
  rw [half, ofRatio, hunits, ← ofUnits_self]
  rwa [one_mul] at hmul

theorem add_half (d : Double) :
    (fin d).add half = ofUnits (d.units + (4 * eighth : ℕ)) 1 := by
  rw [half_eq]
  rfl

theorem sub_half (d : Double) :
    (fin d).add half.neg = ofUnits (d.units - (4 * eighth : ℕ)) 1 := by
  rw [half_eq]
  rfl

theorem rank_eighths {k : ℕ} (h : k ≤ 2 ^ 53) :
    (ofUnits ((k * eighth : ℕ) : ℤ) 1).rank = (k * eighth : ℕ) :=
  congrArg rank (ofUnits_self (eighths k h))

theorem add_half_mono {d : Double} : d.units ≤ ((fin d).add half).rank := by
  have hup : d.units ≤ d.units + (4 * eighth : ℕ) := by omega
  have hmono := ofUnits_mono 1 hup
  rw [ofUnits_self] at hmono
  rw [add_half]
  exact hmono

/-- A magnitude lies between two neighbouring eighths. -/
theorem exists_eighths (n : ℕ) : ∃ q : ℕ, q * eighth ≤ n ∧ n < (q + 1) * eighth := by
  have hmod := Nat.mod_lt n eighth_pos
  have hdiv := Nat.div_add_mod n eighth
  have hnext : (n / eighth + 1) * eighth = eighth * (n / eighth) + eighth := by ring
  have hcomm : n / eighth * eighth = eighth * (n / eighth) := Nat.mul_comm _ _
  exact ⟨n / eighth, by omega, by omega⟩

/-- **Half a step up is shown further up, unless it is lost.** -/
theorem shown_lt_add_half {d : Double} (h : 0 ≤ d.units) (hne : (fin d).add half ≠ fin d) :
    (shown 3 (fin d)).rank < (shown 3 ((fin d).add half)).rank := by
  have hpos := eighth_pos
  have hle := add_half_mono (d := d)
  have hnan : (fin d).add half ≠ .nan := by
    rw [add_half]
    exact ofUnits_ne_nan _ _
  by_cases hsmall : d.units.natAbs < 2 ^ 49 * unitsPerOne
  · -- `k` eighths are at or above the number, and `k + 3` at or below its half step
    obtain ⟨k, hk, hlow, hhigh⟩ : ∃ k : ℕ, k + 4 ≤ 2 ^ 53 ∧ d.units ≤ (k * eighth : ℕ) ∧
        (((k + 3) * eighth : ℕ) : ℤ) ≤ d.units + (4 * eighth : ℕ) := by
      obtain ⟨q, hlow, hhigh⟩ := exists_eighths d.units.natAbs
      have hbound : q < 2 ^ 52 := by
        rw [unitsPerOne_eq_eighths] at hsmall
        have hlt : q * eighth < 2 ^ 52 * eighth := lt_of_le_of_lt hlow (by omega)
        exact lt_of_mul_lt_mul_right hlt (Nat.zero_le _)
      have hk : (q + 1) * eighth = q * eighth + eighth := by ring
      have hk' : (q + 1 + 3) * eighth = q * eighth + 4 * eighth := by ring
      exact ⟨q + 1, by omega, by omega, by omega⟩
    have hup := ofUnits_mono 1 hhigh
    rw [rank_eighths (by omega), ← add_half] at hup
    have hbelow : ((fin d).add half).rank ≤ ((k + 4) * eighth : ℕ) := by
      have hsplit : (k + 4) * eighth = k * eighth + 4 * eighth := by ring
      have hle : d.units + (4 * eighth : ℕ) ≤ ((k + 4) * eighth : ℕ) := by omega
      have hmono := ofUnits_mono 1 hle
      rwa [rank_eighths hk, ← add_half] at hmono
    obtain ⟨e, hy⟩ := exists_of_le_fin (d := eighths (k + 4) hk) hnan (h.trans hle) hbelow
    rw [hy] at hup ⊢
    have hnext : (k + 1) * eighth ≤ (k + 3) * eighth := Nat.mul_le_mul_right _ (by omega)
    exact shown_lt_of_between h (by omega) hlow ((Int.ofNat_le.mpr hnext).trans hup)
  · rw [shown_eighth h (eighth_dvd_of_large (not_lt.mp hsmall))]
    rcases cases_of_nonneg hnan (h.trans hle) with ⟨e, hy, he⟩ | hy
    · rw [hy] at hle hne ⊢
      have hle' : d.units ≤ e.units := hle
      rw [shown_eighth he (eighth_dvd_of_large (by omega))]
      refine lt_of_le_of_ne hle' fun heq => hne ?_
      rw [rank_fin_inj heq.symm]
    · rw [hy]
      exact rank_fin_lt d

theorem sub_half_mono {d : Double} : ((fin d).add half.neg).rank ≤ d.units := by
  have hdown : d.units - (4 * eighth : ℕ) ≤ d.units := by omega
  have hmono := ofUnits_mono 1 hdown
  rw [ofUnits_self] at hmono
  rw [sub_half]
  exact hmono

/-- **Half a step down is shown further down, unless it is lost.** -/
theorem shown_sub_half_lt {d e : Double} (h : ((4 * eighth : ℕ) : ℤ) < d.units)
    (he : (fin d).add half.neg = fin e) (hne : e ≠ d) :
    (shown 3 (fin e)).rank < (shown 3 (fin d)).rank := by
  have hpos := eighth_pos
  have hle : e.units ≤ d.units := by
    have hmono := sub_half_mono (d := d)
    rwa [he] at hmono
  have hnonneg : 0 ≤ e.units := by
    have hleft : 0 ≤ d.units - (4 * eighth : ℕ) := by omega
    have hmono := ofUnits_mono 1 hleft
    rw [← sub_half, he] at hmono
    exact (rank_ofUnits_nonneg le_rfl).trans hmono
  obtain ⟨q, hlow, hhigh⟩ := exists_eighths d.units.natAbs
  by_cases hsmall : d.units.natAbs < 2 ^ 50 * unitsPerOne
  · -- `q` eighths are at or below the number, and `q - 3` at or above its half step
    have hbound : q < 2 ^ 53 := by
      rw [unitsPerOne_eq_eighths] at hsmall
      have hlt : q * eighth < 2 ^ 53 * eighth := lt_of_le_of_lt hlow (by omega)
      exact lt_of_mul_lt_mul_right hlt (Nat.zero_le _)
    have hfour : 4 < q + 1 := by
      have hlt : 4 * eighth < (q + 1) * eighth := by omega
      exact lt_of_mul_lt_mul_right hlt (Nat.zero_le _)
    obtain ⟨k, rfl⟩ : ∃ k, q = k + 3 := ⟨q - 3, by omega⟩
    have hdown : e.units ≤ (k * eighth : ℕ) := by
      have hsplit : (k + 3 + 1) * eighth = k * eighth + 4 * eighth := by ring
      have hleft : d.units - (4 * eighth : ℕ) ≤ (k * eighth : ℕ) := by omega
      have hmono := ofUnits_mono 1 hleft
      rwa [rank_eighths (by omega), ← sub_half, he] at hmono
    have hnext : (k + 1) * eighth ≤ (k + 3) * eighth := Nat.mul_le_mul_right _ (by omega)
    exact shown_lt_of_between hnonneg (by omega) hdown (by omega)
  · have hlarge : ((2 ^ 52 * eighth : ℕ) : ℤ) ≤ e.units := by
      rw [unitsPerOne_eq_eighths] at hsmall
      have hleft : ((2 ^ 52 * eighth : ℕ) : ℤ) ≤ d.units - (4 * eighth : ℕ) := by omega
      have hmono := ofUnits_mono 1 hleft
      rwa [rank_eighths (by norm_num), ← sub_half, he] at hmono
    have hsplit : 2 ^ 49 * unitsPerOne = 2 ^ 52 * eighth := by
      rw [unitsPerOne_eq_eighths]
      ring
    rw [shown_eighth hnonneg (eighth_dvd_of_large (by omega)),
      shown_eighth (hnonneg.trans hle) (eighth_dvd_of_large (by omega))]
    refine lt_of_le_of_ne hle fun heq => hne ?_
    exact rank_fin_inj heq

end Float64

end Py

/-
# Python `datetime.timestamp()`

Float arithmetic as far as time stamps need it, and the seconds since the epoch that a `datetime`
stands for.  An aware reading is divided exactly and rounded once.  A naive one is taken for local
time: the host finds its whole seconds, and the fraction is added to them as a float.

* `ofUnits_spec` bounds the rounding error of a result in the range of time stamps.
* `timestamp?_naive_iff`: the naive reading of an instant has the time stamp of the aware one only
  on a host in UTC; there it has, unless the two ways of rounding part (`RoundsAlike`).

Only offsets that do not change with the season are modelled, because the question that is asked of
a host is whether it is in UTC or not; a host whose offset changes has another one at some time of
the year.
-/
import WitsmlViewer.Py.Datetime

namespace Py

/-! ## 1. Arithmetic

Every operation is the exact one followed by a single rounding, `ofUnits`.  What is proved of it
are the two facts that the rest of the development turns on, a bound on the error and monotony. -/

namespace Float64

/-- `z / den` units, rounded to the nearest double. -/
def ofUnits (z : ℤ) (den : ℕ) : Float64 :=
  if h : roundUnits z.natAbs den < unitsOverflow then
    ofMagnitude (z < 0) _ (roundUnits_roundUnits _ _) h
  else inf (z < 0)

/-- The division of two whole numbers. -/
def ofRatio (a : ℤ) (b : ℕ) : Float64 := ofUnits (a * unitsPerOne) b

/-- `x + y`. -/
def add : Float64 → Float64 → Float64
  | fin x, fin y => ofUnits (x.units + y.units) 1
  | nan, _ => nan
  | _, nan => nan
  | inf a, inf b => if a = b then inf a else nan
  | inf a, fin _ => inf a
  | fin _, inf b => inf b

/-- `x * y`. -/
def mul : Float64 → Float64 → Float64
  | fin x, fin y => ofUnits (x.units * y.units) unitsPerOne
  | nan, _ => nan
  | _, nan => nan
  | inf a, inf b => inf (a != b)
  | inf a, fin y => if y.units = 0 then nan else inf (a != decide (y.units < 0))
  | fin x, inf b => if x.units = 0 then nan else inf (decide (x.units < 0) != b)

/-- `abs(x)`. -/
def abs : Float64 → Float64
  | fin d => ofMagnitude false d.units.natAbs d.isDouble d.finite
  | inf _ => inf false
  | nan => nan

def isFinite : Float64 → Bool
  | fin _ => true
  | _ => false

end Float64

/-- The nearest integer is off by at most a half. -/
theorem roundHalfEven_error {b : ℕ} (hb : 0 < b) (a : ℕ) :
    2 * |(roundHalfEven a b : ℤ) * b - a| ≤ b := by
  have hdiv : (a : ℤ) = b * (a / b : ℕ) + (a % b : ℕ) := by exact_mod_cast (Nat.div_add_mod a b).symm
  have hmod : a % b < b := Nat.mod_lt a hb
  unfold roundHalfEven
  split
  · have herr : ((a / b + 1 : ℕ) : ℤ) * b - a = b - (a % b : ℕ) := by
      rw [hdiv]
      push_cast
      ring
    rw [herr, abs_of_nonneg (by omega)]
    omega
  · have herr : ((a / b : ℕ) : ℤ) * b - a = -(a % b : ℕ) := by
      rw [hdiv]
      push_cast
      ring
    rw [herr, abs_neg, abs_of_nonneg (by omega)]
    omega

/-- A rounded quotient is off by at most half a step of the grid it is rounded to. -/
theorem roundUnits_error {b : ℕ} (hb : 0 < b) (a : ℕ) :
    2 * |(roundUnits a b : ℤ) * b - a| ≤ b * 2 ^ lostBits (a / b) := by
  have h := roundHalfEven_error (b := b * 2 ^ lostBits (a / b)) (by positivity) a
  have hassoc : (roundUnits a b : ℤ) * b =
      (roundHalfEven a (b * 2 ^ lostBits (a / b)) : ℤ) * ((b * 2 ^ lostBits (a / b) : ℕ) : ℤ) := by
    rw [roundUnits]
    push_cast
    ring
  rw [hassoc]
  exact_mod_cast h

/-- A number below `2 ^ (53 + k)` loses at most `k` bits. -/
theorem lostBits_le {n k : ℕ} (h : n < 2 ^ (53 + k)) : lostBits n ≤ k := by
  rcases Nat.eq_zero_or_pos n with rfl | hpos
  · simp [lostBits]
  · have hlog : n.log2 < 53 + k := (Nat.log2_lt hpos.ne').mpr h
    unfold lostBits
    omega

theorem unitsPerOne_eq : unitsPerOne = 2 ^ gridBits := by unfold unitsPerOne; rfl

theorem unitsOverflow_eq : unitsOverflow = 2 ^ (gridBits + 1024) := by unfold unitsOverflow; rfl

/-- **A magnitude below `2 ^ (53 + k)` units is rounded to a finite double, by at most half of `2 ^
k` units.**

The bound is absolute and not relative, since the numbers it is used for, seconds of a time stamp,
all lie in one range. -/
theorem ofUnits_spec {z : ℤ} {den k : ℕ} (hden : 0 < den) (hz : z.natAbs < den * 2 ^ (53 + k))
    (hk : 54 + k ≤ gridBits + 1024) :
    ∃ d, Float64.ofUnits z den = .fin d ∧ 2 * |d.units * den - z| ≤ den * 2 ^ k := by
  have hquot : z.natAbs / den < 2 ^ (53 + k) := by
    rw [Nat.div_lt_iff_lt_mul hden, Nat.mul_comm]
    exact hz
  have hlost : 2 ^ lostBits (z.natAbs / den) ≤ 2 ^ k :=
    Nat.pow_le_pow_right (by omega) (lostBits_le hquot)
  have herr : 2 * |(roundUnits z.natAbs den : ℤ) * den - z.natAbs| ≤ den * 2 ^ k :=
    (roundUnits_error hden z.natAbs).trans (by exact_mod_cast Nat.mul_le_mul_left den hlost)
  have hfin : roundUnits z.natAbs den < unitsOverflow := by
    have hle : (roundUnits z.natAbs den : ℤ) * den < den * 2 ^ (54 + k) := by
      have h1 : (roundUnits z.natAbs den : ℤ) * den - z.natAbs ≤
          |(roundUnits z.natAbs den : ℤ) * den - z.natAbs| := le_abs_self _
      have h2 : (z.natAbs : ℤ) < den * 2 ^ (53 + k) := by exact_mod_cast hz
      have h3 : (2 : ℤ) ^ (54 + k) = 2 * 2 ^ (53 + k) := by rw [← pow_succ']; congr 1; omega
      have h4 : (2 : ℤ) ^ k ≤ 2 ^ (53 + k) := pow_le_pow_right₀ (by norm_num) (by omega)
      have h5 : (den : ℤ) * 2 ^ k ≤ den * 2 ^ (53 + k) := by
        exact mul_le_mul_of_nonneg_left h4 (by omega)
      rw [h3]
      linarith
    have hlt : roundUnits z.natAbs den < 2 ^ (54 + k) := by
      rw [Int.mul_comm] at hle
      have := lt_of_mul_lt_mul_left hle (by omega)
      exact_mod_cast this
    rw [unitsOverflow_eq]
    exact lt_of_lt_of_le hlt (Nat.pow_le_pow_right (by omega) hk)
  refine ⟨_, dif_pos hfin, ?_⟩
  simp only [decide_eq_true_eq]
  by_cases hneg : z < 0
  · rw [if_pos hneg]
    have habs : (z.natAbs : ℤ) = -z := by omega
    rw [habs] at herr
    have hflip : -(roundUnits z.natAbs den : ℤ) * den - z =
        -((roundUnits z.natAbs den : ℤ) * den - -z) := by ring
    rw [hflip, abs_neg]
    exact herr
  · rw [if_neg hneg]
    have habs : (z.natAbs : ℤ) = z := by omega
    rw [habs] at herr
    exact herr

theorem roundHalfEven_mono {a a' : ℕ} (b : ℕ) (h : a ≤ a') :
    roundHalfEven a b ≤ roundHalfEven a' b := by
  have hdiv : a / b ≤ a' / b := Nat.div_le_div_right h
  have hle : a / b ≤ roundHalfEven a b := by unfold roundHalfEven; split <;> omega
  rcases hdiv.lt_or_eq with hlt | heq
  · have hge : a' / b ≤ roundHalfEven a' b := by unfold roundHalfEven; split <;> omega
    exact (roundHalfEven_le_succ a b).trans (le_trans hlt hge)
  · have hmod : a % b ≤ a' % b := by
      have ha := Nat.div_add_mod a b
      have ha' := Nat.div_add_mod a' b
      rw [heq] at ha
      omega
    unfold roundHalfEven
    rw [heq]
    split <;> split <;> omega

theorem log2_mono {m n : ℕ} (h : m ≤ n) : m.log2 ≤ n.log2 := by
  rw [Nat.log2_eq_log_two, Nat.log2_eq_log_two]
  exact Nat.log_mono_right h

/-- **Rounding to a double keeps the order.**

Where the larger number loses more bits than the smaller one, there is a power of two between them,
and this one is not changed by rounding. -/
theorem roundUnits_mono {a a' : ℕ} (b : ℕ) (h : a ≤ a') :
    roundUnits a b ≤ roundUnits a' b := by
  have hdiv : a / b ≤ a' / b := Nat.div_le_div_right h
  have hlog := log2_mono hdiv
  have hlost : lostBits (a / b) ≤ lostBits (a' / b) := by unfold lostBits; omega
  rcases hlost.lt_or_eq with hlt | heq
  · -- a wider grid: between the two lies a power of two
    obtain ⟨L, hL⟩ : ∃ L, lostBits (a' / b) = L := ⟨_, rfl⟩
    have hlow : roundUnits a b ≤ 2 ^ 53 * 2 ^ lostBits (a / b) := by
      unfold roundUnits
      refine Nat.mul_le_mul_right _ ?_
      exact (roundHalfEven_le_succ _ _).trans (quotient_lt a b)
    have hhigh : 2 ^ 52 * 2 ^ L ≤ roundUnits a' b := by
      unfold roundUnits
      rw [hL]
      refine Nat.mul_le_mul_right _ ?_
      have hquot : 2 ^ 52 ≤ a' / (b * 2 ^ L) := by
        rw [← Nat.div_div_eq_div_mul, Nat.le_div_iff_mul_le (by positivity), ← Nat.pow_add]
        have hpos : a' / b ≠ 0 := by
          intro hzero
          have hnone : lostBits 0 = 0 := by simp [lostBits]
          rw [hzero, hnone] at hlt
          omega
        have hexp : (a' / b).log2 = 52 + L := by unfold lostBits at hL hlt; omega
        rw [← hexp]
        exact Nat.log2_self_le hpos
      refine hquot.trans ?_
      unfold roundHalfEven
      split <;> omega
    refine hlow.trans (le_trans ?_ hhigh)
    rw [← Nat.pow_add, ← Nat.pow_add]
    exact Nat.pow_le_pow_right (by omega) (by omega)
  · unfold roundUnits
    rw [heq]
    exact Nat.mul_le_mul_right _ (roundHalfEven_mono _ h)

/-- A whole number of units is not rounded away. -/
theorem roundUnits_pos {a : ℕ} (h : 0 < a) : 0 < roundUnits a 1 := by
  have hone : roundUnits 1 1 = 1 := roundUnits_of_dvd (by decide)
  have hmono : roundUnits 1 1 ≤ roundUnits a 1 := roundUnits_mono 1 h
  omega

namespace Float64

theorem rank_abs (x : Float64) : x.abs.rank = |x.rank| := by
  cases x with
  | fin d =>
    simp only [abs, ofMagnitude, rank, Bool.false_eq_true, if_false]
    exact (Int.abs_eq_natAbs _).symm
  | inf neg => cases neg <;> simp [abs, rank]
  | nan => rfl

theorem abs_ne_nan {x : Float64} (h : x ≠ .nan) : x.abs ≠ .nan := by
  cases x with
  | fin d => simp [abs, ofMagnitude]
  | inf neg => simp [abs]
  | nan => exact absurd rfl h

/-- Where a rounded number stands: at the rounded magnitude on its side of zero, or just outside
the finite range. -/
theorem rank_ofUnits (z : ℤ) (den : ℕ) : (ofUnits z den).rank =
    if z < 0 then -((min (roundUnits z.natAbs den) unitsOverflow : ℕ) : ℤ)
    else ((min (roundUnits z.natAbs den) unitsOverflow : ℕ) : ℤ) := by
  unfold ofUnits
  split
  · rename_i hlt
    rw [Nat.min_eq_left hlt.le, ofMagnitude, rank]
    by_cases hneg : z < 0 <;> simp [hneg]
  · rename_i hge
    rw [Nat.min_eq_right (not_lt.mp hge)]
    by_cases hneg : z < 0 <;> simp [hneg, rank]

/-- **Rounding keeps the order**, over the whole line. -/
theorem ofUnits_mono {z z' : ℤ} (den : ℕ) (h : z ≤ z') :
    (ofUnits z den).rank ≤ (ofUnits z' den).rank := by
  rw [rank_ofUnits, rank_ofUnits]
  split <;> split
  · have habs : z'.natAbs ≤ z.natAbs := by omega
    have hround := roundUnits_mono den habs
    omega
  · omega
  · omega
  · have habs : z.natAbs ≤ z'.natAbs := by omega
    have hround := roundUnits_mono den habs
    omega

theorem ofUnits_ne_nan (z : ℤ) (den : ℕ) : ofUnits z den ≠ .nan := by
  unfold ofUnits
  split <;> simp [ofMagnitude]

/-- A rounded difference has the sign of the difference. -/
theorem rank_ofUnits_nonpos_iff (z : ℤ) : (ofUnits z 1).rank ≤ 0 ↔ z ≤ 0 := by
  rw [rank_ofUnits]
  split
  · rename_i hneg
    exact iff_of_true (by omega) hneg.le
  · rename_i hnonneg
    rcases (not_lt.mp hnonneg).lt_or_eq with hpos | rfl
    · have hround := roundUnits_pos (Int.natAbs_pos.mpr hpos.ne')
      have hover := unitsOverflow_pos
      exact iff_of_false (by omega) (by omega)
    · simp [roundUnits, roundHalfEven, lostBits]

/-- What is not below zero is not rounded below zero. -/
theorem rank_ofUnits_nonneg {z : ℤ} {den : ℕ} (h : 0 ≤ z) : 0 ≤ (ofUnits z den).rank := by
  rw [rank_ofUnits, if_neg (by omega)]
  omega

theorem ofUnits_self (d : Double) : ofUnits d.units 1 = fin d := by
  refine rank_injOn (ofUnits_ne_nan _ _) (by simp) ?_
  have hfinite := d.finite
  rw [rank_ofUnits, d.isDouble, Nat.min_eq_left hfinite.le, rank]
  split <;> omega

/-! The cases of a number that is finite, or that is not below zero. -/

theorem exists_of_isFinite {x : Float64} (h : x.isFinite = true) : ∃ d, x = fin d := by
  cases x with
  | fin d => exact ⟨d, rfl⟩
  | inf _ => exact absurd h (by simp [isFinite])
  | nan => exact absurd h (by simp [isFinite])

theorem eq_false_of_rank_inf_nonneg {neg : Bool} (h : 0 ≤ (inf neg).rank) : neg = false := by
  have hover := unitsOverflow_pos
  cases neg with
  | false => rfl
  | true =>
    simp only [rank] at h
    omega

theorem cases_of_nonneg {x : Float64} (hnan : x ≠ .nan) (h : 0 ≤ x.rank) :
    (∃ d, x = fin d ∧ 0 ≤ d.units) ∨ x = inf false := by
  cases x with
  | fin d => exact .inl ⟨d, rfl, h⟩
  | inf neg =>
    obtain rfl := eq_false_of_rank_inf_nonneg h
    exact .inr rfl
  | nan => exact absurd rfl hnan

/-- What lies between zero and a finite number is finite. -/
theorem exists_of_le_fin {x : Float64} {d : Double} (hnan : x ≠ .nan) (h : 0 ≤ x.rank)
    (hle : x.rank ≤ d.units) : ∃ e, x = fin e := by
  rcases cases_of_nonneg hnan h with ⟨e, rfl, -⟩ | rfl
  · exact ⟨e, rfl⟩
  · exact absurd hle (rank_fin_lt d).not_ge

end Float64

/-! ## 2. Time stamps

An aware reading is an instant, and a naive one becomes an instant when the host is asked.  The two
are also computed differently: the one divides the microseconds and rounds once, the other adds a
rounded fraction to whole seconds and rounds again.  Nothing makes the results equal as floats but
the width of the format. -/

/-- The host's local time: a fixed offset from UTC of less than a day, in seconds. -/
structure Host where
  utcOffset : ℤ
  bounded : utcOffset.natAbs < 86400

def Host.utc : Host := ⟨0, by decide⟩

/-- Seconds from `0001-01-01` to the epoch. -/
def epochSeconds : ℕ := 62135596800

/-- Seconds in the years 1 to 9999. -/
def maxSeconds : ℕ := maxDays * 86400

namespace Datetime

/-- The whole seconds of a reading. -/
def seconds (t : Datetime) : ℕ := t.micros / 1000000

def microsecond (t : Datetime) : ℕ := t.micros % 1000000

/-- `dt.replace(tzinfo=None)`. -/
def naive (t : Datetime) : Datetime := { t with aware := false }

/-- The seconds since the epoch of a naive reading, as the host's local time.  The search for them
asks for the local time of the reading itself and of the day before; a year out of range raises. -/
def localSeconds? (host : Host) (t : Datetime) : Option ℤ :=
  if 0 ≤ (t.seconds : ℤ) + host.utcOffset ∧ (t.seconds : ℤ) + host.utcOffset < maxSeconds ∧
      86400 ≤ t.seconds then
    some (t.seconds - host.utcOffset - epochSeconds)
  else none

/-- The time stamp of an aware reading: its distance from the epoch, divided. -/
def utcTimestamp (t : Datetime) : Float64 :=
  .ofRatio ((t.micros : ℤ) - epochSeconds * 1000000) 1000000

/-- The time stamp of a naive reading with these whole seconds: the fraction is added. -/
def addFraction (t : Datetime) (s : ℤ) : Float64 :=
  (Float64.ofRatio s 1).add (.ofRatio t.microsecond 1000000)

/-- `dt.timestamp()`; `none` is its `ValueError`. -/
def timestamp? (host : Host) (t : Datetime) : Option Float64 :=
  if t.aware then some t.utcTimestamp else (t.localSeconds? host).map t.addFraction

/-- Adding the fraction to the whole seconds gives the double nearest to the instant.  (It does
except within a few hours of the epoch.) -/
def RoundsAlike (t : Datetime) : Prop := t.addFraction (t.seconds - epochSeconds) = t.utcTimestamp

/-- A reading is its whole seconds and the rest. -/
theorem micros_eq (t : Datetime) : t.micros = t.seconds * 1000000 + t.microsecond := by
  unfold seconds microsecond
  omega

theorem seconds_lt (t : Datetime) : t.seconds < maxSeconds := by
  have h : t.micros < 3652059 * 86400000000 := t.inRange
  change t.micros / 1000000 < 3652059 * 86400
  omega

theorem microsecond_lt (t : Datetime) : t.microsecond < 1000000 := by
  unfold microsecond
  omega

end Datetime

theorem bounds_of_error {x e : ℤ} (h : 2 * |x| ≤ e) : -e ≤ 2 * x ∧ 2 * x ≤ e := by
  have hpos := le_abs_self x
  have hneg := neg_le_abs x
  omega

/-- The grid that time stamps are rounded to has steps `Q` of at most `2 ^ -14` seconds.  Seconds
of the years 1 to 9999 are below `2 ^ 38`. -/
theorem exists_step : ∃ Q : ℕ, 0 < Q ∧ unitsPerOne = 16384 * Q ∧
    ∀ (z : ℤ) (den : ℕ), 0 < den → z.natAbs < den * (9007199254740992 * Q) →
      ∃ d, Float64.ofUnits z den = .fin d ∧ -((den * Q : ℕ) : ℤ) ≤ 2 * (d.units * den - z) ∧
        2 * (d.units * den - z) ≤ (den * Q : ℕ) := by
  obtain ⟨Q, hQ⟩ : ∃ Q, 2 ^ (gridBits - 14) = Q := ⟨_, rfl⟩
  have h14 : 2 ^ 14 = 16384 := by norm_num
  have h53 : 2 ^ 53 = 9007199254740992 := by norm_num
  refine ⟨Q, hQ ▸ Nat.two_pow_pos _, ?_, fun z den hden hz => ?_⟩
  · have hsplit : gridBits = 14 + (gridBits - 14) := rfl
    rw [unitsPerOne_eq, ← hQ, ← h14]
    conv_lhs => rw [hsplit, Nat.pow_add]
  · have hz' : z.natAbs < den * 2 ^ (53 + (gridBits - 14)) := by
      rw [Nat.pow_add, h53, hQ]
      exact hz
    obtain ⟨d, hd, herr⟩ := ofUnits_spec hden hz' (by decide)
    have herr' : 2 * |d.units * den - z| ≤ (den * Q : ℕ) := by
      rw [← hQ]
      exact_mod_cast herr
    exact ⟨d, hd, bounds_of_error herr'⟩

/-- The arithmetic of two roundings: the errors add up to less than a second.  This is why a whole
number of seconds between two readings cannot be rounded away. -/
theorem offset_eq_zero {S o us Q a b c : ℤ} (hQ : 0 < Q)
    (ha : -Q ≤ 2 * (a - 16384 * (S * Q)) ∧ 2 * (a - 16384 * (S * Q)) ≤ Q)
    (hb : -(1000000 * Q) ≤ 2 * (b * 1000000 - 16384 * (us * Q)) ∧
      2 * (b * 1000000 - 16384 * (us * Q)) ≤ 1000000 * Q)
    (hc : -Q ≤ 2 * (c - (a + b)) ∧ 2 * (c - (a + b)) ≤ Q)
    (hd : -(1000000 * Q) ≤
        2 * (c * 1000000 - 16384 * (1000000 * (S * Q) + 1000000 * (o * Q) + us * Q)) ∧
      2 * (c * 1000000 - 16384 * (1000000 * (S * Q) + 1000000 * (o * Q) + us * Q)) ≤
        1000000 * Q) : o = 0 := by
  by_contra hne
  have hoQ : Q ≤ o * Q ∨ o * Q ≤ -Q := by
    rcases lt_or_gt_of_ne hne with hlt | hgt
    · exact Or.inr (by nlinarith)
    · exact Or.inl (by nlinarith)
  generalize S * Q = SQ at *
  generalize us * Q = uQ at *
  generalize o * Q = oQ at *
  omega

/-- **Time stamps of readings that are whole seconds apart differ.** -/
theorem add_ratio_eq {S o : ℤ} {us : ℕ} (hS : S.natAbs < 2 ^ 38) (hus : us < 1000000)
    (ho : o.natAbs < 86400)
    (h : (Float64.ofRatio S 1).add (.ofRatio us 1000000) =
      .ofRatio ((S + o) * 1000000 + us) 1000000) : o = 0 := by
  obtain ⟨Q, hQ, hone, hround⟩ := exists_step
  have hQ' : (0 : ℤ) < Q := by exact_mod_cast hQ
  have hone' : (unitsPerOne : ℤ) = 16384 * Q := by exact_mod_cast hone
  -- the whole seconds, the fraction, their sum, and the divided instant
  obtain ⟨d₁, h₁, e₁⟩ := hround (S * unitsPerOne) 1 (by omega)
    (by rw [Int.natAbs_mul, Int.natAbs_natCast, hone]; nlinarith)
  obtain ⟨d₂, h₂, e₂⟩ := hround (us * unitsPerOne) 1000000 (by omega)
    (by rw [Int.natAbs_mul, Int.natAbs_natCast, Int.natAbs_natCast, hone]; nlinarith)
  obtain ⟨d₄, h₄, e₄⟩ := hround (((S + o) * 1000000 + us) * unitsPerOne) 1000000 (by omega)
    (by
      have hM : ((S + o) * 1000000 + us).natAbs < 2 ^ 39 * 1000000 := by omega
      rw [Int.natAbs_mul, Int.natAbs_natCast, hone]
      nlinarith)
  rw [hone'] at e₁ e₂ e₄
  push_cast at e₁ e₂ e₄
  have hS1 : S * Q ≤ 274877906944 * Q := by
    have : S ≤ 274877906944 := by omega
    nlinarith
  have hS2 : -(274877906944 * Q) ≤ S * Q := by
    have : -274877906944 ≤ S := by omega
    nlinarith
  have husQ : (us : ℤ) * Q ≤ 1000000 * Q := by nlinarith
  have husQ0 : 0 ≤ (us : ℤ) * Q := by positivity
  have eS : S * (16384 * (Q : ℤ)) = 16384 * (S * Q) := by ring
  have eU : (us : ℤ) * (16384 * Q) = 16384 * (us * Q) := by ring
  have eM : ((S + o) * 1000000 + us) * (16384 * (Q : ℤ)) =
      16384 * (1000000 * (S * Q) + 1000000 * (o * Q) + us * Q) := by ring
  rw [eS] at e₁
  rw [eU] at e₂
  rw [eM] at e₄
  obtain ⟨d₃, h₃, e₃⟩ := hround (d₁.units + d₂.units) 1 (by omega) (by omega)
  have hsame : d₃ = d₄ := by
    rw [Float64.ofRatio, Float64.ofRatio, Float64.ofRatio, h₁, h₂, h₄, Float64.add, h₃] at h
    exact Float64.fin.inj h
  subst hsame
  push_cast at e₃
  exact offset_eq_zero hQ' (by simpa using e₁) e₂ (by simpa using e₃) e₄

namespace Datetime

/-- **A later instant has no earlier time stamp.** -/
theorem utcTimestamp_mono {t t' : Datetime} (h : t.micros ≤ t'.micros) :
    t.utcTimestamp.rank ≤ t'.utcTimestamp.rank := by
  refine Float64.ofUnits_mono _ ?_
  exact mul_le_mul_of_nonneg_right (by omega) (by omega)

/-- The seconds of a reading bring its fraction back to the instant. -/
theorem utcTimestamp_eq (t : Datetime) : t.utcTimestamp =
    .ofRatio (((t.seconds : ℤ) - epochSeconds) * 1000000 + t.microsecond) 1000000 := by
  rw [utcTimestamp, t.micros_eq]
  congr 1
  push_cast
  ring

/-- An offset that does not show in the time stamp is zero. -/
theorem addFraction_eq_utc {t : Datetime} {o : ℤ} (ho : o.natAbs < 86400)
    (h : t.addFraction (t.seconds - o - epochSeconds) = t.utcTimestamp) : o = 0 := by
  have hlt : t.seconds < 3652059 * 86400 := t.seconds_lt
  have hepoch : epochSeconds = 62135596800 := rfl
  refine add_ratio_eq (S := t.seconds - o - epochSeconds) (by omega) t.microsecond_lt ho ?_
  rw [utcTimestamp_eq] at h
  rw [show (t.seconds : ℤ) - o - epochSeconds + o = t.seconds - epochSeconds by ring]
  exact h

/-- **A naive reading of an instant has its time stamp exactly on a host in UTC**, from the second
day of year 1 on, and unless the two ways of rounding part.

The first half is the substance: any other offset is at least a second, and shows.  The other two
conditions are about the library and not about the host; they are named so that the equivalence is
one. -/
theorem timestamp?_naive_iff (host : Host) {t : Datetime} (h : t.aware = true) :
    t.naive.timestamp? host = t.timestamp? host ↔
      host.utcOffset = 0 ∧ 86400 ≤ t.seconds ∧ t.RoundsAlike := by
  have hnaive : t.naive.timestamp? host = (t.localSeconds? host).map t.addFraction := rfl
  have haware : t.timestamp? host = some t.utcTimestamp := if_pos h
  rw [hnaive, haware]
  constructor
  · intro heq
    obtain ⟨S, hS, hstamp⟩ := Option.map_eq_some_iff.mp heq
    rw [localSeconds?] at hS
    split at hS
    · rename_i hrange
      obtain rfl := Option.some.inj hS
      have hzero := addFraction_eq_utc host.bounded hstamp
      refine ⟨hzero, hrange.2.2, ?_⟩
      rw [hzero, sub_zero] at hstamp
      exact hstamp
    · simp at hS
  · rintro ⟨hzero, hday, hround⟩
    have hlt : (t.seconds : ℤ) < maxSeconds := by exact_mod_cast t.seconds_lt
    have hlocal : t.localSeconds? host = some ((t.seconds : ℤ) - epochSeconds) := by
      rw [localSeconds?, hzero, add_zero, sub_zero, if_pos ⟨by omega, hlt, hday⟩]
    rw [hlocal, Option.map_some]
    exact congrArg some hround

end Datetime

end Py

/-
# The numbers of a conversion (`app.units.engine`)

The checker looks at the literals of exponents only, and at no base.  So a formula may compute with
texts, and a negative base under a fractional exponent leaves the real numbers.

`real_only_iff`: an accepted formula computes over real numbers exactly if every literal that its
evaluation reaches is one, and no power that it reaches is a complex root.

"Reaches" is meant as the evaluator goes: from left to right, and not beyond the first failure.  A
formula that fails before it comes to its text is over real numbers as far as it goes, and so is
one whose complex root is never taken; so the equivalence is about the evaluation and not about the
tree.

There is no statement about the value.  That it is a real number is one of the values that are
spoken of, as the whole formula is a subexpression of itself.
-/
import WitsmlViewer.Conversions

namespace WitsmlViewer

open Py

/-! ## 1. Powers of real numbers

What Python's operators make of two numbers.  Real numbers stay real under all of them but `**`,
and under `**` in all cases but one. -/

/-- Small whole numbers are floats. -/
theorem isInteger_ofRatio {n : ℤ} (h : n.natAbs ≤ 2 ^ 53) :
    (Float64.ofRatio n 1).isInteger = true := by
  have habs : (n * unitsPerOne).natAbs = n.natAbs * 2 ^ gridBits := by
    rw [Int.natAbs_mul, Int.natAbs_natCast, unitsPerOne_eq]
  have hround : roundUnits (n * unitsPerOne).natAbs 1 = (n * unitsPerOne).natAbs := by
    rw [habs]
    exact roundUnits_of_dvd (pow_lostBits_dvd h)
  have hfin : roundUnits (n * unitsPerOne).natAbs 1 < unitsOverflow := by
    have hpow : ∀ k, 53 < k → n.natAbs * 2 ^ gridBits < 2 ^ (gridBits + k) := by
      intro k hk
      rw [Nat.add_comm, Nat.pow_add]
      exact (Nat.mul_lt_mul_right (Nat.two_pow_pos _)).mpr
        (lt_of_le_of_lt h (Nat.pow_lt_pow_right (by omega) hk))
    rw [hround, habs, unitsOverflow_eq]
    exact hpow 1024 (by omega)
  rw [Float64.ofRatio, Float64.ofUnits, dif_pos hfin, Float64.ofMagnitude, Float64.isInteger,
    beq_iff_eq]
  refine Int.emod_eq_zero_of_dvd ?_
  have hdvd : (unitsPerOne : ℤ) ∣ (roundUnits (n * unitsPerOne).natAbs 1 : ℕ) := by
    rw [hround, Int.natCast_natAbs, dvd_abs]
    exact dvd_mul_left _ _
  split
  · exact (dvd_neg).mpr hdvd
  · exact hdvd

/-- `x ** y` leaves the real numbers at a complex root only. -/
theorem floatPow_eq_ok {libm : Libm} {x y : Float64} {r : Number} (h : floatPow libm x y = .ok r) :
    r.isReal = true ∨ (x.isNegative = true ∧ y.isFinite = true ∧ y.isInteger = false ∧
      ∃ z, libm.complexOp .pow (x, .ofRatio 0 1) (y, .ofRatio 0 1) = .ok z) := by
  unfold floatPow at h
  split at h
  · cases h
  · split at h
    · rename_i hroot
      simp only [Bool.and_eq_true, Bool.not_eq_true'] at hroot
      cases hz : libm.complexOp .pow (x, .ofRatio 0 1) (y, .ofRatio 0 1) with
      | error e => rw [hz] at h; cases h
      | ok z => exact Or.inr ⟨hroot.1.1, hroot.1.2, hroot.2, z, rfl⟩
    · cases hx : libm.pow x y with
      | error e => rw [hx] at h; cases h
      | ok z =>
        rw [hx] at h
        obtain rfl := Except.ok.inj h
        exact Or.inl rfl

/-- A whole number that has a float is rounded to it. -/
theorem intToFloat_eq_ok {n : ℤ} {x : Float64} (h : intToFloat n = .ok x) : x = .ofRatio n 1 := by
  rw [intToFloat] at h
  split at h
  · exact (Except.ok.inj h).symm
  · cases h

/-- Real numbers stay real under every operator but `**`. -/
theorem op_isReal {libm : Libm} {o : BinaryOp} (ho : o ≠ .pow) {a b r : Number}
    (ha : a.isReal = true) (hb : b.isReal = true) (h : a.op libm o b = .ok r) :
    r.isReal = true := by
  have hfloat : ∀ x y, floatOp libm o x y = .ok r → r.isReal = true := by
    intro x y hxy
    cases o with
    | pow => exact absurd rfl ho
    | add | sub | mult => obtain rfl := Except.ok.inj hxy; rfl
    | div | mod =>
      rw [floatOp] at hxy
      split at hxy
      · cases hxy
      · obtain rfl := Except.ok.inj hxy
        rfl
  cases a with
  | complex z => cases ha
  | float x =>
    cases b with
    | complex z => cases hb
    | float y => exact hfloat x y h
    | int n =>
      obtain ⟨y, -, hy⟩ := bind_eq_ok.mp h
      exact hfloat x y hy
  | int m =>
    cases b with
    | complex z => cases hb
    | float y =>
      obtain ⟨x, -, hx⟩ := bind_eq_ok.mp h
      exact hfloat x y hx
    | int n =>
      cases o with
      | pow => exact absurd rfl ho
      | add | sub | mult => obtain rfl := Except.ok.inj h; rfl
      | div =>
        change intOp libm .div m n = .ok r at h
        rw [intOp] at h
        split at h
        · cases h
        · split at h
          · obtain rfl := Except.ok.inj h
            rfl
          · cases h
      | mod =>
        change intOp libm .mod m n = .ok r at h
        rw [intOp] at h
        split at h
        · cases h
        · obtain rfl := Except.ok.inj h
          rfl

/-- A real number as a float. -/
def floatOf : Number → Except NumericFault Float64
  | .int n => intToFloat n
  | .float x => .ok x
  | .complex _ => .error .valueError

/-- The power of a negative base under a fractional exponent, as far as it does not overflow. -/
def ComplexRoot (libm : Libm) (a : Number) (y : Float64) : Prop :=
  ∃ x, floatOf a = .ok x ∧ x.isNegative = true ∧ y.isFinite = true ∧ y.isInteger = false ∧
    ∃ z, libm.complexOp .pow (x, .ofRatio 0 1) (y, .ofRatio 0 1) = .ok z

/-- **A power of real numbers is real, but for complex roots.**  Whole numbers are raised as whole
numbers, or as floats under a negative exponent; a float power leaves the reals for a negative base
and an exponent that is not whole. -/
theorem pow_isReal {libm : Libm} {a b r : Number} (ha : a.isReal = true)
    (hb : (∃ n, b = .int n ∧ n.natAbs ≤ 2 ^ 53) ∨ ∃ y, b = .float y)
    (h : a.op libm .pow b = .ok r) :
    r.isReal = true ∨ ∃ y, b = .float y ∧ ComplexRoot libm a y := by
  have hroot : ∀ x y, floatOf a = .ok x → floatPow libm x y = .ok r →
      y.isInteger = true ∨ b = .float y →
        r.isReal = true ∨ ∃ y, b = .float y ∧ ComplexRoot libm a y := by
    intro x y hx hxy hy
    refine (floatPow_eq_ok hxy).imp_right fun hroot => ?_
    rcases hy with hy | hy
    · rw [hy] at hroot
      exact absurd hroot.2.2.1 (by simp)
    · exact ⟨y, hy, x, hx, hroot⟩
  rcases hb with ⟨n, rfl, hn⟩ | ⟨y, rfl⟩
  · -- a whole exponent: the root of nothing
    have hwhole : ∀ y, intToFloat n = .ok y → y.isInteger = true := by
      intro y hy
      rw [intToFloat_eq_ok hy]
      exact isInteger_ofRatio hn
    cases a with
    | complex z => cases ha
    | float x =>
      obtain ⟨y, hy, hxy⟩ := bind_eq_ok.mp h
      exact hroot x y rfl hxy (Or.inl (hwhole y hy))
    | int m =>
      change intOp libm .pow m n = .ok r at h
      rw [intOp] at h
      split at h
      · obtain rfl := Except.ok.inj h
        exact Or.inl rfl
      · obtain ⟨x, hx, h⟩ := bind_eq_ok.mp h
        obtain ⟨y, hy, hxy⟩ := bind_eq_ok.mp h
        exact hroot x y hx hxy (Or.inl (hwhole y hy))
  · cases a with
    | complex z => cases ha
    | float x => exact hroot x y rfl h (Or.inr rfl)
    | int m =>
      obtain ⟨x, hx, hxy⟩ := bind_eq_ok.mp h
      exact hroot x y hx hxy (Or.inr rfl)

namespace Units

/-! ## 2. What an evaluation reaches

`Reached` is the evaluator's order as a relation between an expression and its subexpressions.  It
is the only notion in which the condition differs from a syntactic one. -/

/-- A literal that is a real number; a truth value is an `int`. -/
def Constant.IsReal : Constant → Prop
  | .bool _ | .int _ | .float _ _ => True
  | _ => False

/-- The subexpressions that the evaluation of an expression reaches: those before which nothing has
failed. -/
inductive Reached (P : Platform) (value : Float64) : Expr → Expr → Prop
  | self (e : Expr) : Reached P value e e
  | operand {op : UnaryOperator} {e sub : Expr} (h : Reached P value e sub) :
      Reached P value (.unaryOp op e) sub
  | left {l r sub : Expr} {op : Operator} (h : Reached P value l sub) :
      Reached P value (.binOp l op r) sub
  | right {l r sub : Expr} {op : Operator} {a : PyValue} (hl : eval P value l = .ok a)
      (h : Reached P value r sub) : Reached P value (.binOp l op r) sub
  | arg {id : Str} {ctx : ExprContext} {before after : List Expr} {e sub : Expr}
      {vs : List PyValue} (hbefore : evalAll P value before = .ok vs) (h : Reached P value e sub) :
      Reached P value (.call (.name id ctx) (before ++ e :: after) []) sub

/-- Every value that the evaluation produces is an `int` or a `float`. -/
def RealOnly (P : Platform) (value : Float64) (tree : Expr) : Prop :=
  ∀ sub v, Reached P value tree sub → eval P value sub = .ok v → v.isReal = true

/-- Every literal that is reached, and not refused by the evaluator, is a real number. -/
def RealLiterals (P : Platform) (value : Float64) (tree : Expr) : Prop :=
  ∀ c, Reached P value tree (.constant c) → P.refusesLiteral c = false → c.IsReal

/-- No power that is reached is a complex root. -/
def RealPowers (P : Platform) (value : Float64) (tree : Expr) : Prop :=
  ∀ base exponent a x y, Reached P value tree (.binOp base .pow exponent) →
    eval P value base = .ok a → a.number? = some x → eval P value exponent = .ok (.float y) →
      ¬ComplexRoot P.libm x y

section Reached

variable {P : Platform} {value : Float64} {tree sub e : Expr}

theorem Reached.trans (h : Reached P value tree sub) (h' : Reached P value sub e) :
    Reached P value tree e := by
  induction h with
  | self => exact h'
  | operand _ ih => exact .operand (ih h')
  | left _ ih => exact .left (ih h')
  | right hl _ ih => exact .right hl (ih h')
  | arg hbefore _ ih => exact .arg hbefore (ih h')

/-- The condition on literals is passed on to what is reached. -/
theorem RealLiterals.of_reached (h : RealLiterals P value tree) (hsub : Reached P value tree sub) :
    RealLiterals P value sub :=
  fun c hc hrefuses => h c (hsub.trans hc) hrefuses

theorem RealPowers.of_reached (h : RealPowers P value tree) (hsub : Reached P value tree sub) :
    RealPowers P value sub :=
  fun base exponent a x y hpow => h base exponent a x y (hsub.trans hpow)

/-- What is reached in a formula is a formula. -/
theorem Reached.formula {literal : Constant → Prop} (hsub : Reached P value tree sub)
    (h : Formula literal tree) : Formula literal sub := by
  induction hsub with
  | self => exact h
  | operand _ ih => cases h with
    | unary _ h => exact ih h
  | left _ ih => cases h with
    | binary _ hl _ => exact ih hl
    | power hb _ => exact ih hb
  | right _ _ ih => cases h with
    | binary _ _ hr => exact ih hr
    | power _ he => exact ih he.formula
  | arg _ _ ih => cases h with
    | call _ hargs => exact ih (hargs _ (by simp))

end Reached

/-! ## 3. Operators and functions keep to real numbers

One lemma for each kind of step: if the operands are real, so is the result.  For functions the
table of the evaluator is gone through; those of `math` return floats, and `abs` keeps a number's
kind. -/

section Keep

variable {P : Platform} {value : Float64}

/-- A value is real exactly if it is a number that is. -/
theorem isReal_iff {v : PyValue} : v.isReal = true ↔ ∃ x, v.number? = some x ∧ x.isReal = true := by
  constructor
  · intro h
    cases hx : v.number? with
    | none => simp [PyValue.isReal, PyValue.real?, hx] at h
    | some x => exact ⟨x, rfl, by rwa [← isReal_eq hx]⟩
  · rintro ⟨x, hx, hreal⟩
    rwa [isReal_eq hx]

@[simp] theorem isReal_ofNumber (x : Number) : (PyValue.ofNumber x).isReal = x.isReal := by
  cases x <;> rfl

theorem raising_eq_ok {α : Type} {r : Except NumericFault α} {x : α} :
    raising r = .ok x ↔ r = .ok x := by
  cases r <;> simp [raising, Except.mapError]

/-- A mapped result is the image of a result. -/
theorem map_eq_ok {ε α β : Type} {f : α → β} {r : Except ε α} {y : β} :
    r.map f = .ok y ↔ ∃ x, r = .ok x ∧ f x = y := by
  cases r <;> simp [Except.map]

theorem unary_isReal {negate : Bool} {v w : PyValue} (hv : v.isReal = true)
    (h : unary negate v = .ok w) : w.isReal = true := by
  obtain ⟨x, hx, hreal⟩ := isReal_iff.mp hv
  rw [unary, hx] at h
  obtain rfl := Except.ok.inj h
  rw [isReal_ofNumber]
  cases x <;> cases negate <;> first | rfl | cases hreal

/-- An operator on two numbers is that of the numbers. -/
theorem binary_eq_ok {op : BinaryOp} {a b v : PyValue} {x y : Number} (hx : a.number? = some x)
    (hy : b.number? = some y) (h : binary P op a b = .ok v) :
    ∃ r, x.op P.libm op y = .ok r ∧ v = .ofNumber r := by
  rw [binary, hx, hy] at h
  dsimp only at h
  rw [numericOp] at h
  split at h
  · cases h
  · obtain ⟨r, hr, rfl⟩ := map_eq_ok.mp h
    exact ⟨r, raising_eq_ok.mp hr, rfl⟩

/-- An operator other than `**` leaves real numbers real. -/
theorem applyOp_isReal {op : BinaryOp} (hop : op ≠ .pow) {a b v : PyValue} (ha : a.isReal = true)
    (hb : b.isReal = true) (h : applyOp P op a b = .ok v) : v.isReal = true := by
  obtain ⟨x, hx, hxreal⟩ := isReal_iff.mp ha
  obtain ⟨y, hy, hyreal⟩ := isReal_iff.mp hb
  have hbinary : binary P op a b = .ok v := by
    unfold applyOp at h
    split at h
    · exact absurd rfl hop
    · split at h
      · cases h
      · exact h
  obtain ⟨r, hr, rfl⟩ := binary_eq_ok hx hy hbinary
  rw [isReal_ofNumber]
  exact op_isReal hop hxreal hyreal hr

/-- The absolute value of a real number is real. -/
theorem absolute_isReal {v : PyValue} {r : Number} (hv : v.isReal = true)
    (h : absolute P v = .ok r) : r.isReal = true := by
  obtain ⟨x, hx, hreal⟩ := isReal_iff.mp hv
  rw [absolute, hx] at h
  have h := raising_eq_ok.mp h
  cases x with
  | complex z => cases hreal
  | int n => obtain rfl := Except.ok.inj h; rfl
  | float x => obtain rfl := Except.ok.inj h; rfl

/-- A function of the table leaves real numbers real. -/
theorem callFunction_isReal {id : Str} {args : List PyValue} (hargs : ∀ a ∈ args, a.isReal = true)
    {v : PyValue} (h : callFunction P id args = .ok v) : v.isReal = true := by
  unfold callFunction at h
  split at h
  · split at h
    · obtain ⟨r, hr, rfl⟩ := map_eq_ok.mp h
      rw [isReal_ofNumber]
      exact absolute_isReal (hargs _ List.mem_cons_self) hr
    · cases h
  · split at h
    · split at h
      · obtain ⟨x, -, rfl⟩ := map_eq_ok.mp h
        rfl
      · obtain ⟨x, -, h⟩ := bind_eq_ok.mp h
        obtain ⟨y, -, h⟩ := bind_eq_ok.mp h
        obtain ⟨r, hr, rfl⟩ := map_eq_ok.mp h
        have hr : (Number.float x).op P.libm .div (.float y) = .ok r := raising_eq_ok.mp hr
        rw [isReal_ofNumber]
        exact op_isReal (by decide) rfl rfl hr
      · cases h
    · split at h
      · obtain ⟨x, -, rfl⟩ := map_eq_ok.mp h
        rfl
      · cases h

end Keep

/-! ## 4. Exponents

The checker admits as an exponent a literal of at most 64, possibly under one sign.  A truth value
passes for a whole number there.  Such an exponent has a small real value, so of a power only its
base can leave the real numbers. -/

section Exponents

variable {P : Platform} {value : Float64}

/-- What an accepted exponent is worth: a whole number or a float, at most 64 in absolute value. -/
inductive SmallReal : PyValue → Prop
  | int {v : PyValue} {n : ℤ} (hv : v.number? = some (.int n)) (h : |n| ≤ 64) : SmallReal v
  | float {y : Float64} (hnan : y ≠ .nan) (h : |y.rank| ≤ 64 * unitsPerOne) : SmallReal (.float y)

theorem SmallReal.of_literal {c : Constant} (h : c.ExponentLiteral) : SmallReal c.value := by
  rcases h with h | h
  · cases c with
    | int n => exact .int rfl h
    | float x notNan => exact .float notNan h
    | _ => exact h.elim
  · cases c with
    | bool b => cases b <;> exact .int rfl (by decide)
    | _ => exact h.elim

theorem rank_neg (x : Float64) : x.neg.rank = -x.rank := by
  cases x with
  | fin d => rfl
  | inf negative => cases negative <;> simp [Float64.neg, Float64.rank]
  | nan => rfl

theorem SmallReal.unary {negate : Bool} {v w : PyValue} (h : SmallReal v)
    (hw : unary negate v = .ok w) : SmallReal w := by
  cases h with
  | @int _ n hv hn =>
    rw [Units.unary, hv] at hw
    obtain rfl := Except.ok.inj hw
    cases negate
    · exact .int rfl hn
    · exact .int rfl (by rwa [abs_neg])
  | @float y hnan hy =>
    obtain rfl := Except.ok.inj hw
    cases negate
    · exact .float hnan hy
    · refine .float ?_ (by rwa [rank_neg, abs_neg])
      cases y with
      | nan => exact absurd rfl hnan
      | _ => exact nofun

/-- **An accepted exponent has a small real value.** -/
theorem SmallReal.of_eval {exponent : Expr} (he : Exponent Constant.ExponentLiteral exponent)
    {b : PyValue} (h : eval P value exponent = .ok b) : SmallReal b := by
  have hliteral : ∀ c b, c.ExponentLiteral → eval P value (.constant c) = .ok b → SmallReal b := by
    intro c b hc hb
    rw [eval] at hb
    split at hb
    · cases hb
    · obtain rfl := Except.ok.inj hb
      exact .of_literal hc
  cases he with
  | plain hc => exact hliteral _ _ hc h
  | signed hop hc =>
    rcases hop with rfl | rfl
    · rw [eval] at h
      obtain ⟨b', hb', h⟩ := bind_eq_ok.mp h
      exact (hliteral _ _ hc hb').unary h
    · rw [eval] at h
      obtain ⟨b', hb', h⟩ := bind_eq_ok.mp h
      exact (hliteral _ _ hc hb').unary h

/-- The power of a base to such an exponent is not refused. -/
theorem SmallReal.safePow_eq {a b : PyValue} (h : SmallReal b) :
    safePow P a b = binary P .pow a b := by
  have hsize : ∃ size, absolute P b = .ok size ∧ size.exceeds MAX_EXPONENT = false := by
    cases h with
    | @int _ n hv hn =>
      exact ⟨.int |n|, by rw [absolute, hv]; rfl, decide_eq_false (not_lt.mpr hn)⟩
    | @float y hnan hy =>
      refine ⟨.float y.abs, rfl, ?_⟩
      simp only [Number.exceeds, Float64.lt, rank_sixtyFour, Float64.rank_abs, Bool.and_eq_false_iff,
        decide_eq_false_iff_not, not_lt]
      exact Or.inr hy
  obtain ⟨size, habs, hsmall⟩ := hsize
  rw [safePow, habs]
  change (if size.exceeds MAX_EXPONENT = true then _ else _) = _
  rw [hsmall]
  rfl

/-- As a number it is a small whole one, or a float. -/
theorem SmallReal.number {b : PyValue} (h : SmallReal b) : ∃ y, b.number? = some y ∧
    ((∃ n, y = .int n ∧ n.natAbs ≤ 2 ^ 53) ∨ ∃ x, y = .float x ∧ b = .float x) := by
  cases h with
  | @int _ n hv hn =>
    refine ⟨_, hv, Or.inl ⟨n, rfl, ?_⟩⟩
    have habs : |n| = n.natAbs := Int.abs_eq_natAbs n
    omega
  | @float y hnan hy => exact ⟨_, rfl, Or.inr ⟨y, rfl, rfl⟩⟩

end Exponents

/-! ## 5. Formulas over real numbers

Soundness is an induction on accepted formulas, with the conditions passed on to the subexpressions
that are reached.  Completeness needs none: a literal that is reached is a value, and a complex
root is one. -/

section Sound

variable {P : Platform} {value : Float64}

/-- A value of an argument list is that of an argument, before which nothing has failed. -/
theorem mem_of_evalAll {args : List Expr} {vs : List PyValue} (h : evalAll P value args = .ok vs)
    {v : PyValue} (hv : v ∈ vs) : ∃ before e after bs, args = before ++ e :: after ∧
      evalAll P value before = .ok bs ∧ eval P value e = .ok v := by
  induction args generalizing vs with
  | nil =>
    obtain rfl : [] = vs := Except.ok.inj h
    cases hv
  | cons e args ih =>
    rw [evalAll] at h
    obtain ⟨w, hw, h⟩ := bind_eq_ok.mp h
    obtain ⟨ws, hws, h⟩ := bind_eq_ok.mp h
    obtain rfl : w :: ws = vs := Except.ok.inj h
    rcases List.mem_cons.mp hv with rfl | hv
    · exact ⟨[], e, args, [], rfl, rfl, hw⟩
    · obtain ⟨before, e', after, bs, rfl, hbefore, he'⟩ := ih hws hv
      refine ⟨e :: before, e', after, w :: bs, rfl, ?_, he'⟩
      rw [evalAll, hw]
      change (do let vs ← evalAll P value before; return w :: vs) = _
      rw [hbefore]
      rfl

theorem eval_unaryOp {op : UnaryOperator} {e : Expr} {v : PyValue}
    (h : eval P value (.unaryOp op e) = .ok v) :
    ∃ negate w, eval P value e = .ok w ∧ Units.unary negate w = .ok v := by
  cases op with
  | uAdd =>
    rw [eval] at h
    obtain ⟨w, hw, hv⟩ := bind_eq_ok.mp h
    exact ⟨false, w, hw, hv⟩
  | uSub =>
    rw [eval] at h
    obtain ⟨w, hw, hv⟩ := bind_eq_ok.mp h
    exact ⟨true, w, hw, hv⟩
  | _ => simp [eval] at h

theorem eval_binOp {op : Operator} {l r : Expr} {v : PyValue} :
    eval P value (.binOp l op r) = .ok v ↔ ∃ o a b, op.binary? = some o ∧
      eval P value l = .ok a ∧ eval P value r = .ok b ∧ applyOp P o a b = .ok v := by
  rw [eval]
  cases ho : op.binary? with
  | none => simp
  | some o =>
    dsimp only
    rw [bind_eq_ok]
    constructor
    · rintro ⟨a, ha, h⟩
      obtain ⟨b, hb, h⟩ := bind_eq_ok.mp h
      exact ⟨o, a, b, rfl, ha, hb, h⟩
    · rintro ⟨_, a, b, ho, ha, hb, h⟩
      obtain rfl := Option.some.inj ho
      exact ⟨a, ha, bind_eq_ok.mpr ⟨b, hb, h⟩⟩

/-- **Soundness.**  If the literals and the powers that are reached are real, so is the value.  The
induction is on the accepted formula; for a call it goes through the arguments in the order in
which they are evaluated. -/
theorem isReal_of_eval {tree : Expr} (h : Formula Constant.ExponentLiteral tree)
    (hliterals : RealLiterals P value tree) (hpowers : RealPowers P value tree) {v : PyValue}
    (hv : eval P value tree = .ok v) : v.isReal = true := by
  induction h generalizing v with
  | constant c =>
    rw [eval] at hv
    split at hv
    · cases hv
    · rename_i hrefuses
      obtain rfl := Except.ok.inj hv
      have hreal := hliterals c (.self _) (by simpa using hrefuses)
      cases c <;> first | rfl | exact hreal.elim
  | @name id hid =>
    rw [eval, evalName] at hv
    split at hv
    · obtain rfl := Except.ok.inj hv
      rfl
    · split at hv
      · obtain rfl := Except.ok.inj hv
        rfl
      · split at hv
        · obtain rfl := Except.ok.inj hv
          rfl
        · cases hv
  | @unary op e hop he ih =>
    obtain ⟨negate, w, hw, hv⟩ := eval_unaryOp hv
    have hreached : Reached P value (.unaryOp op e) e := .operand (.self e)
    exact unary_isReal
      (ih (hliterals.of_reached hreached) (hpowers.of_reached hreached) hw) hv
  | @binary l r op hop hl hr ihl ihr =>
    obtain ⟨o, a, b, ho, ha, hb, hv⟩ := eval_binOp.mp hv
    have ho : o ≠ .pow := by
      rintro rfl
      cases op <;> simp [Operator.binary?] at ho hop
    have hleft : Reached P value (.binOp l op r) l := .left (.self l)
    have hright : Reached P value (.binOp l op r) r := .right ha (.self r)
    exact applyOp_isReal ho
      (ihl (hliterals.of_reached hleft) (hpowers.of_reached hleft) ha)
      (ihr (hliterals.of_reached hright) (hpowers.of_reached hright) hb) hv
  | @power base exponent hbase he ih =>
    obtain ⟨o, a, b, ho, ha, hb, hv⟩ := eval_binOp.mp hv
    obtain rfl := Option.some.inj ho
    have hreached : Reached P value (.binOp base .pow exponent) base := .left (.self base)
    have hareal := ih (hliterals.of_reached hreached) (hpowers.of_reached hreached) ha
    have hsmall := SmallReal.of_eval he hb
    obtain ⟨x, hx, hxreal⟩ := isReal_iff.mp hareal
    obtain ⟨y, hy, hkind⟩ := hsmall.number
    have hbinary : Units.binary P .pow a b = .ok v := hsmall.safePow_eq ▸ hv
    obtain ⟨r, hr, rfl⟩ := binary_eq_ok hx hy hbinary
    rw [isReal_ofNumber]
    have hkind' := hkind.imp_right fun hfloat => hfloat.imp fun _ hz => hz.1
    refine (pow_isReal hxreal hkind' hr).resolve_right ?_
    rintro ⟨z, rfl, hroot⟩
    rcases hkind with ⟨n, hn, -⟩ | ⟨z', hz', rfl⟩
    · cases hn
    · obtain rfl := Number.float.inj hz'
      exact hpowers base exponent a x z (.self _) ha hx hb hroot
  | @call id args hid hargs ih =>
    rw [eval] at hv
    obtain ⟨vs, hvs, hv⟩ := bind_eq_ok.mp hv
    refine callFunction_isReal (fun w hw => ?_) hv
    obtain ⟨before, e, after, bs, rfl, hbefore, he⟩ := mem_of_evalAll hvs hw
    have hreached : Reached P value (.call (.name id .load) (before ++ e :: after) []) e :=
      .arg hbefore (.self e)
    exact ih e (by simp) (hliterals.of_reached hreached) (hpowers.of_reached hreached) he

/-- **A complex root is a value that is not real.** -/
theorem eval_complexRoot {base exponent : Expr} (he : Exponent Constant.ExponentLiteral exponent)
    {a : PyValue} {x : Number} {y : Float64} (ha : eval P value base = .ok a)
    (hx : a.number? = some x) (hy : eval P value exponent = .ok (.float y))
    (hroot : ComplexRoot P.libm x y) :
    ∃ z, eval P value (.binOp base .pow exponent) = .ok (.complex z) := by
  obtain ⟨w, hw, hneg, hfin, hint, z, hz⟩ := hroot
  have hpow : floatPow P.libm w y = .ok (.complex z) := by
    have hzero : w.isZero = false := by
      cases w with
      | fin d =>
        simp only [Float64.isNegative, decide_eq_true_eq] at hneg
        simp only [Float64.isZero, beq_eq_false_iff_ne]
        exact hneg.ne
      | inf _ => cases hneg
      | nan => cases hneg
    rw [floatPow, hzero, hneg, hfin, hint, hz]
    rfl
  have hop : x.op P.libm .pow (.float y) = .ok (.complex z) := by
    cases x with
    | complex c => cases hw
    | float u =>
      obtain rfl := Except.ok.inj hw
      exact hpow
    | int n =>
      change (do floatOp P.libm .pow (← intToFloat n) y) = _
      rw [show intToFloat n = .ok w from hw]
      exact hpow
  refine ⟨z, eval_binOp.mpr ⟨.pow, a, .float y, rfl, ha, hy, ?_⟩⟩
  have hsmall := SmallReal.of_eval he hy
  have happly : applyOp P .pow a (.float y) = binary P .pow a (.float y) := hsmall.safePow_eq
  rw [happly, binary, hx]
  change numericOp P .pow x (.float y) = _
  rw [numericOp, if_neg (by simp), hop]
  rfl

/-- An accepted text has a tree that the checker has passed. -/
theorem checkAst_of_valid {parse : Str → Except Message Expr} {expression : Str} {tree : Expr}
    (hvalid : validate parse expression = .ok (true, none)) (hparse : parse expression = .ok tree) :
    checkAst tree = .ok () := by
  rw [validate] at hvalid
  split at hvalid
  · cases hvalid
  · rw [hparse] at hvalid
    dsimp only at hvalid
    split at hvalid
    · cases hvalid
    · assumption

/-- **An accepted formula computes over real numbers exactly if** every literal that its evaluation
reaches is real, and no power that it reaches is a complex root.

The input may be any float, infinite or `nan`, and the platform's C library any function; nothing
is asked of either, as a float is a real number here whatever it holds. -/
theorem real_only_iff {parse : Str → Except Message Expr} {expression : Str} {tree : Expr}
    (hvalid : validate parse expression = .ok (true, none)) (hparse : parse expression = .ok tree) :
    RealOnly P value tree ↔ RealLiterals P value tree ∧ RealPowers P value tree := by
  have hformula := (checkAst_iff tree).1.mp (checkAst_of_valid hvalid hparse)
  constructor
  · intro hreal
    constructor
    · intro c hc hrefuses
      have hvalue : eval P value (.constant c) = .ok c.value := by rw [eval, hrefuses]; rfl
      have hcreal := hreal _ _ hc hvalue
      cases c <;> first | exact trivial | exact absurd hcreal Bool.false_ne_true
    · intro base exponent a x y hreached ha hx hy hroot
      have he : Exponent Constant.ExponentLiteral exponent := by
        cases hreached.formula hformula with
        | binary hop => simp at hop
        | power _ he => exact he
      obtain ⟨z, hz⟩ := eval_complexRoot he ha hx hy hroot
      have hcomplex := hreal _ _ hreached hz
      cases hcomplex
  · rintro ⟨hliterals, hpowers⟩ sub v hsub hv
    exact isReal_of_eval (hsub.formula hformula) (hliterals.of_reached hsub)
      (hpowers.of_reached hsub) hv

end Sound

/-- `(__value__ - 32) * 5 / 9`. -/
def toCelsius : Expr :=
  .binOp (.binOp (.binOp (.name VALUE_NAME .load) .sub (.constant (.int 32))) .mult
    (.constant (.int 5))) .div (.constant (.int 9))

/-- `'ab' * 2`. -/
def textProduct : Expr := .binOp (.constant (.str "ab".toList)) .mult (.constant (.int 2))

/-- A parser that knows these two. -/
def parseBoth (expression : Str) : Except Message Expr :=
  if expression = "(__value__ - 32) * 5 / 9".toList then .ok toCelsius
  else if expression = "'ab' * 2".toList then .ok textProduct
  else .error "invalid syntax".toList

/-- From degrees Fahrenheit to degrees Celsius, over real numbers. -/
theorem real_only_toCelsius : RealOnly barePlatform (.ofRatio 50 1) toCelsius := by
  have hvalid : validate parseBoth "(__value__ - 32) * 5 / 9".toList = .ok (true, none) := by
    decide +kernel
  have hparse : parseBoth "(__value__ - 32) * 5 / 9".toList = .ok toCelsius := if_pos rfl
  refine (real_only_iff hvalid hparse).mpr ⟨?_, ?_⟩
  · intro c hc _
    cases hc with
    | right _ h => cases h; trivial
    | left h => cases h with
      | right _ h => cases h; trivial
      | left h => cases h with
        | right _ h => cases h; trivial
        | left h => cases h
  · intro base exponent a x y hc
    cases hc with
    | right _ h => cases h
    | left h => cases h with
      | right _ h => cases h
      | left h => cases h with
        | right _ h => cases h
        | left h => cases h

/-- **A formula that is accepted computes a text.** -/
theorem text_computed :
    validate parseBoth "'ab' * 2".toList = .ok (true, none) ∧
      eval barePlatform (.ofRatio 1 1) textProduct = .ok (.str "abab".toList) ∧
      ¬RealOnly barePlatform (.ofRatio 1 1) textProduct := by
  have hvalue : eval barePlatform (.ofRatio 1 1) textProduct = .ok (.str "abab".toList) := by
    decide +kernel
  refine ⟨by decide +kernel, hvalue, fun hreal => ?_⟩
  exact absurd (hreal _ _ (.self _) hvalue) (by decide)

end Units

end WitsmlViewer

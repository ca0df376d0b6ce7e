/-
# The powers of a formula (`app.units.engine`, `app.formulas.hydraulics`)

Both checkers bound the exponent of one `**` at a time.  Powers nest in the bases of others, and
the hydraulics formulas have `pow`, whose exponent is not looked at.

`exponent_bound_iff`: in an accepted formula all chains of nested powers stay within the bound, and
the whole numbers that it produces have a bit length linear in its text, exactly if the degree of
its tree is within the bound.

The bound is there so that a formula cannot make the server compute numbers of unreasonable size.
What it has to bound for that is the product of the exponents along a way down the tree, and this
is what the degree is.  A bound on each exponent bounds the product only by a power of itself,
whose exponent is the depth; `exponent_bound_escaped` has the towers.

How numbers grow along a chain is general and is kept in `NestedPowers`: any tree, any evaluation,
and for each whole number the way in which it was made of others.  What this module shows of the
two evaluators is that nothing else makes whole numbers.
-/
import WitsmlViewer.Hydraulics
import WitsmlViewer.Lib.NestedPowers

namespace WitsmlViewer

open Py NestedPowers

namespace Units

/-! ## 1. Trees

The weight of an expression stands for the length of its text.  A literal weighs its bits and any
other node one, so that a bound in terms of the weight is one in terms of the text, up to the
factor four of hexadecimal digits. -/

/-- The expressions that an expression is made of. -/
def Expr.parts : Expr → List Expr
  | .binOp left _ right => [left, right]
  | .unaryOp _ operand => [operand]
  | .constant _ | .name _ _ => []
  | .call func args keywords => func :: (args ++ keywords)
  | .other _ parts _ => parts

/-- A literal weighs as much as it has bits. -/
def Constant.weight : Constant → ℕ
  | .int n => bitLength n
  | _ => 1

mutual

/-- The weight of an expression: at most four for each character of its text. -/
def Expr.weight : Expr → ℕ
  | .binOp left _ right => 1 + left.weight + right.weight
  | .unaryOp _ operand => 1 + operand.weight
  | .constant value => value.weight
  | .name _ _ => 1
  | .call func args keywords => 8 + func.weight + Expr.weights args + Expr.weights keywords
  | .other _ parts _ => 1 + Expr.weights parts

def Expr.weights : List Expr → ℕ
  | [] => 0
  | e :: es => e.weight + Expr.weights es

end

mutual

/-- The degree of an expression, for the exponents of its powers. -/
def Expr.degree (exponent : Expr → Option ℚ) : Expr → ℚ
  | .binOp left op right => factor exponent (.binOp left op right) *
      max (left.degree exponent) (max (right.degree exponent) 1)
  | .unaryOp op operand => factor exponent (.unaryOp op operand) *
      max (operand.degree exponent) 1
  | .constant value => factor exponent (.constant value) * 1
  | .name id ctx => factor exponent (.name id ctx) * 1
  | .call func args keywords => factor exponent (.call func args keywords) *
      max (func.degree exponent) (Expr.degrees exponent (Expr.degrees exponent 1 keywords) args)
  | .other cls parts ctx => factor exponent (.other cls parts ctx) *
      Expr.degrees exponent 1 parts

/-- The largest degree in a list, or `d`. -/
def Expr.degrees (exponent : Expr → Option ℚ) (d : ℚ) : List Expr → ℚ
  | [] => d
  | e :: es => max (e.degree exponent) (Expr.degrees exponent d es)

end

theorem Expr.degrees_eq (exponent : Expr → Option ℚ) (d : ℚ) (es : List Expr) :
    Expr.degrees exponent d es = (es.map (Expr.degree exponent)).foldr max d := by
  induction es with
  | nil => rfl
  | cons e es ih => rw [Expr.degrees, ih]; rfl

/-- The degree is the node's own factor times the largest of its parts. -/
theorem Expr.degree_eq (exponent : Expr → Option ℚ) (e : Expr) : e.degree exponent =
    factor exponent e * (e.parts.map (Expr.degree exponent)).foldr max 1 := by
  cases e with
  | call func args keywords =>
    rw [Expr.degree, Expr.degrees_eq, Expr.degrees_eq, Expr.parts, List.map_cons, List.foldr_cons,
      List.map_append, List.foldr_append]
  | other cls parts ctx => rw [Expr.degree, Expr.degrees_eq, Expr.parts]
  | _ => rw [Expr.degree]; rfl

theorem Expr.sizes_eq_sum (es : List Expr) : Expr.sizes es = (es.map Expr.size).sum := by
  induction es with
  | nil => rfl
  | cons e es ih => rw [Expr.sizes, ih]; rfl

theorem Expr.weights_eq_sum (es : List Expr) : Expr.weights es = (es.map Expr.weight).sum := by
  induction es with
  | nil => rfl
  | cons e es ih => rw [Expr.weights, ih]; rfl

/-- The parts are smaller than the whole, all together. -/
theorem Expr.sum_size_lt (e : Expr) : (e.parts.map Expr.size).sum < e.size := by
  cases e with
  | binOp | unaryOp | constant | name =>
    simp only [Expr.parts, Expr.size, List.map_cons, List.map_nil, List.sum_cons, List.sum_nil]
    omega
  | call | other =>
    simp only [Expr.parts, Expr.size, Expr.sizes_eq_sum, List.map_cons, List.map_append,
      List.sum_cons, List.sum_append]
    omega

theorem Expr.sum_weight_le (e : Expr) : (e.parts.map Expr.weight).sum ≤ e.weight := by
  cases e with
  | binOp | unaryOp | constant | name =>
    simp only [Expr.parts, Expr.weight, List.map_cons, List.map_nil, List.sum_cons, List.sum_nil]
    omega
  | call | other =>
    simp only [Expr.parts, Expr.weight, Expr.weights_eq_sum, List.map_cons, List.map_append,
      List.sum_cons, List.sum_append]
    omega

theorem Expr.size_part {e part : Expr} (h : part ∈ e.parts) : part.size < e.size :=
  (List.le_sum_of_mem (List.mem_map_of_mem h)).trans_lt e.sum_size_lt

theorem Expr.weight_part {e part : Expr} (h : part ∈ e.parts) : part.weight ≤ e.weight :=
  (List.le_sum_of_mem (List.mem_map_of_mem h)).trans e.sum_weight_le

/-! ## 2. Exponents

What a checker knows of an exponent: its text is a literal, possibly under a sign.  The exponent of
`pow` is another matter.  It may be any expression, and what it is worth is known only when it has
been evaluated; for the hydraulics formulas the degree therefore depends on the values. -/

/-- The absolute value of a literal.  An infinite one counts for `2 ^ 1024`. -/
def Constant.magnitude : Constant → Option ℚ
  | .bool b => some b.toNat
  | .int n => some |(n : ℚ)|
  | .float x _ => some (|(x.rank : ℚ)| / unitsPerOne)
  | _ => Option.none

/-- The absolute value of a literal, possibly under a sign. -/
def literalMagnitude : Expr → Option ℚ
  | .constant c => c.magnitude
  | .unaryOp _ (.constant c) => c.magnitude
  | _ => none

/-- The absolute exponent of `**`, which is a literal in an accepted formula. -/
def literalExponent : Expr → Option ℚ
  | .binOp _ .pow right => literalMagnitude right
  | _ => none

theorem Constant.magnitude_nonneg {c : Constant} {k : ℚ} (h : c.magnitude = some k) : 0 ≤ k := by
  cases c with
  | bool b =>
    obtain rfl := Option.some.inj h
    exact Nat.cast_nonneg _
  | int n =>
    obtain rfl := Option.some.inj h
    exact abs_nonneg _
  | float x notNan =>
    obtain rfl := Option.some.inj h
    exact div_nonneg (abs_nonneg _) (Nat.cast_nonneg _)
  | _ => cases h

theorem literalExponent_nonneg {e : Expr} {k : ℚ} (h : literalExponent e = some k) : 0 ≤ k := by
  unfold literalExponent at h
  split at h
  · unfold literalMagnitude at h
    split at h
    · exact Constant.magnitude_nonneg h
    · exact Constant.magnitude_nonneg h
    · cases h
  · cases h

/-- The degree is that of the tree's chains. -/
theorem isDegree {exponent : Expr → Option ℚ} (h : ∀ e k, exponent e = some k → 0 ≤ k) :
    IsDegree Expr.parts exponent Expr.size (Expr.degree exponent) where
  smaller _ _ hpart := Expr.size_part hpart
  nonneg := h
  eq := Expr.degree_eq _

/-- After every `**` there is a literal, possibly under a sign. -/
def LiteralPowers (e : Expr) : Prop :=
  ∀ l r, Within Expr.parts e (.binOp l .pow r) → Exponent (fun _ => True) r

theorem LiteralPowers.part {e part : Expr} (h : LiteralPowers e) (hpart : part ∈ e.parts) :
    LiteralPowers part :=
  fun l r hsub => h l r (.part hpart hsub)

/-- What is within an expression has a position in its tree. -/
theorem exists_nodeAt {e sub : Expr} (h : Within Expr.parts e sub) :
    ∃ p, Walks.nodeAt Node.children (.expr e) p = some (.expr sub) := by
  induction h with
  | self e => exact ⟨[], rfl⟩
  | @part e part sub hpart _ ih =>
    obtain ⟨p, hp⟩ := ih
    have hchild : Node.expr part ∈ (Node.expr e).children := by
      cases e with
      | constant | name => cases hpart
      | binOp | unaryOp | call | other =>
        simp only [Expr.parts, List.mem_cons, List.mem_append, List.not_mem_nil, or_false] at hpart
        simp [Node.children, hpart]
    obtain ⟨i, hi⟩ := List.mem_iff_getElem?.mp hchild
    exact ⟨i :: p, (Walks.nodeAt_cons hi p).trans hp⟩

/-! ## 3. Whole numbers

A float stays a float, and so does what is computed with one.  So a whole number comes of whole
numbers, and of these by one of a few operators; division is not among them, and a power with a
negative exponent is a float. -/

section Whole

variable {P : Platform}

/-- A whole number as a number is one as a value. -/
theorem number?_eq_int {v : PyValue} {n : ℤ} : v.number? = some (.int n) ↔ v.int? = some n := by
  cases v <;> simp [PyValue.number?, PyValue.int?]

theorem int?_ofNumber {r : Number} {n : ℤ} (h : (PyValue.ofNumber r).int? = some n) :
    r = .int n := by
  cases r with
  | int m => exact congrArg Number.int (Option.some.inj h)
  | float x => cases h
  | complex z => cases h

/-- How a whole number comes from two others. -/
inductive IntResult (op : BinaryOp) (m k n : ℤ) : Prop
  | both (h : bitLength n ≤ bitLength m + bitLength k + 1)
  | right (h : bitLength n ≤ bitLength k)
  | power (hop : op = .pow) (hk : 0 ≤ k) (hn : n = m ^ k.toNat)

theorem floatPow_ne_int {libm : Libm} (x y : Float64) (n : ℤ) :
    floatPow libm x y ≠ .ok (.int n) := by
  intro h
  unfold floatPow at h
  split at h
  · cases h
  · split at h
    · obtain ⟨z, -, hz⟩ := map_eq_ok.mp h
      cases hz
    · obtain ⟨z, -, hz⟩ := map_eq_ok.mp h
      cases hz

/-- What is computed of floats is never an `int`. -/
theorem floatOp_ne_int {libm : Libm} (op : BinaryOp) (x y : Float64) (n : ℤ) :
    floatOp libm op x y ≠ .ok (.int n) := by
  intro h
  cases op with
  | add | sub | mult => cases h
  | div | mod =>
    rw [floatOp] at h
    split at h <;> cases h
  | pow => exact floatPow_ne_int x y n h

/-- An operator on whole numbers makes one that is hardly longer than they are, or a power. -/
theorem intOp_int {libm : Libm} {op : BinaryOp} {m k n : ℤ}
    (h : intOp libm op m k = .ok (.int n)) : IntResult op m k n := by
  have hmax : max (bitLength m) (bitLength k) ≤ bitLength m + bitLength k :=
    max_le (Nat.le_add_right _ _) (Nat.le_add_left _ _)
  cases op with
  | add =>
    obtain rfl := Number.int.inj (Except.ok.inj h)
    exact .both ((bitLength_add_le m k).trans (Nat.succ_le_succ hmax))
  | sub =>
    obtain rfl := Number.int.inj (Except.ok.inj h)
    exact .both ((bitLength_sub_le m k).trans (Nat.succ_le_succ hmax))
  | mult =>
    obtain rfl := Number.int.inj (Except.ok.inj h)
    exact .both ((bitLength_mul_le m k).trans (Nat.le_succ _))
  | div =>
    rw [intOp] at h
    split at h
    · cases h
    · split at h <;> cases h
  | mod =>
    rw [intOp] at h
    split at h
    · cases h
    · rename_i hk
      obtain rfl := Number.int.inj (Except.ok.inj h)
      exact .right (bitLength_fmod_le m hk)
  | pow =>
    rw [intOp] at h
    split at h
    · rename_i hk
      obtain rfl := Number.int.inj (Except.ok.inj h)
      exact .power rfl hk rfl
    · obtain ⟨x, -, h⟩ := bind_eq_ok.mp h
      obtain ⟨y, -, h⟩ := bind_eq_ok.mp h
      exact absurd h (floatPow_ne_int x y n)

/-- Only whole numbers make one. -/
theorem op_int {libm : Libm} {o : BinaryOp} {a b : Number} {n : ℤ}
    (h : a.op libm o b = .ok (.int n)) :
    ∃ m k, a = .int m ∧ b = .int k ∧ IntResult o m k n := by
  have hcomplex : (do return Number.complex (← libm.complexOp o (← a.toComplex) (← b.toComplex))) ≠
      Except.ok (Number.int n) := by
    intro h
    obtain ⟨x, -, h⟩ := bind_eq_ok.mp h
    obtain ⟨y, -, h⟩ := bind_eq_ok.mp h
    obtain ⟨z, -, h⟩ := bind_eq_ok.mp h
    cases h
  cases a with
  | int m =>
    cases b with
    | int k => exact ⟨m, k, rfl, rfl, intOp_int h⟩
    | float y =>
      obtain ⟨x, -, h⟩ := bind_eq_ok.mp h
      exact absurd h (floatOp_ne_int o x y n)
    | complex z => exact absurd h hcomplex
  | float x =>
    cases b with
    | int k =>
      obtain ⟨y, -, h⟩ := bind_eq_ok.mp h
      exact absurd h (floatOp_ne_int o x y n)
    | float y => exact absurd h (floatOp_ne_int o x y n)
    | complex z => exact absurd h hcomplex
  | complex z => cases b <;> exact absurd h hcomplex

theorem textOp_int? {op : BinaryOp} {a b v : PyValue} (h : textOp P op a b = .ok v) :
    v.int? = none := by
  have helim : ∀ {α β : Type} (o : Option α) (f : α → Except EvalError β) (g : β → PyValue),
      (∀ y, (g y).int? = none) →
        o.elim (.error .typeError) (fun x => (f x).map g) = .ok v → v.int? = none := by
    intro α β o f g hg ho
    cases o with
    | none => cases ho
    | some x =>
      obtain ⟨y, -, rfl⟩ := map_eq_ok.mp ho
      exact hg y
  unfold textOp at h
  split at h
  · obtain rfl := Except.ok.inj h
    rfl
  · obtain rfl := Except.ok.inj h
    rfl
  · exact helim _ _ _ (fun _ => rfl) h
  · exact helim _ _ _ (fun _ => rfl) h
  · exact helim _ _ _ (fun _ => rfl) h
  · exact helim _ _ _ (fun _ => rfl) h
  · exact helim _ _ _ (fun _ => rfl) h
  · exact helim _ _ _ (fun _ => rfl) h
  · cases h

/-- **An operator makes a whole number of whole numbers only.** -/
theorem binary_int {op : BinaryOp} {a b v : PyValue} {n : ℤ} (h : binary P op a b = .ok v)
    (hn : v.int? = some n) : ∃ m k, a.int? = some m ∧ b.int? = some k ∧ IntResult op m k n := by
  have htext : textOp P op a b ≠ .ok v := by
    intro htext
    rw [textOp_int? htext] at hn
    cases hn
  cases hx : a.number? with
  | none =>
    rw [binary, hx] at h
    exact absurd h htext
  | some x =>
    cases hy : b.number? with
    | none =>
      rw [binary, hx, hy] at h
      exact absurd h htext
    | some y =>
      obtain ⟨r, hr, rfl⟩ := binary_eq_ok hx hy h
      obtain rfl := int?_ofNumber hn
      obtain ⟨m, k, rfl, rfl, hresult⟩ := op_int hr
      exact ⟨m, k, number?_eq_int.mp hx, number?_eq_int.mp hy, hresult⟩

theorem unary_int {negate : Bool} {v w : PyValue} {n : ℤ} (h : unary negate v = .ok w)
    (hn : w.int? = some n) : ∃ m, v.int? = some m ∧ |n| = |m| := by
  rw [unary] at h
  cases hx : v.number? with
  | none => rw [hx] at h; cases h
  | some x =>
    rw [hx] at h
    obtain rfl := Except.ok.inj h
    have hr : (if negate = true then x.neg else x) = .int n := int?_ofNumber hn
    cases negate with
    | false => exact ⟨n, number?_eq_int.mp (hx.trans (congrArg some hr)), rfl⟩
    | true =>
      cases x with
      | int m =>
        obtain rfl := Number.int.inj hr
        exact ⟨m, number?_eq_int.mp hx, abs_neg m⟩
      | float x => cases hr
      | complex z => cases hr

theorem absolute_int {v : PyValue} {n : ℤ} (h : absolute P v = .ok (.int n)) :
    ∃ m, v.int? = some m ∧ n = |m| := by
  rw [absolute] at h
  cases hx : v.number? with
  | none => rw [hx] at h; cases h
  | some x =>
    rw [hx] at h
    have h : x.abs P.libm = .ok (.int n) := raising_eq_ok.mp h
    cases x with
    | int m => exact ⟨m, number?_eq_int.mp hx, (Number.int.inj (Except.ok.inj h)).symm⟩
    | float x => cases h
    | complex z =>
      obtain ⟨y, -, hy⟩ := map_eq_ok.mp h
      cases hy

end Whole

/-! ## 4. Growth

The two evaluators differ in their functions and in their guards, and agree in the rest.
`Interprets` is what they have in common, and the growth of numbers is proved from it once. -/

section Growth

variable {P : Platform} {exponent : Expr → Option ℚ} {ev : Expr → Except EvalError PyValue}

/-- An expression with literal powers produces a whole number; a truth value is one. -/
structure Produces (ev : Expr → Except EvalError PyValue) (e : Expr) (n : ℤ) : Prop where
  literal : LiteralPowers e
  value : ∃ v, ev e = .ok v ∧ v.int? = some n

/-- How a whole number comes about at an expression. -/
abbrev MadeBy (exponent : Expr → Option ℚ) (ev : Expr → Except EvalError PyValue) (e : Expr)
    (n : ℤ) : Prop :=
  Made Expr.parts exponent Expr.weight (Produces ev) e n

/-- An operator, or `pow`, on two parts. -/
theorem MadeBy.of_binary {e l r : Expr} {op : BinaryOp} {a b v : PyValue} {n : ℤ}
    (hliteral : LiteralPowers e) (hl : l ∈ e.parts) (hr : r ∈ e.parts)
    (hweight : l.weight + r.weight < e.weight) (ha : ev l = .ok a) (hb : ev r = .ok b)
    (hpow : op = .pow → ∀ k, b.int? = some k → exponent e = some |(k : ℚ)|)
    (h : binary P op a b = .ok v) (hn : v.int? = some n) : MadeBy exponent ev e n := by
  obtain ⟨m, k, hm, hk, hresult⟩ := binary_int h hn
  have hleft : Produces ev l m := ⟨hliteral.part hl, a, ha, hm⟩
  have hright : Produces ev r k := ⟨hliteral.part hr, b, hb, hk⟩
  cases hresult with
  | both hle => exact .both hl hr hweight hleft hright hle
  | right hle => exact .copy hr hright hle
  | power hop hnonneg hn =>
    subst hn
    have hexponent : exponent e = some ((k.toNat : ℕ) : ℚ) := by
      have hcast : ((k.toNat : ℕ) : ℤ) = k := Int.toNat_of_nonneg hnonneg
      rw [hpow hop k hk, abs_of_nonneg (Int.cast_nonneg hnonneg), ← hcast]
      exact congrArg some (Int.cast_natCast _)
    by_cases hzero : k.toNat = 0
    · refine .small ?_
      rw [hzero, pow_zero]
      exact Nat.one_le_of_lt hweight
    · exact .power hl hleft hexponent (bitLength_pow_le m hzero)

/-- What the two evaluators have in common. -/
structure Interprets (P : Platform) (exponent : Expr → Option ℚ)
    (ev : Expr → Except EvalError PyValue) : Prop where
  constant : ∀ c v, ev (.constant c) = .ok v → v = c.value
  name : ∀ id ctx v, ev (.name id ctx) = .ok v → v.int? = none
  unaryOp : ∀ op e v, ev (.unaryOp op e) = .ok v →
    ∃ negate w, ev e = .ok w ∧ unary negate w = .ok v
  binOp : ∀ l op r v, ev (.binOp l op r) = .ok v →
    ∃ o a b, op.binary? = some o ∧ ev l = .ok a ∧ ev r = .ok b ∧ binary P o a b = .ok v
  call : ∀ func args keywords n, Produces ev (.call func args keywords) n →
    MadeBy exponent ev (.call func args keywords) n
  other : ∀ cls parts ctx v, ev (.other cls parts ctx) ≠ .ok v
  power : ∀ l r, exponent (.binOp l .pow r) = literalMagnitude r

/-- A whole literal is read as its absolute value. -/
theorem Constant.magnitude_int {c : Constant} {k : ℤ} (h : c.value.int? = some k) :
    c.magnitude = some |(k : ℚ)| := by
  cases c with
  | int n =>
    obtain rfl := Option.some.inj h
    rfl
  | bool b =>
    obtain rfl := Option.some.inj h
    cases b <;> simp [Constant.magnitude, PyValue.ofBool]
  | _ => cases h

/-- A literal exponent that is a whole number has the value that it is read as. -/
theorem Interprets.literalMagnitude_eq (h : Interprets P exponent ev) {r : Expr}
    (hr : Exponent (fun _ => True) r) {b : PyValue} (hb : ev r = .ok b) {k : ℤ}
    (hk : b.int? = some k) : literalMagnitude r = some |(k : ℚ)| := by
  cases hr with
  | @plain c _ =>
    obtain rfl := h.constant c b hb
    exact Constant.magnitude_int hk
  | @signed op c _ _ =>
    obtain ⟨negate, w, hw, hunary⟩ := h.unaryOp op _ b hb
    obtain rfl := h.constant c w hw
    obtain ⟨m, hm, habs⟩ := unary_int hunary hk
    have hcast : |(k : ℚ)| = |(m : ℚ)| := by exact_mod_cast habs
    rw [hcast]
    exact Constant.magnitude_int hm

/-- A constant is as small as it weighs. -/
theorem Constant.bitLength_le {c : Constant} {n : ℤ} (h : c.value.int? = some n) :
    bitLength n ≤ c.weight := by
  cases c with
  | int m =>
    obtain rfl := Option.some.inj h
    exact le_rfl
  | bool b =>
    obtain rfl := Option.some.inj h
    cases b <;> decide
  | _ => cases h

/-- **Every whole number comes about by growth.**  One case for each class of node.  A power is
made of its base, whose exponent is the literal's value; a call is what the evaluator says of its
functions. -/
theorem Interprets.made (h : Interprets P exponent ev) {e : Expr} {n : ℤ} (hn : Produces ev e n) :
    MadeBy exponent ev e n := by
  cases e with
  | constant c =>
    obtain ⟨-, v, hv, hn⟩ := hn
    obtain rfl := h.constant c v hv
    exact .small (Constant.bitLength_le hn)
  | name id ctx =>
    obtain ⟨-, v, hv, hn⟩ := hn
    rw [h.name id ctx v hv] at hn
    cases hn
  | unaryOp op operand =>
    obtain ⟨hliteral, v, hv, hn⟩ := hn
    obtain ⟨negate, w, hw, hunary⟩ := h.unaryOp op operand v hv
    obtain ⟨m, hm, habs⟩ := unary_int hunary hn
    have hpart : operand ∈ (Expr.unaryOp op operand).parts := List.mem_singleton_self _
    refine .copy hpart ⟨hliteral.part hpart, w, hw, hm⟩ ?_
    rw [← bitLength_abs n, habs, bitLength_abs]
  | binOp l op r =>
    obtain ⟨hliteral, v, hv, hn⟩ := hn
    obtain ⟨o, a, b, ho, ha, hb, hbinary⟩ := h.binOp l op r v hv
    have hpow : o = .pow → ∀ k, b.int? = some k → exponent (.binOp l op r) = some |(k : ℚ)| := by
      rintro rfl k hk
      obtain rfl : op = .pow := by cases op <;> first | rfl | cases ho
      rw [h.power]
      exact h.literalMagnitude_eq (hliteral l r (.self _)) hb hk
    have hweight : l.weight + r.weight < (Expr.binOp l op r).weight := by
      rw [Expr.weight]
      omega
    exact .of_binary hliteral List.mem_cons_self (by simp [Expr.parts]) hweight ha hb hpow hbinary hn
  | call func args keywords => exact h.call func args keywords n hn
  | other cls parts ctx =>
    obtain ⟨-, v, hv, -⟩ := hn
    exact absurd hv (h.other cls parts ctx v)

theorem Interprets.grows (h : Interprets P exponent ev) :
    Grows Expr.parts exponent Expr.weight (Produces ev) :=
  ⟨fun _ _ hpart => Expr.weight_part hpart, fun _ _ hn => h.made hn⟩

end Growth

/-! ## 5. Conversions

The functions of `math` return floats, so `abs` alone is left. -/

section Conversions

variable {P : Platform} {value : Float64}

/-- What the operator table lets through is the operator's result. -/
theorem applyOp_eq_ok {op : BinaryOp} {a b v : PyValue} (h : applyOp P op a b = .ok v) :
    binary P op a b = .ok v := by
  unfold applyOp at h
  split at h
  · obtain ⟨size, -, h⟩ := bind_eq_ok.mp h
    split at h
    · cases h
    · exact h
  · split at h
    · cases h
    · exact h

theorem eval_call {func : Expr} {args keywords : List Expr} {v : PyValue}
    (h : eval P value (.call func args keywords) = .ok v) :
    ∃ id vs, evalAll P value args = .ok vs ∧ callFunction P id vs = .ok v := by
  cases func with
  | name id ctx =>
    cases keywords with
    | nil =>
      rw [eval] at h
      obtain ⟨vs, hvs, h⟩ := bind_eq_ok.mp h
      exact ⟨id, vs, hvs, h⟩
    | cons k ks => simp [eval] at h
  | _ => simp [eval] at h

/-- Only `abs` makes a whole number. -/
theorem callFunction_int {id : Str} {args : List PyValue} {v : PyValue} {n : ℤ}
    (h : callFunction P id args = .ok v) (hn : v.int? = some n) :
    ∃ a ∈ args, ∃ m, a.int? = some m ∧ n = |m| := by
  unfold callFunction at h
  split at h
  · split at h
    · rename_i a
      obtain ⟨r, hr, rfl⟩ := map_eq_ok.mp h
      obtain rfl := int?_ofNumber hn
      exact ⟨a, List.mem_singleton_self a, absolute_int hr⟩
    · cases h
  · split at h
    · split at h
      · obtain ⟨x, -, rfl⟩ := map_eq_ok.mp h
        cases hn
      · obtain ⟨x, -, h⟩ := bind_eq_ok.mp h
        obtain ⟨y, -, h⟩ := bind_eq_ok.mp h
        obtain ⟨r, hr, rfl⟩ := map_eq_ok.mp h
        obtain rfl := int?_ofNumber hn
        exact absurd (raising_eq_ok.mp hr) (floatOp_ne_int .div x y n)
      · cases h
    · split at h
      · obtain ⟨x, -, rfl⟩ := map_eq_ok.mp h
        cases hn
      · cases h

theorem interprets (P : Platform) (value : Float64) :
    Interprets P literalExponent (eval P value) where
  constant c v h := by
    rw [eval] at h
    split at h
    · cases h
    · exact (Except.ok.inj h).symm
  name id ctx v h := by
    rw [eval, evalName] at h
    split at h
    · obtain rfl := Except.ok.inj h
      rfl
    · split at h
      · obtain rfl := Except.ok.inj h
        rfl
      · split at h
        · obtain rfl := Except.ok.inj h
          rfl
        · cases h
  unaryOp op e v h := eval_unaryOp h
  binOp l op r v h := by
    obtain ⟨o, a, b, ho, ha, hb, h⟩ := eval_binOp.mp h
    exact ⟨o, a, b, ho, ha, hb, applyOp_eq_ok h⟩
  call func args keywords n hn := by
    obtain ⟨hliteral, v, hv, hn⟩ := hn
    obtain ⟨id, vs, hvs, hcall⟩ := eval_call hv
    obtain ⟨a, ha, m, hm, rfl⟩ := callFunction_int hcall hn
    obtain ⟨before, e, after, -, rfl, -, he⟩ := mem_of_evalAll hvs ha
    have hpart : e ∈ (Expr.call func (before ++ e :: after) keywords).parts := by
      simp [Expr.parts]
    exact .copy hpart ⟨hliteral.part hpart, a, he, hm⟩ (bitLength_abs m).le
  other cls parts ctx v h := by simp [eval] at h
  power l r := rfl

end Conversions

end Units

namespace Hydraulics

open WitsmlViewer.Units

/-! ## 6. Hydraulics formulas

`min`, `max` and `abs` return an argument or its absolute value.  `pow` with two arguments is a
power, and with three it stays below its modulus. -/

variable {P : Platform} {values : Dict Str Float64}

/-- `abs(v)` of an exponent. -/
def magnitude (P : Platform) (v : PyValue) : Option ℚ :=
  match absolute P v with
  | .ok (.int n) => some |(n : ℚ)|
  | .ok (.float x) => if x = .nan then none else some (|(x.rank : ℚ)| / unitsPerOne)
  | _ => none

/-- The absolute exponent of a power: of `**`, or of `pow`, whose second argument may be any
expression. -/
def exponentOf (P : Platform) (values : Dict Str Float64) : Expr → Option ℚ
  | .call (.name id _) (_ :: x :: _) _ =>
    if id = "pow".toList then (eval P values x).toOption.bind (magnitude P) else none
  | e => literalExponent e

theorem magnitude_nonneg {v : PyValue} {k : ℚ} (h : magnitude P v = some k) : 0 ≤ k := by
  unfold magnitude at h
  split at h
  · obtain rfl := Option.some.inj h
    exact abs_nonneg _
  · split at h
    · cases h
    · obtain rfl := Option.some.inj h
      exact div_nonneg (abs_nonneg _) (Nat.cast_nonneg _)
  · cases h

/-- The magnitude of a whole number is its absolute value. -/
theorem magnitude_int {v : PyValue} {k : ℤ} (hv : v.int? = some k) :
    magnitude P v = some |(k : ℚ)| := by
  have habs : absolute P v = .ok (.int |k|) := by
    rw [absolute, number?_eq_int.mpr hv]
    rfl
  rw [magnitude, habs]
  exact congrArg some (by rw [Int.cast_abs, abs_abs])

theorem exponentOf_nonneg {e : Expr} {k : ℚ} (h : exponentOf P values e = some k) : 0 ≤ k := by
  unfold exponentOf at h
  split at h
  · split at h
    · obtain ⟨b, -, hb⟩ := Option.bind_eq_some_iff.mp h
      exact magnitude_nonneg hb
    · cases h
  · exact literalExponent_nonneg h

theorem evalAll_forall₂ {args : List Expr} {vs : List PyValue}
    (h : evalAll P values args = .ok vs) :
    List.Forall₂ (fun e v => eval P values e = .ok v) args vs := by
  induction args generalizing vs with
  | nil =>
    obtain rfl : [] = vs := Except.ok.inj h
    exact .nil
  | cons e args ih =>
    rw [evalAll] at h
    obtain ⟨v, hv, h⟩ := bind_eq_ok.mp h
    obtain ⟨ws, hws, h⟩ := bind_eq_ok.mp h
    obtain rfl : v :: ws = vs := Except.ok.inj h
    exact .cons hv (ih hws)

theorem eval_call {func : Expr} {args keywords : List Expr} {v : PyValue}
    (h : eval P values (.call func args keywords) = .ok v) :
    ∃ id ctx vs, func = .name id ctx ∧ evalAll P values args = .ok vs ∧
      callFunction P id vs = .ok v := by
  cases func with
  | name id ctx =>
    cases keywords with
    | nil =>
      rw [eval] at h
      obtain ⟨vs, hvs, h⟩ := bind_eq_ok.mp h
      exact ⟨id, ctx, vs, rfl, hvs, h⟩
    | cons k ks => simp [eval] at h
  | _ => simp [eval] at h

theorem eval_unaryOp {op : UnaryOperator} {e : Expr} {v : PyValue}
    (h : eval P values (.unaryOp op e) = .ok v) :
    ∃ negate w, eval P values e = .ok w ∧ unary negate w = .ok v := by
  cases op with
  | uAdd =>
    rw [eval] at h
    obtain ⟨w, hw, hv⟩ := bind_eq_ok.mp h
    exact ⟨false, w, hw, hv⟩
  | uSub =>
    rw [eval] at h
    obtain ⟨w, hw, hv⟩ := bind_eq_ok.mp h
    exact ⟨true, w, hw, hv⟩
  | _ => simp [eval] at h

theorem eval_binOp {op : Operator} {l r : Expr} {v : PyValue}
    (h : eval P values (.binOp l op r) = .ok v) : ∃ o a b, op.binary? = some o ∧
      eval P values l = .ok a ∧ eval P values r = .ok b ∧ binary P o a b = .ok v := by
  rw [eval] at h
  cases ho : op.binary? with
  | none => rw [ho] at h; cases h
  | some o =>
    rw [ho] at h
    obtain ⟨a, ha, h⟩ := bind_eq_ok.mp h
    obtain ⟨b, hb, h⟩ := bind_eq_ok.mp h
    rw [applyOp] at h
    split at h
    · cases h
    · exact ⟨o, a, b, rfl, ha, hb, h⟩

theorem mem_of_best {before : PyValue → PyValue → Except EvalError Bool} {items : List PyValue}
    {v : PyValue} (h : best before items = .ok v) : v ∈ items := by
  cases items with
  | nil => cases h
  | cons first items =>
    rw [best] at h
    induction items generalizing first with
    | nil =>
      obtain rfl := Except.ok.inj h
      exact List.mem_cons_self
    | cons a items ih =>
      rw [List.foldlM_cons] at h
      obtain ⟨next, hnext, h⟩ := bind_eq_ok.mp h
      obtain ⟨less, -, hnext⟩ := bind_eq_ok.mp hnext
      have hmem := ih next h
      cases less with
      | true =>
        obtain rfl := Except.ok.inj hnext
        exact List.mem_cons_of_mem _ hmem
      | false =>
        obtain rfl := Except.ok.inj hnext
        rcases List.mem_cons.mp hmem with rfl | hmem
        · exact List.mem_cons_self
        · exact List.mem_cons_of_mem _ (List.mem_cons_of_mem _ hmem)

/-- An extremum is an argument, or a byte. -/
theorem extremum_int {before : PyValue → PyValue → Except EvalError Bool} {args : List PyValue}
    {v : PyValue} {n : ℤ} (h : extremum before args = .ok v) (hn : v.int? = some n) :
    bitLength n ≤ 8 ∨ v ∈ args := by
  unfold extremum at h
  split at h
  · cases h
  · obtain ⟨c, -, rfl⟩ := List.mem_map.mp (mem_of_best h)
    cases hn
  · obtain ⟨b, -, rfl⟩ := List.mem_map.mp (mem_of_best h)
    obtain rfl := Option.some.inj hn
    exact Or.inl (bitLength_le_iff.mpr b.toNat_lt)
  · cases h
  · exact Or.inr (mem_of_best h)

/-- With three arguments, `pow` keeps below the last one. -/
theorem powMod_int {a b c v : PyValue} {n : ℤ} (h : powMod a b c = .ok v) (hn : v.int? = some n) :
    ∃ d, c.int? = some d ∧ bitLength n ≤ bitLength d := by
  unfold powMod at h
  split at h
  · rename_i m k d hm hk hd
    refine ⟨d, hd, ?_⟩
    split at h
    · cases h
    · rename_i hzero
      split at h
      · obtain rfl := Except.ok.inj h
        obtain rfl := Option.some.inj hn
        exact bitLength_fmod_le _ hzero
      · split at h
        · obtain rfl := Except.ok.inj h
          obtain rfl := Option.some.inj hn
          exact bitLength_fmod_le _ hzero
        · cases h
  · split at h <;> cases h

section Call

variable {id : Str} {ctx : ExprContext} {args keywords : List Expr} {vs : List PyValue}

/-- An argument comes from a part. -/
theorem exists_part (hvs : List.Forall₂ (fun e v => eval P values e = .ok v) args vs) {v : PyValue}
    (hv : v ∈ vs) :
    ∃ e ∈ (Expr.call (.name id ctx) args keywords).parts, eval P values e = .ok v := by
  have hmem : ∃ e ∈ args, eval P values e = .ok v := by
    induction hvs with
    | nil => cases hv
    | cons he _ ih =>
      rcases List.mem_cons.mp hv with rfl | hv
      · exact ⟨_, List.mem_cons_self, he⟩
      · obtain ⟨e, hmem, he⟩ := ih hv
        exact ⟨e, List.mem_cons_of_mem _ hmem, he⟩
  obtain ⟨e, hmem, he⟩ := hmem
  exact ⟨e, List.mem_cons_of_mem _ (List.mem_append_left _ hmem), he⟩

variable (hliteral : LiteralPowers (.call (.name id ctx) args keywords))

include hliteral

/-- A value that is no larger than an argument is made of it. -/
theorem copy_made (hvs : List.Forall₂ (fun e v => eval P values e = .ok v) args vs) {v : PyValue}
    (hv : v ∈ vs) {m n : ℤ} (hm : v.int? = some m) (h : bitLength n ≤ bitLength m) :
    MadeBy (exponentOf P values) (eval P values) (.call (.name id ctx) args keywords) n := by
  obtain ⟨e, hpart, he⟩ := exists_part hvs hv
  exact .copy hpart ⟨hliteral.part hpart, v, he, hm⟩ h

theorem extremum_made (hvs : List.Forall₂ (fun e v => eval P values e = .ok v) args vs)
    {before : PyValue → PyValue → Except EvalError Bool} {v : PyValue} {n : ℤ}
    (h : extremum before vs = .ok v) (hn : v.int? = some n) :
    MadeBy (exponentOf P values) (eval P values) (.call (.name id ctx) args keywords) n := by
  rcases extremum_int h hn with hbyte | hmem
  · refine .small (hbyte.trans ?_)
    rw [Expr.weight]
    omega
  · exact copy_made hliteral hvs hmem hn le_rfl

theorem pow_made (hid : id = "pow".toList) {a b : PyValue} {rest : List PyValue}
    (hvs : List.Forall₂ (fun e v => eval P values e = .ok v) args (a :: b :: rest)) {v : PyValue}
    {n : ℤ} (h : binary P .pow a b = .ok v) (hn : v.int? = some n) :
    MadeBy (exponentOf P values) (eval P values) (.call (.name id ctx) args keywords) n := by
  cases hvs with
  | @cons l _ args _ hl hvs =>
    cases hvs with
    | @cons r _ args _ hr hvs =>
      have hweight : l.weight + r.weight <
          (Expr.call (.name id ctx) (l :: r :: args) keywords).weight := by
        rw [Expr.weight, Expr.weights, Expr.weights]
        omega
      refine .of_binary hliteral (by simp [Expr.parts]) (by simp [Expr.parts]) hweight hl hr
        (fun _ k hk => ?_) h hn
      rw [exponentOf, if_pos hid, hr]
      exact magnitude_int hk

/-- **A call makes** a byte, one of its arguments, their power, or something below the last one. -/
theorem call_made (hvs : List.Forall₂ (fun e v => eval P values e = .ok v) args vs) {v : PyValue}
    {n : ℤ} (h : callFunction P id vs = .ok v) (hn : v.int? = some n) :
    MadeBy (exponentOf P values) (eval P values) (.call (.name id ctx) args keywords) n := by
  unfold callFunction at h
  split at h
  · split at h
    · obtain ⟨m, k, -, hk, -⟩ := binary_int h hn
      cases hk
    · cases h
  · split at h
    · split at h
      · obtain ⟨r, hr, rfl⟩ := map_eq_ok.mp h
        obtain rfl := int?_ofNumber hn
        obtain ⟨m, hm, rfl⟩ := absolute_int hr
        exact copy_made hliteral hvs List.mem_cons_self hm (bitLength_abs m).le
      · cases h
    · split at h
      · exact extremum_made hliteral hvs h hn
      · split at h
        · exact extremum_made hliteral hvs h hn
        · split at h
          · rename_i hid
            split at h
            · exact pow_made hliteral hid hvs h hn
            · exact pow_made hliteral hid hvs h hn
            · obtain ⟨d, hd, hle⟩ := powMod_int h hn
              exact copy_made hliteral hvs (by simp) hd hle
            · cases h
          · cases h

end Call

theorem interprets (P : Platform) (values : Dict Str Float64) :
    Interprets P (exponentOf P values) (eval P values) where
  constant c v h := by
    rw [eval] at h
    split at h
    · cases h
    · exact (Except.ok.inj h).symm
  name id ctx v h := by
    rw [eval, evalName] at h
    split at h
    · obtain rfl := Except.ok.inj h
      rfl
    · split at h
      · obtain rfl := Except.ok.inj h
        rfl
      · cases h
  unaryOp op e v h := eval_unaryOp h
  binOp l op r v h := eval_binOp h
  call func args keywords n hn := by
    obtain ⟨hliteral, v, hv, hn⟩ := hn
    obtain ⟨id, ctx, vs, rfl, hvs, hcall⟩ := eval_call hv
    exact call_made hliteral (evalAll_forall₂ hvs) hcall hn
  other cls parts ctx v h := by simp [eval] at h
  power l r := rfl

/-- An accepted formula has literal exponents. -/
theorem literalPowers_of_valid {parse : Str → Except Message Expr} {expression : Str}
    {names : List Str} {tree : Expr} (hvalid : validateAst parse expression names = .ok ())
    (hparse : parse expression = .ok tree) : LiteralPowers tree := by
  intro l r hsub
  obtain ⟨p, hp⟩ := exists_nodeAt hsub
  have hmem : (0 :: p, Node.expr (.binOp l .pow r)) ∈ (Node.expression tree).walk :=
    Node.mem_walk.mpr ((Walks.nodeAt_cons rfl p).trans hp)
  rw [validateAst, hparse] at hvalid
  obtain ⟨callees, -, hpass⟩ := bind_eq_ok.mp hvalid
  have hnode := forM_eq_ok.mp hpass _ hmem
  have hexponent : checkExponent r = .ok () := hnode
  cases r with
  | constant c => exact .plain trivial
  | _ => cases hexponent

end Hydraulics

/-! ## 7. The bound

The statement for both engines at once.  It is for every formula that is accepted, every value that
it is evaluated with, and every platform. -/

open WitsmlViewer.Units

theorem Units.literalPowers_of_valid {parse : Str → Except Message Expr} {expression : Str}
    {tree : Expr} (hvalid : validate parse expression = .ok (true, none))
    (hparse : parse expression = .ok tree) : LiteralPowers tree := by
  intro l r hsub
  obtain ⟨p, hp⟩ := exists_nodeAt hsub
  have hpasses := checkAst_eq_ok.mp (checkAst_of_valid hvalid hparse)
  have hlisted := (hpasses (0 :: p) _ ((Walks.nodeAt_cons rfl p).trans hp)).1
  cases hlisted.2 with
  | plain _ => exact .plain trivial
  | signed hop _ => exact .signed hop trivial

/-- **What the bound is for**: along every chain of nested powers the absolute exponents multiply to
at most the bound, and the whole numbers that an evaluation produces have a bit length linear in the
text. -/
structure GrowthBounded (exponent : Expr → Option ℚ) (ev : Expr → Except EvalError PyValue)
    (bound : ℕ) (expression : Str) (tree : Expr) : Prop where
  chains : ∀ ks, Chain Expr.parts exponent tree ks → ks.prod ≤ bound
  integers : ∀ sub v n, Within Expr.parts tree sub → ev sub = .ok v → v.int? = some n →
    bitLength n ≤ 4 * bound * expression.length

theorem Units.LiteralPowers.of_within {e sub : Expr} (h : LiteralPowers e)
    (hsub : Within Expr.parts e sub) : LiteralPowers sub := by
  induction hsub with
  | self => exact h
  | part hpart _ ih => exact ih (h.part hpart)

/-- Powers are bounded exactly if the degree is.  From left to right the degree is the product of
some chain; from right to left numbers grow by at most the degree. -/
theorem growthBounded_iff {P : Platform} {exponent : Expr → Option ℚ}
    {ev : Expr → Except EvalError PyValue} (h : Interprets P exponent ev)
    (hnonneg : ∀ e k, exponent e = some k → 0 ≤ k) {expression : Str} {tree : Expr}
    (hliteral : LiteralPowers tree) (hweight : tree.weight ≤ 4 * expression.length) (bound : ℕ) :
    GrowthBounded exponent ev bound expression tree ↔ tree.degree exponent ≤ bound := by
  have hdegree := isDegree hnonneg
  constructor
  · exact fun hbounded => hdegree.chains_le_iff.mp hbounded.chains
  · intro hle
    refine ⟨hdegree.chains_le_iff.mpr hle, fun sub v n hsub hv hn => ?_⟩
    have hproduces : Produces ev sub n := ⟨hliteral.of_within hsub, v, hv, hn⟩
    calc bitLength n ≤ bound * tree.weight :=
          h.grows.bitLength_le_of_within hdegree hsub hle hproduces
      _ ≤ bound * (4 * expression.length) := Nat.mul_le_mul_left _ hweight
      _ = 4 * bound * expression.length := by ring

/-- **The bound bounds growth exactly if** the degree of the tree is within it: the largest product
that exponents above 1 make on a way down the tree.

The degree is read off the tree by recursion, and it is the chain half of `GrowthBounded` in closed
form: all chains of nested powers are within the bound exactly if the longest of them, which
`Expr.degree` computes, is.  The other half, that the whole numbers of a formula have a bit length
linear in its text, is no second condition but what follows from this one; it is where the work of
this module is.  So a formula that misses the bound does so by a chain, and both checkers can miss it,
since each looks at one `**` at a time.

The parser makes at most a node, or four bits of a literal, for each character. -/
theorem exponent_bound_iff {parse : Str → Except Message Expr}
    (hparse : ∀ expression tree, parse expression = .ok tree →
      tree.weight ≤ 4 * expression.length) (P : Platform) :
    (∀ value expression tree, validate parse expression = .ok (true, none) →
      parse expression = .ok tree →
        (GrowthBounded literalExponent (eval P value) MAX_EXPONENT expression tree ↔
          tree.degree literalExponent ≤ MAX_EXPONENT)) ∧
      ∀ values expression names tree, Hydraulics.validateAst parse expression names = .ok () →
        parse expression = .ok tree →
          (GrowthBounded (Hydraulics.exponentOf P values) (Hydraulics.eval P values)
              Hydraulics.MAX_EXPONENT expression tree ↔
            tree.degree (Hydraulics.exponentOf P values) ≤ Hydraulics.MAX_EXPONENT) := by
  constructor
  · intro value expression tree hvalid htree
    exact growthBounded_iff (Units.interprets P value) (fun _ _ => literalExponent_nonneg)
      (Units.literalPowers_of_valid hvalid htree) (hparse _ _ htree) _
  · intro values expression names tree hvalid htree
    exact growthBounded_iff (Hydraulics.interprets P values)
      (fun _ _ => Hydraulics.exponentOf_nonneg)
      (Hydraulics.literalPowers_of_valid hvalid htree) (hparse _ _ htree) _

/-! ## 8. Towers

Towers show that the degree may be anything, with each exponent at the bound. -/

/-- `((2)**64)**64` and so on. -/
def tower : ℕ → Expr
  | 0 => .constant (.int 2)
  | d + 1 => .binOp (tower d) .pow (.constant (.int 64))

def towerText : ℕ → Str
  | 0 => "2".toList
  | d + 1 => "(".toList ++ towerText d ++ ")**64".toList

/-- `pow(2, k)`. -/
def powCall (k : ℤ) : Expr :=
  .call (.name "pow".toList .load) [.constant (.int 2), .constant (.int k)] []

/-- A parser that knows these. -/
def parsePowers (expression : Str) : Except Message Expr :=
  if expression = "pow(2, 3)".toList then .ok (powCall 3)
  else if expression = "pow(2, 1000)".toList then .ok (powCall 1000)
  else if expression = towerText ((expression.length - 1) / 6) then
    .ok (tower ((expression.length - 1) / 6))
  else .error "invalid syntax".toList

theorem length_towerText (d : ℕ) : (towerText d).length = 6 * d + 1 := by
  induction d with
  | zero => rfl
  | succ d ih =>
    have hopen : "(".toList.length = 1 := by decide
    have hclose : ")**64".toList.length = 5 := by decide
    rw [towerText, List.length_append, List.length_append, ih, hopen, hclose]
    omega

theorem weight_tower (d : ℕ) : (tower d).weight = 8 * d + 2 := by
  induction d with
  | zero => decide
  | succ d ih =>
    have hliteral : (Expr.constant (.int 64)).weight = 7 := by decide
    rw [tower, Expr.weight, ih, hliteral]
    omega

theorem head?_towerText (d : ℕ) :
    (towerText d).head? = some '2' ∨ (towerText d).head? = some '(' := by
  cases d <;> simp [towerText]

theorem towerText_ne {s : Str} (h : s.head? = some 'p') (d : ℕ) : towerText d ≠ s := by
  rintro rfl
  rcases head?_towerText d with hd | hd <;> (rw [hd] at h; simp at h)

theorem parsePowers_towerText (d : ℕ) : parsePowers (towerText d) = .ok (tower d) := by
  have hd : ((towerText d).length - 1) / 6 = d := by
    rw [length_towerText]
    omega
  rw [parsePowers, if_neg (towerText_ne rfl d), if_neg (towerText_ne rfl d), hd, if_pos rfl]

/-- What the parser makes of a text weighs at most four times its length. -/
theorem weight_le_of_parsePowers {expression : Str} {tree : Expr}
    (h : parsePowers expression = .ok tree) : tree.weight ≤ 4 * expression.length := by
  unfold parsePowers at h
  split at h
  · rename_i htext
    obtain rfl := Except.ok.inj h
    rw [htext]
    decide
  · split at h
    · rename_i htext
      obtain rfl := Except.ok.inj h
      rw [htext]
      decide
    · split at h
      · rename_i htext
        obtain rfl := Except.ok.inj h
        have hlength := congrArg List.length htext
        rw [length_towerText] at hlength
        rw [weight_tower]
        omega
      · cases h

theorem validate_tower (d : ℕ) : validate parsePowers (towerText d) = .ok (true, none) := by
  have hformula : Formula Constant.ExponentLiteral (tower d) := by
    induction d with
    | zero => exact .constant _
    | succ d ih =>
      have hliteral : (Constant.int 64).IntOrFloat := le_refl (64 : ℤ)
      exact .power ih (.plain (Or.inl hliteral))
  have hlast : (towerText d).getLast? = some '2' ∨ (towerText d).getLast? = some '4' := by
    cases d with
    | zero => exact Or.inl rfl
    | succ d =>
      refine Or.inr ?_
      rw [towerText, List.getLast?_append_of_ne_nil _ (by simp)]
      rfl
  have hstrip : strip (towerText d) = towerText d := by
    refine strip_eq_self_iff.mpr ⟨fun c hc => ?_, fun c hc => ?_⟩
    · rcases head?_towerText d with h | h <;> (rw [h] at hc; obtain rfl := Option.some.inj hc; decide)
    · rcases hlast with h | h <;> (rw [h] at hc; obtain rfl := Option.some.inj hc; decide)
  have hne : towerText d ≠ [] := by
    intro hnil
    have hlen := length_towerText d
    rw [hnil] at hlen
    simp at hlen
  rw [validate, hstrip, if_neg hne, parsePowers_towerText]
  dsimp only
  rw [(checkAst_iff (tower d)).1.mpr hformula]

theorem eval_tower (value : Float64) (d : ℕ) :
    eval barePlatform value (tower d) = .ok (.int (2 ^ 64 ^ d)) := by
  induction d with
  | zero => rfl
  | succ d ih =>
    have happly : applyOp barePlatform .pow (.int (2 ^ 64 ^ d)) (.int 64) =
        .ok (.int ((2 ^ 64 ^ d) ^ 64)) := rfl
    rw [pow_succ, pow_mul]
    exact eval_binOp.mpr ⟨.pow, _, .int 64, rfl, ih, rfl, happly⟩

theorem literalExponent_tower (d : ℕ) : literalExponent (tower (d + 1)) = some 64 := by
  simp [tower, literalExponent, literalMagnitude, Constant.magnitude]

theorem degree_literal (n : ℤ) : (Expr.constant (.int n)).degree literalExponent = 1 := by
  simp [Expr.degree, factor, literalExponent]

theorem degree_tower (d : ℕ) : (tower d).degree literalExponent = 64 ^ d := by
  induction d with
  | zero => exact degree_literal 2
  | succ d ih =>
    have hone : (1 : ℚ) ≤ 64 ^ d := one_le_pow₀ (by norm_num)
    have hfactor : factor literalExponent (tower (d + 1)) = 64 := by
      rw [factor, literalExponent_tower, Option.getD_some]
      norm_num
    have hdegree : (tower (d + 1)).degree literalExponent = factor literalExponent (tower (d + 1)) *
        max ((tower d).degree literalExponent)
          (max ((Expr.constant (.int 64)).degree literalExponent) 1) := by
      rw [tower, Expr.degree]
    rw [hdegree, hfactor, ih, degree_literal, max_self, max_eq_left hone, pow_succ, mul_comm]

/-- The exponent of `pow` is what is written there. -/
theorem exponentOf_powCall (k : ℤ) :
    Hydraulics.exponentOf barePlatform [] (powCall k) = some |(k : ℚ)| := by
  have hvalue : Hydraulics.eval barePlatform [] (.constant (.int k)) = .ok (.int k) := rfl
  have hmagnitude : Hydraulics.magnitude barePlatform (.int k) = some |(k : ℚ)| :=
    Hydraulics.magnitude_int rfl
  rw [powCall, Hydraulics.exponentOf, if_pos rfl, hvalue]
  exact hmagnitude

theorem validateAst_powCall : Hydraulics.validateAst parsePowers "pow(2, 3)".toList [] = .ok () ∧
    Hydraulics.validateAst parsePowers "pow(2, 1000)".toList [] = .ok () := by
  decide +kernel

/-- `(2)**64` and `pow(2, 3)` are within the bounds. -/
theorem exponent_bound_small :
    GrowthBounded literalExponent (eval barePlatform (.ofRatio 1 1)) MAX_EXPONENT (towerText 1)
        (tower 1) ∧
      GrowthBounded (Hydraulics.exponentOf barePlatform []) (Hydraulics.eval barePlatform [])
        Hydraulics.MAX_EXPONENT "pow(2, 3)".toList (powCall 3) := by
  have hparse : ∀ expression tree, parsePowers expression = .ok tree →
      tree.weight ≤ 4 * expression.length := fun _ _ => weight_le_of_parsePowers
  have hbound := exponent_bound_iff hparse barePlatform
  constructor
  · refine (hbound.1 (.ofRatio 1 1) _ _ (validate_tower 1) (parsePowers_towerText 1)).mpr ?_
    rw [degree_tower, MAX_EXPONENT]
    norm_num
  · refine (hbound.2 [] "pow(2, 3)".toList [] (powCall 3) validateAst_powCall.1 (if_pos rfl)).mpr ?_
    have hfactor : factor (Hydraulics.exponentOf barePlatform []) (powCall 3) = 3 := by
      rw [factor, exponentOf_powCall, Option.getD_some]
      norm_num
    have hname : factor (Hydraulics.exponentOf barePlatform []) (.name "pow".toList .load) = 1 :=
      max_self 1
    have hliteral : ∀ k, factor (Hydraulics.exponentOf barePlatform []) (.constant (.int k)) = 1 :=
      fun _ => max_self 1
    rw [powCall] at hfactor ⊢
    simp only [Expr.degree, Expr.degrees, hfactor, hname, hliteral, Hydraulics.MAX_EXPONENT]
    norm_num

/-- **Accepted powers nest, and `pow` has no bound.**  No linear function of the length bounds what
accepted towers produce.  The height of a tower enters the length as a factor and the number's
length as an exponent. -/
theorem exponent_bound_escaped :
    (¬∃ a b : ℕ, ∀ expression tree n, validate parsePowers expression = .ok (true, none) →
      parsePowers expression = .ok tree →
        eval barePlatform (.ofRatio 1 1) tree = .ok (.int n) →
          bitLength n ≤ a * expression.length + b) ∧
      (validate parsePowers (towerText 2) = .ok (true, none) ∧
        ¬GrowthBounded literalExponent (eval barePlatform (.ofRatio 1 1)) MAX_EXPONENT (towerText 2)
          (tower 2)) ∧
      (Hydraulics.validateAst parsePowers "pow(2, 1000)".toList [] = .ok () ∧
        ¬GrowthBounded (Hydraulics.exponentOf barePlatform []) (Hydraulics.eval barePlatform [])
          Hydraulics.MAX_EXPONENT "pow(2, 1000)".toList (powCall 1000)) := by
  refine ⟨?_, ⟨validate_tower 2, fun hbounded => ?_⟩, validateAst_powCall.2, fun hbounded => ?_⟩
  · rintro ⟨a, b, hlinear⟩
    -- `64 ^ d` outgrows `(a + b + 1) * (6 * d + 1)` at `d = a + b`
    have hbits := hlinear _ _ _ (validate_tower (a + b)) (parsePowers_towerText (a + b))
      (eval_tower (.ofRatio 1 1) (a + b))
    rw [bitLength_two_pow, length_towerText] at hbits
    have hfour : a + b + 1 ≤ 4 ^ (a + b) := Nat.lt_pow_self (by omega)
    have hsixteen : 6 * (a + b) + 1 ≤ 16 ^ (a + b) := by
      induction a + b with
      | zero => decide
      | succ d ih => rw [pow_succ]; omega
    have hproduct : (a + b + 1) * (6 * (a + b) + 1) ≤ 64 ^ (a + b) := by
      calc (a + b + 1) * (6 * (a + b) + 1) ≤ 4 ^ (a + b) * 16 ^ (a + b) :=
            Nat.mul_le_mul hfour hsixteen
        _ = 64 ^ (a + b) := (mul_pow 4 16 (a + b)).symm
    have hlarger : a * (6 * (a + b) + 1) + b ≤ (a + b + 1) * (6 * (a + b) + 1) := by
      nlinarith [Nat.zero_le a, Nat.zero_le b]
    omega
  · have hchain := hbounded.chains [64, 64]
      (.power (literalExponent_tower 1) List.mem_cons_self (.single (literalExponent_tower 0)))
    norm_num [MAX_EXPONENT] at hchain
  · have hchain := hbounded.chains _ (.single (exponentOf_powCall 1000))
    norm_num [Hydraulics.MAX_EXPONENT] at hchain

end WitsmlViewer

/-
# The two evaluators

`app.units.engine` and `app.formulas.hydraulics` each evaluate formulas by a checker, a table of
functions and a guard for powers of its own: an exponent of at most 64 here, and the evaluator's own
limit on large powers there.

`evaluators_agree`: on the formulas of the unit engine that take no square root the two never answer
differently.  What one computes the other computes too, or refuses.

A square root is `math.sqrt` here and a power to one half there; so they may differ in the last bit,
and beyond the domain in the kind of their refusal.

The two programs were written for the same purpose and share no code.  Agreement is what one would
expect of them, and a user who moves a formula from the one place to the other relies on it.  It is
one-sided in what may be refused: the hydraulics evaluator has fewer functions and no `pi`, so it
refuses more; but it never returns another number.

The statement is about formulas that the unit engine accepts, with the value under its placeholder
as the one variable.  Nothing is claimed of formulas over several variables, which only the one of
them has.
-/
import WitsmlViewer.Powers

namespace WitsmlViewer

open Py NestedPowers WitsmlViewer.Units

/-! ## 1. Agreement

"Agrees" is a relation between two results, and it is kept by sequencing.  So the comparison is
made function by function and operator by operator, and the induction on the tree puts them
together. -/

/-- The second answers what the first does, unless it refuses to. -/
def Agrees {α : Type} (r r' : Except EvalError α) : Prop := r' = r ∨ r' = .error .invalidExpression

theorem Agrees.bind {α β : Type} {r r' : Except EvalError α} (h : Agrees r r')
    {f g : α → Except EvalError β} (hf : ∀ a, r = .ok a → Agrees (f a) (g a)) :
    Agrees (r >>= f) (r' >>= g) := by
  rcases h with rfl | rfl
  · cases hr : r' with
    | error e => exact Or.inl rfl
    | ok a => exact hf a hr
  · exact Or.inr rfl

/-- A formula without square roots. -/
def NoSqrt (tree : Expr) : Prop := ∀ ctx args keywords,
  ¬Within Expr.parts tree (.call (.name "sqrt".toList ctx) args keywords)

theorem NoSqrt.part {tree part : Expr} (h : NoSqrt tree) (hpart : part ∈ tree.parts) :
    NoSqrt part := fun ctx args keywords hsub => h ctx args keywords (.part hpart hsub)

section Evaluation

variable {P : Platform} {value : Float64}

/-- The value has the same name in both, and the constants have none there. -/
theorem evalName_agrees {id : Str} (hid : id ∈ ALLOWED_NAMES) :
    Agrees (Units.evalName value id) (Hydraulics.evalName [(VALUE_NAME, value)] id) := by
  rcases List.mem_cons.mp hid with rfl | hid
  · exact Or.inl rfl
  · rcases List.mem_cons.mp hid with rfl | hid
    · exact Or.inr rfl
    · obtain rfl := List.mem_singleton.mp hid
      exact Or.inr rfl

/-- An operator other than `**`. -/
theorem applyOp_agrees {op : BinaryOp} (hop : op ≠ .pow) (a b : PyValue) :
    Agrees (Units.applyOp P op a b) (Hydraulics.applyOp P op a b) := by
  refine Or.inl ?_
  rw [Hydraulics.applyOp]
  cases op with
  | pow => exact absurd rfl hop
  | _ => rfl

/-- A power to an accepted exponent, which only the other evaluator refuses. -/
theorem pow_agrees {a b : PyValue} (hb : SmallReal b) :
    Agrees (Units.applyOp P .pow a b) (Hydraulics.applyOp P .pow a b) := by
  have hpow : Units.applyOp P .pow a b = binary P .pow a b := hb.safePow_eq
  rw [hpow, Hydraulics.applyOp]
  split
  · exact Or.inr rfl
  · exact Or.inl rfl

theorem notCommon : ∀ id ∈ ALLOWED_FUNCTIONS, id ≠ "sqrt".toList → id ≠ "abs".toList →
    id ∉ Hydraulics.ALLOWED_FUNCS := by decide

/-- Of the functions but `sqrt`, the two have `abs` in common. -/
theorem callFunction_agrees {id : Str} (hid : id ∈ ALLOWED_FUNCTIONS) (hsqrt : id ≠ "sqrt".toList)
    (args : List PyValue) :
    Agrees (Units.callFunction P id args) (Hydraulics.callFunction P id args) := by
  by_cases habs : id = "abs".toList
  · subst habs
    exact Or.inl rfl
  · have hnone : id ∉ Hydraulics.ALLOWED_FUNCS := notCommon id hid hsqrt habs
    have hnot : id ≠ "min".toList ∧ id ≠ "max".toList ∧ id ≠ "pow".toList := by
      refine ⟨?_, ?_, ?_⟩ <;> rintro rfl <;> exact hnone (by decide)
    refine Or.inr ?_
    unfold Hydraulics.callFunction
    rw [if_neg hsqrt, if_neg habs, if_neg hnot.1, if_neg hnot.2.1, if_neg hnot.2.2]

theorem evalAll_agrees {args : List Expr} (h : ∀ e ∈ args,
    Agrees (Units.eval P value e) (Hydraulics.eval P [(VALUE_NAME, value)] e)) :
    Agrees (Units.evalAll P value args) (Hydraulics.evalAll P [(VALUE_NAME, value)] args) := by
  induction args with
  | nil => exact Or.inl rfl
  | cons e args ih =>
    rw [Units.evalAll, Hydraulics.evalAll]
    refine (h e List.mem_cons_self).bind fun v _ => ?_
    exact (ih fun e' he' => h e' (List.mem_cons_of_mem e he')).bind fun vs _ => Or.inl rfl

theorem exponent_agrees {e : Expr} (he : Exponent Constant.ExponentLiteral e) :
    Agrees (Units.eval P value e) (Hydraulics.eval P [(VALUE_NAME, value)] e) := by
  have hliteral : ∀ c, Agrees (Units.eval P value (.constant c))
      (Hydraulics.eval P [(VALUE_NAME, value)] (.constant c)) := fun c => by
    rw [Units.eval, Hydraulics.eval]
    exact Or.inl rfl
  cases he with
  | plain _ => exact hliteral _
  | signed hop _ =>
    rcases hop with rfl | rfl
    · rw [Units.eval, Hydraulics.eval]
      exact (hliteral _).bind fun v _ => Or.inl rfl
    · rw [Units.eval, Hydraulics.eval]
      exact (hliteral _).bind fun v _ => Or.inl rfl

/-- **The evaluations agree**, node by node.  The two cases that are not routine are the power,
whose guards differ, and the call, whose tables do. -/
theorem eval_agrees {tree : Expr} (h : Formula Constant.ExponentLiteral tree)
    (hsqrt : NoSqrt tree) :
    Agrees (Units.eval P value tree) (Hydraulics.eval P [(VALUE_NAME, value)] tree) := by
  induction h with
  | constant c =>
    rw [Units.eval, Hydraulics.eval]
    exact Or.inl rfl
  | name hid =>
    rw [Units.eval, Hydraulics.eval]
    exact evalName_agrees hid
  | unary hop _ ih =>
    have hoperand := ih (hsqrt.part (List.mem_singleton_self _))
    rcases hop with rfl | rfl
    · rw [Units.eval, Hydraulics.eval]
      exact hoperand.bind fun v _ => Or.inl rfl
    · rw [Units.eval, Hydraulics.eval]
      exact hoperand.bind fun v _ => Or.inl rfl
  | @binary l r op hop _ _ ihl ihr =>
    have hl := ihl (hsqrt.part List.mem_cons_self)
    have hr := ihr (hsqrt.part (List.mem_cons_of_mem _ (List.mem_singleton_self _)))
    rw [Units.eval, Hydraulics.eval]
    cases ho : op.binary? with
    | none => exact Or.inl rfl
    | some o =>
      have hne : o ≠ .pow := by
        rintro rfl
        obtain rfl : op = .pow := by cases op <;> first | rfl | cases ho
        exact absurd hop (by decide)
      exact hl.bind fun a _ => hr.bind fun b _ => applyOp_agrees hne a b
  | power _ he ih =>
    have hbase := ih (hsqrt.part List.mem_cons_self)
    rw [Units.eval, Hydraulics.eval]
    exact hbase.bind fun a _ => (exponent_agrees he).bind fun b hb => pow_agrees (.of_eval he hb)
  | @call id args hid _ ih =>
    have hname : id ≠ "sqrt".toList := by
      rintro rfl
      exact hsqrt _ _ _ (.self _)
    have hargs := evalAll_agrees fun e he => ih e he
      (hsqrt.part (List.mem_cons_of_mem _ (List.mem_append_left _ he)))
    rw [Units.eval, Hydraulics.eval]
    exact hargs.bind fun vs _ => callFunction_agrees hid hname vs

end Evaluation

/-! ## 2. The engines

What is left is the conversion of the result to a float, and the exceptions around it, which the
engines sort in different ways.  That concerns failures only, and of these the statement says
nothing. -/

section Engines

variable {P : Platform} {parse : Str → Except Message Expr} {expression : Str} {tree : Expr}
  {value : Float64}

/-- `convert` of an accepted formula is its evaluation. -/
theorem convert_of_valid (hvalid : validate parse expression = .ok (true, none))
    (hparse : parse expression = .ok tree) :
    convert P parse value expression = evaluate P value tree := by
  refine convert_accepted (fun hnil => ?_) hparse (checkAst_of_valid hvalid hparse)
  rw [validate, if_pos hnil] at hvalid
  cases hvalid

/-- A conversion that succeeds is an evaluation and a float. -/
theorem evaluate_eq_ok {x : Float64} :
    evaluate P value tree = .ok x ↔ ∃ v, Units.eval P value tree = .ok v ∧ toFloat v = .ok x := by
  rw [evaluate]
  constructor
  · intro h
    split at h
    any_goals cases h
    rename_i v hv
    refine ⟨v, hv, ?_⟩
    split at h
    · rename_i y hy
      rw [hy, Except.ok.inj h]
    all_goals cases h
  · rintro ⟨v, hv, hx⟩
    rw [hv]
    dsimp only
    rw [hx]

theorem safeEval_eq_ok {x : Float64} {values : Dict Str Float64}
    (h : Hydraulics.safeEval P parse expression values = .ok x)
    (hparse : parse expression = .ok tree) :
    ∃ v, Hydraulics.eval P values tree = .ok v ∧ toFloat v = .ok x := by
  rw [Hydraulics.safeEval, hparse] at h
  split at h
  any_goals cases h
  rename_i htree
  obtain rfl := Except.ok.inj htree
  split at h
  any_goals cases h
  rename_i v hv
  refine ⟨v, hv, ?_⟩
  split at h
  · rename_i y hy
    rw [hy, Except.ok.inj h]
  all_goals cases h

end Engines

end WitsmlViewer

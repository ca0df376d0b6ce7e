/-
# The formula endpoint (`app.api.formulas`)

A formula of the library is computed over variables that are bound, each to the newest reading of a
curve in the warm store, to a value of the request, or to its default.  A reading that is a text
binds nothing.

The endpoint turns a `FormulaError` into a refusal; whatever else is raised it lets through, and
`safe_eval` lets through what `float` raises on a whole number beyond its range.  No formula of the
library comes that far: a type system for formulas (`kind`) tells those whose numbers are never
whole, and it is sound (`eval_sound`).

`computeFormula_spec`: a computation answers with the value of the formula over the variables as
they are bound, and refuses exactly if that is no float.

Variables are floats, and what is computed with a float is one.  The type system follows this up a
tree; it has two kinds, for what may be whole and what is not, and all formulas of the library have
the second.  It is a property of the library as it stands: a formula added to it is covered if it
has a kind, and `library_accepted` is where that would have to be checked.

The readings come from the warm store after any calls of it, and what a read of it returns is known
from `WarmStore`.
-/
import WitsmlViewer.Powers
import WitsmlViewer.WarmStore

namespace WitsmlViewer
namespace Hydraulics

open Py WitsmlViewer.Units

/-! ## 1. Kinds

Kinds are computed from the tree alone, given which names are bound.  `%` has none, since it
refuses complex numbers, and a call has one only for the functions and numbers of arguments that
the library uses. -/

/-- Some number, or one that is not whole. -/
inductive Kind
  | number | inexact
deriving DecidableEq

namespace Kind

/-- A value of the kind. -/
def Of (k : Kind) (v : PyValue) : Prop := v.isNumber = true ∧ (k = .inexact → v.int? = none)

/-- The kind of what comes of two operands. -/
def join : Kind → Kind → Kind
  | .number, .number => .number
  | _, _ => .inexact

def ofConstant : Constant → Option Kind
  | .bool _ | .int _ => some .number
  | .float _ _ | .complex _ _ => some .inexact
  | _ => none

/-- `%` does not take all numbers. -/
def ofOperator (op : Operator) (k l : Kind) : Option Kind :=
  match op with
  | .add | .sub | .mult | .pow => some (k.join l)
  | .div => some .inexact
  | _ => none

def ofCall (id : Str) (ks : List Kind) : Option Kind :=
  match ks with
  | [k] => if id = "sqrt".toList then some .inexact else if id = "abs".toList then some k else none
  | [k, l] => if id = "pow".toList then some (k.join l) else none
  | _ => none

end Kind

mutual

/-- The kind of a formula over the names that are bound. -/
def kind (names : List Str) : Expr → Option Kind
  | .constant c => Kind.ofConstant c
  | .name id _ => if id ∈ names then some .inexact else none
  | .unaryOp .uSub operand => kind names operand
  | .unaryOp .uAdd operand => kind names operand
  | .binOp left op right => do Kind.ofOperator op (← kind names left) (← kind names right)
  | .call (.name id _) args [] => do Kind.ofCall id (← kinds names args)
  | _ => none

/-- The kinds of the arguments of a call. -/
def kinds (names : List Str) : List Expr → Option (List Kind)
  | [] => some []
  | e :: es => do
    let k ← kind names e
    let ks ← kinds names es
    return k :: ks

end

/-! ## 2. Soundness

`Sound` says two things of an evaluation: it raises no `TypeError`, and a value that it ends in is
of the kind.  Arithmetic faults are allowed, as the endpoint expects them. -/

section Soundness

variable {P : Platform} {values : Dict Str Float64} {names : List Str} {k l : Kind}

/-- An evaluation that applies nothing to what it does not take, and ends in a value of the kind if
it ends in one. -/
def Sound (k : Kind) (r : Except EvalError PyValue) : Prop :=
  r ≠ .error .typeError ∧ ∀ v, r = .ok v → k.Of v

theorem Sound.bind {r : Except EvalError PyValue} (h : Sound k r)
    {f : PyValue → Except EvalError PyValue} (hf : ∀ v, k.Of v → Sound l (f v)) :
    Sound l (r >>= f) := by
  cases r with
  | error e =>
    refine ⟨fun he => h.1 ?_, fun v hv => by cases hv⟩
    rw [Except.error.inj he]
  | ok v => exact hf v (h.2 v rfl)

theorem Kind.Of.exists_number {v : PyValue} (h : k.Of v) : ∃ x, v.number? = some x :=
  Option.isSome_iff_exists.mp h.1


theorem isNumber_ofNumber (x : Number) : (PyValue.ofNumber x).isNumber = true := by
  cases x <;> rfl

/-- A whole number is of the wider kind only. -/
theorem Kind.Of.eq_number {v : PyValue} (h : k.Of v) {n : ℤ} (hn : v.int? = some n) :
    k = .number := by
  cases k with
  | number => rfl
  | inexact =>
    rw [h.2 rfl] at hn
    cases hn

theorem intOp_div_ne_int (libm : Libm) (m k n : ℤ) : intOp libm .div m k ≠ .ok (.int n) := by
  intro h
  rw [intOp] at h
  split_ifs at h
  cases h

/-- **An operator on two numbers**: a whole one comes of whole ones, and of no division. -/
theorem binary_sound {op : BinaryOp} {a b : PyValue} (ha : k.Of a) (hb : l.Of b)
    (hop : op ≠ .mod) : Sound (if op = .div then .inexact else k.join l) (binary P op a b) := by
  obtain ⟨x, hx⟩ := ha.exists_number
  obtain ⟨y, hy⟩ := hb.exists_number
  have hbinary : binary P op a b = (raising (x.op P.libm op y)).map .ofNumber := by
    rw [binary, hx, hy]
    exact if_neg fun h => hop h.1
  rw [hbinary]
  refine ⟨by simp, fun v hv => ?_⟩
  obtain ⟨r, hr, rfl⟩ := map_eq_ok.mp hv
  refine ⟨isNumber_ofNumber r, fun hkind => Option.eq_none_iff_forall_ne_some.mpr fun n hn => ?_⟩
  obtain rfl := int?_ofNumber hn
  obtain ⟨m, n', rfl, rfl, -⟩ := op_int (raising_eq_ok.mp hr)
  obtain rfl := ha.eq_number (number?_eq_int.mp hx)
  obtain rfl := hb.eq_number (number?_eq_int.mp hy)
  split at hkind
  · rename_i hdiv
    subst hdiv
    exact intOp_div_ne_int P.libm m n' n (raising_eq_ok.mp hr)
  · cases hkind

/-- An entry of the operator table; the evaluator may refuse it. -/
theorem applyOp_sound {op : Operator} {o : BinaryOp} (ho : op.binary? = some o) {m : Kind}
    (hop : Kind.ofOperator op k l = some m) {a b : PyValue} (ha : k.Of a) (hb : l.Of b) :
    Sound m (applyOp P o a b) := by
  have hbinary : Sound m (binary P o a b) := by
    cases op with
    | add | sub | mult | pow =>
      obtain rfl := Option.some.inj ho
      obtain rfl := Option.some.inj hop
      exact binary_sound ha hb (by decide)
    | div =>
      obtain rfl := Option.some.inj ho
      obtain rfl := Option.some.inj hop
      exact binary_sound ha hb (by decide)
    | _ => cases hop
  rw [applyOp]
  split
  · exact ⟨by simp, fun v hv => by cases hv⟩
  · exact hbinary

theorem absolute_sound {v : PyValue} (hv : k.Of v) :
    Sound k ((absolute P v).map .ofNumber) := by
  refine ⟨?_, fun w hw => ?_⟩
  · rw [ne_eq, map_eq_typeError, absolute_typeError, hv.1]
    decide
  · obtain ⟨r, hr, rfl⟩ := map_eq_ok.mp hw
    refine ⟨isNumber_ofNumber r, fun hk => Option.eq_none_iff_forall_ne_some.mpr fun n hn => ?_⟩
    obtain rfl := int?_ofNumber hn
    obtain ⟨m, hm, -⟩ := absolute_int hr
    rw [hv.2 hk] at hm
    cases hm

theorem unary_sound {negate : Bool} {v : PyValue} (hv : k.Of v) : Sound k (unary negate v) := by
  refine ⟨?_, fun w hw => ?_⟩
  · rw [ne_eq, unary_typeError, hv.1]
    decide
  · obtain ⟨x, hx⟩ := hv.exists_number
    have hnumber : w.isNumber = true := by
      rw [unary, hx] at hw
      rw [← Except.ok.inj hw]
      exact isNumber_ofNumber _
    refine ⟨hnumber, fun hk => Option.eq_none_iff_forall_ne_some.mpr fun n hn => ?_⟩
    obtain ⟨m, hm, -⟩ := unary_int hw hn
    rw [hv.2 hk] at hm
    cases hm

/-- **A function on arguments of its kinds.** -/
theorem callFunction_sound {id : Str} {ks : List Kind} {m : Kind} (hm : Kind.ofCall id ks = some m)
    {vs : List PyValue} (hvs : List.Forall₂ Kind.Of ks vs) : Sound m (callFunction P id vs) := by
  unfold Kind.ofCall at hm
  split at hm
  · -- `sqrt` and `abs`
    obtain ⟨v, ws, hv, hws, rfl⟩ := List.forall₂_cons_left_iff.mp hvs
    obtain rfl := List.forall₂_nil_left_iff.mp hws
    split at hm
    · rename_i hid
      obtain rfl := Option.some.inj hm
      rw [callFunction, if_pos hid]
      have hhalf : Kind.inexact.Of (.float (.ofRatio 1 2)) := ⟨rfl, fun _ => rfl⟩
      rename_i k
      have h : Sound (k.join .inexact) (binary P .pow v (.float (.ofRatio 1 2))) :=
        binary_sound hv hhalf (by decide)
      cases k <;> exact h
    · rename_i hid
      split at hm
      · rename_i habs
        obtain rfl := Option.some.inj hm
        rw [callFunction, if_neg hid, if_pos habs]
        exact absolute_sound hv
      · cases hm
  · -- `pow`
    obtain ⟨v, rest, hv, hrest, rfl⟩ := List.forall₂_cons_left_iff.mp hvs
    obtain ⟨w, ws, hw, hws, rfl⟩ := List.forall₂_cons_left_iff.mp hrest
    obtain rfl := List.forall₂_nil_left_iff.mp hws
    split at hm
    · rename_i hid
      subst hid
      obtain rfl := Option.some.inj hm
      exact binary_sound hv hw (by decide)
    · cases hm
  · cases hm

/-- The names that are bound to values. -/
def Binds (values : Dict Str Float64) (names : List Str) : Prop :=
  ∀ id ∈ names, ∃ x, values.get? id = some x

mutual

/-- **The kinds are sound.**  A formula that has a kind applies nothing to what it does not take,
and what it evaluates to is of its kind.  The induction is on the tree; arguments are evaluated
from left to right, and the lemma below goes with it. -/
theorem eval_sound (hnames : Binds values names) : ∀ (e : Expr) {k : Kind},
    kind names e = some k → Sound k (eval P values e)
  | .constant c, k, hk => by
    rw [kind] at hk
    rw [eval]
    split
    · exact ⟨by simp, fun v hv => by cases hv⟩
    · refine ⟨by simp, fun v hv => ?_⟩
      obtain rfl := Except.ok.inj hv
      cases c with
      | bool b | int n =>
        obtain rfl := Option.some.inj hk
        exact ⟨rfl, fun h => by cases h⟩
      | float x h | complex re im =>
        obtain rfl := Option.some.inj hk
        exact ⟨rfl, fun _ => rfl⟩
      | _ => cases hk
  | .name id ctx, k, hk => by
    rw [kind] at hk
    split at hk
    · rename_i hid
      obtain rfl := Option.some.inj hk
      obtain ⟨x, hx⟩ := hnames id hid
      rw [eval, evalName, hx]
      refine ⟨by simp, fun v hv => ?_⟩
      obtain rfl := Except.ok.inj hv
      exact ⟨rfl, fun _ => rfl⟩
    · cases hk
  | .unaryOp op operand, k, hk => by
    cases op with
    | uSub =>
      rw [kind] at hk
      rw [eval]
      exact (eval_sound hnames operand hk).bind fun v hv => unary_sound hv
    | uAdd =>
      rw [kind] at hk
      rw [eval]
      exact (eval_sound hnames operand hk).bind fun v hv => unary_sound hv
    | _ => simp [kind] at hk
  | .binOp left op right, m, hk => by
    rw [kind] at hk
    obtain ⟨k, hleft, hk⟩ := Option.bind_eq_some_iff.mp hk
    obtain ⟨l, hright, hop⟩ := Option.bind_eq_some_iff.mp hk
    rw [eval]
    split
    · rename_i o ho
      refine (eval_sound hnames left hleft).bind fun a ha => ?_
      exact (eval_sound hnames right hright).bind fun b hb => applyOp_sound ho hop ha hb
    · exact ⟨by simp, fun v hv => by cases hv⟩
  | .call (.name id ctx) args [], m, hk => by
    rw [kind] at hk
    obtain ⟨ks, hargs, hcall⟩ := Option.bind_eq_some_iff.mp hk
    rw [eval]
    obtain ⟨herror, hvalues⟩ := evalAll_sound hnames args hargs
    cases hvs : evalAll P values args with
    | error e =>
      refine ⟨fun h => herror ?_, fun v hv => by cases hv⟩
      rw [hvs, Except.error.inj h]
    | ok vs => exact callFunction_sound hcall (hvalues vs hvs)
  | .call (.name id ctx) args (keyword :: keywords), m, hk => by simp [kind] at hk
  | .call (.binOp _ _ _) _ _, m, hk | .call (.unaryOp _ _) _ _, m, hk
  | .call (.constant _) _ _, m, hk | .call (.call _ _ _) _ _, m, hk
  | .call (.other _ _ _) _ _, m, hk => by simp [kind] at hk
  | .other cls parts ctx, m, hk => by simp [kind] at hk

/-- The same of arguments. -/
theorem evalAll_sound (hnames : Binds values names) : ∀ (args : List Expr) {ks : List Kind},
    kinds names args = some ks → evalAll P values args ≠ .error .typeError ∧
      ∀ vs, evalAll P values args = .ok vs → List.Forall₂ Kind.Of ks vs
  | [], ks, hks => by
    obtain rfl : [] = ks := Option.some.inj hks
    refine ⟨by simp [evalAll], fun vs hvs => ?_⟩
    obtain rfl : [] = vs := Except.ok.inj hvs
    exact .nil
  | e :: es, ms, hks => by
    rw [kinds] at hks
    obtain ⟨k, hk, hks⟩ := Option.bind_eq_some_iff.mp hks
    obtain ⟨ks, hes, hms⟩ := Option.bind_eq_some_iff.mp hks
    obtain rfl : k :: ks = ms := Option.some.inj hms
    obtain ⟨herror, hvalue⟩ : Sound k (eval P values e) := eval_sound hnames e hk
    obtain ⟨herrors, hvalues⟩ := evalAll_sound hnames es hes
    rw [evalAll]
    refine ⟨fun h => ?_, fun vs hvs => ?_⟩
    · rcases bind_eq_error.mp h with h | ⟨v, -, h⟩
      · exact herror h
      · rcases bind_eq_error.mp h with h | ⟨ws, -, h⟩
        · exact herrors h
        · cases h
    · obtain ⟨v, hv, h⟩ := bind_eq_ok.mp hvs
      obtain ⟨ws, hws, h⟩ := bind_eq_ok.mp h
      obtain rfl : v :: ws = vs := Except.ok.inj h
      exact .cons (hvalue v hv) (hvalues ws hws)

end

/-- **What `safe_eval` makes of a formula whose numbers are never whole**: its value if that is a
float, and a `FormulaError` otherwise. -/
theorem safeEval_of_kind {parse : Str → Except Message Expr} {expression : Str} {tree : Expr}
    (hparse : parse expression = .ok tree)
    (hvalid : validateAst parse expression (values.map Prod.fst ++ ALLOWED_FUNCS) = .ok ())
    (hkind : kind names tree = some .inexact) (hnames : Binds values names) :
    (∀ x, eval P values tree = .ok (.float x) → safeEval P parse expression values = .ok x) ∧
      ((∀ x, eval P values tree ≠ .ok (.float x)) →
        ∃ message, safeEval P parse expression values = .error (.formulaError message)) := by
  obtain ⟨-, hvalue⟩ : Sound .inexact (eval P values tree) := eval_sound hnames tree hkind
  rw [safeEval, hvalid, hparse]
  dsimp only
  constructor
  · intro x hx
    rw [hx]
    rfl
  · intro hnone
    cases heval : eval P values tree with
    | error e =>
      cases e with
      | numeric fault => cases fault <;> exact ⟨_, rfl⟩
      | _ => exact ⟨_, rfl⟩
    | ok v =>
      obtain ⟨hnumber, hwhole⟩ := hvalue v heval
      cases v with
      | float x => exact absurd heval (hnone x)
      | complex z => exact ⟨_, rfl⟩
      | bool b | int n => cases hwhole rfl
      | _ => cases hnumber

end Soundness

/-! ## 3. The library

The library as the source lists it, with each expression's tree beside it.  The trees are what
`ast.parse` is assumed to make of the texts; everything that is said of the library is checked by
computing over them. -/

/-- An input of a formula. -/
structure VarDef where
  name : Str
  default : Option Float64
deriving DecidableEq

structure FormulaDef where
  key : Str
  expression : Str
  resultUnit : Str
  vars : List VarDef
deriving DecidableEq

def FormulaDef.varNames (f : FormulaDef) : List Str := f.vars.map VarDef.name

/-- `VarDef` with a decimal for its default. -/
def varDef (name : String) (num : ℤ) (den : ℕ) : VarDef := ⟨name.toList, some (.ofRatio num den)⟩

def FORMULAS : List FormulaDef :=
  [⟨"annular_velocity".toList, "(24.5 * Q) / (Dh**2 - Dp**2)".toList, "ft/min".toList,
      [varDef "Q" 600 1, varDef "Dh" 85 10, varDef "Dp" 5 1]⟩,
    ⟨"ecd".toList, "MW + (Pann / (0.052 * TVD))".toList, "ppg".toList,
      [varDef "MW" 95 10, varDef "Pann" 250 1, varDef "TVD" 10000 1]⟩,
    ⟨"critical_velocity".toList,
      "(1.08 * PV + 1.08 * sqrt(PV**2 + 9.3 * MW * Dh**2 * YP)) / (MW * Dh)".toList,
      "ft/min".toList,
      [varDef "PV" 20 1, varDef "YP" 15 1, varDef "MW" 95 10, varDef "Dh" 85 10]⟩,
    ⟨"bit_pressure_drop".toList, "(Q**2 * MW) / (12031 * TFA**2)".toList, "psi".toList,
      [varDef "Q" 600 1, varDef "MW" 95 10, varDef "TFA" 5 10]⟩,
    ⟨"total_hydraulic_hp".toList, "(P * Q) / 1714".toList, "hhp".toList,
      [varDef "P" 3000 1, varDef "Q" 600 1]⟩,
    ⟨"hsi".toList, "(1.27 * HHPbit) / Dbit**2".toList, "hp/in2".toList,
      [varDef "HHPbit" 800 1, varDef "Dbit" 85 10]⟩,
    ⟨"pct_hhp_bit".toList, "(Pbit / P) * 100".toList, "%".toList,
      [varDef "Pbit" 1500 1, varDef "P" 3000 1]⟩,
    ⟨"impact_force".toList, "(GPM * MW * JV) / 1932".toList, "lbf".toList,
      [varDef "GPM" 120 1, varDef "MW" 95 10, varDef "JV" 250 1]⟩]

def FORMULAS_BY_KEY : Dict Str FormulaDef := FORMULAS.foldl (fun d f => d.set f.key f) []

theorem ofRatio_ne_nan (num : ℤ) (den : ℕ) : Float64.ofRatio num den ≠ .nan :=
  Float64.ofUnits_ne_nan _ _

def nameNode (id : String) : Expr := .name id.toList .load

def wholeNode (n : ℤ) : Expr := .constant (.int n)

def decimalNode (num : ℤ) (den : ℕ) : Expr :=
  .constant (.float (.ofRatio num den) (ofRatio_ne_nan num den))

/-- `id**2`. -/
def squareNode (id : String) : Expr := .binOp (nameNode id) .pow (wholeNode 2)

/-- What the parser makes of the expressions of the library. -/
def trees : List Expr :=
  [.binOp (.binOp (decimalNode 245 10) .mult (nameNode "Q")) .div
      (.binOp (squareNode "Dh") .sub (squareNode "Dp")),
    .binOp (nameNode "MW") .add
      (.binOp (nameNode "Pann") .div (.binOp (decimalNode 52 1000) .mult (nameNode "TVD"))),
    .binOp
      (.binOp (.binOp (decimalNode 108 100) .mult (nameNode "PV")) .add
        (.binOp (decimalNode 108 100) .mult
          (.call (nameNode "sqrt")
            [.binOp (squareNode "PV") .add
              (.binOp (.binOp (.binOp (decimalNode 93 10) .mult (nameNode "MW")) .mult
                (squareNode "Dh")) .mult (nameNode "YP"))] [])))
      .div (.binOp (nameNode "MW") .mult (nameNode "Dh")),
    .binOp (.binOp (squareNode "Q") .mult (nameNode "MW")) .div
      (.binOp (wholeNode 12031) .mult (squareNode "TFA")),
    .binOp (.binOp (nameNode "P") .mult (nameNode "Q")) .div (wholeNode 1714),
    .binOp (.binOp (decimalNode 127 100) .mult (nameNode "HHPbit")) .div (squareNode "Dbit"),
    .binOp (.binOp (nameNode "Pbit") .div (nameNode "P")) .mult (wholeNode 100),
    .binOp (.binOp (.binOp (nameNode "GPM") .mult (nameNode "MW")) .mult (nameNode "JV")) .div
      (wholeNode 1932)]

/-- **The library is accepted**, its formulas have a kind, and their variables are told apart and
have defaults. -/
theorem library_accepted : ∀ e ∈ FORMULAS.zip trees,
    validateAst (fun _ => .ok e.2) e.1.expression (e.1.varNames ++ ALLOWED_FUNCS) = .ok () ∧
      kind e.1.varNames e.2 = some .inexact ∧ e.1.varNames.Nodup ∧
      ∀ var ∈ e.1.vars, var.default.isSome = true := by decide +kernel

theorem formulasByKey_get? : ∀ f ∈ FORMULAS, FORMULAS_BY_KEY.get? f.key = some f := by
  decide +kernel

theorem formulasByKey_keys : FORMULAS_BY_KEY.map Prod.fst = FORMULAS.map FormulaDef.key := by
  decide +kernel

/-! ## 4. The endpoint

The request, the response, and what comes between them.  A binding names a curve of the request's
well; in a request without a well nothing is bound to a curve. -/

/-- `compute`. -/
def compute (P : Platform) (parse : Str → Except Message Expr) (formulaKey : Str)
    (values : Dict Str Float64) : Except SafeEvalError Float64 :=
  match FORMULAS_BY_KEY.get? formulaKey with
  | none => .error (.formulaError ("unknown formula '".toList ++ formulaKey ++ "'".toList))
  | some fdef => do
    let resolved ← fdef.vars.foldlM (fun (resolved : Dict Str Float64) var =>
      ((values.get? var.name).or var.default).elim
        (.error (.formulaError ("missing value for '".toList ++ var.name ++ "'".toList)))
        fun x => .ok (resolved.set var.name x)) []
    safeEval P parse fdef.expression resolved

structure ComputeRequest where
  values : Option (Dict Str Float64)
  wellUid : Option Str
  bindings : Option (Dict Str Str)

structure ComputeResponse where
  key : Str
  result : Float64
  resultUnit : Str
  used : Dict Str Float64
deriving DecidableEq

/-- `_live_value`. -/
def liveValue (warm : WarmStore) (wellUid mnemonic : Str) : Option Float64 :=
  ((warm.recent wellUid (some [mnemonic]) (some 1)).get? mnemonic).bind fun samples =>
    samples.getLast?.bind CurveSample.value

/-- The curve that a variable is bound to, with its well. -/
def ComputeRequest.binding (payload : ComputeRequest) (var : VarDef) : Option (Str × Str) :=
  (((payload.bindings.getD []).get? var.name).filter (· ≠ [])).bind fun mnemonic =>
    (payload.wellUid.filter (· ≠ [])).map fun wellUid => (wellUid, mnemonic)

/-- The loop of `compute_formula`. -/
def resolve (warm : WarmStore) (payload : ComputeRequest) (vars : List VarDef) :
    Dict Str Float64 :=
  vars.foldl (fun resolved var =>
    let live := (payload.binding var).bind fun curve => liveValue warm curve.1 curve.2
    (live.or (((payload.values.getD []).get? var.name).or var.default)).elim resolved
      (resolved.set var.name)) []

inductive ComputeError
  | http (status : ℕ) (detail : Str)
  | raised (e : EvalError)
deriving DecidableEq

/-- `compute_formula`. -/
def computeFormula (P : Platform) (parse : Str → Except Message Expr) (warm : WarmStore) (key : Str)
    (payload : ComputeRequest) : Except ComputeError ComputeResponse :=
  match FORMULAS_BY_KEY.get? key with
  | none => .error (.http 404 ("unknown formula '".toList ++ key ++ "'".toList))
  | some fdef =>
    match compute P parse key (resolve warm payload fdef.vars) with
    | .ok result => .ok ⟨key, result, fdef.resultUnit, resolve warm payload fdef.vars⟩
    | .error (.formulaError message) => .error (.http 400 message)
    | .error (.raised e) => .error (.raised e)

/-! ## 5. What the variables are bound to

Two loops over the variables, one of which fails at the first that has no value.  Both leave a
dictionary with an entry for each variable, in their order, as variables have distinct names. -/

section Bindings

variable {choose : VarDef → Option Float64} {vars : List VarDef}

theorem set_new {κ α : Type} [BEq κ] {d : Dict κ α} {k : κ} (v : α)
    (hk : ∀ e ∈ d, (e.1 == k) = false) : d.set k v = d ++ [(k, v)] := by
  induction d with
  | nil => rfl
  | cons e d ih =>
    rw [Dict.set, if_neg (by simp [hk e List.mem_cons_self]),
      ih fun e' he' => hk e' (List.mem_cons_of_mem e he'), List.cons_append]

/-- A loop that binds distinct variables, each to what is chosen for it. -/
theorem foldl_bind (hnodup : (vars.map VarDef.name).Nodup) {value : VarDef → Float64}
    (hchoose : ∀ var ∈ vars, choose var = some (value var)) :
    vars.foldl (fun resolved var => (choose var).elim resolved (Dict.set resolved var.name))
      [] = vars.map fun var => (var.name, value var) := by
  induction vars using List.reverseRecOn with
  | nil => rfl
  | append_singleton vars var ih =>
    rw [List.map_append, List.nodup_append] at hnodup
    rw [List.foldl_append, List.foldl_cons, List.foldl_nil,
      ih hnodup.1 fun v hv => hchoose v (List.mem_append_left _ hv), hchoose var (by simp),
      Option.elim_some, List.map_append, List.map_singleton]
    refine set_new _ fun e he => beq_false_of_ne fun heq => ?_
    obtain ⟨v, hv, rfl⟩ := List.mem_map.mp he
    exact hnodup.2.2 _ (List.mem_map_of_mem hv) _ (by simp) heq

/-- The same with a loop that may fail. -/
theorem foldlM_bind {ε : Type} (error : VarDef → ε)
    (hnodup : (vars.map VarDef.name).Nodup) {value : VarDef → Float64}
    (hchoose : ∀ var ∈ vars, choose var = some (value var)) :
    vars.foldlM (fun resolved var => (choose var).elim (Except.error (error var))
      fun x => .ok (Dict.set resolved var.name x)) [] =
        .ok (vars.map fun var => (var.name, value var)) := by
  rw [← foldl_bind hnodup hchoose]
  generalize ([] : Dict Str Float64) = resolved
  clear hnodup
  induction vars generalizing resolved with
  | nil => rfl
  | cons var vars ih =>
    have hvar := hchoose var List.mem_cons_self
    rw [List.foldlM_cons, List.foldl_cons, hvar, Option.elim_some]
    exact ih (fun v hv => hchoose v (List.mem_cons_of_mem var hv)) _

theorem get?_map_name (hnodup : (vars.map VarDef.name).Nodup) (value : VarDef → Float64)
    {var : VarDef} (hvar : var ∈ vars) :
    Dict.get? (vars.map fun var => (var.name, value var)) var.name = some (value var) := by
  refine Dict.get?_of_mem (fun _ _ => eq_of_beq) (beq_self_eq_true _) ?_ (List.mem_map_of_mem hvar)
  refine List.pairwise_map.mpr ((List.pairwise_map.mp hnodup).imp fun hne => ?_)
  exact beq_false_of_ne hne

end Bindings

/-! ## 6. Computations

The warm store is described by the calls that have been made of it (`AppendLog`), so that "the
newest reading" is said without reference to the buffers. -/

/-- What a variable is bound to: the newest reading of its curve, what the request gives for it, or
its default. -/
def chosen (log : AppendLog) (payload : ComputeRequest) (var : VarDef) : Option Float64 :=
  ((payload.binding var).bind fun curve =>
    (log.samples curve.1 curve.2).getLast?.bind CurveSample.value).or
    (((payload.values.getD []).get? var.name).or var.default)

/-- The newest reading of a curve.  A value that is a text or missing counts for none, and the next
older one is not asked for. -/
theorem liveValue_eq {maxSamples : ℕ} {warm : WarmStore} {log : AppendLog}
    (h : Refines maxSamples warm log) (hpos : 1 ≤ maxSamples) (wellUid mnemonic : Str) :
    liveValue warm wellUid mnemonic =
      (log.samples wellUid mnemonic).getLast?.bind CurveSample.value := by
  rw [liveValue, h.get?_recent hpos wellUid mnemonic (some [mnemonic]) (by simp)]
  have hasked : Requested (some [mnemonic]) mnemonic := Or.inr (by simp)
  by_cases hcurve : mnemonic ∈ log.curves wellUid
  · rw [if_pos ⟨hasked, hcurve⟩, Option.bind_some, Option.getD_some, min_eq_left hpos]
    have hne := AppendLog.mem_curves.mp hcurve
    congr 1
    rw [lastN, List.getLast?_drop, if_neg]
    have hlen := List.length_pos_iff.mpr hne
    omega
  · rw [if_neg fun hboth => hcurve hboth.2]
    have hnil : log.samples wellUid mnemonic = [] := by
      by_contra hne
      exact hcurve (AppendLog.mem_curves.mpr hne)
    rw [hnil]
    rfl

/-- The loop of the endpoint binds each variable to what is chosen for it. -/
theorem resolve_eq {maxSamples : ℕ} {warm : WarmStore} {log : AppendLog}
    (h : Refines maxSamples warm log) (hpos : 1 ≤ maxSamples) {payload : ComputeRequest}
    {vars : List VarDef} (hnodup : (vars.map VarDef.name).Nodup) {value : VarDef → Float64}
    (hchosen : ∀ var ∈ vars, chosen log payload var = some (value var)) :
    resolve warm payload vars = vars.map fun var => (var.name, value var) := by
  rw [← foldl_bind hnodup hchosen, resolve]
  simp only [liveValue_eq h hpos, chosen]

/-- `compute` takes the values as they are, if there is one for each variable. -/
theorem compute_eq (P : Platform) (parse : Str → Except Message Expr) {f : FormulaDef}
    (hf : FORMULAS_BY_KEY.get? f.key = some f) (hnodup : f.varNames.Nodup)
    (value : VarDef → Float64) :
    compute P parse f.key (f.vars.map fun var => (var.name, value var)) =
      safeEval P parse f.expression (f.vars.map fun var => (var.name, value var)) := by
  have hgiven : ∀ var ∈ f.vars,
      (Dict.get? (f.vars.map fun var => (var.name, value var)) var.name).or var.default =
        some (value var) := fun var hvar => by
    rw [get?_map_name hnodup value hvar]
    rfl
  rw [compute, hf]
  dsimp only
  rw [foldlM_bind _ hnodup hgiven]
  rfl

/-- A parser that knows the library. -/
def parseLibrary (expression : Str) : Except Message Expr :=
  ((FORMULAS.zip trees).find? fun e => e.1.expression = expression).elim
    (.error "invalid syntax".toList) fun e => .ok e.2

theorem parseLibrary_eq : ∀ e ∈ FORMULAS.zip trees, parseLibrary e.1.expression = .ok e.2 := by
  repeat' first
    | exact List.forall_mem_nil _
    | refine List.forall_mem_cons.mpr ⟨rfl, ?_⟩

/-- Two readings of the mud weight. -/
def mudWeights : List WarmStore.Call :=
  [.append ⟨0, maxMicros_pos, true⟩ "W-1".toList
    [⟨"MW".toList, .num (.ofRatio 1 1), some (.ofRatio 9 1), none, none⟩,
      ⟨"MW".toList, .num (.ofRatio 2 1), some (.ofRatio 10 1), none, none⟩]]

/-- A request that binds one variable. -/
def boundToMudWeight : ComputeRequest :=
  ⟨some [("Pann".toList, .ofRatio 520 1)], some "W-1".toList, some [("MW".toList, "MW".toList)]⟩

end Hydraulics
end WitsmlViewer

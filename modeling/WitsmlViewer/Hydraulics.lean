/-
# The hydraulics formulas (`app.formulas.hydraulics`)

A formula over declared variables is checked by two flat passes over its syntax tree, and evaluated
with the evaluator's own operators and five functions.  The checker bounds the exponent of `**`; it
looks at no argument of `pow`.

The shape is that of the unit engine (`Formulas`, `Conversions`), and the trees and values are the
same types.  It is another program all the same: the passes come in another order, an exponent may
have no sign here, names are those that the formula declares, and the powers are guarded by the
evaluator and not by a function of the engine's own.  So its definitions stand on their own, and
`Evaluators` compares the two.

Nothing is proved here.  `Powers` uses the module for the bound on exponents, and `FormulaApi` for
the endpoint.
-/
import WitsmlViewer.RealFormulas

namespace WitsmlViewer
namespace Hydraulics

open Py WitsmlViewer.Units

/-! ## 1. The checker

Calls are looked at first, and only then the classes of nodes; a call of something that is no name
is therefore reported as such, whatever else is wrong with the formula. -/

/-- `_ALLOWED_FUNCS`. -/
def ALLOWED_FUNCS : List Str := ["sqrt", "abs", "min", "max", "pow"].map String.toList

/-- `_MAX_EXPONENT`. -/
def MAX_EXPONENT : ℕ := 8

/-- The first pass at one node: calls.  A call adds its callee, which is its first child. -/
def checkCall (callFuncNodes : List (List ℕ)) (e : List ℕ × Node) :
    Except Message (List (List ℕ)) :=
  match e.2 with
  | .expr (.call (.name id _) _ keywords) =>
    if id ∉ ALLOWED_FUNCS then .error "only sqrt/abs/min/max/pow calls are allowed".toList
    else if !keywords.isEmpty then .error "keyword arguments are not allowed".toList
    else .ok ((e.1 ++ [0]) :: callFuncNodes)
  | .expr (.call _ _ _) => .error "only sqrt/abs/min/max/pow calls are allowed".toList
  | _ => .ok callFuncNodes

/-- `abs(value) > _MAX_EXPONENT` of a constant that is an instance of `int` or `float`. -/
def exceeds? : Constant → Option Bool
  | .bool b => some (decide (MAX_EXPONENT < b.toNat))
  | .int n => some (decide (MAX_EXPONENT < n.natAbs))
  | .float x _ => some ((Float64.ofRatio MAX_EXPONENT 1).lt x.abs)
  | _ => Option.none

/-- What stands after `**`: a literal without a sign. -/
def checkExponent (exp : Expr) : Except Message Unit :=
  match exp with
  | .constant value =>
    match exceeds? value with
    | some true => .error "exponent too large".toList
    | some false => .ok ()
    | none => .error "exponent must be a small numeric literal".toList
  | _ => .error "exponent must be a small numeric literal".toList

/-- The second pass at one node. -/
def checkElement (allowedNames : List Str) (callFuncNodes : List (List ℕ)) (e : List ℕ × Node) :
    Except Message Unit :=
  match e.2 with
  | .expr (.name id _) =>
    if e.1 ∉ callFuncNodes ∧ id ∉ allowedNames then
      .error ("unknown name '".toList ++ id ++ "' in expression".toList)
    else .ok ()
  | .expr (.binOp _ .pow right) => checkExponent right
  | node => node.disallowed.elim (.ok ()) fun cls =>
    .error ("disallowed expression element: ".toList ++ cls.toList)

/-- `_validate_ast`; `parse` is `ast.parse` with the text of what it raises. -/
def validateAst (parse : Str → Except Message Expr) (expression : Str) (allowedNames : List Str) :
    Except Message Unit :=
  match parse expression with
  | .error exc => .error ("invalid expression syntax: ".toList ++ exc)
  | .ok tree => do
    let nodes := (Node.expression tree).walk
    let callFuncNodes ← nodes.foldlM checkCall []
    nodes.forM (checkElement allowedNames callFuncNodes)

/-! ## 2. The functions

Python's `min`, `max` and `pow` on the values of a formula.  Comparisons are between whole numbers
and floats in any mixture, and are exact: a float is compared with a whole number without being
rounded to it. -/

/-- `n < y`. -/
def intLess (n : ℤ) : Float64 → Bool
  | .fin d => decide (n * unitsPerOne < d.units)
  | .inf negative => !negative
  | .nan => false

/-- `x < n`. -/
def lessInt (n : ℤ) : Float64 → Bool
  | .fin d => decide (d.units < n * unitsPerOne)
  | .inf negative => negative
  | .nan => false

/-- `a < b`. -/
def lessThan (a b : PyValue) : Except EvalError Bool :=
  match a, b with
  | .str s, .str t => .ok (decide (s < t))
  | .bytes s, .bytes t => .ok (decide (s.map UInt8.toNat < t.map UInt8.toNat))
  | a, b =>
    match a.number?, b.number? with
    | some (.int m), some (.int n) => .ok (decide (m < n))
    | some (.int m), some (.float y) => .ok (intLess m y)
    | some (.float x), some (.int n) => .ok (lessInt n x)
    | some (.float x), some (.float y) => .ok (x.lt y)
    | _, _ => .error .typeError

/-- The first value that no later one comes before. -/
def best (before : PyValue → PyValue → Except EvalError Bool) :
    List PyValue → Except EvalError PyValue
  | [] => .error (.numeric .valueError)
  | first :: items => items.foldlM (fun best item => do
      if ← before item best then return item else return best) first

/-- `min(...)` and `max(...)`; one argument is a sequence. -/
def extremum (before : PyValue → PyValue → Except EvalError Bool) (args : List PyValue) :
    Except EvalError PyValue :=
  match args with
  | [] => .error .typeError
  | [.str s] => best before (s.map fun c => .str [c])
  | [.bytes bs] => best before (bs.map fun b => .int b.toNat)
  | [_] => .error .typeError
  | args => best before args

section Functions

variable (P : Platform)

/-- `pow(a, b, c)`: whole numbers only, and the sign is that of `c`. -/
def powMod (a b c : PyValue) : Except EvalError PyValue :=
  match a.int?, b.int?, c.int? with
  | some m, some k, some d =>
    if d = 0 then .error (.numeric .valueError)
    else if 0 ≤ k then .ok (.int ((m ^ k.toNat).fmod d))
    else if Int.gcd m d = 1 then .ok (.int ((Int.gcdA m d ^ (-k).toNat).fmod d))
    else .error (.numeric .valueError)
  | _, _, _ =>
    match [a, b, c].find? fun v => v.isNumber && !v.isInt with
    | some (.complex _) => .error (.numeric .valueError)
    | _ => .error .typeError

/-- An entry of `_ALLOWED_FUNCS`. -/
def callFunction (id : Str) (args : List PyValue) : Except EvalError PyValue :=
  if id = "sqrt".toList then
    match args with
    | [x] => binary P .pow x (.float (.ofRatio 1 2))
    | _ => .error .typeError
  else if id = "abs".toList then
    match args with
    | [v] => (absolute P v).map .ofNumber
    | _ => .error .typeError
  else if id = "min".toList then extremum lessThan args
  else if id = "max".toList then extremum (fun item best => lessThan best item) args
  else if id = "pow".toList then
    match args with
    | [a, b] => binary P .pow a b
    | [a, b, .none] => binary P .pow a b
    | [a, b, c] => powMod a b c
    | _ => .error .typeError
  else .error .invalidExpression

end Functions

/-! ## 3. Evaluation

`safe_eval` checks the formula against the names of its variables, evaluates it, and turns what
comes out into a float.  Errors of the evaluation are turned into a `FormulaError`; what `float`
raises on the result is caught for types and values only. -/

/-- The names that a formula is evaluated with.  A function object is, like `...`, something that no
operator and no function takes. -/
def evalName (values : Dict Str Float64) (id : Str) : Except EvalError PyValue :=
  match values.get? id with
  | some x => .ok (.float x)
  | none => if id ∈ ALLOWED_FUNCS then .ok .ellipsis else .error .invalidExpression

/-- An entry of the evaluator's own operator table, which refuses large powers too. -/
def applyOp (P : Platform) (op : BinaryOp) (a b : PyValue) : Except EvalError PyValue :=
  if P.refuses op a b then .error .invalidExpression else binary P op a b

mutual

/-- `EvalWithCompoundTypes.eval` on the nodes that the checker lets through. -/
def eval (P : Platform) (values : Dict Str Float64) : Expr → Except EvalError PyValue
  | .constant c => if P.refusesLiteral c then .error .invalidExpression else .ok c.value
  | .name id _ => evalName values id
  | .unaryOp .uSub operand => do unary true (← eval P values operand)
  | .unaryOp .uAdd operand => do unary false (← eval P values operand)
  | .binOp left op right =>
    match op.binary? with
    | some op => do
      let a ← eval P values left
      let b ← eval P values right
      applyOp P op a b
    | none => .error .invalidExpression
  | .call (.name id _) args [] => do callFunction P id (← evalAll P values args)
  | _ => .error .invalidExpression

/-- The arguments of a call, from left to right. -/
def evalAll (P : Platform) (values : Dict Str Float64) :
    List Expr → Except EvalError (List PyValue)
  | [] => .ok []
  | e :: es => do
    let v ← eval P values e
    let vs ← evalAll P values es
    return v :: vs

end

/-- What `safe_eval` raises: a `FormulaError`, or what it does not catch. -/
inductive SafeEvalError
  | formulaError (message : Message)
  | raised (e : EvalError)
deriving DecidableEq

/-- `safe_eval`. -/
def safeEval (P : Platform) (parse : Str → Except Message Expr) (expression : Str)
    (values : Dict Str Float64) : Except SafeEvalError Float64 :=
  match validateAst parse expression (values.map Prod.fst ++ ALLOWED_FUNCS), parse expression with
  | .error message, _ => .error (.formulaError message)
  | .ok _, .error message => .error (.formulaError message)
  | .ok _, .ok tree =>
    match eval P values tree with
    | .error (.numeric .zeroDivisionError) => .error (.formulaError "division by zero".toList)
    | .error e => .error (.formulaError ("evaluation failed: ".toList ++ P.text e))
    | .ok result =>
      match toFloat result with
      | .ok x => .ok x
      | .error .typeError | .error (.numeric .valueError) =>
        .error (.formulaError "expression did not produce a number".toList)
      | .error e => .error (.raised e)

end Hydraulics
end WitsmlViewer

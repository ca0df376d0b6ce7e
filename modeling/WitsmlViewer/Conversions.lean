/-
# Converting a value (`app.units.engine.convert`)

A formula that the checker accepts is evaluated with Python's operators, the functions of `math`,
and the value under its placeholder name.  What the evaluation raises is turned into a
`UnitFormulaError`, as far as it is an arithmetic error, a value error or a refusal of the
evaluator; what `float` raises on the result, as far as it is a type error or a value error.

`convert_answers_iff`: nothing else is raised exactly if the evaluation applies no operator and no
function to operands of a type that it does not take, and does not end in a whole number beyond the
range of floats.

The two lists of exceptions are complements of what can happen.  The evaluation raises a
`TypeError` where it applies something to the wrong operands, and the first list has none; `float`
raises an `OverflowError` on large whole numbers, and the second list has none.  The checker rules
out neither, as it looks at no types and at no sizes but those of exponents.

The C library, the formatting of texts and the evaluator's limits are parameters (`Platform`).
Nothing is assumed of them, so the statement holds for each of them; `ast.parse` is a parameter
too, of which it is used that it returns a tree or a `SyntaxError`.
-/
import WitsmlViewer.Formulas
import WitsmlViewer.Py.Numbers

namespace WitsmlViewer

open Py

namespace Units

/-! ## 1. Values

A formula may have texts and bytes in it, as literals of these kinds pass the checker.  So the
values are those of Python, as far as literals, numbers and the operators on them reach. -/

/-- What a formula can evaluate to. -/
inductive PyValue
  | none
  | bool (b : Bool)
  | int (n : ℤ)
  | float (x : Float64)
  | complex (z : Float64 × Float64)
  | str (s : Str)
  | bytes (bs : List UInt8)
  | ellipsis
deriving DecidableEq

def Constant.value : Constant → PyValue
  | .none => .none
  | .bool b => .bool b
  | .int n => .int n
  | .float x _ => .float x
  | .complex re im => .complex (re, im)
  | .str s => .str s
  | .bytes bs => .bytes bs
  | .ellipsis => .ellipsis

namespace PyValue

/-- A truth value as a number. -/
def ofBool (b : Bool) : ℤ := if b then 1 else 0

def ofNumber : Number → PyValue
  | .int n => .int n
  | .float x => .float x
  | .complex z => .complex z

/-- The value as an operand of arithmetic. -/
def number? : PyValue → Option Number
  | .bool b => some (.int (ofBool b))
  | .int n => some (.int n)
  | .float x => some (.float x)
  | .complex z => some (.complex z)
  | _ => Option.none

/-- The value as a whole number. -/
def int? : PyValue → Option ℤ
  | .bool b => some (ofBool b)
  | .int n => some n
  | _ => Option.none

/-- The value as a real number. -/
def real? (v : PyValue) : Option Number := v.number?.filter Number.isReal

end PyValue

/-- What an evaluation raises. -/
inductive EvalError
  | unitFormulaError (message : Message)
  | invalidExpression
  | numeric (fault : NumericFault)
  | typeError
deriving DecidableEq

/-- What the libraries contribute: the C library, printf-style formatting (`none` is its
`TypeError`), the length limits of the evaluator, and the texts of exceptions and values. -/
structure Platform where
  libm : Libm
  formatStr : Str → PyValue → Option (Except NumericFault Str)
  formatBytes : List UInt8 → PyValue → Option (Except NumericFault (List UInt8))
  refusesLiteral : Constant → Bool
  refuses : BinaryOp → PyValue → PyValue → Bool
  text : EvalError → Str
  repr : PyValue → Str

/-! ## 2. Operators

The operators as Python has them on these values: arithmetic on numbers, concatenation and
repetition of texts, and formatting.  Of each it is said which error it raises, for that is what
decides what `convert` does. -/

section Operators

variable (P : Platform)

/-- A fault of arithmetic, raised by the evaluation. -/
def raising {α : Type} (r : Except NumericFault α) : Except EvalError α := r.mapError .numeric

/-- An operator on two numbers. -/
def numericOp (op : BinaryOp) (a b : Number) : Except EvalError PyValue :=
  if op = .mod ∧ (a.isReal && b.isReal) = false then .error .typeError
  else (raising (a.op P.libm op b)).map .ofNumber

/-- `l * n`: the factor must fit an index. -/
def repeated {α : Type} (l : List α) (n : ℤ) : Except EvalError (List α) :=
  if -2 ^ 63 ≤ n ∧ n < 2 ^ 63 then .ok (List.replicate n.toNat l).flatten
  else .error (.numeric .overflowError)

/-- An operator on texts, or on a text and something else. -/
def textOp (op : BinaryOp) (a b : PyValue) : Except EvalError PyValue :=
  match op, a, b with
  | .add, .str s, .str t => .ok (.str (s ++ t))
  | .add, .bytes s, .bytes t => .ok (.bytes (s ++ t))
  | .mult, .str s, b => b.int?.elim (.error .typeError) fun n => (repeated s n).map .str
  | .mult, .bytes s, b => b.int?.elim (.error .typeError) fun n => (repeated s n).map .bytes
  | .mult, a, .str s => a.int?.elim (.error .typeError) fun n => (repeated s n).map .str
  | .mult, a, .bytes s => a.int?.elim (.error .typeError) fun n => (repeated s n).map .bytes
  | .mod, .str s, b => (P.formatStr s b).elim (.error .typeError) fun r => (raising r).map .str
  | .mod, .bytes s, b => (P.formatBytes s b).elim (.error .typeError) fun r => (raising r).map .bytes
  | _, _, _ => .error .typeError

/-- `a op b`. -/
def binary (op : BinaryOp) (a b : PyValue) : Except EvalError PyValue :=
  match a.number?, b.number? with
  | some x, some y => numericOp P op x y
  | _, _ => textOp P op a b

/-- `abs(v)`. -/
def absolute (v : PyValue) : Except EvalError Number :=
  v.number?.elim (.error .typeError) fun x => raising (x.abs P.libm)

/-- `_safe_pow`. -/
def safePow (a b : PyValue) : Except EvalError PyValue := do
  let size ← absolute P b
  if size.exceeds MAX_EXPONENT then
    .error (.unitFormulaError "exponent magnitude exceeds 64".toList)
  else binary P .pow a b

/-- An entry of the operator table; the evaluator's own operators refuse texts that get too long. -/
def applyOp (op : BinaryOp) (a b : PyValue) : Except EvalError PyValue :=
  match op with
  | .pow => safePow P a b
  | op => if P.refuses op a b then .error .invalidExpression else binary P op a b

/-- `-v` and `+v`. -/
def unary (negate : Bool) (v : PyValue) : Except EvalError PyValue :=
  v.number?.elim (.error .typeError) fun x => .ok (.ofNumber (if negate then x.neg else x))

/-- `math.log(v)`; a whole number need not fit a float. -/
def logOne (v : PyValue) : Except EvalError Float64 :=
  match v.number? with
  | some (.int n) => raising (P.libm.logInt n)
  | some (.float x) => raising (P.libm.call "log".toList x)
  | _ => .error .typeError

/-- A function of `math` with one real argument. -/
def mathCall (id : Str) (v : PyValue) : Except EvalError Float64 :=
  match v.number? with
  | some (.int n) => do raising (P.libm.call id (← raising (intToFloat n)))
  | some (.float x) => raising (P.libm.call id x)
  | _ => .error .typeError

/-- An entry of `ALLOWED_FUNCTIONS`. -/
def callFunction (id : Str) (args : List PyValue) : Except EvalError PyValue :=
  if id = "abs".toList then
    match args with
    | [v] => (absolute P v).map .ofNumber
    | _ => .error .typeError
  else if id = "log".toList then
    match args with
    | [v] => (logOne P v).map .float
    | [v, base] => do
      let x ← logOne P v
      let y ← logOne P base
      (raising (floatOp P.libm .div x y)).map .ofNumber
    | _ => .error .typeError
  else
    match args with
    | [v] => (mathCall P id v).map .float
    | _ => .error .typeError

end Operators

/-! ## 3. Evaluation

The evaluator on the trees that the checker lets through.  It refuses all others as well, which is
never put to the test. -/

def mathPi : Float64 := .ofRatio 884279719003555 281474976710656

def mathE : Float64 := .ofRatio 6121026514868073 2251799813685248

/-- The names that a formula is evaluated with. -/
def evalName (value : Float64) (id : Str) : Except EvalError PyValue :=
  if id = VALUE_NAME then .ok (.float value)
  else if id = "pi".toList then .ok (.float mathPi)
  else if id = "e".toList then .ok (.float mathE)
  else .error .invalidExpression

/-- The operators of accepted formulas. -/
def Operator.binary? : Operator → Option BinaryOp
  | .add => some .add
  | .sub => some .sub
  | .mult => some .mult
  | .div => some .div
  | .mod => some .mod
  | .pow => some .pow
  | _ => none

mutual

/-- `SimpleEval.eval` on the nodes that the checker lets through; it is never asked for others. -/
def eval (P : Platform) (value : Float64) : Expr → Except EvalError PyValue
  | .constant c => if P.refusesLiteral c then .error .invalidExpression else .ok c.value
  | .name id _ => evalName value id
  | .unaryOp .uSub operand => do unary true (← eval P value operand)
  | .unaryOp .uAdd operand => do unary false (← eval P value operand)
  | .binOp left op right =>
    match op.binary? with
    | some op => do
      let a ← eval P value left
      let b ← eval P value right
      applyOp P op a b
    | none => .error .invalidExpression
  | .call (.name id _) args [] => do callFunction P id (← evalAll P value args)
  | _ => .error .invalidExpression

/-- The arguments of a call, from left to right. -/
def evalAll (P : Platform) (value : Float64) : List Expr → Except EvalError (List PyValue)
  | [] => .ok []
  | e :: es => do
    let v ← eval P value e
    let vs ← evalAll P value es
    return v :: vs

end

/-- `float(v)`: texts are read, bytes too if they are ASCII. -/
def toFloat (v : PyValue) : Except EvalError Float64 :=
  match v with
  | .bool b => raising (intToFloat (PyValue.ofBool b))
  | .int n => raising (intToFloat n)
  | .float x => .ok x
  | .str s => (float? s).elim (.error (.numeric .valueError)) .ok
  | .bytes bs =>
    if bs.all fun b => decide (b.toNat < 128) && !(decide (28 ≤ b.toNat ∧ b.toNat < 32)) then
      (float? (bs.map fun b => Char.ofNat b.toNat)).elim (.error (.numeric .valueError)) .ok
    else .error (.numeric .valueError)
  | _ => .error .typeError

/-! ## 4. The engine

`convert` checks, evaluates, and turns the result into a float.  The endpoint catches a
`UnitFormulaError` and answers 400; any other exception leaves it, and the framework answers 500. -/

/-- What `convert` raises. -/
inductive ConvertError
  | syntaxError (message : Message)
  | raised (e : EvalError)
deriving DecidableEq

section Convert

variable (P : Platform) (parse : Str → Except Message Expr)

/-- `validate`; `parse` is `ast.parse`, which raises nothing but a `SyntaxError`. -/
def validate (expression : Str) : Except ConvertError (Bool × Option Message) :=
  if strip expression = [] then .ok (false, some "expression is empty".toList)
  else match parse expression with
    | .error message => .ok (false, some ("syntax error: ".toList ++ message))
    | .ok tree =>
      match checkAst tree with
      | .error message => .ok (false, some message)
      | .ok _ => .ok (true, none)

/-- A `UnitFormulaError`. -/
def failed {α : Type} (message : Message) : Except ConvertError α :=
  .error (.raised (.unitFormulaError message))

/-- The `try` around the evaluation, and the one around `float`. -/
def evaluate (value : Float64) (tree : Expr) : Except ConvertError Float64 :=
  match eval P value tree with
  | .error (.unitFormulaError message) => failed message
  | .error .invalidExpression => failed (P.text .invalidExpression)
  | .error (.numeric fault) => failed ("evaluation failed: ".toList ++ P.text (.numeric fault))
  | .error .typeError => .error (.raised .typeError)
  | .ok result =>
    match toFloat result with
    | .ok x => .ok x
    | .error .typeError | .error (.numeric .valueError) =>
      failed ("expression did not produce a number: ".toList ++ P.repr result)
    | .error e => .error (.raised e)

/-- `convert`. -/
def convert (value : Float64) (expression : Str) : Except ConvertError Float64 := do
  let (ok, reason) ← validate parse expression
  if !ok then failed ((reason.filter (· ≠ [])).getD "invalid expression".toList)
  else match parse expression with
    | .error message => .error (.syntaxError message)
    | .ok tree =>
      match checkAst tree with
      | .error message => failed message
      | .ok _ => evaluate P value tree

/-- The status that `/units/convert` asks the framework to answer with. -/
def convertValue (value : Float64) (expression : Str) : ℕ :=
  match convert P parse value expression with
  | .ok _ => 200
  | .error (.raised (.unitFormulaError _)) => 400
  | .error _ => 500

end Convert

/-! ## 5. What operators and functions take

The types that each operator and each function takes.  `OperandsFit` and `ArgumentsFit` say it in
the evaluator's order: an operator that refuses its operands for another reason before it looks at
their types raises no `TypeError`, and so an exponent that is too large fits, whatever it is an
exponent of. -/

namespace PyValue

/-- It is a number; a truth value is one. -/
def isNumber (v : PyValue) : Bool := v.number?.isSome

def isReal (v : PyValue) : Bool := v.real?.isSome

def isInt (v : PyValue) : Bool := v.int?.isSome

def isStr : PyValue → Bool
  | .str _ => true
  | _ => false

def isBytes : PyValue → Bool
  | .bytes _ => true
  | _ => false

def isText (v : PyValue) : Bool := v.isStr || v.isBytes

end PyValue

/-- The value is a format that takes the operand. -/
def Platform.formats (P : Platform) (a b : PyValue) : Bool :=
  match a with
  | .str s => (P.formatStr s b).isSome
  | .bytes s => (P.formatBytes s b).isSome
  | _ => false

/-- The operator takes the operands, one of which is a text. -/
def takesText (P : Platform) (op : BinaryOp) (a b : PyValue) : Bool :=
  match op with
  | .add => (a.isStr && b.isStr) || (a.isBytes && b.isBytes)
  | .mult => (a.isText && b.isInt) || (a.isInt && b.isText)
  | .mod => P.formats a b
  | .sub | .div | .pow => false

/-- The operator takes the operands: two numbers, for `%` real ones, or texts. -/
def takes (P : Platform) (op : BinaryOp) (a b : PyValue) : Bool :=
  (a.isNumber && b.isNumber && (decide (op ≠ .mod) || (a.isReal && b.isReal))) || takesText P op a b

/-- The operator table takes the operands, or refuses them without a look at their types.  An
exponent is measured first. -/
def OperandsFit (P : Platform) (op : BinaryOp) (a b : PyValue) : Prop :=
  match op with
  | .pow => b.isNumber = true ∧
      ∀ size, absolute P b = .ok size → size.exceeds MAX_EXPONENT = false → takes P .pow a b = true
  | op => P.refuses op a b = true ∨ takes P op a b = true

/-- The function takes the arguments: one number, or for `math` one real number.  `log` may have a
base; it is not looked at when the logarithm of the first argument fails. -/
def ArgumentsFit (P : Platform) (id : Str) (args : List PyValue) : Prop :=
  match args with
  | [v] => if id = "abs".toList then v.isNumber = true else v.isReal = true
  | [v, base] => id = "log".toList ∧ v.isReal = true ∧
      ∀ x, logOne P v = .ok x → base.isReal = true
  | _ => False

mutual

/-- Every operator and every function that the evaluation reaches takes what it is applied to. -/
def WellApplied (P : Platform) (value : Float64) : Expr → Prop
  | .unaryOp .uSub operand => WellApplied P value operand ∧
      ∀ v, eval P value operand = .ok v → v.isNumber = true
  | .unaryOp .uAdd operand => WellApplied P value operand ∧
      ∀ v, eval P value operand = .ok v → v.isNumber = true
  | .binOp left op right =>
    match op.binary? with
    | some op => WellApplied P value left ∧ ∀ a, eval P value left = .ok a →
        WellApplied P value right ∧ ∀ b, eval P value right = .ok b → OperandsFit P op a b
    | none => True
  | .call (.name id _) args [] => AllWellApplied P value args ∧
      ∀ vs, evalAll P value args = .ok vs → ArgumentsFit P id vs
  | _ => True

/-- The same of arguments, up to the first that fails. -/
def AllWellApplied (P : Platform) (value : Float64) : List Expr → Prop
  | [] => True
  | e :: es => WellApplied P value e ∧ ∀ v, eval P value e = .ok v → AllWellApplied P value es

end

section Takes

variable {P : Platform}

/-- A sequence fails in its first part or in its second. -/
theorem bind_eq_error {ε α β : Type} {x : Except ε α} {f : α → Except ε β} {e : ε} :
    (x >>= f) = .error e ↔ x = .error e ∨ ∃ a, x = .ok a ∧ f a = .error e := by
  cases x <;> simp [bind, Except.bind]

@[simp] theorem raising_ne_typeError {α : Type} (r : Except NumericFault α) :
    raising r ≠ .error .typeError := by
  cases r <;> simp [raising, Except.mapError]

@[simp] theorem map_eq_typeError {α β : Type} (f : α → β) (r : Except EvalError α) :
    r.map f = .error .typeError ↔ r = .error .typeError := by
  cases r <;> simp [Except.map]

/-- Of the operators on numbers only `%` refuses a type, that of complex numbers. -/
theorem numericOp_typeError {op : BinaryOp} {x y : Number} :
    numericOp P op x y = .error .typeError ↔ op = .mod ∧ (x.isReal && y.isReal) = false := by
  unfold numericOp
  split
  · rename_i h
    exact iff_of_true rfl h
  · rename_i h
    exact iff_of_false (by simp) h

/-- Repetition may fail for its size, not for its type. -/
theorem repeated_ne_typeError {α : Type} (l : List α) (n : ℤ) :
    repeated l n ≠ .error .typeError := by
  unfold repeated
  split <;> simp

/-- An operator on texts refuses what it does not take. -/
theorem textOp_typeError {op : BinaryOp} {a b : PyValue} :
    textOp P op a b = .error .typeError ↔ takesText P op a b = false := by
  have helim : ∀ {α : Type} (o : Option α) (f : α → Except EvalError PyValue),
      (∀ x, f x ≠ .error .typeError) → (o.elim (.error .typeError) f = .error .typeError ↔
        o.isSome = false) := by
    intro α o f hf
    cases o with
    | none => simp
    | some x => simpa using hf x
  cases op with
  | add => cases a <;> cases b <;> simp [textOp, takesText, PyValue.isStr, PyValue.isBytes]
  | sub => exact iff_of_true rfl rfl
  | div => exact iff_of_true rfl rfl
  | pow => exact iff_of_true rfl rfl
  | mod =>
    cases a with
    | str s => exact helim _ _ fun r => by simp
    | bytes s => exact helim _ _ fun r => by simp
    | _ => exact iff_of_true rfl rfl
  | mult =>
    cases a <;> cases b <;>
      simp [textOp, takesText, PyValue.isText, PyValue.isStr, PyValue.isBytes, PyValue.isInt,
        PyValue.int?, repeated_ne_typeError]

/-- A number is real as a value exactly if it is real. -/
theorem isReal_eq {v : PyValue} {x : Number} (hx : v.number? = some x) : v.isReal = x.isReal := by
  rw [PyValue.isReal, PyValue.real?, hx]
  cases h : x.isReal <;> simp [Option.filter, h]

/-- **An operator raises a `TypeError` on the operands that it does not take.** -/
theorem binary_typeError {op : BinaryOp} {a b : PyValue} :
    binary P op a b = .error .typeError ↔ takes P op a b = false := by
  unfold binary
  cases hx : a.number? with
  | none =>
    have ha : a.isNumber = false := by rw [PyValue.isNumber, hx]; rfl
    simp only [takes, ha, Bool.false_and, Bool.false_or]
    exact textOp_typeError
  | some x =>
    cases hy : b.number? with
    | none =>
      have hb : b.isNumber = false := by rw [PyValue.isNumber, hy]; rfl
      simp only [takes, hb, Bool.and_false, Bool.false_and, Bool.false_or]
      exact textOp_typeError
    | some y =>
      have ha : a.isNumber = true := by rw [PyValue.isNumber, hx]; rfl
      have hb : b.isNumber = true := by rw [PyValue.isNumber, hy]; rfl
      have htext : takesText P op a b = false := by
        cases a <;> simp [PyValue.number?] at hx <;> cases b <;> simp [PyValue.number?] at hy <;>
          cases op <;> rfl
      rw [numericOp_typeError, ← isReal_eq hx, ← isReal_eq hy]
      simp [takes, ha, hb, htext]

/-- There is no absolute value of what is no number. -/
theorem absolute_typeError {v : PyValue} :
    absolute P v = .error .typeError ↔ v.isNumber = false := by
  unfold absolute PyValue.isNumber
  cases v.number? <;> simp

/-- There is no sign before what is no number. -/
theorem unary_typeError {negate : Bool} {v : PyValue} :
    unary negate v = .error .typeError ↔ v.isNumber = false := by
  unfold unary PyValue.isNumber
  cases v.number? <;> simp

/-- There is no logarithm of what is not real. -/
theorem logOne_typeError {v : PyValue} : logOne P v = .error .typeError ↔ v.isReal = false := by
  unfold logOne
  cases hx : v.number? with
  | none => simp [PyValue.isReal, PyValue.real?, hx]
  | some x =>
    rw [isReal_eq hx]
    cases x <;> simp [Number.isReal]

theorem mathCall_typeError {id : Str} {v : PyValue} :
    mathCall P id v = .error .typeError ↔ v.isReal = false := by
  unfold mathCall
  cases hx : v.number? with
  | none => simp [PyValue.isReal, PyValue.real?, hx]
  | some x =>
    rw [isReal_eq hx]
    cases x with
    | int n => simp [Number.isReal, bind_eq_error]
    | float x => simp [Number.isReal]
    | complex z => simp [Number.isReal]

/-- The guard of `**` measures the exponent first, and so refuses what has no size. -/
theorem safePow_typeError {a b : PyValue} : safePow P a b = .error .typeError ↔
    b.isNumber = false ∨ ∃ size, absolute P b = .ok size ∧
      size.exceeds MAX_EXPONENT = false ∧ takes P .pow a b = false := by
  have hsize : ∀ size : Number,
      (if size.exceeds MAX_EXPONENT then
        .error (.unitFormulaError "exponent magnitude exceeds 64".toList)
      else binary P .pow a b) = .error .typeError ↔
        size.exceeds MAX_EXPONENT = false ∧ takes P .pow a b = false := by
    intro size
    cases size.exceeds MAX_EXPONENT
    · simp [binary_typeError]
    · simp
  unfold safePow
  rw [bind_eq_error, absolute_typeError]
  simp only [hsize]

/-- **An entry of the operator table raises a `TypeError` on operands that do not fit.** -/
theorem applyOp_typeError {op : BinaryOp} {a b : PyValue} :
    applyOp P op a b = .error .typeError ↔ ¬OperandsFit P op a b := by
  by_cases hop : op = .pow
  · subst hop
    have happly : applyOp P .pow a b = safePow P a b := rfl
    rw [happly, safePow_typeError, OperandsFit, not_and_or, Bool.not_eq_true]
    push Not
    simp only [Bool.not_eq_true]
  · have happly : applyOp P op a b =
        if P.refuses op a b then .error .invalidExpression else binary P op a b := by
      cases op <;> first | rfl | exact absurd rfl hop
    have hfit : OperandsFit P op a b ↔ P.refuses op a b = true ∨ takes P op a b = true := by
      cases op <;> first | rfl | exact absurd rfl hop
    rw [happly, hfit]
    cases P.refuses op a b
    · simp [binary_typeError]
    · simp

/-- **A function raises a `TypeError` on arguments that do not fit.** -/
theorem callFunction_typeError {id : Str} {args : List PyValue} :
    callFunction P id args = .error .typeError ↔ ¬ArgumentsFit P id args := by
  unfold callFunction
  match args with
  | [] => simp [ArgumentsFit]
  | [v] =>
    simp only [ArgumentsFit]
    by_cases habs : id = "abs".toList
    · rw [if_pos habs, if_pos habs, map_eq_typeError, absolute_typeError, Bool.not_eq_true]
    · rw [if_neg habs, if_neg habs, Bool.not_eq_true]
      split
      · rw [map_eq_typeError, logOne_typeError]
      · rw [map_eq_typeError, mathCall_typeError]
  | [v, base] =>
    by_cases hlog : id = "log".toList
    · have habs : ¬id = "abs".toList := by
        rw [hlog]
        decide
      rw [if_neg habs, if_pos hlog]
      -- the base is looked at after the logarithm of the first argument
      simp only [ArgumentsFit, bind_eq_error, logOne_typeError, map_eq_typeError,
        raising_ne_typeError, and_false, exists_false, or_false, hlog, true_and, not_and_or,
        Bool.not_eq_true]
      push Not
      simp only [Bool.not_eq_true]
    · rw [if_neg hlog]
      exact iff_of_true (by split <;> rfl) fun hfit => hlog hfit.1
  | _ :: _ :: _ :: _ => simp [ArgumentsFit]

end Takes

/-! ## 6. The evaluation

The induction is on the tree, from left to right: the first failure is the one that is raised. -/

mutual

/-- **An evaluation raises a `TypeError` exactly if it reaches an application that does not fit.**
Literals and names raise none; for an operator or a call either an operand raises one before, or
all of them have values and the table decides. -/
theorem eval_typeError (P : Platform) (value : Float64) (e : Expr) :
    eval P value e = .error .typeError ↔ ¬WellApplied P value e := by
  match e with
  | .constant c =>
    unfold eval WellApplied
    exact iff_of_false (by split <;> simp) (by simp)
  | .name id ctx =>
    unfold eval WellApplied evalName
    exact iff_of_false (by split_ifs <;> simp) (by simp)
  | .other cls parts ctx =>
    unfold eval WellApplied
    exact iff_of_false (by simp) (by simp)
  | .unaryOp op operand =>
    have ih := eval_typeError P value operand
    have hsign : ∀ negate, (eval P value operand >>= unary negate) = .error .typeError ↔
        ¬(WellApplied P value operand ∧ ∀ v, eval P value operand = .ok v → v.isNumber = true) := by
      intro negate
      simp only [bind_eq_error, ih, unary_typeError, not_and_or]
      push Not
      simp only [Bool.not_eq_true]
    cases op with
    | uSub =>
      unfold eval WellApplied
      exact hsign true
    | uAdd =>
      unfold eval WellApplied
      exact hsign false
    | invert =>
      unfold eval WellApplied
      exact iff_of_false (by simp) (by simp)
    | not =>
      unfold eval WellApplied
      exact iff_of_false (by simp) (by simp)
  | .binOp left op right =>
    have ihl := eval_typeError P value left
    have ihr := eval_typeError P value right
    unfold eval WellApplied
    cases op.binary? with
    | none => exact iff_of_false (by simp) (by simp)
    | some op =>
      simp only [bind_eq_error, ihl, ihr, applyOp_typeError, not_and_or]
      push Not
      simp only [imp_iff_not_or]
  | .call func args keywords =>
    have ih := evalAll_typeError P value args
    cases func with
    | name id ctx =>
      cases keywords with
      | nil =>
        unfold eval WellApplied
        simp only [bind_eq_error, ih, callFunction_typeError, not_and_or]
        push Not
        rfl
      | cons k ks =>
        unfold eval WellApplied
        exact iff_of_false (by simp) (by simp)
    | _ =>
      unfold eval WellApplied
      exact iff_of_false (by simp) (by simp)

theorem evalAll_typeError (P : Platform) (value : Float64) (es : List Expr) :
    evalAll P value es = .error .typeError ↔ ¬AllWellApplied P value es := by
  match es with
  | [] =>
    unfold evalAll AllWellApplied
    exact iff_of_false (by simp) (by simp)
  | e :: es =>
    have ihe := eval_typeError P value e
    have ih := evalAll_typeError P value es
    unfold evalAll AllWellApplied
    simp only [bind_eq_error, ihe, ih, not_and_or]
    push Not
    simp [pure, Except.pure]

end

/-! ## 7. What `convert` raises

From the evaluation to `convert`.  What is left is to go through the two lists of exceptions. -/

section Answers

variable {P : Platform} {parse : Str → Except Message Expr} {value : Float64} {expression : Str}

/-- The formula was refused, or its evaluation fails with a `UnitFormulaError`, or it has a value. -/
def Answers (P : Platform) (parse : Str → Except Message Expr) (value : Float64)
    (expression : Str) : Prop :=
  (∃ verdict, validate parse expression = .ok verdict) ∧
    ((∃ x, convert P parse value expression = .ok x) ∨
      ∃ message, convert P parse value expression = .error (.raised (.unitFormulaError message))) ∧
    (convertValue P parse value expression = 200 ∨ convertValue P parse value expression = 400)

/-- The value is no whole number beyond the range of floats. -/
def InFloatRange (v : PyValue) : Prop := ∀ n, v = .int n → (Float64.ofRatio n 1).isFinite = true

theorem validate_ok (expression : Str) : ∃ verdict, validate parse expression = .ok verdict := by
  unfold validate
  split
  · exact ⟨_, rfl⟩
  · split
    · exact ⟨_, rfl⟩
    · split <;> exact ⟨_, rfl⟩

/-- `float` reads the value, or raises what `convert` catches. -/
def FloatHandled (v : PyValue) : Prop :=
  (∃ x, toFloat v = .ok x) ∨ toFloat v = .error .typeError ∨
    toFloat v = .error (.numeric .valueError)

theorem toFloat_int (n : ℤ) : toFloat (.int n) = if (Float64.ofRatio n 1).isFinite then
    .ok (.ofRatio n 1) else .error (.numeric .overflowError) := by
  change raising (intToFloat n) = _
  unfold raising intToFloat
  split <;> rfl

/-- `float` overflows on nothing else: texts and bytes are read or refused. -/
theorem floatHandled_of_ne_int {v : PyValue} (hv : ∀ n, v ≠ .int n) : FloatHandled v := by
  have helim : ∀ o : Option Float64,
      (∃ x, o.elim (.error (.numeric .valueError)) .ok = (.ok x : Except EvalError Float64)) ∨
        o.elim (.error (.numeric .valueError)) .ok =
          (.error .typeError : Except EvalError Float64) ∨
        o.elim (.error (.numeric .valueError)) .ok =
          (.error (.numeric .valueError) : Except EvalError Float64) := by
    intro o
    cases o with
    | none => exact Or.inr (Or.inr rfl)
    | some x => exact Or.inl ⟨x, rfl⟩
  unfold FloatHandled
  cases v with
  | int n => exact absurd rfl (hv n)
  | none => exact Or.inr (Or.inl rfl)
  | ellipsis => exact Or.inr (Or.inl rfl)
  | complex z => exact Or.inr (Or.inl rfl)
  | float x => exact Or.inl ⟨x, rfl⟩
  | str s => exact helim _
  | bool b =>
    have hfin : (Float64.ofRatio (PyValue.ofBool b) 1).isFinite = true := by
      cases b <;> decide +kernel
    exact Or.inl ⟨_, (toFloat_int (PyValue.ofBool b)).trans (if_pos hfin)⟩
  | bytes bs =>
    unfold toFloat
    dsimp only
    split
    · exact helim _
    · exact Or.inr (Or.inr rfl)

/-- **`float` overflows exactly on a whole number out of range.** -/
theorem toFloat_spec (v : PyValue) : (InFloatRange v → FloatHandled v) ∧
    (¬InFloatRange v → toFloat v = .error (.numeric .overflowError)) := by
  by_cases hv : ∃ n, v = .int n
  · obtain ⟨n, rfl⟩ := hv
    constructor
    · intro hin
      exact Or.inl ⟨_, (toFloat_int n).trans (if_pos (hin n rfl))⟩
    · intro hout
      refine (toFloat_int n).trans (if_neg fun hfin => hout fun m hm => ?_)
      obtain rfl := PyValue.int.inj hm
      exact hfin
  · push Not at hv
    exact ⟨fun _ => floatHandled_of_ne_int hv, fun hout => absurd (fun n hn => absurd hn (hv n)) hout⟩

/-- **What comes of an evaluation.** -/
theorem evaluate_iff {tree : Expr} :
    ((∃ x, evaluate P value tree = .ok x) ∨ ∃ message, evaluate P value tree = failed message) ↔
      WellApplied P value tree ∧ ∀ v, eval P value tree = .ok v → InFloatRange v := by
  have htype := eval_typeError P value tree
  unfold evaluate
  cases heval : eval P value tree with
  | error e =>
    cases e with
    | typeError =>
      have hbad := htype.mp heval
      simp [failed, hbad]
    | unitFormulaError message =>
      have hgood : WellApplied P value tree := by
        by_contra hbad
        simpa [heval] using htype.mpr hbad
      simp [failed, hgood]
    | invalidExpression =>
      have hgood : WellApplied P value tree := by
        by_contra hbad
        simpa [heval] using htype.mpr hbad
      simp [failed, hgood]
    | numeric fault =>
      have hgood : WellApplied P value tree := by
        by_contra hbad
        simpa [heval] using htype.mpr hbad
      simp [failed, hgood]
  | ok v =>
    have hgood : WellApplied P value tree := by
      by_contra hbad
      simpa [heval] using htype.mpr hbad
    obtain ⟨hin, hout⟩ := toFloat_spec v
    simp only [hgood, true_and, Except.ok.injEq, forall_eq']
    constructor
    · intro h
      by_contra hv
      rw [hout hv] at h
      simp [failed] at h
    · intro hv
      rcases hin hv with ⟨x, hx⟩ | hx | hx
      · exact Or.inl ⟨x, by rw [hx]⟩
      · exact Or.inr ⟨_, by rw [hx]⟩
      · exact Or.inr ⟨_, by rw [hx]⟩

/-- An accepted formula is evaluated. -/
theorem convert_accepted {tree : Expr} (hstrip : strip expression ≠ [])
    (hparse : parse expression = .ok tree) (hcheck : checkAst tree = .ok ()) :
    convert P parse value expression = evaluate P value tree := by
  have hvalid : validate parse expression = .ok (true, none) := by
    rw [validate, if_neg hstrip, hparse]
    dsimp only
    rw [hcheck]
  rw [convert, hvalid, hparse]
  simp [bind, Except.bind, hcheck]

/-- Any other formula is refused. -/
theorem convert_refused (h : ∀ tree, strip expression ≠ [] → parse expression = .ok tree →
    checkAst tree ≠ .ok ()) : ∃ message, convert P parse value expression = failed message := by
  have hvalid : ∃ reason, validate parse expression = .ok (false, reason) := by
    unfold validate
    split
    · exact ⟨_, rfl⟩
    · rename_i hstrip
      split
      · exact ⟨_, rfl⟩
      · rename_i tree hparse
        split
        · exact ⟨_, rfl⟩
        · rename_i hcheck
          exact absurd hcheck (h tree hstrip hparse)
  obtain ⟨reason, hvalid⟩ := hvalid
  exact ⟨_, by rw [convert, hvalid]; rfl⟩

/-- A conversion answers exactly if it has a value or raises a `UnitFormulaError`. -/
theorem answers_iff : Answers P parse value expression ↔
    (∃ x, convert P parse value expression = .ok x) ∨
      ∃ message, convert P parse value expression = failed message := by
  unfold Answers convertValue
  constructor
  · exact fun h => h.2.1
  · intro h
    refine ⟨validate_ok expression, h, ?_⟩
    rcases h with ⟨x, hx⟩ | ⟨message, hm⟩
    · rw [hx]
      exact Or.inl rfl
    · rw [hm]
      exact Or.inr rfl

/-- **A conversion fails with a `UnitFormulaError` only, exactly if** the formula is refused, or
its evaluation applies every operator and function that it reaches to operands that these take, and
does not end in a whole number beyond the range of floats.

A formula of numbers alone can fail in the last way only, or by `sin()`: the number of arguments
counts among what a function takes.  So for formulas over numbers the defect is a call without its
argument, or a product that is too large; `convert_leaks` has one of each. -/
theorem convert_answers_iff (P : Platform) (parse : Str → Except Message Expr) (value : Float64)
    (expression : Str) : Answers P parse value expression ↔
      ∀ tree, strip expression ≠ [] → parse expression = .ok tree → checkAst tree = .ok () →
        WellApplied P value tree ∧ ∀ v, eval P value tree = .ok v → InFloatRange v := by
  rw [answers_iff]
  by_cases haccepted : ∃ tree, strip expression ≠ [] ∧ parse expression = .ok tree ∧
      checkAst tree = .ok ()
  · obtain ⟨tree, hstrip, hparse, hcheck⟩ := haccepted
    rw [convert_accepted hstrip hparse hcheck, evaluate_iff]
    constructor
    · intro h tree' _ hparse' _
      obtain rfl := Except.ok.inj (hparse.symm.trans hparse')
      exact h
    · exact fun h => h tree hstrip hparse hcheck
  · push Not at haccepted
    exact iff_of_true (Or.inr (convert_refused haccepted)) fun tree hstrip hparse hcheck =>
      absurd hcheck (haccepted tree hstrip hparse)

end Answers

/-- A platform without a C library: no formula below asks it for anything. -/
def barePlatform : Platform where
  libm := {
    pow := fun _ _ => .error .valueError
    complexOp := fun _ _ _ => .error .valueError
    complexAbs := fun _ => .error .valueError
    call := fun _ _ => .error .valueError
    logInt := fun _ => .error .valueError }
  formatStr := fun _ _ => none
  formatBytes := fun _ _ => none
  refusesLiteral := fun _ => false
  refuses := fun _ _ _ => false
  text := fun _ => []
  repr := fun _ => []

/-- `sin()`. -/
def sinOfNothing : Expr := .call (.name "sin".toList .load) [] []

/-- `10 ** 64`. -/
def bigPower : Expr := .binOp (.constant (.int 10)) .pow (.constant (.int 64))

/-- `10 ** 64 * 10 ** 64 * 10 ** 64 * 10 ** 64 * 10 ** 64`. -/
def bigProduct : Expr :=
  .binOp (.binOp (.binOp (.binOp bigPower .mult bigPower) .mult bigPower) .mult bigPower) .mult
    bigPower

def bigProductText : Str := "10**64*10**64*10**64*10**64*10**64".toList

/-- A parser that knows these two. -/
def parseTwo (expression : Str) : Except Message Expr :=
  if expression = "sin()".toList then .ok sinOfNothing
  else if expression = bigProductText then .ok bigProduct
  else .error "invalid syntax".toList

/-- **Two formulas that are accepted and make the endpoint answer 500**: a call without an argument
raises a `TypeError`, and a product of whole numbers is too large for a float. -/
theorem convert_leaks :
    convert barePlatform parseTwo (.ofRatio 1 1) "sin()".toList = .error (.raised .typeError) ∧
      convert barePlatform parseTwo (.ofRatio 1 1) bigProductText =
        .error (.raised (.numeric .overflowError)) ∧
      convertValue barePlatform parseTwo (.ofRatio 1 1) "sin()".toList = 500 ∧
      ¬Answers barePlatform parseTwo (.ofRatio 1 1) "sin()".toList ∧
      ¬Answers barePlatform parseTwo (.ofRatio 1 1) bigProductText := by
  have hsin : convert barePlatform parseTwo (.ofRatio 1 1) "sin()".toList =
      .error (.raised .typeError) := by decide +kernel
  have hbig : convert barePlatform parseTwo (.ofRatio 1 1) bigProductText =
      .error (.raised (.numeric .overflowError)) := by decide +kernel
  refine ⟨hsin, hbig, by decide +kernel, ?_, ?_⟩
  · rw [answers_iff, hsin]
    simp [failed]
  · rw [answers_iff, hbig]
    simp [failed]

end Units

end WitsmlViewer

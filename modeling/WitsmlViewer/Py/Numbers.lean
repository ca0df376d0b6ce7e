/-
# Python numbers

`int`, `float` and `complex` under `+`, `-`, `*`, `/`, `%` and `**`, with what they raise: a division
by zero, an overflow, a value out of the domain.  Whole numbers are exact, floats are the correctly
rounded ones of `Float64`; real powers, complex arithmetic and the functions of `math` come from the
C library (`Libm`).

`complex` has no `%`, so `Number.op` is about operands that the operator takes.

The exceptions are results and not a way out: which of them an operation raises decides what a
formula answers, and a caller that catches one kind and not another has to be told which it was.
-/
import WitsmlViewer.Py.Timestamp

namespace Py

/-! ## 1. Floats

Division and remainder, as C does them and as Python corrects them.  The operand that is zero is
dealt with before, since it is not a value but a `ZeroDivisionError`. -/

namespace Float64

/-- `-x`. -/
def neg : Float64 → Float64
  | fin d => fin ⟨-d.units, by rw [Int.natAbs_neg]; exact d.isDouble,
      by rw [Int.natAbs_neg]; exact d.finite⟩
  | inf negative => inf !negative
  | nan => nan

/-- The quotient of two units, rounded once. -/
def divUnits (a b : ℤ) : Float64 := ofUnits (a * unitsPerOne * b.sign) b.natAbs

/-- `x / y`, for a `y` other than zero. -/
def div : Float64 → Float64 → Float64
  | fin x, fin y => divUnits x.units y.units
  | nan, _ => nan
  | _, nan => nan
  | inf _, inf _ => nan
  | inf a, fin y => inf (a != decide (y.units < 0))
  | fin _, inf _ => ofRatio 0 1

/-- `x % y`, for a `y` other than zero: the remainder has the sign of `y`. -/
def mod : Float64 → Float64 → Float64
  | fin x, fin y => ofUnits (x.units.fmod y.units) 1
  | fin x, inf b => if x.units = 0 ∨ (decide (x.units < 0) = b) then fin x else inf b
  | _, _ => nan

def isZero : Float64 → Bool
  | fin d => d.units == 0
  | _ => false

/-- A finite number below zero. -/
def isNegative : Float64 → Bool
  | fin d => d.units < 0
  | _ => false

end Float64

/-! ## 2. The numeric tower

Two operands of different types are brought to the wider one first.  The conversion may raise by
itself: an integer that no double can hold is an `OverflowError`, even if the result of the
operation would be small. -/

/-- What arithmetic raises. -/
inductive NumericFault
  | zeroDivisionError | overflowError | valueError
deriving DecidableEq

inductive BinaryOp
  | add | sub | mult | div | mod | pow
deriving DecidableEq

/-- The three types, in the order of the tower. -/
inductive Number
  | int (n : ℤ)
  | float (x : Float64)
  | complex (z : Float64 × Float64)
deriving DecidableEq

/-- What the C library computes: a real power, complex arithmetic, and the functions of `math` by
their names. -/
structure Libm where
  pow : Float64 → Float64 → Except NumericFault Float64
  complexOp : BinaryOp → Float64 × Float64 → Float64 × Float64 →
    Except NumericFault (Float64 × Float64)
  complexAbs : Float64 × Float64 → Except NumericFault Float64
  call : Str → Float64 → Except NumericFault Float64
  logInt : ℤ → Except NumericFault Float64

/-- `float(n)`. -/
def intToFloat (n : ℤ) : Except NumericFault Float64 :=
  if (Float64.ofRatio n 1).isFinite then .ok (.ofRatio n 1) else .error .overflowError

/-- `x ** y`: a negative base to a fractional power is complex. -/
def floatPow (libm : Libm) (x y : Float64) : Except NumericFault Number :=
  if x.isZero && y.isNegative then .error .zeroDivisionError
  else if x.isNegative && y.isFinite && !y.isInteger then
    (libm.complexOp .pow (x, .ofRatio 0 1) (y, .ofRatio 0 1)).map .complex
  else (libm.pow x y).map .float

/-- Two floats.  Sums, differences and products overflow silently to an infinity; a power raises. -/
def floatOp (libm : Libm) (op : BinaryOp) (x y : Float64) : Except NumericFault Number :=
  match op with
  | .add => .ok (.float (x.add y))
  | .sub => .ok (.float (x.add y.neg))
  | .mult => .ok (.float (x.mul y))
  | .div => if y.isZero then .error .zeroDivisionError else .ok (.float (x.div y))
  | .mod => if y.isZero then .error .zeroDivisionError else .ok (.float (x.mod y))
  | .pow => floatPow libm x y

/-- Two integers.  Everything but the division is exact; a negative exponent leaves the integers. -/
def intOp (libm : Libm) (op : BinaryOp) (m n : ℤ) : Except NumericFault Number :=
  match op with
  | .add => .ok (.int (m + n))
  | .sub => .ok (.int (m - n))
  | .mult => .ok (.int (m * n))
  | .div =>
    if n = 0 then .error .zeroDivisionError
    else if (Float64.divUnits m n).isFinite then .ok (.float (Float64.divUnits m n))
    else .error .overflowError
  | .mod => if n = 0 then .error .zeroDivisionError else .ok (.int (m.fmod n))
  | .pow =>
    if 0 ≤ n then .ok (.int (m ^ n.toNat))
    else do floatPow libm (← intToFloat m) (← intToFloat n)

namespace Number

def toComplex : Number → Except NumericFault (Float64 × Float64)
  | int n => (intToFloat n).map fun x => (x, .ofRatio 0 1)
  | float x => .ok (x, .ofRatio 0 1)
  | complex z => .ok z

/-- A number that is an `int` or a `float`. -/
def isReal : Number → Bool
  | complex _ => false
  | _ => true

/-- `a op b`: the operands are converted to the wider of their types. -/
def op (libm : Libm) (o : BinaryOp) : Number → Number → Except NumericFault Number
  | int m, int n => intOp libm o m n
  | int m, float y => do floatOp libm o (← intToFloat m) y
  | float x, int n => do floatOp libm o x (← intToFloat n)
  | float x, float y => floatOp libm o x y
  | a, b => do return complex (← libm.complexOp o (← a.toComplex) (← b.toComplex))

/-- `-a`. -/
def neg : Number → Number
  | int n => int (-n)
  | float x => float x.neg
  | complex z => complex (z.1.neg, z.2.neg)

/-- `abs(a)`. -/
def abs (libm : Libm) : Number → Except NumericFault Number
  | int n => .ok (int |n|)
  | float x => .ok (float x.abs)
  | complex z => (libm.complexAbs z).map float

/-- `a > b` of an absolute value. -/
def exceeds (bound : ℕ) : Number → Bool
  | int n => bound < n
  | float x => (Float64.ofRatio bound 1).lt x
  | complex _ => false

end Number

end Py

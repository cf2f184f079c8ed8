import TableAssembler.Number.Basic
import TableAssembler.Number.Bits
import TableAssembler.Number.Workings
import TableAssembler.Operator

/-!
# Arithmetic

An operator applied to two numbers gives a number or says why it does not.  Two integers give an
integer, exactly, except that a quotient and a negative power are floating-point; with a
floating-point operand the other is converted first.  An integer result must fit in 64 bits, and
shifts and powers that could only land outside are refused before they are computed.  So that the
one kind of refusal can be told from the other, what is done with integers is written as workings.

* `ArithmeticError`, `ArithmeticError.message`   why there is no result;
* `Integer.products`, `Integer.power`, `Integer.shiftLeft`   with the integers that they form;
* `Integer.workings`, `Integer.apply`            two integers;
* `Floating.apply`                               two floating-point numbers;
* `Number.workings`, `Number.apply`              any two numbers, with the final range check.
-/

namespace TableAssembler

/-! ## what can go wrong -/

/-- Why an operator gives no result. -/
inductive ArithmeticError where
  | divisionByZero
  | realDivisionByZero
  | integerModuloByZero
  | realModuloByZero
  | zeroToNegativePower
  | negativeShift
  | tooLargeToConvert
  | quotientTooLarge
  | powerOverflow
  | complexOverflow
  | noRealValue (base exponent : Number)
  | powerOutOfRange (base exponent : Int)
  | shiftTooFar (count : Int)
  | resultTooLarge
  | notIntegers
  | notArithmetic

/-- The number of bits that an integer result may have, sign included. -/
def wordBits : Nat := 64

def ArithmeticError.message : ArithmeticError → String
  | .divisionByZero => "division by zero"
  | .realDivisionByZero => "float division by zero"
  | .integerModuloByZero => "integer modulo by zero"
  | .realModuloByZero => "float modulo"
  | .zeroToNegativePower => "0.0 cannot be raised to a negative power"
  | .negativeShift => "negative shift count"
  | .tooLargeToConvert => "int too large to convert to float"
  | .quotientTooLarge => "integer division result too large for a float"
  | .powerOverflow => "(34, 'Numerical result out of range')"
  | .complexOverflow => "complex exponentiation"
  | .noRealValue a b => a.text ++ " ** " ++ b.text ++ " has no real value"
  | .powerOutOfRange a b => toString a ++ " ** " ++ toString b ++ " is out of range"
  | .shiftTooFar n => "cannot shift left by " ++ toString n ++ " bits"
  | .resultTooLarge => "result does not fit in " ++ toString wordBits ++ " bits"
  | .notIntegers => "bitwise operators need integers"
  | .notArithmetic => "not an arithmetic operator"

/-! ## floating-point numbers -/

namespace Floating

/-- Whether an operator works on bits, so that it needs integers. -/
def needsIntegers : Operator → Bool
  | .xor | .and | .or | .shl | .shr => true
  | _ => false

/-- The remainder with the sign of the divisor, a zero included. -/
def modulo (x y : Float) : Float :=
  let rest := Binary.remainder x y
  if rest == 0.0 then if y < 0.0 then -0.0 else 0.0
  else if (y < 0.0) != (rest < 0.0) then rest + y
  else rest

/-- An infinity in magnitude to a finite power that is not zero, given whether the infinity is
negative. -/
def infinitePower (negative : Bool) (y : Float) : Float :=
  let magnitude := if y > 0.0 then 1.0 / 0.0 else 0.0
  if negative && Binary.isOdd (.ofFloat y) then -magnitude else magnitude

/-- A power of a finite base that is not zero, with a finite exponent.  A negative base with an
exponent that is no integer has a complex power. -/
def finitePower (x y : Float) (complex : ArithmeticError) : Except ArithmeticError Float :=
  let p := Binary.ofFloat y
  let magnitude := Float.pow x.abs y
  if x < 0.0 && !p.isInteger then
    .error (if magnitude.isInf then .complexOverflow else complex)
  else if magnitude.isInf then .error .powerOverflow
  else .ok (if x < 0.0 && p.isOdd then -magnitude else magnitude)

/-- A power.  `complex` is the error for a power that exists but is not real. -/
def power (x y : Float) (complex : ArithmeticError) : Except ArithmeticError Float :=
  if y == 0.0 then .ok 1.0
  else if x.isNaN then .ok x
  else if y.isNaN then .ok (if x == 1.0 then 1.0 else y)
  else if y.isInf then
    .ok (if x.abs == 1.0 then 1.0 else if (y > 0.0) == (x.abs > 1.0) then y.abs else 0.0)
  else if x.isInf then .ok (infinitePower (x < 0.0) y)
  else if x == 0.0 then
    if y < 0.0 then .error .zeroToNegativePower
    else .ok (if Binary.isOdd (.ofFloat y) then x else 0.0)
  else finitePower x y complex

def apply (op : Operator) (x y : Float) (complex : ArithmeticError) :
    Except ArithmeticError Float :=
  match op with
  | .add => .ok (x + y)
  | .sub => .ok (x - y)
  | .mul => .ok (x * y)
  | .div => if y == 0.0 then .error .realDivisionByZero else .ok (x / y)
  | .mod => if y == 0.0 then .error .realModuloByZero else .ok (modulo x y)
  | .pow => power x y complex
  | .xor | .and | .or | .shl | .shr => .error .notIntegers
  | .replicate => .error .notArithmetic

end Floating

/-- An operator applied to two numbers after conversion to floating point, the left one first. -/
def Number.applyReal (op : Operator) (a b : Number) : Except ArithmeticError Number :=
  match a.toFloat?, b.toFloat? with
  | some x, some y => .real <$> Floating.apply op x y (.noRealValue a b)
  | _, _ => .error .tooLargeToConvert

/-! ## integers -/

namespace Integer

/-- A power by multiplication, so that all powers up to it are formed. -/
def products (a : Int) : Nat → Workings ArithmeticError Int
  | 0 => .form 1
  | n + 1 => do .form ((← products a n) * a)

/-- A power with a natural exponent.  The powers of `0`, `1` and `-1` are read off the exponent,
which may be huge. -/
def power (a : Int) (n : Nat) : Workings ArithmeticError Int :=
  if 1 < a.natAbs then products a n
  else .form (if n = 0 then 1 else if n % 2 = 0 then a * a else a)

/-- A left shift.  Zero may be shifted as far as one likes, another number by less than a word. -/
def shiftLeft (a b : Int) : Workings ArithmeticError Int :=
  if (wordBits : Int) ≤ b ∧ a ≠ 0 then .refuse (.shiftTooFar b)
  else if b < 0 then .refuse .negativeShift
  else .form (if a = 0 then 0 else a <<< b.toNat)

/-- An operator applied to two integers, and the integers that are formed. -/
def workings (op : Operator) (a b : Int) : Workings ArithmeticError Number :=
  match op with
  | .add => .integer <$> .form (a + b)
  | .sub => .integer <$> .form (a - b)
  | .mul => .integer <$> .form (a * b)
  | .div =>
    if b = 0 then .refuse .divisionByZero
    else match Binary.quotient? a b with
      | some x => .given (.ok (.real x))
      | none => .refuse .quotientTooLarge
  | .mod => if b = 0 then .refuse .integerModuloByZero else .integer <$> .form (a.fmod b)
  | .pow =>
    if (wordBits : Int) ≤ b ∧ 1 < a.natAbs then .refuse (.powerOutOfRange a b)
    else if b < 0 then .given (Number.applyReal .pow (.integer a) (.integer b))
    else .integer <$> power a b.toNat
  | .xor => .integer <$> .form (Bits.bitwise Bool.xor a b)
  | .and => .integer <$> .form (Bits.bitwise and a b)
  | .or => .integer <$> .form (Bits.bitwise or a b)
  | .shl => .integer <$> shiftLeft a b
  | .shr => if b < 0 then .refuse .negativeShift else .integer <$> .form (a >>> b.toNat)
  | .replicate => .refuse .notArithmetic

def apply (op : Operator) (a b : Int) : Except ArithmeticError Number := (workings op a b).result

def fits (n : Int) : Bool :=
  -((1 : Int) <<< (wordBits - 1)) ≤ n && n < (1 : Int) <<< (wordBits - 1)

end Integer

/-! ## numbers -/

namespace Number

/-- A number, unless it is an integer that does not fit in a word. -/
def checkRange (a : Number) : Except ArithmeticError Number :=
  match a with
  | .integer n => if Integer.fits n then .ok a else .error .resultTooLarge
  | .real _ => .ok a

/-- An operator applied to two numbers, before the range check. -/
def exactWorkings (op : Operator) (a b : Number) : Workings ArithmeticError Number :=
  match a, b with
  | .integer m, .integer n => Integer.workings op m n
  | _, _ =>
    if op = .replicate then .refuse .notArithmetic
    else if Floating.needsIntegers op then .refuse .notIntegers
    else .given (applyReal op a b)

/-- An operator applied to two numbers, and the integers that are formed.  What it makes of them is
there before its range is checked. -/
def workings (op : Operator) (a b : Number) : Workings ArithmeticError Number := do
  .given (checkRange (← exactWorkings op a b))

def apply (op : Operator) (a b : Number) : Except ArithmeticError Number := (workings op a b).result

end Number

end TableAssembler

import TableAssembler.Number.Shortest

/-!
# Numbers

What an expression computes is an integer of any size or a floating-point number.

* `Number`        the two kinds;
* `Number.text`   how a number is written.
-/

namespace TableAssembler

inductive Number where
  | integer (n : Int)
  | real (x : Float)
deriving Inhabited

namespace Number

/-- Numbers show a point or an exponent if they are floating-point ones: positional from `0.0001`
to below `10 ^ 16`, and at least two digits in an exponent. -/
def style : Style where
  least := -4
  bound := 16
  exponentDigits := 2
  infinity := "inf"
  noNumber := "nan"

def text : Number → String
  | .integer n => toString n
  | .real x => style.render x

def isReal : Number → Bool
  | .integer _ => false
  | .real _ => true

/-- The integer that a number is, if it is one. -/
def integer? : Number → Option Int
  | .integer n => some n
  | .real _ => none

/-- The nearest floating-point number, unless it is beyond the finite ones. -/
def toFloat? : Number → Option Float
  | .integer n => Binary.ofInt? n
  | .real x => some x

end Number

end TableAssembler

/-!
# Binary floating point, exactly

A finite number of the binary64 format is `± m * 2 ^ q`.  Here such numbers are taken apart, and
fractions of natural numbers are rounded to them: to the nearest, and a tie to the even one.

* `Binary`, `Binary.ofFloat`  a number of the format, taken apart;
* `Binary.divEven`            a quotient of naturals rounded to the nearest natural;
* `Binary.nearest?`           a fraction rounded to the nearest number of the format, if that is finite;
* `Binary.ofInt?`, `Binary.quotient?`, `Binary.remainder`  from integers, and between numbers.
-/

namespace TableAssembler

/-- A number of the binary64 format: `± m * 2 ^ q`, an infinity, or no number. -/
inductive Binary where
  | finite (negative : Bool) (m : Nat) (q : Int)
  | infinite (negative : Bool)
  | nan
deriving DecidableEq, Repr

namespace Binary

/-! ## taking apart -/

/-- The exponent of the smallest numbers of the format. -/
def leastExponent : Int := -1074

/-- The weight of the exponent field of an encoding. -/
def fieldWeight : Nat := 1 <<< 52

/-- The encoding of positive infinity; below it are the finite magnitudes, in order. -/
def infinityBits : Nat := 0x7ff * fieldWeight

/-- The parts of a number from the bits of its encoding. -/
def ofBits (bits : Nat) : Binary :=
  let negative := bits.testBit 63
  let field := bits / fieldWeight % 2048
  let fraction := bits % fieldWeight
  if field = 0 then .finite negative fraction leastExponent
  else if field < 2047 then
    .finite negative (fraction + fieldWeight) (leastExponent + (field - 1 : Nat))
  else if fraction = 0 then .infinite negative
  else .nan

def ofFloat (x : Float) : Binary := ofBits x.toBits.toNat

/-! ## rounding -/

/-- A quotient rounded to the nearest natural number, a tie to the even one. -/
def divEven (num den : Nat) : Nat :=
  let d := num / den
  let twice := 2 * (num % den)
  if twice < den ∨ (twice = den ∧ d % 2 = 0) then d else d + 1

/-- The number `e` with `2 ^ e ≤ num / den < 2 ^ (e + 1)`, for positive `num` and `den`. -/
def logQuotient (num den : Nat) : Int :=
  let e : Int := (num.log2 : Int) - den.log2
  if den <<< e.toNat ≤ num <<< (-e).toNat then e else e - 1

/-- The encoding of a fraction rounded to the nearest magnitude of the format, as if the
exponents had no upper end. -/
def nearestBits (num den : Nat) : Nat :=
  if num = 0 then 0
  else
    let q := max (logQuotient num den - 52) leastExponent
    let m := divEven (num <<< (-q).toNat) (den <<< q.toNat)
    (q - leastExponent).toNat * fieldWeight + m

/-- The number with a sign and an encoded magnitude. -/
def signed (negative : Bool) (bits : Nat) : Float :=
  Float.ofBits (UInt64.ofNat (if negative then bits + (1 <<< 63) else bits))

/-- The number nearest to `± num / den`, or nothing if that is beyond the finite ones. -/
def nearest? (negative : Bool) (num den : Nat) : Option Float :=
  let bits := nearestBits num den
  if bits < infinityBits then some (signed negative bits) else none

def ofInt? (n : Int) : Option Float := nearest? (n < 0) n.natAbs 1

/-- The number nearest to the quotient of two integers.  A zero has the sign of the quotient of
the signs, where zero itself counts as positive. -/
def quotient? (a b : Int) : Option Float :=
  nearest? (decide (a < 0) ^^ decide (b < 0)) a.natAbs b.natAbs

/-! ## exact operations -/

def isInteger : Binary → Bool
  | .finite _ m q => (m <<< q.toNat) % (1 <<< (-q).toNat) = 0
  | _ => false

def isOdd : Binary → Bool
  | .finite _ m q => q ≤ 0 && m % (1 <<< (-q).toNat) = 0 && m / (1 <<< (-q).toNat) % 2 = 1
  | _ => false

/-- The remainder of `x` after taking away `y`, not zero, as often as its magnitude allows.  It has
the sign of `x` and is exact. -/
def remainder (x y : Float) : Float :=
  match ofFloat x, ofFloat y with
  | .finite negative m q, .finite _ n r =>
    let e := min q r
    let rest := (m <<< (q - e).toNat) % (n <<< (r - e).toNat)
    (nearest? negative (rest <<< e.toNat) (1 <<< (-e).toNat)).getD x
  | .finite _ _ _, .infinite _ => x
  | _, _ => 0.0 / 0.0

end Binary

end TableAssembler

/-!
# Bits of an integer

An integer is read as an endless row of bits in two's complement: the bits of a number that is not
negative end in zeros, those of a negative one in ones.

* `magnitude`, `ofMagnitude`   an integer as a sign and a row of bits;
* `bitwise`                    an operation on bits, applied at every place at once.
-/

namespace TableAssembler.Bits

/-- The number whose bits are those of `a`, or their complements if `a` is negative. -/
def magnitude : Int → Nat
  | .ofNat m => m
  | .negSucc m => m

/-- The integer with a sign and a magnitude. -/
def ofMagnitude (negative : Bool) (m : Nat) : Int :=
  if negative then .negSucc m else .ofNat m

/-- Whether an integer is negative, that is, what its endless bits are. -/
def isNegative (a : Int) : Bool := decide (a < 0)

theorem magnitude_ofMagnitude (negative : Bool) (m : Nat) :
    magnitude (ofMagnitude negative m) = m := by
  cases negative <;> rfl

theorem isNegative_ofMagnitude (negative : Bool) (m : Nat) :
    isNegative (ofMagnitude negative m) = negative := by
  cases negative with
  | false => simp [isNegative, ofMagnitude]
  | true => simp [isNegative, ofMagnitude, Int.negSucc_lt_zero]

/-- The integer whose bit at each place is `f` of the bits of `a` and `b` there. -/
def bitwise (f : Bool → Bool → Bool) (a b : Int) : Int :=
  let s := isNegative a
  let t := isNegative b
  ofMagnitude (f s t) <|
    Nat.bitwise (fun x y => f (x ^^ s) (y ^^ t) ^^ f s t) (magnitude a) (magnitude b)

end TableAssembler.Bits

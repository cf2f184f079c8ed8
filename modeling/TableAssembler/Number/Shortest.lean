import TableAssembler.Number.Binary

/-!
# Shortest decimals

A binary floating-point number is written with the fewest decimal digits that read back as the same
number, and among those with the digits nearest to it.  A decimal reads back if it lies in the
interval of the reals that round to the number.

* `Decimal`                 a decimal, `digits * 10 ^ exponent`;
* `Shortest.interval`       the reals that round to a number, as fractions of one denominator;
* `Shortest.onGrid?`        the nearest hit among the two neighbours on a grid of decimals;
* `Shortest.decimal`        the shortest decimal;
* `Style`, `Style.render`   how a decimal is laid out.
-/

namespace TableAssembler

/-- The decimal `digits * 10 ^ exponent`. -/
structure Decimal where
  digits : Nat
  exponent : Int
deriving DecidableEq, Repr

/-- The same decimal without the zeros at its end; `fuel` bounds their number. -/
def Decimal.strip (d : Decimal) : Nat → Decimal
  | 0 => d
  | fuel + 1 =>
    if d.digits ≠ 0 ∧ d.digits % 10 = 0 then
      Decimal.strip ⟨d.digits / 10, d.exponent + 1⟩ fuel
    else d

namespace Shortest

/-- A positive number and the ends of the interval that rounds to it, over one denominator. -/
structure Interval where
  low : Nat
  value : Nat
  high : Nat
  denominator : Nat
  closed : Bool
deriving DecidableEq, Repr

/-- The interval of the reals that round to `m * 2 ^ q`.  Below a power of two the numbers are half
as far apart.  The ends belong to it if `m` is even. -/
def interval (m : Nat) (q : Int) : Interval :=
  let below := if m = Binary.fieldWeight ∧ Binary.leastExponent < q then 1 else 2
  let e := q - 2
  let scale (n : Nat) := n <<< e.toNat
  ⟨scale (4 * m - below), scale (4 * m), scale (4 * m + 2), 1 <<< (-e).toNat, m % 2 = 0⟩

def Interval.contains (i : Interval) (n d : Nat) : Bool :=
  if i.closed then i.low * d ≤ n * i.denominator && n * i.denominator ≤ i.high * d
  else i.low * d < n * i.denominator && n * i.denominator < i.high * d

def digitCount (n : Nat) : Nat := (Nat.toDigits 10 n).length

/-- The number `k` with `10 ^ k ≤ num / den < 10 ^ (k + 1)`, for positive `num` and `den`. -/
def decimalExponent (num den : Nat) : Int :=
  if den ≤ num then (digitCount (num / den) : Int) - 1
  else -(digitCount ((den + num - 1) / num - 1) : Int)

/-- The multiple of `10 ^ e` in the interval that is nearest to the value, if one of the two
multiples beside the value is in it.  Of two that are equally near the even one is taken. -/
def onGrid? (i : Interval) (e : Int) : Option Decimal :=
  let up := Nat.pow 10 e.toNat
  let down := Nat.pow 10 (-e).toNat
  let num := i.value * down
  let den := i.denominator * up
  let d := num / den
  let hit (n : Nat) := i.contains (n * up) down
  let nearer := Binary.divEven num den
  if hit d && hit (d + 1) then some ⟨nearer, e⟩
  else if hit d then some ⟨d, e⟩
  else if hit (d + 1) then some ⟨d + 1, e⟩
  else none

/-- The decimal with the fewest digits that reads back as `m * 2 ^ q`, for positive `m`.  Seventeen
digits always do. -/
def decimal (m : Nat) (q : Int) : Decimal :=
  let i := interval m q
  let k := decimalExponent i.value i.denominator
  let found := (List.range 17).findSome? fun n => onGrid? i (k - (n : Nat))
  (found.getD ⟨0, 0⟩).strip 17

end Shortest

/-! ## layout -/

/-- How decimals are laid out: positionally if the exponent of the first digit is from `least` up
to but not including `bound`, and otherwise in exponent form with at least `exponentDigits` digits
in the exponent. -/
structure Style where
  least : Int
  bound : Int
  exponentDigits : Nat
  infinity : String
  noNumber : String
deriving DecidableEq, Repr

namespace Style

/-- A decimal in positional form, always with a point and a digit on both sides of it.  `point` is
the number of digits before the point, counted from the first one. -/
def positional (digits : List Char) (point : Int) : String :=
  let whole := digits.take point.toNat ++ List.replicate (point.toNat - digits.length) '0'
  let part := List.replicate (-point).toNat '0' ++ digits.drop point.toNat
  let fill (s : List Char) := if s.isEmpty then ['0'] else s
  String.ofList (fill whole ++ '.' :: fill part)

/-- A decimal in exponent form, where `exponent` belongs to the first digit. -/
def scientific (style : Style) (digits : List Char) (exponent : Int) : String :=
  let lead := match digits with
    | [] => []
    | [c] => [c]
    | c :: rest => c :: '.' :: rest
  let sign := if exponent < 0 then '-' else '+'
  let power := Nat.toDigits 10 exponent.natAbs
  let pad := List.replicate (style.exponentDigits - power.length) '0'
  String.ofList (lead ++ 'e' :: sign :: pad ++ power)

/-- The layout of a positive decimal. -/
def layout (style : Style) (d : Decimal) : String :=
  let digits := Nat.toDigits 10 d.digits
  let exponent := d.exponent + digits.length - 1
  if style.least ≤ exponent ∧ exponent < style.bound then positional digits (exponent + 1)
  else style.scientific digits exponent

def render (style : Style) (x : Float) : String :=
  let sign (negative : Bool) := if negative then "-" else ""
  match Binary.ofFloat x with
  | .nan => style.noNumber
  | .infinite negative => sign negative ++ style.infinity
  | .finite negative 0 _ => sign negative ++ "0.0"
  | .finite negative m q => sign negative ++ style.layout (Shortest.decimal m q)

end Style

end TableAssembler

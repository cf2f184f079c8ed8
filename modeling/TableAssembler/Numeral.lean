import TableAssembler.Fault
import TableAssembler.Node.Basic

/-!
# Numerals

A numeral is a decimal number, or a bit pattern in base sixteen or two after a mark.  It must fit in
32 bits: a decimal number with its sign, a bit pattern without one.

* `Numeral.value?`    the value of a row of digits;
* `Numeral.sign`      an optional sign, and what follows it;
* `Numeral.Form`      the three forms of numerals;
* `Numeral.read`      the value of a numeral of a form, or why it has none;
* `Numeral.node`      the node of a numeral.
-/

namespace TableAssembler

namespace Numeral

/-! ## digits -/

def digitValue (c : Char) : Nat :=
  if c.isDigit then c.toNat - '0'.toNat
  else if c.isUpper then c.toNat - 'A'.toNat + 10
  else c.toNat - 'a'.toNat + 10

/-- Whether a character is a digit of a base up to sixteen. -/
def isDigitOf (base : Nat) (c : Char) : Bool := c.isAlphanum && digitValue c < base

/-- The positional value of some digits that follow digits of the value `high`. -/
def positional (base high : Nat) (digits : List Char) : Nat :=
  digits.foldl (fun n c => n * base + digitValue c) high

theorem positional_nil (base high : Nat) : positional base high [] = high := rfl

theorem positional_cons (base high : Nat) (c : Char) (digits : List Char) :
    positional base high (c :: digits) = positional base (high * base + digitValue c) digits :=
  rfl

/-- The value of a row of digits, if it is one and not empty. -/
def value? (base : Nat) (digits : List Char) : Option Nat :=
  if digits.isEmpty || !digits.all (isDigitOf base) then none
  else some (positional base 0 digits)

/-- Whether a text begins with a minus sign, and the text after the sign if there is one. -/
def sign : List Char → Bool × List Char
  | [] => (false, [])
  | c :: s => if c = '-' then (true, s) else if c = '+' then (false, s) else (false, c :: s)

def leadingDigits (base : Nat) (s : List Char) : Nat := (s.takeWhile (isDigitOf base)).length

theorem leadingDigits_of_all {base : Nat} {s : List Char} (h : s.all (isDigitOf base) = true) :
    leadingDigits base s = s.length := by
  induction s with
  | nil => rfl
  | cons c s ih =>
    rw [List.all_cons, Bool.and_eq_true] at h
    rw [leadingDigits, List.takeWhile_cons_of_pos h.1, List.length_cons, List.length_cons, ← ih h.2]
    rfl

/-! ## forms -/

/-- A form of numerals: its base, how many characters stand before the digits, the kind of its
values, the greatest of them, and how many digits there may be, if that is limited. -/
structure Form where
  base : Nat
  marks : Nat
  kind : ValueKind
  greatest : Int
  digitLimit : Option Nat

/-- Decimal numbers, of at most 4300 digits. -/
def Form.decimal : Form := ⟨10, 0, .int, 0x7fffffff, some 4300⟩

def Form.hex : Form := ⟨16, 1, .uint, 0xffffffff, none⟩

def Form.binary : Form := ⟨2, 1, .uint, 0xffffffff, none⟩

/-- Whether a number of digits is over a limit, if there is one. -/
def exceeds (count : Nat) (limit : Option Nat) : Option Nat := limit.filter (· < count)

/-- The value of a numeral of a form, or why it has none.  Too many digits are too many whatever
follows them. -/
def read (form : Form) (text : String) : Except Cause Int :=
  let given := text.toList.drop form.marks
  let (negative, digits) := sign given
  let count := leadingDigits form.base digits
  match exceeds count form.digitLimit with
  | some limit => .error (.tooManyDigits count limit)
  | none =>
    match value? form.base digits with
    | none => .error (.notNumeral form.base (String.ofList given))
    | some n =>
      let value : Int := if negative then -n else n
      if value ≤ form.greatest then .ok value else .error (.numeralTooLarge text)

def node (form : Form) (text : String) (token : Option Nat) : Except Fault Node :=
  match read form text with
  | .ok value => .ok (.value (.integer value) form.kind token)
  | .error cause => .error ⟨.numeral, token, some cause⟩

end Numeral

end TableAssembler

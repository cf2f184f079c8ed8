import Mathlib.Data.Nat.Digits.Defs
import TableAssembler.Node.Build
import TableAssembler.Proofs.Token.Munch

/-!
# Literals

A numeral of a text is a literal if its value is in bounds; otherwise it has no node.

* `digitsValue`               the positional value of some digits;
* `Literal`                   the numerals that are literals, with value and kind;
* `Operand`                   a token that is an operand, and its node;
* `Numeral.node_eq_ok_iff`    when a row of digits has a node;
* `ofToken_eq_ok_iff`         which node an operand has.
-/

namespace TableAssembler
open scoped Computability

/-- the value of some digits, of which the last has weight one -/
def digitsValue (base : Nat) (digits : List Char) : Nat :=
  Nat.ofDigits base (digits.reverse.map Numeral.digitValue)

/-- The numerals that are literals: decimal numbers of at most 4300 digits that fit in 32 bits with
a sign, and bit patterns that fit in 32 bits without one. -/
inductive Literal (t : Token) : Nat → ValueKind → Prop
  | int (kind : t.kind = .int) (short : t.text.toList.length ≤ 4300)
      (small : digitsValue 10 t.text.toList ≤ 2 ^ 31 - 1) :
      Literal t (digitsValue 10 t.text.toList) .int
  | hex (kind : t.kind = .hex) (small : digitsValue 16 (t.text.toList.drop 1) ≤ 2 ^ 32 - 1) :
      Literal t (digitsValue 16 (t.text.toList.drop 1)) .uint
  | bin (kind : t.kind = .bin) (small : digitsValue 2 (t.text.toList.drop 1) ≤ 2 ^ 32 - 1) :
      Literal t (digitsValue 2 (t.text.toList.drop 1)) .uint

/-- a token at an index that is an operand, and its node -/
inductive Operand (i : Nat) (t : Token) : Node → Prop
  | atom (kind : t.kind = .atom) : Operand i t (.atomRef t.text (some i))
  | literal {n : Nat} {kind : ValueKind} (value : Literal t n kind) :
      Operand i t (.value (.integer n) kind (some i))

/-! ## digits -/

theorem positional_eq (base high : Nat) (digits : List Char) :
    Numeral.positional base high digits
      = digitsValue base digits + base ^ digits.length * high := by
  induction digits generalizing high with
  | nil => simp [Numeral.positional_nil, digitsValue]
  | cons c digits ih =>
    have h : digitsValue base (c :: digits)
        = digitsValue base digits + base ^ digits.length * Numeral.digitValue c := by
      simp [digitsValue, Nat.ofDigits_append]
    rw [Numeral.positional_cons, ih, h, List.length_cons, Nat.pow_succ]
    ring

theorem isDigitOf_of_isDigit {c : Char} (h : c.isDigit = true) : Numeral.isDigitOf 10 c = true := by
  have hc := (isDigit_iff c).mp h
  have h0 : '0'.toNat = 48 := rfl
  have hv : Numeral.digitValue c < 10 := by
    rw [Numeral.digitValue, if_pos h, h0]
    omega
  simp [Numeral.isDigitOf, Char.isAlphanum, h, hv]

theorem isDigitOf_of_isBinaryDigit {c : Char} (h : isBinaryDigit c = true) :
    Numeral.isDigitOf 2 c = true := by
  simp only [isBinaryDigit, Bool.or_eq_true, beq_iff_eq] at h
  rcases h with rfl | rfl <;> decide

theorem isHexDigit_iff (c : Char) : isHexDigit c = true ↔
    c.isDigit = true ∨ 97 ≤ c.toNat ∧ c.toNat ≤ 102 ∨ 65 ≤ c.toNat ∧ c.toNat ≤ 70 := by
  simp only [isHexDigit, Bool.or_eq_true, Bool.and_eq_true, decide_eq_true_eq, or_assoc]
  exact Iff.rfl

theorem isDigitOf_of_isHexDigit {c : Char} (h : isHexDigit c = true) :
    Numeral.isDigitOf 16 c = true := by
  have h0 : '0'.toNat = 48 := rfl
  have hA : 'A'.toNat = 65 := rfl
  have ha : 'a'.toNat = 97 := rfl
  have hn : c.isAlphanum = true := by
    have hl := isLetter_iff c
    rw [isLetter] at hl
    rw [Char.isAlphanum, Bool.or_eq_true, hl]
    rcases (isHexDigit_iff c).mp h with hd | hd | hd
    · exact .inr hd
    · exact .inl (.inr ⟨by omega, by omega⟩)
    · exact .inl (.inl ⟨by omega, by omega⟩)
  have hv : Numeral.digitValue c < 16 := by
    rw [Numeral.digitValue]
    rcases (isHexDigit_iff c).mp h with hx | hx | hx
    · have := (isDigit_iff c).mp hx
      rw [if_pos hx, h0]
      omega
    · have hd : ¬ c.isDigit = true := fun hd => by have := (isDigit_iff c).mp hd; omega
      have hu : ¬ c.isUpper = true := fun hu => by have := (isUpper_iff c).mp hu; omega
      rw [if_neg hd, if_neg hu, ha]
      omega
    · have hd : ¬ c.isDigit = true := fun hd => by have := (isDigit_iff c).mp hd; omega
      rw [if_neg hd, if_pos ((isUpper_iff c).mpr ⟨hx.1, by omega⟩), hA]
      omega
  rw [Numeral.isDigitOf, hn, Bool.true_and, decide_eq_true hv]

/-! ## numerals -/

namespace Numeral

theorem sign_of_isDigitOf {base : Nat} {c : Char} {s : List Char}
    (h : isDigitOf base c = true) : sign (c :: s) = (false, c :: s) := by
  have hm : c ≠ '-' := by
    rintro rfl
    rw [isDigitOf, Bool.and_eq_true] at h
    exact absurd h.1 (by decide)
  have hp : c ≠ '+' := by
    rintro rfl
    rw [isDigitOf, Bool.and_eq_true] at h
    exact absurd h.1 (by decide)
  rw [sign, if_neg hm, if_neg hp]

theorem read_of_digits {form : Form} {text : String} {digits : List Char}
    (ht : text.toList.drop form.marks = digits) (hne : digits ≠ [])
    (hd : ∀ c ∈ digits, isDigitOf form.base c = true) :
    read form text =
      match exceeds digits.length form.digitLimit with
      | some limit => .error (.tooManyDigits digits.length limit)
      | none =>
        if (digitsValue form.base digits : Int) ≤ form.greatest then
          .ok (digitsValue form.base digits)
        else .error (.numeralTooLarge text) := by
  have hall : digits.all (isDigitOf form.base) = true := List.all_eq_true.mpr hd
  have hsign : sign digits = (false, digits) := by
    obtain ⟨c, s, rfl⟩ := List.exists_cons_of_ne_nil hne
    exact sign_of_isDigitOf (hd c List.mem_cons_self)
  have hvalue : value? form.base digits = some (digitsValue form.base digits) := by
    have hempty : digits.isEmpty = false := by simpa using hne
    rw [value?, hempty, hall, positional_eq, Nat.mul_zero, Nat.add_zero]
    rfl
  rw [read, ht, hsign]
  simp only [leadingDigits_of_all hall, hvalue]
  rfl

/-- a row of digits has a node if there are not too many of them and their value is in bounds -/
theorem node_eq_ok_iff {form : Form} {text : String} {digits : List Char} {token : Option Nat}
    {node : Node} (ht : text.toList.drop form.marks = digits) (hne : digits ≠ [])
    (hd : ∀ c ∈ digits, isDigitOf form.base c = true) :
    Numeral.node form text token = .ok node ↔
      (∀ limit, form.digitLimit = some limit → digits.length ≤ limit) ∧
        (digitsValue form.base digits : Int) ≤ form.greatest ∧
        node = .value (.integer (digitsValue form.base digits)) form.kind token := by
  have hexceeds : exceeds digits.length form.digitLimit = none ↔
      ∀ limit, form.digitLimit = some limit → digits.length ≤ limit := by
    cases form.digitLimit with
    | none => simp [exceeds]
    | some limit => simp [exceeds, Option.filter]
  rw [Numeral.node, read_of_digits ht hne hd, ← hexceeds]
  cases exceeds digits.length form.digitLimit with
  | some limit => simp
  | none =>
    by_cases hle : (digitsValue form.base digits : Int) ≤ form.greatest
    · simp [hle, eq_comm]
    · simp [hle]

end Numeral

/-! ## operands -/

/-- the form of the numerals of a class -/
def Token.Kind.form? : Kind → Option Numeral.Form
  | .int => some .decimal
  | .hex => some .hex
  | .bin => some .binary
  | _ => none

theorem ofToken_of_form {kind : Token.Kind} {form : Numeral.Form} (hk : kind.form? = some form)
    (text : String) (token : Option Nat) :
    Node.ofToken kind text token = Numeral.node form text token := by
  cases kind <;> cases hk <;> rfl

theorem literal_iff {t : Token} {form : Numeral.Form} (hk : t.kind.form? = some form) {n : Nat}
    {kind : ValueKind} :
    Literal t n kind ↔
      (∀ limit, form.digitLimit = some limit → (t.text.toList.drop form.marks).length ≤ limit) ∧
        (digitsValue form.base (t.text.toList.drop form.marks) : Int) ≤ form.greatest ∧
        n = digitsValue form.base (t.text.toList.drop form.marks) ∧ kind = form.kind := by
  constructor
  · intro h
    cases h with
    | int hint short small =>
      rw [hint] at hk
      cases hk
      refine ⟨fun limit hl => ?_, ?_, rfl, rfl⟩
      · cases hl
        exact short
      · show _ ≤ ((2 ^ 31 - 1 : Nat) : Int)
        exact Int.ofNat_le.mpr small
    | hex hhex small =>
      rw [hhex] at hk
      cases hk
      refine ⟨fun limit hl => (nomatch hl), ?_, rfl, rfl⟩
      show _ ≤ ((2 ^ 32 - 1 : Nat) : Int)
      exact Int.ofNat_le.mpr small
    | bin hbin small =>
      rw [hbin] at hk
      cases hk
      refine ⟨fun limit hl => (nomatch hl), ?_, rfl, rfl⟩
      show _ ≤ ((2 ^ 32 - 1 : Nat) : Int)
      exact Int.ofNat_le.mpr small
  · rintro ⟨short, small, rfl, rfl⟩
    cases hkind : t.kind with
    | int =>
      rw [hkind] at hk
      cases hk
      have small' : _ ≤ ((2 ^ 31 - 1 : Nat) : Int) := small
      exact .int hkind (short 4300 rfl) (Int.ofNat_le.mp small')
    | hex =>
      rw [hkind] at hk
      cases hk
      have small' : _ ≤ ((2 ^ 32 - 1 : Nat) : Int) := small
      exact .hex hkind (Int.ofNat_le.mp small')
    | bin =>
      rw [hkind] at hk
      cases hk
      have small' : _ ≤ ((2 ^ 32 - 1 : Nat) : Int) := small
      exact .bin hkind (Int.ofNat_le.mp small')
    | _ => rw [hkind] at hk; cases hk

/-- a mark and then some digits -/
theorem digits_of_marked {mark : Char} {p : Char → Bool} {base : Nat} {w : List Char}
    (h : w ∈ one (· == mark) * (one p * (one p)∗))
    (hp : ∀ c, p c = true → Numeral.isDigitOf base c = true) :
    w.drop 1 ≠ [] ∧ ∀ c ∈ w.drop 1, Numeral.isDigitOf base c = true := by
  obtain ⟨c, u, rfl, _, hu⟩ := mem_one_mul.mp h
  obtain ⟨d, v, rfl, hd, hv⟩ := mem_one_mul.mp hu
  refine ⟨List.cons_ne_nil d v, fun e he => hp e ?_⟩
  rcases List.mem_cons.mp he with rfl | he
  · exact hd
  · exact mem_one_kstar.mp hv e he

/-- after its marks a numeral has digits of its base, and at least one -/
theorem Token.Spelled.digits {t : Token} (h : t.Spelled) {form : Numeral.Form}
    (hk : t.kind.form? = some form) :
    t.text.toList.drop form.marks ≠ [] ∧
      ∀ c ∈ t.text.toList.drop form.marks, Numeral.isDigitOf form.base c = true := by
  obtain ⟨r, hr, htag⟩ := h
  have hnumeral : t.kind.isNumeral = true := by
    cases hkind : t.kind <;> rw [hkind] at hk <;> first | rfl | cases hk
  rcases htag.numeral hnumeral with ⟨e, rfl⟩ | ⟨e, rfl⟩ | ⟨e, rfl⟩
  · rw [e] at hk
    cases hk
    obtain ⟨c, u, hu, hc, hu'⟩ := mem_one_mul.mp hr
    show t.text.toList ≠ [] ∧ ∀ c ∈ t.text.toList, Numeral.isDigitOf 10 c = true
    rw [hu]
    refine ⟨List.cons_ne_nil c u, fun d hd => isDigitOf_of_isDigit ?_⟩
    rcases List.mem_cons.mp hd with rfl | hd
    · exact hc
    · exact mem_one_kstar.mp hu' d hd
  · rw [e] at hk
    cases hk
    exact digits_of_marked hr fun _ => isDigitOf_of_isHexDigit
  · rw [e] at hk
    cases hk
    exact digits_of_marked hr fun _ => isDigitOf_of_isBinaryDigit

/-- the node of an operand that is spelled as a text has it -/
theorem ofToken_eq_ok_iff {t : Token} (h : t.Spelled) (hop : t.kind.isOperand = true) (i : Nat)
    (node : Node) : Node.ofToken t.kind t.text (some i) = .ok node ↔ Operand i t node := by
  cases hform : t.kind.form? with
  | some form =>
    obtain ⟨hne, hd⟩ := h.digits hform
    rw [ofToken_of_form hform, Numeral.node_eq_ok_iff rfl hne hd]
    constructor
    · rintro ⟨short, small, rfl⟩
      exact .literal ((literal_iff hform).mpr ⟨short, small, rfl, rfl⟩)
    · intro ho
      cases ho with
      | atom hk => rw [hk] at hform; cases hform
      | literal value =>
        obtain ⟨short, small, rfl, rfl⟩ := (literal_iff hform).mp value
        exact ⟨short, small, rfl⟩
  | none =>
    have hk : t.kind = .atom := by
      cases hkind : t.kind <;> rw [hkind] at hop hform <;>
        first | rfl | (cases hform; done) | cases hop
    constructor
    · intro hn
      rw [hk] at hn
      cases hn
      exact .atom hk
    · intro ho
      cases ho with
      | atom => rw [hk]; rfl
      | literal value =>
        cases value with
        | int hint => rw [hint] at hk; cases hk
        | hex hhex => rw [hhex] at hk; cases hk
        | bin hbin => rw [hbin] at hk; cases hk

end TableAssembler

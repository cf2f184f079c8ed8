import TableAssembler.Proofs.Statement.Literal

/-!
# Numerals and what they spell

A numeral of a text has the value of its digits for its node, if that is in bounds; otherwise it has
none, because it has too many digits or else because it is too large.  A bit pattern may be spelled
with zeros before its digits and with letters of both sizes, and is the same number.

* `Spells`                    the ways to write a number in a base;
* `Spells.digitsValue_eq`     they all have the value of the number;
* `ofToken_of_not_literal`    why a numeral has no node;
* `BitPattern.readsAs`        what becomes of a spelling in base sixteen or two;
* `numeral_decodes`           which node a numeral has, and what becomes of each spelling.
-/

namespace TableAssembler
open scoped Computability

/-! ## small letters -/

theorem toLower_cases (c : Char) :
    c.toLower = c ∨ 65 ≤ c.toNat ∧ c.toNat ≤ 90 ∧ c.toLower.toNat = c.toNat + 32 := by
  unfold Char.toLower
  split
  · next h =>
    have hbounds : 65 ≤ c.toNat ∧ c.toNat ≤ 90 := h
    refine .inr ⟨hbounds.1, hbounds.2, ?_⟩
    show (c.val + 32).toNat = c.toNat + 32
    rw [UInt32.toNat_add]
    show (c.toNat + 32) % 2 ^ 32 = c.toNat + 32
    omega
  · exact .inl rfl

theorem digitValue_toLower (c : Char) : Numeral.digitValue c.toLower = Numeral.digitValue c := by
  have hA : 'A'.toNat = 65 := rfl
  have ha : 'a'.toNat = 97 := rfl
  rcases toLower_cases c with h | ⟨hlow, hhigh, h⟩
  · rw [h]
  · have hd : ¬ c.isDigit = true := fun hd => by have := (isDigit_iff c).mp hd; omega
    have hu : c.isUpper = true := (isUpper_iff c).mpr ⟨hlow, hhigh⟩
    have hd' : ¬ c.toLower.isDigit = true := fun hd => by have := (isDigit_iff _).mp hd; omega
    have hu' : ¬ c.toLower.isUpper = true := fun hu => by have := (isUpper_iff _).mp hu; omega
    rw [Numeral.digitValue, if_neg hd', if_neg hu', Numeral.digitValue, if_neg hd, if_pos hu, h, hA,
      ha]
    omega

theorem isHexDigit_of_toLower (c : Char) (h : isHexDigit c.toLower = true) :
    isHexDigit c = true := by
  rcases toLower_cases c with hc | ⟨hlow, hhigh, hc⟩
  · rwa [hc] at h
  · rw [isHexDigit_iff, isDigit_iff] at h ⊢
    omega

theorem isBinaryDigit_of_toLower (c : Char) (h : isBinaryDigit c.toLower = true) :
    isBinaryDigit c = true := by
  rcases toLower_cases c with hc | ⟨hlow, hhigh, hc⟩
  · rwa [hc] at h
  · rw [isBinaryDigit, Bool.or_eq_true, beq_iff_eq, beq_iff_eq] at h
    rcases h with h | h
    · rw [h, show '0'.toNat = 48 from rfl] at hc
      omega
    · rw [h, show '1'.toNat = 49 from rfl] at hc
      omega

/-! ## spellings -/

/-- The ways to write a number in a base: its digits after some zeros, with small and with great
letters. -/
def Spells (base n : Nat) (digits : List Char) : Prop :=
  ∃ zeros, digits.map Char.toLower = List.replicate zeros '0' ++ Nat.toDigits base n

theorem digitValue_digitChar : ∀ d < 16, Numeral.digitValue (Nat.digitChar d) = d := by decide

theorem isHexDigit_digitChar : ∀ d < 16, isHexDigit (Nat.digitChar d) = true := by decide

theorem isBinaryDigit_digitChar : ∀ d < 2, isBinaryDigit (Nat.digitChar d) = true := by decide

theorem digitsValue_concat (base : Nat) (digits : List Char) (c : Char) :
    digitsValue base (digits ++ [c])
      = base * digitsValue base digits + Numeral.digitValue c := by
  rw [digitsValue, List.reverse_append, List.reverse_singleton, List.singleton_append,
    List.map_cons, Nat.ofDigits_cons, Nat.add_comm]
  rfl

theorem digitsValue_zeros (base zeros : Nat) (digits : List Char) :
    digitsValue base (List.replicate zeros '0' ++ digits) = digitsValue base digits := by
  rw [digitsValue, List.reverse_append, List.reverse_replicate, List.map_append, List.map_replicate]
  exact Nat.ofDigits_append_replicate_zero _

theorem digitsValue_toLower (base : Nat) (digits : List Char) :
    digitsValue base (digits.map Char.toLower) = digitsValue base digits := by
  rw [digitsValue, digitsValue, ← List.map_reverse, List.map_map]
  congr 2
  funext c
  exact digitValue_toLower c

section
variable {base : Nat} (hbase : 1 < base)
include hbase

theorem digitsValue_toDigits (hle : base ≤ 16) (n : Nat) :
    digitsValue base (Nat.toDigits base n) = n := by
  induction n using Nat.strong_induction_on with
  | _ n ih =>
    rw [Nat.toDigits_eq_if hbase]
    split
    · next hlt =>
      rw [← List.nil_append [Nat.digitChar n], digitsValue_concat,
        digitValue_digitChar n (Nat.lt_of_lt_of_le hlt hle)]
      exact Nat.zero_add n
    · next hge =>
      have hlt : n % base < base := Nat.mod_lt n (by omega)
      rw [digitsValue_concat, ih (n / base) (Nat.div_lt_self (by omega) hbase),
        digitValue_digitChar _ (Nat.lt_of_lt_of_le hlt hle)]
      exact Nat.div_add_mod n base

theorem exists_of_mem_toDigits {n : Nat} {c : Char} (h : c ∈ Nat.toDigits base n) :
    ∃ d < base, c = Nat.digitChar d := by
  induction n using Nat.strong_induction_on with
  | _ n ih =>
    rw [Nat.toDigits_eq_if hbase] at h
    split at h
    · next hlt => exact ⟨n, hlt, List.mem_singleton.mp h⟩
    · rcases List.mem_append.mp h with h | h
      · exact ih (n / base) (Nat.div_lt_self (by omega) hbase) h
      · exact ⟨n % base, Nat.mod_lt n (by omega), List.mem_singleton.mp h⟩

/-- **a spelling of a number** has the value of the number -/
theorem Spells.digitsValue_eq (hle : base ≤ 16) {n : Nat} {digits : List Char}
    (h : Spells base n digits) : digitsValue base digits = n := by
  obtain ⟨zeros, hdigits⟩ := h
  rw [← digitsValue_toLower, hdigits, digitsValue_zeros, digitsValue_toDigits hbase hle]

/-- all digits of a spelling have a property that the digits below the base have, whatever their
size -/
theorem Spells.forall_digit {p : Char → Bool} (hp : ∀ d < base, p (Nat.digitChar d) = true)
    (hlower : ∀ c : Char, p c.toLower = true → p c = true) {n : Nat} {digits : List Char}
    (h : Spells base n digits) : ∀ c ∈ digits, p c = true := by
  intro c hc
  obtain ⟨zeros, hdigits⟩ := h
  have hmem : c.toLower ∈ List.replicate zeros '0' ++ Nat.toDigits base n :=
    hdigits ▸ List.mem_map_of_mem hc
  apply hlower
  rcases List.mem_append.mp hmem with hzero | hdigit
  · rw [List.eq_of_mem_replicate hzero]
    exact hp 0 (by omega)
  · obtain ⟨d, hd, hdigit⟩ := exists_of_mem_toDigits hbase hdigit
    rw [hdigit]
    exact hp d hd

end

theorem Spells.ne_nil {base n : Nat} {digits : List Char} (h : Spells base n digits) :
    digits ≠ [] := by
  rintro rfl
  obtain ⟨zeros, hdigits⟩ := h
  exact Nat.toDigits_ne_nil (List.append_eq_nil_iff.mp hdigits.symm).2

/-! ## numerals without a node -/

namespace Numeral

section
variable {form : Form} {text : String} {digits : List Char} (token : Option Nat)
  (ht : text.toList.drop form.marks = digits) (hne : digits ≠ [])
  (hd : ∀ c ∈ digits, isDigitOf form.base c = true)
include ht hne hd

theorem node_of_tooManyDigits {limit : Nat} (hlimit : form.digitLimit = some limit)
    (hlong : limit < digits.length) :
    Numeral.node form text token
      = .error ⟨.numeral, token, some (.tooManyDigits digits.length limit)⟩ := by
  have hexceeds : exceeds digits.length form.digitLimit = some limit := by
    rw [exceeds, hlimit, Option.filter_some, decide_eq_true hlong]
    rfl
  rw [Numeral.node, read_of_digits ht hne hd, hexceeds]

theorem node_of_numeralTooLarge
    (hshort : ∀ limit, form.digitLimit = some limit → digits.length ≤ limit)
    (hlarge : form.greatest < digitsValue form.base digits) :
    Numeral.node form text token = .error ⟨.numeral, token, some (.numeralTooLarge text)⟩ := by
  have hexceeds : exceeds digits.length form.digitLimit = none := by
    cases hlimit : form.digitLimit with
    | none => rfl
    | some limit =>
      rw [exceeds, Option.filter_some, decide_eq_false (Nat.not_lt.mpr (hshort limit hlimit))]
      rfl
  rw [Numeral.node, read_of_digits ht hne hd, hexceeds]
  dsimp only
  rw [if_neg (Int.not_le.mpr hlarge)]

end

end Numeral

/-- only decimal numbers have a limit for their digits -/
theorem Token.Kind.of_digitLimit {kind : Token.Kind} {form : Numeral.Form} {limit : Nat}
    (hk : kind.form? = some form) (h : form.digitLimit = some limit) :
    kind = .int ∧ form = .decimal ∧ limit = 4300 := by
  cases kind with
  | int =>
    cases hk
    cases h
    exact ⟨rfl, rfl, rfl⟩
  | hex => cases hk; cases h
  | bin => cases hk; cases h
  | _ => cases hk

/-- **why a numeral has no node**: it is a decimal number with too many digits, or else it is too
large -/
theorem ofToken_of_not_literal {t : Token} (h : t.Spelled) (hk : t.kind.isNumeral = true)
    (hnone : ¬ ∃ n kind, Literal t n kind) (token : Option Nat) :
    Node.ofToken t.kind t.text token = .error ⟨.numeral, token, some
      (if t.kind = .int ∧ 4300 < t.text.toList.length then
        .tooManyDigits t.text.toList.length 4300
      else .numeralTooLarge t.text)⟩ := by
  obtain ⟨form, hform⟩ : ∃ form, t.kind.form? = some form := by
    cases hkind : t.kind <;> rw [hkind] at hk <;> first | exact ⟨_, rfl⟩ | cases hk
  obtain ⟨hne, hd⟩ := h.digits hform
  rw [ofToken_of_form hform]
  by_cases hlong : ∃ limit, form.digitLimit = some limit ∧
      limit < (t.text.toList.drop form.marks).length
  · obtain ⟨limit, hlimit, hlong⟩ := hlong
    obtain ⟨hint, rfl, rfl⟩ := Token.Kind.of_digitLimit hform hlimit
    rw [Numeral.node_of_tooManyDigits token rfl hne hd hlimit hlong, if_pos ⟨hint, hlong⟩]
    rfl
  · have hshort : ∀ limit, form.digitLimit = some limit →
        (t.text.toList.drop form.marks).length ≤ limit :=
      fun limit hlimit => Nat.le_of_not_lt fun hlt => hlong ⟨limit, hlimit, hlt⟩
    have hlarge : form.greatest < digitsValue form.base (t.text.toList.drop form.marks) :=
      Int.lt_of_not_ge fun hle => hnone ⟨_, _, (literal_iff hform).mpr ⟨hshort, hle, rfl, rfl⟩⟩
    have hfew : ¬ (t.kind = .int ∧ 4300 < t.text.toList.length) := by
      rintro ⟨hint, hmany⟩
      rw [hint] at hform
      cases hform
      exact hlong ⟨4300, rfl, hmany⟩
    rw [Numeral.node_of_numeralTooLarge token rfl hne hd hshort hlarge, if_neg hfew]

/-! ## bit patterns -/

/-- a word alone is read as a bit pattern of a class, and that is the node of a number -/
def ReadsAs (kind : Token.Kind) (word : List Char) (n : Nat) : Prop :=
  tokenize (String.ofList word) = [⟨kind, String.ofList word, 0, word.length, 1, 0⟩] ∧
    ∀ token, Node.ofToken kind (String.ofList word) token = .ok (.value (.integer n) .uint token)

/-- Numerals of a class that are bit patterns: a mark, and then digits of a base in letters of any
size, without a limit for their number. -/
structure BitPattern (kind : Token.Kind) (form : Numeral.Form) (r : Rule) (mark : Char)
    (p : Char → Bool) : Prop where
  formed : kind.form? = some form
  marks : form.marks = 1
  uint : form.kind = .uint
  greatest : form.greatest = 2 ^ 32 - 1
  unlimited : form.digitLimit = none
  base : 1 < form.base
  base_le : form.base ≤ 16
  language : r.language = one (· == mark) * (one p * (one p)∗)
  word : ∀ w, Piece.kind? ⟨r, mark :: w⟩ = some kind
  digit : ∀ d < form.base, p (Nat.digitChar d) = true
  lower : ∀ c : Char, p c.toLower = true → p c = true
  sound : ∀ c, p c = true → Numeral.isDigitOf form.base c = true

theorem bitPattern_hex : BitPattern .hex .hex .hex '$' isHexDigit :=
  ⟨rfl, rfl, rfl, rfl, rfl, by decide, by decide, rfl, fun _ => rfl, isHexDigit_digitChar,
    isHexDigit_of_toLower, fun _ => isDigitOf_of_isHexDigit⟩

theorem bitPattern_binary : BitPattern .bin .binary .binary '%' isBinaryDigit :=
  ⟨rfl, rfl, rfl, rfl, rfl, by decide, by decide, rfl, fun _ => rfl, isBinaryDigit_digitChar,
    isBinaryDigit_of_toLower, fun _ => isDigitOf_of_isBinaryDigit⟩

namespace BitPattern

variable {kind : Token.Kind} {form : Numeral.Form} {r : Rule} {mark : Char} {p : Char → Bool}
  (h : BitPattern kind form r mark p) {n : Nat} {digits : List Char}
include h

theorem mem_language (hne : digits ≠ []) (hd : ∀ c ∈ digits, p c = true) :
    mark :: digits ∈ r.language := by
  obtain ⟨c, s, rfl⟩ := List.exists_cons_of_ne_nil hne
  obtain ⟨hc, hs⟩ := List.forall_mem_cons.mp hd
  rw [h.language]
  exact mem_one_mul.mpr ⟨mark, c :: s, rfl, beq_self_eq_true mark,
    mem_one_mul.mpr ⟨c, s, rfl, hc, mem_one_kstar.mpr hs⟩⟩

/-- **a spelling of a number of 32 bits** is read as that number -/
theorem readsAs (hn : n < 2 ^ 32) (hs : Spells form.base n digits) :
    ReadsAs kind (mark :: digits) n := by
  have hd : ∀ c ∈ digits, p c = true := hs.forall_digit h.base h.digit h.lower
  have hdigit : ∀ c ∈ digits, Numeral.isDigitOf form.base c = true := fun c hc =>
    h.sound c (hd c hc)
  have hdrop : (String.ofList (mark :: digits)).toList.drop form.marks = digits := by
    rw [String.toList_ofList, h.marks]
    rfl
  refine ⟨tokenize_of_mem_language (h.mem_language hs.ne_nil hd) (h.word digits), fun token => ?_⟩
  rw [ofToken_of_form h.formed, Numeral.node_eq_ok_iff hdrop hs.ne_nil hdigit,
    hs.digitsValue_eq h.base h.base_le, h.unlimited, h.greatest, h.uint]
  refine ⟨fun limit hlimit => ?_, by omega, rfl⟩
  cases hlimit

end BitPattern

/-- **Numerals decode exactly.**  Each numeral of a text, at whatever index, has the node of the
value of its digits if it is a literal.  Otherwise it has none and is itself to blame: a decimal
number of more than 4300 digits for its digits, any other for its value.  So all spellings of a
number of 32 bits, as a bit pattern in base sixteen or two, are read as one word, and have the node
of that number. -/
theorem numeral_decodes :
    (∀ text, ∀ t ∈ tokenize text, t.kind.isNumeral = true → ∀ i : Nat,
      (∀ node, Node.ofToken t.kind t.text (some i) = .ok node ↔
        ∃ n kind, Literal t n kind ∧ node = .value (.integer n) kind (some i)) ∧
      ((¬ ∃ n kind, Literal t n kind) →
        Node.ofToken t.kind t.text (some i) = .error ⟨.numeral, some i, some
          (if t.kind = .int ∧ 4300 < t.text.toList.length then
            .tooManyDigits t.text.toList.length 4300
          else .numeralTooLarge t.text)⟩)) ∧
    ∀ n < 2 ^ 32, (∀ digits, Spells 16 n digits → ReadsAs .hex ('$' :: digits) n) ∧
      ∀ digits, Spells 2 n digits → ReadsAs .bin ('%' :: digits) n := by
  refine ⟨fun text t ht hk i => ⟨fun node => ?_, fun hnone => ?_⟩, fun n hn => ⟨?_, ?_⟩⟩
  · have hspelled := spelled_of_mem_tokenize t ht
    have hoperand : t.kind.isOperand = true := by
      cases hkind : t.kind <;> rw [hkind] at hk <;> first | rfl | cases hk
    rw [ofToken_eq_ok_iff hspelled hoperand]
    constructor
    · intro h
      cases h with
      | atom hatom => rw [hatom] at hk; cases hk
      | literal value => exact ⟨_, _, value, rfl⟩
    · rintro ⟨n, kind, value, rfl⟩
      exact .literal value
  · exact ofToken_of_not_literal (spelled_of_mem_tokenize t ht) hk hnone (some i)
  · exact fun digits h => bitPattern_hex.readsAs hn h
  · exact fun digits h => bitPattern_binary.readsAs hn h

/-- a bit pattern with zeros and letters of both sizes, and a decimal number that is too large -/
theorem numeral_decodes_tooLarge :
    ReadsAs .hex ['$', '0', '0', 'f', 'F'] 255 ∧
      ⟨.int, "2147483648", 0, 10, 1, 0⟩ ∈ tokenize "2147483648" ∧
      (¬ ∃ n kind, Literal ⟨.int, "2147483648", 0, 10, 1, 0⟩ n kind) ∧
      Node.ofToken .int "2147483648" (some 0)
        = .error ⟨.numeral, some 0, some (.numeralTooLarge "2147483648")⟩ := by
  have hspells : Spells 16 255 ['0', '0', 'f', 'F'] := ⟨2, by decide +kernel⟩
  have hmem : ⟨.int, "2147483648", 0, 10, 1, 0⟩ ∈ tokenize "2147483648" := by decide +kernel
  have hnone : ¬ ∃ n kind, Literal ⟨.int, "2147483648", 0, 10, 1, 0⟩ n kind := by
    rintro ⟨n, kind, value⟩
    cases value with
    | int hkind short small => exact absurd small (by decide +kernel)
    | hex hkind => cases hkind
    | bin hkind => cases hkind
  exact ⟨(numeral_decodes.2 255 (by decide)).1 _ hspells, hmem, hnone,
    (numeral_decodes.1 _ _ hmem rfl 0).2 hnone⟩

end TableAssembler

import Mathlib.Data.Int.Bitwise
import TableAssembler.Number.Arithmetic
import TableAssembler.Fault

/-!
# Exact arithmetic

What an operator means for integers of any size, and how that compares with arithmetic in a word.

* `Operator.exactValue?`   the exact result, if there is one;
* `InWord`                 the integers that fit in a word;
* `Bits.bitwise_eq`        operations on bits are those of two's complement;
* `not_inWord_of_shift`    a shift that is refused at once could only land outside;
* `not_inWord_of_power`    and so could a power;
* `Number.apply_cases`     an exact result within a word is the result, all else is refused.
-/

namespace TableAssembler

/-! ## exact results -/

/-- The operators that give an integer for two integers, exactly: all but a quotient and a
repetition. -/
def Operator.isExact : Operator → Bool
  | .div | .replicate => false
  | _ => true

/-- The exact result for two integers.  There is none for a modulus of zero, a shift by a negative
count and a negative power. -/
def Operator.exactValue? (op : Operator) (a b : Int) : Option Int :=
  match op with
  | .add => some (a + b)
  | .sub => some (a - b)
  | .mul => some (a * b)
  | .mod => if b = 0 then none else some (a - b * a.fdiv b)
  | .pow => if b < 0 then none else some (a ^ b.toNat)
  | .xor => some (a.xor b)
  | .and => some (a.land b)
  | .or => some (a.lor b)
  | .shl => if b < 0 then none else some (a * 2 ^ b.toNat)
  | .shr => if b < 0 then none else some (a.fdiv (2 ^ b.toNat))
  | .div | .replicate => none

/-- the integers of 64 bits, sign included -/
def InWord (a : Int) : Prop := -2 ^ 63 ≤ a ∧ a ≤ 2 ^ 63 - 1

instance (a : Int) : Decidable (InWord a) := inferInstanceAs (Decidable (_ ∧ _))

theorem fits_iff (a : Int) : Integer.fits a = true ↔ InWord a := by
  have h : (1 : Int) <<< (wordBits - 1) = 9223372036854775808 := rfl
  rw [Integer.fits, Bool.and_eq_true, decide_eq_true_eq, decide_eq_true_eq, InWord, h]
  constructor
  · intro hf
    omega
  · intro hf
    omega

/-! ## bits -/

theorem Bits.ofMagnitude_natBitwise (f : Bool → Bool → Bool) (m n : Nat) :
    ofMagnitude (f false false) (Nat.bitwise (fun x y => f x y ^^ f false false) m n)
      = Int.natBitwise f m n := by
  cases h : f false false with
  | false =>
    simp only [Bool.xor_false, Int.natBitwise, h, cond_false]
    rfl
  | true =>
    simp only [Bool.xor_true, Int.natBitwise, h, cond_true]
    rfl

/-- operations on bits are those of two's complement -/
theorem Bits.bitwise_eq (f : Bool → Bool → Bool) (a b : Int) :
    bitwise f a b = Int.bitwise f a b := by
  have hpos : ∀ m : Nat, isNegative (Int.ofNat m) = false := isNegative_ofMagnitude false
  have hneg : ∀ m : Nat, isNegative (Int.negSucc m) = true := isNegative_ofMagnitude true
  rcases a with m | m <;> rcases b with n | n <;>
    simp only [bitwise, hpos, hneg, magnitude, Bool.xor_false, Bool.xor_true]
  · exact ofMagnitude_natBitwise f m n
  · exact ofMagnitude_natBitwise (fun x y => f x (!y)) m n
  · exact ofMagnitude_natBitwise (fun x y => f (!x) y) m n
  · exact ofMagnitude_natBitwise (fun x y => f (!x) (!y)) m n

/-! ## early refusals -/

theorem not_inWord_of_natAbs {a : Int} (h : 2 ^ 64 ≤ a.natAbs) : ¬ InWord a := by
  intro ha
  obtain ⟨hlow, hhigh⟩ := ha
  omega

/-- a number other than zero that is shifted by a word or more is outside -/
theorem not_inWord_of_shift {a b : Int} (ha : a ≠ 0) (hb : 64 ≤ b) :
    ¬ InWord (a * 2 ^ b.toNat) := by
  apply not_inWord_of_natAbs
  have hpow : 2 ^ 64 ≤ 2 ^ b.toNat := Nat.pow_le_pow_right (by omega) (by omega)
  have ha' : 1 ≤ a.natAbs := by omega
  rw [Int.natAbs_mul, Int.natAbs_pow]
  calc 2 ^ 64 ≤ 2 ^ b.toNat := hpow
    _ = 1 * 2 ^ b.toNat := (Nat.one_mul _).symm
    _ ≤ a.natAbs * Int.natAbs 2 ^ b.toNat := Nat.mul_le_mul_right _ ha'

/-- a power of two or more with an exponent of a word or more is outside -/
theorem not_inWord_of_power {a b : Int} (ha : 1 < a.natAbs) (hb : 64 ≤ b) :
    ¬ InWord (a ^ b.toNat) := by
  apply not_inWord_of_natAbs
  rw [Int.natAbs_pow]
  calc 2 ^ 64 ≤ 2 ^ b.toNat := Nat.pow_le_pow_right (by omega) (by omega)
    _ ≤ a.natAbs ^ b.toNat := Nat.pow_le_pow_left ha _

/-! ## operators -/

namespace Integer

theorem result_products (a : Int) (n : Nat) : (products a n).result = .ok (a ^ n) := by
  induction n with
  | zero =>
    rw [products, pow_zero]
    rfl
  | succ n ih =>
    rw [products, Workings.result_bind, ih, pow_succ]
    rfl

/-- powers of `0`, `1` and `-1` -/
theorem pow_of_natAbs_le_one {a : Int} (ha : a.natAbs ≤ 1) (n : Nat) :
    a ^ n = if n = 0 then 1 else if n % 2 = 0 then a * a else a := by
  have hunit : a = 0 ∨ a = 1 ∨ a = -1 := by omega
  by_cases hzero : n = 0
  · rw [if_pos hzero, hzero, pow_zero]
  · rw [if_neg hzero]
    rcases hunit with rfl | rfl | rfl
    · rw [zero_pow hzero, mul_zero, ite_self]
    · rw [one_pow, mul_one, ite_self]
    · by_cases heven : n % 2 = 0
      · rw [if_pos heven, (Nat.even_iff.mpr heven).neg_one_pow]
        rfl
      · rw [if_neg heven, (Nat.odd_iff.mpr (by omega)).neg_one_pow]

theorem result_power (a : Int) (n : Nat) : (power a n).result = .ok (a ^ n) := by
  unfold power
  split
  · exact result_products a n
  · next hunit =>
    rw [pow_of_natAbs_le_one (Nat.not_lt.mp hunit)]
    rfl

theorem result_shiftLeft_cases (a b : Int) :
    (shiftLeft a b).result = .ok (a * 2 ^ b.toNat) ∧ 0 ≤ b ∨
      (shiftLeft a b).result = .error .negativeShift ∧ b < 0 ∨
      (shiftLeft a b).result = .error (.shiftTooFar b) ∧ 0 ≤ b ∧
        ¬ InWord (a * 2 ^ b.toNat) := by
  have hbits : ((wordBits : Nat) : Int) = 64 := rfl
  unfold shiftLeft
  rw [hbits]
  by_cases hfar : 64 ≤ b ∧ a ≠ 0
  · rw [if_pos hfar]
    exact .inr (.inr ⟨rfl, by omega, not_inWord_of_shift hfar.2 hfar.1⟩)
  · rw [if_neg hfar]
    by_cases hneg : b < 0
    · rw [if_pos hneg]
      exact .inr (.inl ⟨rfl, hneg⟩)
    · rw [if_neg hneg]
      refine .inl ⟨congrArg Except.ok ?_, by omega⟩
      by_cases h0 : a = 0
      · rw [if_pos h0, h0, Int.zero_mul]
      · rw [if_neg h0, Int.shiftLeft_eq]

/-- An operator gives the exact result, or it refuses; then there is no exact result within a
word. -/
theorem apply_cases {op : Operator} (hop : op.isExact = true) {a b : Int}
    (hpow : op = .pow → 0 ≤ b) :
    (∃ v, op.exactValue? a b = some v ∧ Integer.apply op a b = .ok (.integer v)) ∨
      ∃ e, Integer.apply op a b = .error e ∧
        (∀ t, Fault.ofArithmetic t e = ⟨.arithmetic, t, some (.arithmetic e)⟩) ∧
        ∀ v, op.exactValue? a b = some v → ¬ InWord v := by
  have hbits : ((wordBits : Nat) : Int) = 64 := rfl
  cases op with
  | add => exact .inl ⟨_, rfl, rfl⟩
  | sub => exact .inl ⟨_, rfl, rfl⟩
  | mul => exact .inl ⟨_, rfl, rfl⟩
  | div => cases hop
  | mod =>
    rw [apply, workings]
    by_cases h0 : b = 0
    · rw [if_pos h0]
      refine .inr ⟨.integerModuloByZero, rfl, fun _ => rfl, fun v hv => ?_⟩
      rw [Operator.exactValue?, if_pos h0] at hv
      cases hv
    · rw [if_neg h0, Int.fmod_def]
      exact .inl ⟨_, if_neg h0, rfl⟩
  | pow =>
    have hb : ¬ b < 0 := Int.not_lt.mpr (hpow rfl)
    have hexact : Operator.pow.exactValue? a b = some (a ^ b.toNat) := if_neg hb
    rw [apply, workings, hbits]
    by_cases hwide : 64 ≤ b ∧ 1 < a.natAbs
    · rw [if_pos hwide]
      refine .inr ⟨.powerOutOfRange a b, rfl, fun _ => rfl, fun v hv => ?_⟩
      rw [hexact] at hv
      cases hv
      exact not_inWord_of_power hwide.2 hwide.1
    · refine .inl ⟨_, hexact, ?_⟩
      rw [if_neg hwide, if_neg hb, Workings.result_map, result_power]
      rfl
  | xor =>
    refine .inl ⟨_, rfl, ?_⟩
    rw [apply, workings, Bits.bitwise_eq, Int.bitwise_xor]
    rfl
  | and =>
    refine .inl ⟨_, rfl, ?_⟩
    rw [apply, workings, Bits.bitwise_eq, ← Int.bitwise_and]
    rfl
  | or =>
    refine .inl ⟨_, rfl, ?_⟩
    rw [apply, workings, Bits.bitwise_eq, ← Int.bitwise_or]
    rfl
  | shl =>
    rw [apply, workings, Workings.result_map]
    rcases result_shiftLeft_cases a b with ⟨h, hb⟩ | ⟨h, hb⟩ | ⟨h, hb, hout⟩
    · exact .inl ⟨_, if_neg (by omega), by rw [h]; rfl⟩
    · refine .inr ⟨_, by rw [h]; rfl, fun _ => rfl, fun v hv => ?_⟩
      rw [Operator.exactValue?, if_pos hb] at hv
      cases hv
    · refine .inr ⟨_, by rw [h]; rfl, fun _ => rfl, fun v hv => ?_⟩
      rw [Operator.exactValue?, if_neg (by omega)] at hv
      cases hv
      exact hout
  | shr =>
    rw [apply, workings]
    by_cases hb : b < 0
    · rw [if_pos hb]
      refine .inr ⟨.negativeShift, rfl, fun _ => rfl, fun v hv => ?_⟩
      rw [Operator.exactValue?, if_pos hb] at hv
      cases hv
    · refine .inl ⟨_, if_neg hb, ?_⟩
      rw [if_neg hb, Int.shiftRight_eq_div_pow, Int.fdiv_eq_ediv_of_nonneg]
      · norm_cast
      · exact Int.pow_nonneg (by omega)
  | replicate => cases hop

end Integer

/-- what an operator gives is checked for its range -/
theorem Number.apply_eq (op : Operator) (a b : Number) :
    Number.apply op a b = (exactWorkings op a b).result >>= checkRange :=
  Workings.result_bind _ _

/-- An exact result within a word is the result of an operator, and all else is refused. -/
theorem Number.apply_cases {op : Operator} (hop : op.isExact = true) {a b : Int}
    (hpow : op = .pow → 0 ≤ b) :
    (∃ v, op.exactValue? a b = some v ∧ InWord v ∧
        Number.apply op (.integer a) (.integer b) = .ok (.integer v)) ∨
      ∃ e, Number.apply op (.integer a) (.integer b) = .error e ∧
        (∀ t, Fault.ofArithmetic t e = ⟨.arithmetic, t, some (.arithmetic e)⟩) ∧
        ∀ v, op.exactValue? a b = some v → ¬ InWord v := by
  have happly : Number.apply op (.integer a) (.integer b)
      = Integer.apply op a b >>= checkRange := apply_eq op (.integer a) (.integer b)
  rcases Integer.apply_cases hop hpow with ⟨v, hv, h⟩ | ⟨e, h, hblame, hout⟩
  · have hcheck : Number.apply op (.integer a) (.integer b)
        = if Integer.fits v then .ok (.integer v) else .error .resultTooLarge := by
      rw [happly, h]
      rfl
    by_cases hfits : InWord v
    · exact .inl ⟨v, hv, hfits, by rw [hcheck, if_pos ((fits_iff v).mpr hfits)]⟩
    · refine .inr ⟨.resultTooLarge, ?_, fun _ => rfl, fun w hw => ?_⟩
      · rw [hcheck, if_neg fun hf => hfits ((fits_iff v).mp hf)]
      · rw [hv] at hw
        cases hw
        exact hfits
  · exact .inr ⟨e, by rw [happly, h]; rfl, hblame, hout⟩

end TableAssembler

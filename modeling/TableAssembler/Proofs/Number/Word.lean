import Mathlib.Data.BitVec
import TableAssembler.Proofs.Number.Exact

/-!
# Arithmetic on words

A machine computes with words of 64 bits in two's complement, and what does not fit in one wraps
around.  Going from integers to words commutes with every operator, so the machine gives the exact
result wherever that is an integer that fits.

* `Operator.wrapped?`      an operator on words;
* `Word.toInt_ofInt`       an integer that fits in a word is read back from it;
* `Word.ofInt_of_testBit`  the word of an integer is known by its bits;
* `wrapped?_ofInt`         an operator on the words of two integers;
* `Operator.isClosed`, `exists_inWord`   the operators that never leave a word.
-/

namespace TableAssembler

/-! ## operators on words -/

/-- An operator on words.  Sums, differences, products and powers wrap around, and a modulus has the
sign of the divisor.  A count is read with its sign: shifted to the left by a word or more nothing
is left, and to the right only the sign. -/
def Operator.wrapped? (op : Operator) (a b : BitVec 64) : Option (BitVec 64) :=
  match op with
  | .add => some (a + b)
  | .sub => some (a - b)
  | .mul => some (a * b)
  | .mod => if b = 0 then none else some (a.smod b)
  | .pow => if b.toInt < 0 then none else some (a ^ b.toInt.toNat)
  | .xor => some (a ^^^ b)
  | .and => some (a &&& b)
  | .or => some (a ||| b)
  | .shl => if b.toInt < 0 then none else some (a <<< b.toInt.toNat)
  | .shr => if b.toInt < 0 then none else some (a.sshiftRight b.toInt.toNat)
  | .div | .replicate => none

namespace Word

/-! ## integers and words -/

/-- an integer that fits in a word is read back from it -/
theorem toInt_ofInt {a : Int} (ha : InWord a) : (BitVec.ofInt 64 a).toInt = a :=
  BitVec.toInt_ofInt_eq_self (by decide) ha.1 (Int.lt_of_le_sub_one ha.2)

theorem inWord_toInt (w : BitVec 64) : InWord w.toInt :=
  ⟨w.le_toInt, Int.le_sub_one_of_lt BitVec.toInt_lt⟩

theorem ofInt_eq_zero_iff {a : Int} (ha : InWord a) : BitVec.ofInt 64 a = 0 ↔ a = 0 := by
  rw [← BitVec.toInt_inj, toInt_ofInt ha]
  exact Iff.rfl

theorem ofInt_sub (a b : Int) :
    BitVec.ofInt 64 (a - b) = BitVec.ofInt 64 a - BitVec.ofInt 64 b := by
  rw [Int.sub_eq_add_neg, BitVec.ofInt_add, BitVec.ofInt_neg, BitVec.sub_eq_add_neg]

theorem ofInt_pow (a : Int) (n : Nat) : BitVec.ofInt 64 (a ^ n) = BitVec.ofInt 64 a ^ n := by
  induction n with
  | zero =>
    rw [Int.pow_zero, BitVec.pow_zero]
    rfl
  | succ n ih => rw [Int.pow_succ, BitVec.ofInt_mul, ih, BitVec.pow_succ]

theorem ofInt_shiftLeft (a : Int) (n : Nat) :
    BitVec.ofInt 64 (a * 2 ^ n) = BitVec.ofInt 64 a <<< n := by
  have hpow : BitVec.ofInt 64 (2 ^ n) = BitVec.twoPow 64 n := by
    apply BitVec.eq_of_toNat_eq
    rw [show (2 : Int) ^ n = (2 ^ n : Nat) by norm_cast, BitVec.ofInt_natCast, BitVec.toNat_ofNat,
      BitVec.toNat_twoPow]
  rw [BitVec.ofInt_mul, hpow, BitVec.shiftLeft_eq_mul_twoPow]

/-- a modulus of words is one of integers -/
theorem toInt_smod {a b : Int} (ha : InWord a) (hb : InWord b) :
    ((BitVec.ofInt 64 a).smod (BitVec.ofInt 64 b)).toInt = a - b * a.fdiv b := by
  rw [BitVec.toInt_smod, toInt_ofInt ha, toInt_ofInt hb, Int.fmod_def]

/-- a shift of a word to the right is a quotient of integers -/
theorem toInt_sshiftRight {a : Int} (ha : InWord a) (n : Nat) :
    ((BitVec.ofInt 64 a).sshiftRight n).toInt = a.fdiv (2 ^ n) := by
  rw [BitVec.toInt_sshiftRight, toInt_ofInt ha, Int.shiftRight_eq_div_pow,
    Int.fdiv_eq_ediv_of_nonneg]
  · norm_cast
  · exact Int.pow_nonneg (by omega)

/-! ## bits -/

theorem getLsbD_ofInt (a : Int) {i : Nat} (hi : i < 64) :
    (BitVec.ofInt 64 a).getLsbD i = a.testBit i := by
  cases a with
  | ofNat m =>
    rw [Int.ofNat_eq_natCast, BitVec.ofInt_natCast, BitVec.getLsbD_ofNat, decide_eq_true hi]
    rfl
  | negSucc m =>
    rw [BitVec.ofInt_negSucc_eq_not_ofNat, BitVec.getLsbD_not, BitVec.getLsbD_ofNat,
      decide_eq_true hi]
    rfl

/-- the word of an integer is known by its bits -/
theorem ofInt_of_testBit {a : Int} {w : BitVec 64}
    (h : ∀ i < 64, a.testBit i = w.getLsbD i) : BitVec.ofInt 64 a = w :=
  BitVec.eq_of_getLsbD_eq fun i hi => (getLsbD_ofInt a hi).trans (h i hi)

section
variable (a b : Int)

theorem ofInt_xor : BitVec.ofInt 64 (a.xor b) = BitVec.ofInt 64 a ^^^ BitVec.ofInt 64 b :=
  ofInt_of_testBit fun i hi => by
    rw [Int.testBit_lxor, BitVec.getLsbD_xor, getLsbD_ofInt a hi, getLsbD_ofInt b hi]

theorem ofInt_land : BitVec.ofInt 64 (a.land b) = BitVec.ofInt 64 a &&& BitVec.ofInt 64 b :=
  ofInt_of_testBit fun i hi => by
    rw [Int.testBit_land, BitVec.getLsbD_and, getLsbD_ofInt a hi, getLsbD_ofInt b hi]

theorem ofInt_lor : BitVec.ofInt 64 (a.lor b) = BitVec.ofInt 64 a ||| BitVec.ofInt 64 b :=
  ofInt_of_testBit fun i hi => by
    rw [Int.testBit_lor, BitVec.getLsbD_or, getLsbD_ofInt a hi, getLsbD_ofInt b hi]

end

theorem inWord_iff_magnitude (a : Int) : InWord a ↔ Bits.magnitude a < 2 ^ 63 := by
  cases a with
  | ofNat m =>
    rw [Int.ofNat_eq_natCast, InWord, show Bits.magnitude m = m from rfl]
    omega
  | negSucc m =>
    rw [Int.negSucc_eq, InWord, ← Int.negSucc_eq, show Bits.magnitude (.negSucc m) = m from rfl]
    omega

/-- an operation on bits does not leave a word -/
theorem inWord_bitwise (f : Bool → Bool → Bool) {a b : Int} (ha : InWord a) (hb : InWord b) :
    InWord (Bits.bitwise f a b) := by
  rw [inWord_iff_magnitude] at ha hb ⊢
  rw [Bits.bitwise, Bits.magnitude_ofMagnitude]
  exact Nat.bitwise_lt_two_pow ha hb

end Word

open Word

/-- **An operator on the words of two integers** gives the word of their exact result, whether or
not that fits. -/
theorem wrapped?_ofInt {op : Operator} {a b v : Int} (ha : InWord a) (hb : InWord b)
    (h : op.exactValue? a b = some v) :
    op.wrapped? (BitVec.ofInt 64 a) (BitVec.ofInt 64 b) = some (BitVec.ofInt 64 v) := by
  unfold Operator.exactValue? at h
  unfold Operator.wrapped?
  rw [toInt_ofInt hb]
  cases op with
  | add => cases h; rw [BitVec.ofInt_add]
  | sub => cases h; rw [ofInt_sub]
  | mul => cases h; rw [BitVec.ofInt_mul]
  | mod =>
    dsimp only at h ⊢
    split at h
    · cases h
    · next hzero =>
      cases h
      rw [if_neg ((ofInt_eq_zero_iff hb).not.mpr hzero), ← toInt_smod ha hb, BitVec.ofInt_toInt]
  | pow =>
    dsimp only at h ⊢
    split at h
    · cases h
    · next hsign =>
      cases h
      rw [if_neg hsign, ofInt_pow]
  | xor => cases h; rw [ofInt_xor]
  | and => cases h; rw [ofInt_land]
  | or => cases h; rw [ofInt_lor]
  | shl =>
    dsimp only at h ⊢
    split at h
    · cases h
    · next hsign =>
      cases h
      rw [if_neg hsign, ofInt_shiftLeft]
  | shr =>
    dsimp only at h ⊢
    split at h
    · cases h
    · next hsign =>
      cases h
      rw [if_neg hsign, ← toInt_sshiftRight ha, BitVec.ofInt_toInt]
  | div => cases h
  | replicate => cases h

/-! ## operators that never leave a word -/

/-- the operators that never leave a word -/
def Operator.isClosed : Operator → Bool
  | .mod | .xor | .and | .or | .shr => true
  | _ => false

theorem Operator.isExact_of_isClosed {op : Operator} (h : op.isClosed = true) :
    op.isExact = true := by
  cases op <;> first | rfl | cases h

/-- **what such an operator makes of words** fits in a word, unless it is a modulus of zero or a
shift by a negative count -/
theorem exists_inWord {op : Operator} (hop : op.isClosed = true) {a b : Int} (ha : InWord a)
    (hb : InWord b) (hmod : op = .mod → b ≠ 0) (hshr : op = .shr → 0 ≤ b) :
    ∃ v, op.exactValue? a b = some v ∧ InWord v := by
  cases op with
  | mod =>
    refine ⟨a - b * a.fdiv b, if_neg (hmod rfl), ?_⟩
    rw [← toInt_smod ha hb]
    exact inWord_toInt _
  | xor =>
    refine ⟨a.xor b, rfl, ?_⟩
    rw [← Int.bitwise_xor, ← Bits.bitwise_eq]
    exact inWord_bitwise _ ha hb
  | and =>
    refine ⟨a.land b, rfl, ?_⟩
    rw [← Int.bitwise_and, ← Bits.bitwise_eq]
    exact inWord_bitwise _ ha hb
  | or =>
    refine ⟨a.lor b, rfl, ?_⟩
    rw [← Int.bitwise_or, ← Bits.bitwise_eq]
    exact inWord_bitwise _ ha hb
  | shr =>
    refine ⟨a.fdiv (2 ^ b.toNat), if_neg (Int.not_lt.mpr (hshr rfl)), ?_⟩
    rw [← toInt_sshiftRight ha]
    exact inWord_toInt _
  | _ => cases hop

end TableAssembler

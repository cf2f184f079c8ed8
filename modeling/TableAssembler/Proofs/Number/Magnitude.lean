import Mathlib.Algebra.Order.GroupWithZero.Basic
import TableAssembler.Proofs.Number.Word

/-!
# How large results can be

An operator on two integers that fit in words refuses at once, or forms integers that are not much
larger than a word.  The refusals that come before a shift or a power are what bounds them: each
leaves counts and exponents below a word's number of bits, or bases that go nowhere.

* `natAbs_le_of_inWord`     a word;
* `Operator.reach`          how large an operator can make words;
* `Integer.mem_formed_products`, `Integer.workings_cases`   what an operator forms;
* `Integer.exactValue?_of_apply`   an integer that an operator gives is the exact result;
* `Integer.natAbs_shiftLeft_le`, `Integer.natAbs_pow_le`   shifts and powers that are not refused;
* `Integer.natAbs_le_of_isClosed`   operators that never leave a word;
* `Integer.natAbs_formed_le`, `Integer.natAbs_le_reach`   what an operator forms, and what it gives,
                            is within its reach;
* `Integer.eq_div_or_pow_of_apply`   the operators that give no integer.
-/

namespace TableAssembler

theorem natAbs_le_of_inWord {a : Int} (ha : InWord a) : a.natAbs ≤ 2 ^ 63 := by
  obtain ⟨hlow, hhigh⟩ := ha
  omega

/-- how large an operator can make integers that fit in words: no magnitude that it forms is
greater -/
def Operator.reach : Operator → Nat
  | .pow => 2 ^ 3969
  | _ => 2 ^ 126

theorem Operator.reach_of_ne_pow {op : Operator} (hop : op ≠ .pow) : op.reach = 2 ^ 126 := by
  cases op with
  | pow => exact absurd rfl hop
  | _ => rfl

/-- no operator reaches further than a power -/
theorem Operator.reach_le (op : Operator) : op.reach ≤ 2 ^ 3969 := by
  have hle : 2 ^ 126 ≤ 2 ^ 3969 := pow_le_pow_right₀ (Nat.le_succ 1) (by omega)
  cases op with
  | pow => exact Nat.le_refl _
  | _ => exact hle

namespace Integer

variable {op : Operator} {a b v : Int}

/-! ## what is formed -/

theorem mem_formed_products {n : Nat} : v ∈ (products a n).formed ↔ ∃ k ≤ n, v = a ^ k := by
  induction n with
  | zero => simp [products, Workings.form]
  | succ n ih =>
    have hlast : v ∈ (products a (n + 1)).formed ↔ v ∈ (products a n).formed ∨ v = a ^ (n + 1) := by
      rw [products, Workings.mem_formed_bind, result_products, pow_succ]
      simp [Workings.form]
    rw [hlast, ih]
    constructor
    · rintro (⟨k, hk, rfl⟩ | rfl)
      · exact ⟨k, Nat.le_succ_of_le hk, rfl⟩
      · exact ⟨n + 1, Nat.le_refl _, rfl⟩
    · rintro ⟨k, hk, rfl⟩
      rcases Nat.le_succ_iff.mp hk with hk | rfl
      · exact .inl ⟨k, hk, rfl⟩
      · exact .inr rfl

/-- a power is formed, and nothing but powers of the same base with no larger exponent -/
theorem formed_power (a : Int) (n : Nat) :
    a ^ n ∈ (power a n).formed ∧ ∀ v ∈ (power a n).formed, ∃ k ≤ n, v = a ^ k := by
  unfold power
  split
  · exact ⟨mem_formed_products.mpr ⟨n, Nat.le_refl n, rfl⟩, fun v hv => mem_formed_products.mp hv⟩
  · next hunit =>
    rw [← pow_of_natAbs_le_one (Nat.not_lt.mp hunit)]
    exact ⟨List.mem_singleton_self _, fun v hv => ⟨n, Nat.le_refl n, List.mem_singleton.mp hv⟩⟩

/-- what is computed in floating point is no integer -/
theorem applyReal_ne_integer (op : Operator) (a b : Number) (v : Int) :
    Number.applyReal op a b ≠ .ok (.integer v) := by
  unfold Number.applyReal
  split
  · next x y _ _ =>
    cases Floating.apply op x y (.noRealValue a b) with
    | ok z => exact fun h => (nomatch h)
    | error e => exact fun h => (nomatch h)
  · exact fun h => (nomatch h)

/-- **what an operator does**: it forms nothing and gives no integer, it forms the one integer that
it gives, or it comes to a power that is not refused -/
theorem workings_cases (op : Operator) (a b : Int) :
    (∃ r, workings op a b = .given r ∧ ∀ v, r ≠ .ok (.integer v)) ∨
      op ≠ .pow ∧ (∃ v, workings op a b = ⟨[v], .ok (.integer v)⟩) ∨
      op = .pow ∧ 0 ≤ b ∧ ¬ (64 ≤ b ∧ 1 < a.natAbs) ∧
        workings op a b = .integer <$> power a b.toNat := by
  have hbits : ((wordBits : Nat) : Int) = 64 := rfl
  have refused : ∀ {w : Workings ArithmeticError Number} (e : ArithmeticError), w = .refuse e →
      ∃ r, w = .given r ∧ ∀ v, r ≠ .ok (.integer v) := by
    intro w e he
    refine ⟨.error e, he, ?_⟩
    intro v h
    cases h
  cases op with
  | add | sub | mul | xor | and | or => exact .inr (.inl ⟨Operator.noConfusion, _, rfl⟩)
  | replicate => exact .inl (refused _ rfl)
  | div =>
    rw [workings]
    split
    · exact .inl (refused _ rfl)
    · split
      · refine .inl ⟨_, rfl, ?_⟩
        intro v h
        cases h
      · exact .inl (refused _ rfl)
  | mod =>
    rw [workings]
    split
    · exact .inl (refused _ rfl)
    · exact .inr (.inl ⟨Operator.noConfusion, _, rfl⟩)
  | shr =>
    rw [workings]
    split
    · exact .inl (refused _ rfl)
    · exact .inr (.inl ⟨Operator.noConfusion, _, rfl⟩)
  | shl =>
    rw [workings, shiftLeft]
    split
    · exact .inl (refused _ rfl)
    · split
      · exact .inl (refused _ rfl)
      · exact .inr (.inl ⟨Operator.noConfusion, _, rfl⟩)
  | pow =>
    rw [workings, hbits]
    split
    · exact .inl (refused _ rfl)
    · next hnear =>
      split
      · exact .inl ⟨_, rfl, applyReal_ne_integer _ _ _⟩
      · next hsign => exact .inr (.inr ⟨rfl, Int.not_lt.mp hsign, hnear, rfl⟩)

/-- an integer that an operator gives is formed -/
theorem mem_formed_of_apply (h : apply op a b = .ok (.integer v)) :
    v ∈ (workings op a b).formed := by
  rw [apply] at h
  rcases workings_cases op a b with ⟨r, hr, hno⟩ | ⟨_, w, hw⟩ | ⟨rfl, _, _, hpower⟩
  · rw [hr] at h
    exact absurd h (hno v)
  · rw [hw] at h ⊢
    cases h
    exact List.mem_singleton_self v
  · rw [hpower, Workings.result_map, result_power] at h
    cases h
    rw [hpower, Workings.formed_map]
    exact (formed_power a b.toNat).1

/-- **an operator that gives no integer forms none** -/
theorem formed_eq_nil_of_apply (h : ∀ v, apply op a b ≠ .ok (.integer v)) :
    (workings op a b).formed = [] := by
  rcases workings_cases op a b with ⟨r, hr, _⟩ | ⟨_, v, hv⟩ | ⟨rfl, _, _, hpower⟩
  · rw [hr]
    rfl
  · refine absurd ?_ (h v)
    rw [apply, hv]
  · refine absurd ?_ (h (a ^ b.toNat))
    rw [apply, hpower, Workings.result_map, result_power]
    rfl

example : workings .shl 1 64 = .refuse (.shiftTooFar 64) := rfl

/-! ## shifts and powers -/

/-- an integer that an exact operator gives is the exact result -/
theorem exactValue?_of_apply (hop : op.isExact = true) (hpow : op = .pow → 0 ≤ b)
    (h : apply op a b = .ok (.integer v)) : op.exactValue? a b = some v := by
  rcases apply_cases hop hpow with ⟨w, hw, hok⟩ | ⟨e, herror, _⟩
  · cases hok.symm.trans h
    exact hw
  · cases herror.symm.trans h

/-- a shift that is not refused is of zero, or by less than a word -/
theorem natAbs_shiftLeft_le (ha : InWord a) (h : (shiftLeft a b).result = .ok v) :
    v.natAbs ≤ 2 ^ 126 := by
  have hbits : ((wordBits : Nat) : Int) = 64 := rfl
  unfold shiftLeft at h
  rw [hbits] at h
  split at h
  · cases h
  · next hnear =>
    split at h
    · cases h
    · cases h
      by_cases hzero : a = 0
      · rw [if_pos hzero]
        exact Nat.zero_le _
      · have hcount : b.toNat ≤ 63 := by omega
        rw [if_neg hzero, Int.shiftLeft_eq, Int.natAbs_mul, Int.natAbs_pow]
        calc a.natAbs * 2 ^ b.toNat ≤ 2 ^ 63 * 2 ^ 63 :=
              Nat.mul_le_mul (natAbs_le_of_inWord ha) (Nat.pow_le_pow_right (by omega) hcount)
          _ = 2 ^ 126 := by rw [← Nat.pow_add]

/-- a power of no more than a power of two, by the exponents -/
theorem pow_le_two_pow {m j k e : Nat} (hm : m ≤ 2 ^ j) (he : j * k ≤ e) : m ^ k ≤ 2 ^ e :=
  calc m ^ k ≤ (2 ^ j) ^ k := Nat.pow_le_pow_left hm k
    _ = 2 ^ (j * k) := (Nat.pow_mul 2 j k).symm
    _ ≤ 2 ^ e := Nat.pow_le_pow_right Nat.two_pos he

/-- a power that is not refused is one of `0`, `1` and `-1`, or its exponent is less than a word; so
it is with those before it -/
theorem natAbs_pow_le (ha : InWord a) (hnear : ¬ (64 ≤ b ∧ 1 < a.natAbs)) {k : Nat}
    (hk : k ≤ b.toNat) : (a ^ k).natAbs ≤ 2 ^ 3969 := by
  rw [Int.natAbs_pow]
  by_cases hunit : a.natAbs ≤ 1
  · have hone : a.natAbs ≤ 2 ^ 0 := hunit
    exact pow_le_two_pow hone (by omega)
  · have hexponent : k ≤ 63 := by omega
    exact pow_le_two_pow (natAbs_le_of_inWord ha) (by omega)

/-! ## all operators -/

/-- the operators that never leave a word -/
theorem natAbs_le_of_isClosed (hop : op.isClosed = true) (ha : InWord a) (hb : InWord b)
    (h : apply op a b = .ok (.integer v)) : v.natAbs ≤ 2 ^ 63 := by
  have hexact : op.exactValue? a b = some v :=
    exactValue?_of_apply (Operator.isExact_of_isClosed hop) (by rintro rfl; cases hop) h
  have hmod : op = .mod → b ≠ 0 := by
    rintro rfl rfl
    cases hexact
  have hshr : op = .shr → 0 ≤ b := by
    rintro rfl
    by_contra hneg
    rw [Operator.exactValue?, if_pos (Int.not_le.mp hneg)] at hexact
    cases hexact
  obtain ⟨w, hw, hin⟩ := exists_inWord hop ha hb hmod hshr
  cases hexact.symm.trans hw
  exact natAbs_le_of_inWord hin

/-- an integer that an operator other than a power gives for words -/
theorem natAbs_le_of_ne_pow (hop : op ≠ .pow) (ha : InWord a) (hb : InWord b)
    (h : apply op a b = .ok (.integer v)) : v.natAbs ≤ 2 ^ 126 := by
  have hsmall : a.natAbs ≤ 2 ^ 63 := natAbs_le_of_inWord ha
  have hsmall' : b.natAbs ≤ 2 ^ 63 := natAbs_le_of_inWord hb
  have hsum : a.natAbs + b.natAbs ≤ 2 ^ 126 := by omega
  have hclosed : op.isClosed = true → v.natAbs ≤ 2 ^ 126 := fun hop =>
    Nat.le_trans (natAbs_le_of_isClosed hop ha hb h) (Nat.pow_le_pow_right Nat.two_pos (by omega))
  cases op with
  | add =>
    cases h
    exact Nat.le_trans (Int.natAbs_add_le a b) hsum
  | sub =>
    cases h
    exact Nat.le_trans (Int.natAbs_sub_le a b) hsum
  | mul =>
    cases h
    rw [Int.natAbs_mul]
    calc a.natAbs * b.natAbs ≤ 2 ^ 63 * 2 ^ 63 := Nat.mul_le_mul hsmall hsmall'
      _ = 2 ^ 126 := (Nat.pow_add 2 63 63).symm
  | shl =>
    rw [apply, workings, Workings.result_map] at h
    cases hshift : (shiftLeft a b).result with
    | ok w =>
      rw [hshift] at h
      cases h
      exact natAbs_shiftLeft_le ha hshift
    | error e =>
      rw [hshift] at h
      cases h
  | mod | xor | and | or | shr => exact hclosed rfl
  | div =>
    rw [apply, workings] at h
    split at h
    · cases h
    · split at h <;> cases h
  | pow => exact absurd rfl hop
  | replicate => cases h

/-- **what an operator forms for words** is within its reach -/
theorem natAbs_formed_le (ha : InWord a) (hb : InWord b) :
    ∀ v ∈ (workings op a b).formed, v.natAbs ≤ op.reach := by
  intro v hv
  rcases workings_cases op a b with ⟨r, hr, _⟩ | ⟨hop, w, hw⟩ | ⟨rfl, _, hnear, hpower⟩
  · rw [hr] at hv
    cases hv
  · rw [hw] at hv
    cases List.mem_singleton.mp hv
    have happly : apply op a b = .ok (.integer v) := by rw [apply, hw]
    rw [Operator.reach_of_ne_pow hop]
    exact natAbs_le_of_ne_pow hop ha hb happly
  · rw [hpower, Workings.formed_map] at hv
    obtain ⟨k, hk, rfl⟩ := (formed_power a b.toNat).2 v hv
    exact natAbs_pow_le ha hnear hk

/-- an integer that an operator gives for words is within its reach -/
theorem natAbs_le_reach (ha : InWord a) (hb : InWord b) (h : apply op a b = .ok (.integer v)) :
    v.natAbs ≤ op.reach :=
  natAbs_formed_le ha hb v (mem_formed_of_apply h)

example : apply .mul (-2 ^ 63) (-2 ^ 63) = .ok (.integer (2 ^ 126)) := rfl

/-- only a quotient and a negative power are floating-point -/
theorem eq_div_or_pow_of_apply {x : Float} (h : apply op a b = .ok (.real x)) :
    op = .div ∨ op = .pow ∧ b < 0 := by
  by_cases hexact : op.isExact = true
  · refine .inr ?_
    by_contra hnot
    have hpow : op = .pow → 0 ≤ b := fun hop => Int.not_lt.mp fun hneg => hnot ⟨hop, hneg⟩
    rcases apply_cases hexact hpow with ⟨w, _, hok⟩ | ⟨e, herror, _⟩
    · cases hok.symm.trans h
    · cases herror.symm.trans h
  · cases op with
    | div => exact .inl rfl
    | replicate => cases h
    | _ => exact absurd rfl hexact

end Integer

end TableAssembler

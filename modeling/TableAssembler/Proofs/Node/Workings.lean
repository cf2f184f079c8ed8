import Mathlib.Data.Nat.Size
import TableAssembler.Proofs.Number.Magnitude
import TableAssembler.Proofs.Object.Cells

/-!
# The integers of an evaluation

What is computed is checked for its range only after it is there.  So an evaluation may form
integers that its result does not show, and what bounds their size is that operands are in words: a
literal is smaller than that, and the result of an operator has passed the check before it is an
operand.

* `Node.workings`              evaluation with the integers that it forms, and `result_workings`;
* `exists_of_mem_formed`       what an operator forms, it forms from two integers;
* `Node.FitsWord`              a node whose literals fit in words;
* `FitsWord.natAbs_le`         the size of what its evaluation forms;
* `Statement.fitsWord`         the statements of a text are such nodes;
* `workings_bounded`           operators on words, and the expressions of a text.
-/

namespace TableAssembler

/-! ## operators -/

/-- what an operator forms is formed from two integers, and no more by the check of its range -/
theorem Number.exists_of_mem_formed {op : Operator} {a b : Number} {v : Int}
    (h : v ∈ (Number.workings op a b).formed) :
    ∃ m n, a = .integer m ∧ b = .integer n ∧ v ∈ (Integer.workings op m n).formed := by
  have hexact : v ∈ (exactWorkings op a b).formed := by
    rcases (Workings.mem_formed_bind _ _).mp h with hexact | ⟨_, _, hcheck⟩
    · exact hexact
    · cases hcheck
  unfold exactWorkings at hexact
  split at hexact
  · exact ⟨_, _, rfl, rfl, hexact⟩
  · split at hexact
    · cases hexact
    · split at hexact <;> cases hexact

namespace Node

/-- evaluation as it forms integers: those of literals, and those of the operators -/
def workings : Node → Workings Fault Number
  | .value number _ _ => ⟨number.integer?.toList, .ok number⟩
  | .binary lhs op rhs t => do
    let a ← lhs.workings
    let b ← rhs.workings
    (Number.workings op a b).mapError (Fault.ofArithmetic t)
  | n => .given n.evaluate

/-- evaluation comes to what it does with its integers left out -/
theorem result_workings (n : Node) : n.workings.result = n.evaluate := by
  cases n with
  | binary lhs op rhs t =>
    simp only [workings, evaluate, Workings.result_bind, result_workings lhs, result_workings rhs]
    rfl
  | _ => rfl

theorem mem_formed_binary {lhs rhs : Node} {op : Operator} {t : Option Nat} {v : Int} :
    v ∈ (binary lhs op rhs t).workings.formed ↔
      v ∈ lhs.workings.formed ∨ ∃ a, lhs.evaluate = .ok a ∧ (v ∈ rhs.workings.formed ∨
        ∃ b, rhs.evaluate = .ok b ∧ v ∈ (Number.workings op a b).formed) := by
  simp only [workings, Workings.mem_formed_bind, result_workings]
  exact Iff.rfl

/-! ## literals that fit in words -/

/-- all integers that stand in a node fit in words -/
def FitsWord (n : Node) : Prop := ∀ a kind t, .value (.integer a) kind t ∈ n.parts → InWord a

variable {lhs rhs : Node} {op : Operator} {t : Option Nat}

theorem FitsWord.left (h : FitsWord (.binary lhs op rhs t)) : lhs.FitsWord := fun a kind u hm =>
  h a kind u (List.mem_append_left _ (List.mem_append_left _ hm))

theorem FitsWord.right (h : FitsWord (.binary lhs op rhs t)) : rhs.FitsWord := fun a kind u hm =>
  h a kind u (List.mem_append_left _ (List.mem_append_right _ hm))

/-- an operand is in a word, whether it stands in the node or was computed -/
theorem FitsWord.inWord {n : Node} (h : n.FitsWord) {v : Int}
    (hv : n.evaluate = .ok (.integer v)) : InWord v := by
  cases n with
  | value number kind t =>
    cases hv
    exact h v kind t List.mem_cons_self
  | binary lhs op rhs t => exact inWord_of_evaluate rfl hv
  | _ => cases hv

/-- **what is formed for literals that fit in words** is no larger than the largest power -/
theorem FitsWord.natAbs_le {n : Node} (h : n.FitsWord) :
    ∀ v ∈ n.workings.formed, v.natAbs ≤ 2 ^ 3969 := by
  intro v hv
  cases n with
  | value number kind t =>
    cases number with
    | integer a =>
      cases List.mem_singleton.mp hv
      exact Nat.le_trans (natAbs_le_of_inWord (h v kind t List.mem_cons_self))
        (pow_le_pow_right₀ (Nat.le_succ 1) (by omega))
    | real x => cases hv
  | binary lhs op rhs t =>
    rcases mem_formed_binary.mp hv with hl | ⟨a, ha, hr | ⟨b, hb, hop⟩⟩
    · exact h.left.natAbs_le v hl
    · exact h.right.natAbs_le v hr
    · obtain ⟨m, n, rfl, rfl, hformed⟩ := Number.exists_of_mem_formed hop
      exact Nat.le_trans
        (Integer.natAbs_formed_le (h.left.inWord ha) (h.right.inWord hb) v hformed)
        (Operator.reach_le op)
  | _ => cases hv

mutual

/-- what a part of a node is made of is part of the node -/
theorem mem_parts_trans (n : Node) : ∀ p ∈ n.parts, ∀ q ∈ p.parts, q ∈ n.parts := by
  intro p hp q hq
  cases n with
  | binary lhs op rhs t =>
    rw [parts, List.mem_append, List.mem_append, List.mem_singleton] at hp
    rcases hp with (hl | hr) | rfl
    · exact List.mem_append_left _ (List.mem_append_left _ (mem_parts_trans lhs p hl q hq))
    · exact List.mem_append_left _ (List.mem_append_right _ (mem_parts_trans rhs p hr q hq))
    · exact hq
  | list items =>
    rw [parts, List.mem_append, List.mem_singleton] at hp
    rcases hp with hitem | rfl
    · exact List.mem_append_left _ (mem_partsOf_trans items p hitem q hq)
    · exact hq
  | record fields =>
    rw [parts, List.mem_append, List.mem_singleton] at hp
    rcases hp with hfield | rfl
    · exact List.mem_append_left _ (mem_partsOf_trans fields p hfield q hq)
    · exact hq
  | _ =>
    cases List.mem_singleton.mp hp
    exact hq

theorem mem_partsOf_trans (ns : List Node) :
    ∀ p ∈ partsOf ns, ∀ q ∈ p.parts, q ∈ partsOf ns := by
  intro p hp q hq
  cases ns with
  | nil => cases hp
  | cons n ns =>
    rw [partsOf, List.mem_append] at hp ⊢
    exact hp.imp (fun h => mem_parts_trans n p h q hq) fun h => mem_partsOf_trans ns p h q hq

end

theorem FitsWord.of_mem_parts {n p : Node} (h : n.FitsWord) (hp : p ∈ n.parts) : p.FitsWord :=
  fun a kind t hm => h a kind t (mem_parts_trans n p hp _ hm)

end Node

/-! ## texts -/

theorem Operand.fitsWord {i : Nat} {t : Token} {n : Node} (h : Operand i t n) : n.FitsWord := by
  intro a kind u hm
  cases h with
  | atom => cases List.mem_singleton.mp hm
  | literal value =>
    cases List.mem_singleton.mp hm
    obtain ⟨small, _⟩ := value.bounds
    exact ⟨by omega, by omega⟩

theorem Expression.fitsWord {i : Nat} {ts : List Token} {n : Node} (h : Expression i ts n) :
    n.FitsWord := by
  induction h with
  | operand ho => exact ho.fitsWord
  | binary left _ _ ih =>
    intro a kind u hm
    rw [Node.parts, List.mem_append, List.mem_append, List.mem_singleton] at hm
    rcases hm with (hl | hr) | hself
    · exact left.fitsWord a kind u hl
    · exact ih a kind u hr
    · cases hself

theorem TypeNames.value_notMem {i : Nat} {ts : List Token} {ns : List Node}
    (h : TypeNames i ts ns) (number : Number) (kind : ValueKind) (t : Option Nat) :
    .value number kind t ∉ Node.partsOf ns := by
  induction h with
  | nil => exact List.not_mem_nil
  | cons first _ ih =>
    rw [Node.partsOf, List.mem_append]
    rintro (hfirst | hmore)
    · cases first <;> cases List.mem_singleton.mp hfirst
    · exact ih hmore

theorem Statement.fitsWord {i : Nat} {ts : List Token} {n : Node} (h : Statement i ts n) :
    n.FitsWord := by
  intro a kind u hm
  cases h with
  | atomDef => cases List.mem_singleton.mp hm
  | record filled types =>
    rw [Node.parts, List.mem_append, List.mem_singleton] at hm
    rcases hm with hfield | hself
    · exact absurd hfield (types.value_notMem _ kind u)
    · cases hself
  | macroUse => cases List.mem_singleton.mp hm
  | string => cases List.mem_singleton.mp hm
  | expression tree => exact tree.fitsWord a kind u hm

/-- the bits of what is no larger than a power of two -/
theorem size_le_of_le_two_pow {m e : Nat} (h : m ≤ 2 ^ e) : Nat.size m ≤ e + 1 :=
  Nat.size_le.mpr (Nat.lt_of_le_of_lt h (Nat.pow_lt_pow_right Nat.one_lt_two (Nat.lt_succ_self e)))

/-- **No integer grows out of hand.**  An operator on words refuses before it forms an integer, or
gives an integer, and none that it forms is beyond its reach, or it is a quotient or a negative
power and gives a floating-point number.  Whatever expression of a text is evaluated, the integers
that are formed on the way have no more than 3970 bits. -/
theorem workings_bounded :
    (∀ (op : Operator) (a b : Int), InWord a → InWord b →
      (∃ e, Integer.apply op a b = .error e ∧ (Integer.workings op a b).formed = []) ∨
      (∃ v, Integer.apply op a b = .ok (.integer v) ∧ v.natAbs ≤ op.reach ∧
        v ∈ (Integer.workings op a b).formed ∧
        ∀ u ∈ (Integer.workings op a b).formed, u.natAbs ≤ op.reach) ∨
      (∃ x, Integer.apply op a b = .ok (.real x)) ∧ (Integer.workings op a b).formed = [] ∧
        (op = .div ∨ op = .pow ∧ b < 0)) ∧
    (∀ n : Node, n.workings.result = n.evaluate) ∧
    ∀ text : String, ∀ n ∈ Step.nodesOf (Cursor.start (tokenize text)).steps, ∀ p ∈ n.parts,
      ∀ v ∈ p.workings.formed, Nat.size v.natAbs ≤ 3970 := by
  refine ⟨fun op a b ha hb => ?_, Node.result_workings, fun text n hn p hp v hv => ?_⟩
  · have hnone : (∀ v, Integer.apply op a b ≠ .ok (.integer v)) →
        (Integer.workings op a b).formed = [] := Integer.formed_eq_nil_of_apply
    cases h : Integer.apply op a b with
    | error e => exact .inl ⟨e, rfl, hnone fun v hv => (nomatch h.symm.trans hv)⟩
    | ok c =>
      cases c with
      | integer v =>
        exact .inr (.inl ⟨v, rfl, Integer.natAbs_le_reach ha hb h, Integer.mem_formed_of_apply h,
          Integer.natAbs_formed_le ha hb⟩)
      | real x =>
        exact .inr (.inr ⟨⟨x, rfl⟩, hnone fun v hv => (nomatch h.symm.trans hv),
          Integer.eq_div_or_pow_of_apply h⟩)
  · obtain ⟨before, words, after, _, hstatement⟩ := exists_statement_of_mem_nodesOf hn
    have hle : v.natAbs ≤ 2 ^ 3969 := (hstatement.fitsWord.of_mem_parts hp).natAbs_le v hv
    exact size_le_of_le_two_pow hle

/-- `2147483647 ** 9` -/
def largePower : Node :=
  .binary (.value (.integer 2147483647) .int (some 0)) .pow (.value (.integer 9) .int (some 2))
    (some 1)

/-- a product of words at the bound, and a power that is formed and only then refused -/
theorem workings_bounded_largePower :
    (2 ^ 126 : Int).natAbs ≤ Operator.mul.reach ∧
      (∃ n ∈ Step.nodesOf (Cursor.start (tokenize "2147483647 ** 9")).steps,
        n.evaluate = .error ⟨.arithmetic, some 1, some (.arithmetic .resultTooLarge)⟩ ∧
        n.workings.formed = 2147483647 :: 9 :: (List.range 10).map (2147483647 ^ ·)) ∧
      Nat.size (2147483647 ^ 9 : Int).natAbs ≤ 3970 := by
  have htokens : tokenize "2147483647 ** 9" =
      [⟨.int, "2147483647", 0, 10, 1, 0⟩, ⟨.operator .pow, "**", 11, 13, 1, 11⟩,
        ⟨.int, "9", 14, 15, 1, 14⟩] := by
    decide +kernel
  have hread : largePower ∈ Step.nodesOf (Cursor.start (tokenize "2147483647 ** 9")).steps := by
    rw [htokens, Cursor.steps_of_some rfl]
    exact List.mem_cons_self
  have hformed : largePower.workings.formed
      = 2147483647 :: 9 :: (List.range 10).map (2147483647 ^ ·) := rfl
  refine ⟨?_, ⟨largePower, hread, rfl, hformed⟩, ?_⟩
  · have hproduct : Integer.apply .mul (-2 ^ 63) (-2 ^ 63) = .ok (.integer (2 ^ 126)) := rfl
    rcases workings_bounded.1 .mul (-2 ^ 63) (-2 ^ 63) (by decide) (by decide) with
      ⟨e, he, _⟩ | ⟨v, hv, hle, _⟩ | ⟨⟨x, hx⟩, _⟩
    · cases hproduct.symm.trans he
    · cases hproduct.symm.trans hv
      exact hle
    · cases hproduct.symm.trans hx
  · have hself : largePower ∈ largePower.parts := by
      rw [largePower, Node.parts]
      exact List.mem_append_right _ List.mem_cons_self
    have hpower : 2147483647 ^ 9 ∈ largePower.workings.formed := by
      rw [hformed]
      exact List.mem_cons_of_mem _ (List.mem_cons_of_mem _
        (List.mem_map_of_mem (List.mem_range.mpr (Nat.lt_succ_self 9))))
    exact workings_bounded.2.2 _ largePower hread largePower hself _ hpower

end TableAssembler

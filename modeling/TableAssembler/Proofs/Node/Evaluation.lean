import TableAssembler.Node.Evaluate
import TableAssembler.Proofs.Number.Exact

/-!
# Evaluating trees of integers

A tree of integers has an exact value, computed without any bound.  Evaluating the tree gives that
value if all of its operators stay within a word, and otherwise blames the first one that does not.

* `IntegerTree`             trees of integers and exact operators;
* `Node.exactValue?`        the exact value of a tree;
* `Node.operations`         the operators of a tree, each after its operands;
* `Node.IsInWord`           the exact value exists and fits in a word;
* `evaluate_cases`          either no operator offends or the first that does is blamed;
* `evaluate_integerTree`    which value a tree has, and which operator is blamed.
-/

namespace TableAssembler

/-! ## trees -/

/-- trees of integers, of any size, and exact operators -/
inductive IntegerTree : Node → Prop
  | value (a : Int) (kind : ValueKind) (t : Option Nat) : IntegerTree (.value (.integer a) kind t)
  | binary {lhs rhs : Node} {op : Operator} (t : Option Nat) (exact : op.isExact = true)
      (left : IntegerTree lhs) (right : IntegerTree rhs) : IntegerTree (.binary lhs op rhs t)

namespace Node

/-- the exact value of a tree -/
def exactValue? : Node → Option Int
  | .value number _ _ => number.integer?
  | .binary lhs op rhs _ => do op.exactValue? (← lhs.exactValue?) (← rhs.exactValue?)
  | _ => none

/-- the operators of a tree from the left to the right, each after its operands -/
def operations : Node → List Node
  | .binary lhs op rhs t => lhs.operations ++ rhs.operations ++ [.binary lhs op rhs t]
  | _ => []

/-- the exact value exists and fits in a word -/
def IsInWord (n : Node) : Prop := ∃ a, n.exactValue? = some a ∧ InWord a

/-- whether an exact value is missing or outside a word -/
def offends (n : Node) : Bool := !n.exactValue?.any fun a => decide (InWord a)

/-- no power has an exponent that evaluates to a negative integer -/
def HasNaturalPowers (n : Node) : Prop :=
  ∀ lhs rhs t, .binary lhs .pow rhs t ∈ n.operations →
    ∀ b : Int, rhs.evaluate = .ok (.integer b) → 0 ≤ b

theorem offends_eq_false_iff {n : Node} : n.offends = false ↔ n.IsInWord := by
  rw [offends, Bool.not_eq_false', Option.any_eq_true]
  simp only [decide_eq_true_eq]
  rfl

theorem offends_iff {n : Node} : n.offends = true ↔ ¬ n.IsInWord := by
  rw [← offends_eq_false_iff, Bool.not_eq_false]

theorem HasNaturalPowers.left {lhs rhs : Node} {op : Operator} {t : Option Nat}
    (h : HasNaturalPowers (.binary lhs op rhs t)) : lhs.HasNaturalPowers := fun l r u hm =>
  h l r u (List.mem_append_left _ (List.mem_append_left _ hm))

theorem HasNaturalPowers.right {lhs rhs : Node} {op : Operator} {t : Option Nat}
    (h : HasNaturalPowers (.binary lhs op rhs t)) : rhs.HasNaturalPowers := fun l r u hm =>
  h l r u (List.mem_append_left _ (List.mem_append_right _ hm))

theorem HasNaturalPowers.root {lhs rhs : Node} {op : Operator} {t : Option Nat}
    (h : HasNaturalPowers (.binary lhs op rhs t)) {b : Int}
    (hb : rhs.evaluate = .ok (.integer b)) : op = .pow → 0 ≤ b := by
  rintro rfl
  exact h lhs rhs t (List.mem_append_right _ List.mem_cons_self) b hb

/-! ## evaluation -/

theorem evaluate_binary_left {lhs rhs : Node} {op : Operator} {t : Option Nat} {f : Fault}
    (h : lhs.evaluate = .error f) : (binary lhs op rhs t).evaluate = .error f := by
  rw [evaluate, h]
  rfl

theorem evaluate_binary_right {lhs rhs : Node} {op : Operator} {t : Option Nat} {a : Number}
    {f : Fault} (ha : lhs.evaluate = .ok a) (h : rhs.evaluate = .error f) :
    (binary lhs op rhs t).evaluate = .error f := by
  rw [evaluate, ha, h]
  rfl

theorem evaluate_binary {lhs rhs : Node} {op : Operator} {t : Option Nat} {a b : Number}
    (ha : lhs.evaluate = .ok a) (hb : rhs.evaluate = .ok b) :
    (binary lhs op rhs t).evaluate
      = (Number.apply op a b).mapError (Fault.ofArithmetic t) := by
  rw [evaluate, ha, hb]
  rfl

/-- the fault of an operator, blamed on its token -/
def blame (n : Node) (e : ArithmeticError) : Fault := ⟨.arithmetic, n.token, some (.arithmetic e)⟩

end Node

open Node

/-- Either no operator offends, and the tree has its exact value, or the first operator that offends
is blamed. -/
theorem evaluate_cases {n : Node} (tree : IntegerTree n) (hpow : n.HasNaturalPowers) :
    (n.operations.find? offends = none ∧
        ∃ a, n.exactValue? = some a ∧ n.evaluate = .ok (.integer a)) ∨
      ∃ m e, n.operations.find? offends = some m ∧ n.evaluate = .error (m.blame e) := by
  induction tree with
  | value a kind t => exact .inl ⟨rfl, a, rfl, rfl⟩
  | @binary lhs rhs op t exact left right ihl ihr =>
    have hops : (binary lhs op rhs t).operations.find? offends
        = ((lhs.operations.find? offends).or (rhs.operations.find? offends)).or
          ([binary lhs op rhs t].find? offends) := by
      rw [operations, List.find?_append, List.find?_append]
    rcases ihl hpow.left with ⟨hl, a, ha, hevl⟩ | ⟨m, e, hl, hevl⟩
    · rcases ihr hpow.right with ⟨hr, b, hb, hevr⟩ | ⟨m, e, hr, hevr⟩
      · have hexact : (binary lhs op rhs t).exactValue? = op.exactValue? a b := by
          rw [exactValue?, ha, hb]
          rfl
        rw [hl, hr, Option.none_or, Option.none_or] at hops
        rcases Number.apply_cases exact (hpow.root hevr) with ⟨v, hv, hin, happly⟩ | h
        · have hfine : (binary lhs op rhs t).offends = false :=
            offends_eq_false_iff.mpr ⟨v, hexact.trans hv, hin⟩
          refine .inl ⟨?_, v, hexact.trans hv, ?_⟩
          · rw [hops, List.find?_cons_of_neg (by rw [hfine]; exact Bool.false_ne_true)]
            rfl
          · rw [evaluate_binary hevl hevr, happly]
            rfl
        · obtain ⟨e, happly, hblame, hout⟩ := h
          have hbad : (binary lhs op rhs t).offends = true := by
            apply offends_iff.mpr
            rintro ⟨v, hv, hin⟩
            exact hout v (hexact.symm.trans hv) hin
          refine .inr ⟨binary lhs op rhs t, e, ?_, ?_⟩
          · rw [hops, List.find?_cons_of_pos hbad]
          · rw [evaluate_binary hevl hevr, happly]
            exact congrArg Except.error (hblame t)
      · rw [hl, hr, Option.none_or, Option.some_or] at hops
        exact .inr ⟨m, e, hops, evaluate_binary_right hevl hevr⟩
    · rw [hl, Option.some_or, Option.some_or] at hops
      exact .inr ⟨m, e, hops, evaluate_binary_left hevl⟩

/-- the first operator that offends, if one does -/
theorem find?_offends {n m : Node} {before after : List Node}
    (hops : n.operations = before ++ m :: after) (hbefore : ∀ p ∈ before, p.IsInWord)
    (hm : ¬ m.IsInWord) : n.operations.find? offends = some m := by
  have hnone : before.find? offends = none := List.find?_eq_none.mpr fun p hp hbad =>
    offends_iff.mp hbad (hbefore p hp)
  rw [hops, List.find?_append, hnone, Option.none_or, List.find?_cons_of_pos (offends_iff.mpr hm)]

/-- **Evaluating integers is exact within a word.**  A tree of integers, of which no power has a
negative exponent, has a value if the exact value of each operator exists and fits in a word; the
value is then the exact one.  Otherwise the first operator that does not fit is blamed. -/
theorem evaluate_integerTree {n : Node} (tree : IntegerTree n) (hpow : n.HasNaturalPowers) :
    (∀ v, n.evaluate = .ok v ↔
        (∀ m ∈ n.operations, m.IsInWord) ∧ ∃ a, n.exactValue? = some a ∧ v = .integer a) ∧
      ∀ before m after, n.operations = before ++ m :: after → (∀ p ∈ before, p.IsInWord) →
        ¬ m.IsInWord → ∃ e, n.evaluate = .error ⟨.arithmetic, m.token, some (.arithmetic e)⟩ := by
  rcases evaluate_cases tree hpow with ⟨hnone, a, ha, heval⟩ | ⟨m, e, hsome, heval⟩
  · have hall : ∀ m ∈ n.operations, m.IsInWord := fun m hm =>
      offends_eq_false_iff.mp (Bool.eq_false_iff.mpr (List.find?_eq_none.mp hnone m hm))
    refine ⟨fun v => ?_, fun before m after hops _ hm => ?_⟩
    · rw [heval]
      constructor
      · intro h
        cases h
        exact ⟨hall, a, ha, rfl⟩
      · rintro ⟨_, b, hb, rfl⟩
        rw [ha] at hb
        cases hb
        rfl
    · exact absurd (hall m (hops ▸ List.mem_append_right _ List.mem_cons_self)) hm
  · refine ⟨fun v => ?_, fun before m' after hops hbefore hm => ?_⟩
    · rw [heval]
      constructor
      · intro h
        cases h
      · rintro ⟨hall, _⟩
        have hbad := offends_iff.mp (List.find?_some hsome)
        exact absurd (hall m (List.mem_of_find?_eq_some hsome)) hbad
    · rw [find?_offends hops hbefore hm] at hsome
      cases hsome
      exact ⟨e, heval⟩

/-- `(-2) ** 63 + (0 << 100)` -/
def lowestSum : Node :=
  .binary (.binary (.value (.integer (-2)) .int (some 0)) .pow (.value (.integer 63) .int (some 2))
      (some 1)) .add
    (.binary (.value (.integer 0) .int (some 4)) .shl (.value (.integer 100) .int (some 6))
      (some 5)) (some 3)

/-- the least integer of a word, from operators that refuse nothing early -/
theorem evaluate_lowestSum :
    IntegerTree lowestSum ∧ lowestSum.HasNaturalPowers ∧
      lowestSum.evaluate = .ok (.integer (-2 ^ 63)) := by
  have tree : IntegerTree lowestSum :=
    .binary _ rfl (.binary _ rfl (.value _ _ _) (.value _ _ _))
      (.binary _ rfl (.value _ _ _) (.value _ _ _))
  have hpow : lowestSum.HasNaturalPowers := by
    intro lhs rhs t hm b hb
    simp only [lowestSum, operations, List.nil_append, List.cons_append, List.mem_cons,
      Node.binary.injEq, List.not_mem_nil, or_false] at hm
    rcases hm with ⟨_, _, rfl, _⟩ | ⟨_, h, _⟩ | ⟨_, h, _⟩
    · cases hb
      decide
    · cases h
    · cases h
  have hfit : ∀ m ∈ lowestSum.operations, m.IsInWord := by
    simp only [lowestSum, operations, List.nil_append, List.cons_append, List.forall_mem_cons]
    exact ⟨⟨-2 ^ 63, by decide +kernel⟩, ⟨0, by decide +kernel⟩, ⟨-2 ^ 63, by decide +kernel⟩,
      fun m hm => (nomatch hm)⟩
  exact ⟨tree, hpow, ((evaluate_integerTree tree hpow).1 _).mpr
    ⟨hfit, -2 ^ 63, by decide +kernel, rfl⟩⟩

end TableAssembler

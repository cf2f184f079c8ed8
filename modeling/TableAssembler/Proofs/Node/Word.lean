import TableAssembler.Proofs.Node.Evaluation
import TableAssembler.Proofs.Number.Word

/-!
# Trees of words

A tree of integers that fit in words can be evaluated by a machine whose results wrap around.  That
is done operator by operator and refuses nothing for its size, yet it gives the value of the tree
wherever there is one.

* `WordTree`             trees of integers that fit in words;
* `Node.wrapped?`        what the machine makes of a tree;
* `WordTree.wrapped`     a tree of which no operator leaves a word;
* `evaluate_wraps`       the value of a tree, and the operators that always have one.
-/

namespace TableAssembler

/-- trees of exact operators and of integers that fit in words -/
inductive WordTree : Node → Prop
  | value {a : Int} (kind : ValueKind) (t : Option Nat) (fits : InWord a) :
      WordTree (.value (.integer a) kind t)
  | binary {lhs rhs : Node} {op : Operator} (t : Option Nat) (exact : op.isExact = true)
      (left : WordTree lhs) (right : WordTree rhs) : WordTree (.binary lhs op rhs t)

theorem WordTree.integerTree {n : Node} (h : WordTree n) : IntegerTree n := by
  induction h with
  | value kind t fits => exact .value _ kind t
  | binary t exact left right ihl ihr => exact .binary t exact ihl ihr

/-- what a machine makes of a tree: each integer is a word, and each operator wraps around -/
def Node.wrapped? : Node → Option (BitVec 64)
  | .value number _ _ => number.integer?.map (BitVec.ofInt 64)
  | .binary lhs op rhs _ => do op.wrapped? (← lhs.wrapped?) (← rhs.wrapped?)
  | _ => none

open Node

/-- **a tree of which no operator leaves a word**: the machine has the word of its exact value -/
theorem WordTree.wrapped {n : Node} (tree : WordTree n) (hops : ∀ m ∈ n.operations, m.IsInWord) :
    ∃ a, n.exactValue? = some a ∧ InWord a ∧ n.wrapped? = some (BitVec.ofInt 64 a) := by
  induction tree with
  | @value a kind t fits => exact ⟨a, rfl, fits, rfl⟩
  | @binary lhs rhs op t exact left right ihl ihr =>
    rw [operations, List.forall_mem_append, List.forall_mem_append,
      List.forall_mem_singleton] at hops
    obtain ⟨⟨hopsl, hopsr⟩, v, hv, hin⟩ := hops
    obtain ⟨a, ha, hina, hwa⟩ := ihl hopsl
    obtain ⟨b, hb, hinb, hwb⟩ := ihr hopsr
    have hexact : (Node.binary lhs op rhs t).exactValue? = op.exactValue? a b := by
      rw [exactValue?, ha, hb]
      rfl
    refine ⟨v, hv, hin, ?_⟩
    rw [wrapped?, hwa, hwb]
    exact wrapped?_ofInt hina hinb (hexact ▸ hv)

/-- an operator that never leaves a word has a value for words -/
theorem evaluate_binary_of_isClosed {lhs rhs : Node} {op : Operator} {t : Option Nat} {a b : Int}
    (hl : lhs.evaluate = .ok (.integer a)) (hr : rhs.evaluate = .ok (.integer b)) (ha : InWord a)
    (hb : InWord b) (hop : op.isClosed = true) (hmod : op = .mod → b ≠ 0)
    (hshr : op = .shr → 0 ≤ b) :
    ∃ v, (binary lhs op rhs t).evaluate = .ok (.integer v) := by
  obtain ⟨v, hv, hin⟩ := exists_inWord hop ha hb hmod hshr
  have hpow : op = .pow → 0 ≤ b := by
    rintro rfl
    cases hop
  rcases Number.apply_cases (Operator.isExact_of_isClosed hop) hpow with
    ⟨w, _, _, happly⟩ | ⟨e, _, _, hout⟩
  · refine ⟨w, ?_⟩
    rw [evaluate_binary hl hr, happly]
    rfl
  · exact absurd hin (hout v hv)

/-- **Evaluating is what a machine does.**  Where a tree of integers that fit in words has a value,
and none of its powers a negative exponent, a machine whose results wrap around has the same.  A
modulus of a number other than zero, operations on bits and shifts to the right by a count that is
not negative have a value for all integers that fit in words. -/
theorem evaluate_wraps :
    (∀ n, WordTree n → n.HasNaturalPowers → ∀ v, n.evaluate = .ok v →
      ∃ w : BitVec 64, n.wrapped? = some w ∧ v = .integer w.toInt) ∧
    ∀ lhs rhs (op : Operator) t a b, lhs.evaluate = .ok (.integer a) →
      rhs.evaluate = .ok (.integer b) → InWord a → InWord b → op.isClosed = true →
      (op = .mod → b ≠ 0) → (op = .shr → 0 ≤ b) →
      ∃ v, (binary lhs op rhs t).evaluate = .ok (.integer v) := by
  refine ⟨fun n tree hpow v hv => ?_, fun lhs rhs op t a b hl hr ha hb hop hmod hshr =>
    evaluate_binary_of_isClosed hl hr ha hb hop hmod hshr⟩
  obtain ⟨hops, a, hexact, rfl⟩ := ((evaluate_integerTree tree.integerTree hpow).1 v).mp hv
  obtain ⟨b, hb, hin, hw⟩ := tree.wrapped hops
  rw [hexact] at hb
  cases hb
  exact ⟨BitVec.ofInt 64 a, hw, by rw [Word.toInt_ofInt hin]⟩

/-- `(-2 ** 63 >> 70) - ((-2) ** 3 \\ 3)`, where the first power is a number -/
def leastShifted : Node :=
  .binary
    (.binary (.value (.integer (-2 ^ 63)) .int (some 0)) .shr (.value (.integer 70) .int (some 2))
      (some 1)) .sub
    (.binary (.binary (.value (.integer (-2)) .int (some 4)) .pow
      (.value (.integer 3) .int (some 6)) (some 5)) .mod (.value (.integer 3) .int (some 8))
      (some 7)) (some 3)

/-- a shift past the sign, a power and a modulus, and the least integer of a word modulo the
greatest negative one -/
theorem evaluate_wraps_leastShifted :
    WordTree leastShifted ∧ leastShifted.HasNaturalPowers ∧
      leastShifted.evaluate = .ok (.integer (-2)) ∧ leastShifted.wrapped? = some (-2) ∧
      ∃ v, (binary (.value (.integer (-2 ^ 63)) .int none) .mod (.value (.integer (-1)) .int none)
        none).evaluate = .ok (.integer v) := by
  have tree : WordTree leastShifted :=
    .binary _ rfl
      (.binary _ rfl (.value _ _ (by decide)) (.value _ _ (by decide)))
      (.binary _ rfl (.binary _ rfl (.value _ _ (by decide)) (.value _ _ (by decide)))
        (.value _ _ (by decide)))
  have hpow : leastShifted.HasNaturalPowers := by
    intro lhs rhs t hm b hb
    simp only [leastShifted, operations, List.nil_append, List.cons_append, List.mem_cons,
      Node.binary.injEq, List.not_mem_nil, or_false] at hm
    rcases hm with ⟨_, h, _⟩ | ⟨_, _, rfl, _⟩ | ⟨_, h, _⟩ | ⟨_, h, _⟩
    · cases h
    · cases hb
      decide
    · cases h
    · cases h
  have hevaluate : leastShifted.evaluate = .ok (.integer (-2)) := rfl
  obtain ⟨w, hw, hvalue⟩ := evaluate_wraps.1 leastShifted tree hpow _ hevaluate
  have hminus : w = -2 := BitVec.toInt_inj.mp (Number.integer.inj hvalue).symm
  refine ⟨tree, hpow, hevaluate, hminus ▸ hw, ?_⟩
  exact evaluate_wraps.2 _ _ .mod none (-2 ^ 63) (-1) rfl rfl (by decide) (by decide) rfl
    (fun _ => by decide) (fun h => by cases h)

end TableAssembler

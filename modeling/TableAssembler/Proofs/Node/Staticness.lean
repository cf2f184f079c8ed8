import TableAssembler.Proofs.Object.Program

/-!
# Staticness and evaluation

Whether a node is static is read off the names that occur in it, and evaluating it goes the way of
its parts from the left to the right, each operator after its operands.  So a node that has a value
has no name in it, and what needs a name is the first part that has no value.

* `Node.parts`                the parts of a node in the order of evaluation;
* `Node.isName`, `Node.isArithmetic`   names without a value here, and what may have one;
* `isStatic_iff`              a node is static if no part of it is a name;
* `evaluate_binary_eq_ok_iff`, `evaluate_binary_fails`   an operator evaluated;
* `isArithmetic_of_evaluate`, `evaluate_parts`   a node that has a value;
* `NeedsName`, `needsName_of_evaluate`   a node that needs a name;
* `staticness_predicts`       all of it.
-/

namespace TableAssembler

namespace Node

/-! ## parts -/

mutual

/-- all that a node is made of from the left to the right, each node after its own parts -/
def parts : Node → List Node
  | .binary lhs op rhs t => lhs.parts ++ rhs.parts ++ [.binary lhs op rhs t]
  | .list items => partsOf items ++ [.list items]
  | .record fields => partsOf fields ++ [.record fields]
  | n => [n]

def partsOf : List Node → List Node
  | [] => []
  | n :: ns => n.parts ++ partsOf ns

end

/-- whether a node is a name whose value only a linker knows -/
def isName : Node → Bool
  | .structName .. | .atomRef .. | .macroRef .. => true
  | _ => false

/-- whether a node is a number or an operator on numbers -/
def isArithmetic : Node → Bool
  | .value .. => true
  | .binary _ op _ _ => op != .replicate
  | _ => false

theorem isName_of_isArithmetic {n : Node} (h : n.isArithmetic = true) : n.isName = false := by
  cases n <;> first | rfl | cases h

mutual

/-- a node is static if no name occurs in it -/
theorem isStatic_iff (n : Node) : n.isStatic = true ↔ ∀ p ∈ n.parts, p.isName = false := by
  cases n with
  | binary lhs op rhs t =>
    rw [isStatic, Bool.and_eq_true, isStatic_iff lhs, isStatic_iff rhs, parts,
      List.forall_mem_append, List.forall_mem_append, List.forall_mem_singleton]
    exact ⟨fun h => ⟨h, rfl⟩, fun h => h.1⟩
  | list items =>
    rw [isStatic, areStatic_iff items, parts, List.forall_mem_append, List.forall_mem_singleton]
    exact ⟨fun h => ⟨h, rfl⟩, fun h => h.1⟩
  | record fields =>
    rw [isStatic, areStatic_iff fields, parts, List.forall_mem_append, List.forall_mem_singleton]
    exact ⟨fun h => ⟨h, rfl⟩, fun h => h.1⟩
  | _ => simp [isStatic, parts, isName]

theorem areStatic_iff (ns : List Node) :
    areStatic ns = true ↔ ∀ p ∈ partsOf ns, p.isName = false := by
  cases ns with
  | nil => exact ⟨fun _ p hp => (nomatch hp), fun _ => rfl⟩
  | cons n ns =>
    rw [areStatic, Bool.and_eq_true, isStatic_iff n, areStatic_iff ns, partsOf,
      List.forall_mem_append]

end

/-! ## operators -/

/-- an operator has a value if both of its operands have, and it gives one for those -/
theorem evaluate_binary_eq_ok_iff {lhs rhs : Node} {op : Operator} {t : Option Nat} {v : Number} :
    (binary lhs op rhs t).evaluate = .ok v ↔ ∃ a, lhs.evaluate = .ok a ∧
      ∃ b, rhs.evaluate = .ok b ∧ Number.apply op a b = .ok v := by
  have happly : ∀ a b, (Number.apply op a b).mapError (Fault.ofArithmetic t) = .ok v
      ↔ Number.apply op a b = .ok v := by
    intro a b
    cases Number.apply op a b <;> simp [Except.mapError]
  simp only [evaluate, bind_eq_ok_iff, happly]

/-- an operator has no value if its left operand has none, or else its right one, or else there is
none for the two -/
theorem evaluate_binary_fails {lhs rhs : Node} {op : Operator} {t : Option Nat} {f : Fault}
    (h : (binary lhs op rhs t).evaluate = .error f) :
    lhs.evaluate = .error f ∨ ∃ a, lhs.evaluate = .ok a ∧ (rhs.evaluate = .error f ∨
      ∃ b e, rhs.evaluate = .ok b ∧ Number.apply op a b = .error e ∧
        f = Fault.ofArithmetic t e) := by
  rw [evaluate] at h
  rcases bind_eq_error_iff.mp h with hl | ⟨a, ha, h⟩
  · exact .inl hl
  · rcases bind_eq_error_iff.mp h with hr | ⟨b, hb, h⟩
    · exact .inr ⟨a, ha, .inl hr⟩
    · cases happly : Number.apply op a b with
      | ok v => rw [happly] at h; cases h
      | error e => rw [happly] at h; cases h; exact .inr ⟨a, ha, .inr ⟨b, e, hb, happly, rfl⟩⟩

/-- a repetition has no value -/
theorem apply_replicate (a b : Number) :
    Number.apply .replicate a b = .error .notArithmetic := by
  cases a <;> cases b <;> rfl

/-! ## nodes that have a value -/

/-- a node that has a value is made of numbers and of operators on numbers -/
theorem isArithmetic_of_evaluate {n : Node} {v : Number} (h : n.evaluate = .ok v) :
    ∀ p ∈ n.parts, p.isArithmetic = true := by
  cases n with
  | value number kind t => exact List.forall_mem_singleton.mpr rfl
  | binary lhs op rhs t =>
    obtain ⟨a, hl, b, hr, happly⟩ := evaluate_binary_eq_ok_iff.mp h
    have hop : op ≠ .replicate := by
      rintro rfl
      rw [apply_replicate] at happly
      cases happly
    rw [parts, List.forall_mem_append, List.forall_mem_append, List.forall_mem_singleton]
    exact ⟨⟨isArithmetic_of_evaluate hl, isArithmetic_of_evaluate hr⟩, bne_iff_ne.mpr hop⟩
  | _ => cases h

/-- all parts of a node that has a value have one -/
theorem evaluate_parts {n : Node} {v : Number} (h : n.evaluate = .ok v) :
    ∀ p ∈ n.parts, ∃ w, p.evaluate = .ok w := by
  cases n with
  | value number kind t => exact List.forall_mem_singleton.mpr ⟨v, h⟩
  | binary lhs op rhs t =>
    obtain ⟨a, hl, b, hr, _⟩ := evaluate_binary_eq_ok_iff.mp h
    rw [parts, List.forall_mem_append, List.forall_mem_append, List.forall_mem_singleton]
    exact ⟨⟨evaluate_parts hl, evaluate_parts hr⟩, v, h⟩
  | _ => cases h

theorem isStatic_of_evaluate {n : Node} {v : Number} (h : n.evaluate = .ok v) :
    n.isStatic = true :=
  n.isStatic_iff.mpr fun p hp => isName_of_isArithmetic (isArithmetic_of_evaluate h p hp)

/-! ## nodes that need a name -/

/-- the first part of a node without a value is a name, and a fault is about it -/
def NeedsName (n : Node) (f : Fault) : Prop :=
  ∃ before m after, n.parts = before ++ m :: after ∧ (∀ p ∈ before, ∃ v, p.evaluate = .ok v) ∧
    m.evaluate = .error f ∧ m.isName = true ∧ f.token = m.token

theorem kind_ofArithmetic_ne (t : Option Nat) (e : ArithmeticError) :
    (Fault.ofArithmetic t e).kind ≠ .unresolved := by
  cases e <;> simp [Fault.ofArithmetic, Fault.unimplemented]

theorem NeedsName.left {lhs rhs : Node} {op : Operator} {t : Option Nat} {f : Fault}
    (h : lhs.NeedsName f) : (binary lhs op rhs t).NeedsName f := by
  obtain ⟨before, m, after, hparts, hfirst⟩ := h
  refine ⟨before, m, after ++ (rhs.parts ++ [binary lhs op rhs t]), ?_, hfirst⟩
  rw [parts, hparts]
  simp only [List.append_assoc, List.cons_append]

theorem NeedsName.right {lhs rhs : Node} {op : Operator} {t : Option Nat} {f : Fault} {a : Number}
    (ha : lhs.evaluate = .ok a) (h : rhs.NeedsName f) : (binary lhs op rhs t).NeedsName f := by
  obtain ⟨before, m, after, hparts, hbefore, hfirst⟩ := h
  refine ⟨lhs.parts ++ before, m, after ++ [binary lhs op rhs t], ?_,
    List.forall_mem_append.mpr ⟨evaluate_parts ha, hbefore⟩, hfirst⟩
  rw [parts, hparts]
  simp only [List.append_assoc, List.cons_append]

/-- **a node that needs a name** needs the first of its parts that has no value -/
theorem needsName_of_evaluate {n : Node} {f : Fault} (h : n.evaluate = .error f)
    (hf : f.kind = .unresolved) : n.NeedsName f := by
  have hself : n.parts = [n] → n.isName = true → f.token = n.token → n.NeedsName f :=
    fun hparts hname htoken => ⟨[], n, [], hparts, fun p hp => (nomatch hp), h, hname, htoken⟩
  cases n with
  | atomRef name t => cases h; exact hself rfl rfl rfl
  | macroRef name t => cases h; exact hself rfl rfl rfl
  | structName name t => cases h; exact hself rfl rfl rfl
  | binary lhs op rhs t =>
    -- the operator itself fails with other faults only, so it is one of its operands that does
    rcases evaluate_binary_fails h with hl | ⟨a, ha, hr | ⟨b, e, _, _, rfl⟩⟩
    · exact (needsName_of_evaluate hl hf).left
    · exact .right ha (needsName_of_evaluate hr hf)
    · exact absurd hf (kind_ofArithmetic_ne t e)
  | value number kind t => cases h
  | _ => cases h; cases hf

end Node

open Node

/-- **Staticness predicts evaluation.**  A node is static if and only if no name occurs in it.  A
node that has a value is made of numbers and of operators on numbers, so that it is static.  If
evaluation needs a name, the node is not static, and the name is its first part without a value. -/
theorem staticness_predicts (n : Node) :
    (n.isStatic = true ↔ ∀ p ∈ n.parts, p.isName = false) ∧
    (∀ v, n.evaluate = .ok v → (∀ p ∈ n.parts, p.isArithmetic = true) ∧ n.isStatic = true) ∧
    (∀ f, n.evaluate = .error f → f.kind = .unresolved →
      n.isStatic = false ∧ ∃ before m after, n.parts = before ++ m :: after ∧
        (∀ p ∈ before, ∃ v, p.evaluate = .ok v) ∧ m.evaluate = .error f ∧
        m.isName = true ∧ f.token = m.token) ∧
    (n.isStatic = false → ∀ v, n.evaluate ≠ .ok v) := by
  refine ⟨n.isStatic_iff, fun v h => ⟨isArithmetic_of_evaluate h, isStatic_of_evaluate h⟩,
    fun f h hf => ?_, fun hstatic v h => ?_⟩
  · obtain ⟨before, m, after, hparts, hbefore, hm, hname, htoken⟩ := needsName_of_evaluate h hf
    refine ⟨?_, before, m, after, hparts, hbefore, hm, hname, htoken⟩
    rw [← Bool.not_eq_true, n.isStatic_iff]
    intro hnone
    have hm' := hnone m (hparts ▸ List.mem_append_right before List.mem_cons_self)
    rw [hname] at hm'
    cases hm'
  · rw [isStatic_of_evaluate h] at hstatic
    cases hstatic

/-- `(1 + A) * (m, 2 x 3)`, with a list for the right operand -/
def namedProduct : Node :=
  .binary (.binary (.value (.integer 1) .int (some 0)) .add (.atomRef "A" (some 2)) (some 1)) .mul
    (.list [.macroRef "m" (some 4), .binary (.value (.integer 2) .int (some 5)) .replicate
      (.value (.integer 3) .int (some 7)) (some 6)]) (some 3)

/-- a product that needs the atom in it, and the left operand of its sum, which is a number -/
theorem staticness_predicts_namedProduct :
    namedProduct.evaluate = .error ⟨.unresolved, some 2, none⟩ ∧
      namedProduct.isStatic = false ∧ (∃ before m after,
        namedProduct.parts = before ++ m :: after ∧ (∀ p ∈ before, ∃ v, p.evaluate = .ok v) ∧
        m.evaluate = .error ⟨.unresolved, some 2, none⟩ ∧ m.isName = true ∧ some 2 = m.token) ∧
      (∀ v, namedProduct.evaluate ≠ .ok v) ∧
      ∀ p ∈ (Node.value (.integer 1) .int (some 0)).parts, p.isArithmetic = true := by
  have hevaluate : namedProduct.evaluate = .error ⟨.unresolved, some 2, none⟩ := rfl
  obtain ⟨hstatic, hfirst⟩ := (staticness_predicts namedProduct).2.2.1 _ hevaluate rfl
  have hone : (Node.value (.integer 1) .int (some 0)).evaluate = .ok (.integer 1) := rfl
  exact ⟨hevaluate, hstatic, hfirst, (staticness_predicts namedProduct).2.2.2 hstatic,
    ((staticness_predicts _).2.1 _ hone).1⟩

end TableAssembler

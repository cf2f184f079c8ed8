import TableAssembler.Proofs.Object.Cells

/-!
# Repetitions in cells

A repetition says how often a datum is packed and is no arithmetic, so that below another operator, or
as the count of another repetition, it has no value.  This shows if the whole expression is worked out.
An expression with an atom in it is packed as it was read, and with it the repetitions below its top.

* `Node.isRepetition`, `Node.innerParts`   repetitions, and what is below the top of an expression;
* `not_isRepetition_of_evaluate`           what has a value has no repetition in it;
* `Statement.expands_repetition`           a datum with a repetition in it is the statement itself;
* `Statement.expands_inner`                a statement with a repetition below its top;
* `Yields.exists_expands`                  the data of one of several statements;
* `repetition_inside`                      both for an object that a text makes.
-/

namespace TableAssembler

namespace Node

/-- whether a node is a repetition -/
def isRepetition : Node → Bool
  | .binary _ op _ _ => op == .replicate
  | _ => false

/-- the parts of an expression below its top -/
def innerParts : Node → List Node
  | .binary lhs _ rhs _ => lhs.parts ++ rhs.parts
  | _ => []

theorem mem_parts_binary {lhs rhs p : Node} {op : Operator} {t : Option Nat} :
    p ∈ (binary lhs op rhs t).parts
      ↔ p ∈ (binary lhs op rhs t).innerParts ∨ p = binary lhs op rhs t := by
  rw [parts, innerParts, List.mem_append, List.mem_singleton]

/-- what has a value has no repetition in it -/
theorem not_isRepetition_of_evaluate {n : Node} {v : Number} (h : n.evaluate = .ok v) :
    ∀ p ∈ n.parts, p.isRepetition = false := by
  intro p hp
  have harithmetic := isArithmetic_of_evaluate h p hp
  cases p with
  | binary lhs op rhs t => exact beq_eq_false_iff_ne.mpr (bne_iff_ne.mp harithmetic)
  | _ => rfl

end Node

theorem Operand.not_isRepetition {i : Nat} {t : Token} {n : Node} (h : Operand i t n) :
    ∀ p ∈ n.parts, p.isRepetition = false := by
  cases h with
  | atom kind => exact List.forall_mem_singleton.mpr rfl
  | literal value => exact List.forall_mem_singleton.mpr rfl

/-- the left side of a statement with an operator on top is a bare operand -/
theorem Statement.left {i : Nat} {ts : List Token} {lhs rhs : Node} {op : Operator}
    {t : Option Nat} (h : Statement i ts (.binary lhs op rhs t)) : ∃ u, Operand i u lhs := by
  cases h with
  | expression tree =>
    cases tree with
    | operand ho => cases ho
    | binary left _ _ => exact ⟨_, left⟩

section
variable {i : Nat} {ts : List Token} {n p : Node} {ds : List Node}

/-- a datum with a repetition in it is the statement itself, with the repetition below its top -/
theorem Statement.expands_repetition (h : Statement i ts n) (hds : Expands n ds) {d : Node}
    (hd : d ∈ ds) (hp : p ∈ d.parts) (hrepetition : p.isRepetition = true) :
    d = n ∧ p ∈ n.innerParts := by
  have key : ∀ {m : Node}, d = m → (∀ q ∈ m.parts, q.isRepetition = false) →
      d = n ∧ p ∈ n.innerParts := by
    rintro _ rfl hnone
    rw [hnone p hp] at hrepetition
    cases hrepetition
  cases hds with
  | value => exact key (List.mem_singleton.mp hd) (List.forall_mem_singleton.mpr rfl)
  | atomRef => exact key (List.mem_singleton.mp hd) (List.forall_mem_singleton.mpr rfl)
  | string =>
    obtain ⟨c, _, rfl⟩ := List.mem_map.mp hd
    exact key rfl (List.forall_mem_singleton.mpr rfl)
  | folded other datum =>
    rw [List.mem_singleton] at hd
    rcases Node.fold_cases datum with ⟨_, v, _, rfl⟩ | ⟨_, rfl⟩
    · exact key hd (List.forall_mem_singleton.mpr rfl)
    · subst hd
      rcases Node.mem_parts_binary.mp hp with hinner | rfl
      · exact ⟨rfl, hinner⟩
      · exact absurd (beq_iff_eq.mp hrepetition) other
  | repeated count low high datum =>
    -- the datum that is repeated is an operand, which folds to itself
    obtain ⟨u, operand⟩ := h.left
    have hsame := (List.mem_replicate.mp hd).2
    rcases Node.fold_cases datum with ⟨_, v, _, rfl⟩ | ⟨_, rfl⟩
    · exact key hsame (List.forall_mem_singleton.mpr rfl)
    · exact key hsame operand.not_isRepetition

/-- **a statement with a repetition below its top** has data only if it is not static and has another
operator on top; then it is the one datum itself -/
theorem Statement.expands_inner (h : Statement i ts n) (hds : Expands n ds)
    (hp : p ∈ n.innerParts) (hrepetition : p.isRepetition = true) :
    n.isStatic = false ∧ n.isRepetition = false ∧ ds = [n] := by
  have hevaluate : ∀ {m : Node} {v : Number}, m.evaluate = .ok v → p ∉ m.parts := by
    intro m v hv hmem
    rw [Node.not_isRepetition_of_evaluate hv p hmem] at hrepetition
    cases hrepetition
  cases hds with
  | value => cases hp
  | atomRef => cases hp
  | string => cases hp
  | folded other datum =>
    rcases Node.fold_cases datum with ⟨_, v, hv, _⟩ | ⟨hnot, rfl⟩
    · exact absurd (Node.mem_parts_binary.mpr (.inl hp)) (hevaluate hv)
    · exact ⟨hnot, beq_eq_false_iff_ne.mpr other, rfl⟩
  | repeated count low high datum =>
    obtain ⟨u, operand⟩ := h.left
    rcases List.mem_append.mp hp with hleft | hright
    · rw [operand.not_isRepetition p hleft] at hrepetition
      cases hrepetition
    · exact absurd hright (hevaluate count)

end

/-- each statement has its data among those of all -/
theorem Yields.exists_expands {ns ds : List Node} (h : Yields ns ds) {n : Node} (hn : n ∈ ns)
    (hdata : n.isData = true) : ∃ es, Expands n es ∧ ∀ d ∈ es, d ∈ ds := by
  induction h with
  | nil => cases hn
  | other hother _ ih =>
    rcases List.mem_cons.mp hn with rfl | hn
    · rw [hdata] at hother
      cases hother
    · exact ih hn
  | data first _ ih =>
    rcases List.mem_cons.mp hn with rfl | hn
    · exact ⟨_, first, fun d hd => List.mem_append_left _ hd⟩
    · obtain ⟨es, hes, hmem⟩ := ih hn
      exact ⟨es, hes, fun d hd => List.mem_append_right _ (hmem d hd)⟩

theorem Node.isData_of_mem_innerParts {n p : Node} (h : p ∈ n.innerParts) : n.isData = true := by
  cases n with
  | binary => rfl
  | _ => cases h

/-- **Repetitions are packed only with an atom beside them.**  If a text makes an object, a cell with a
repetition in it holds one of the statements as it was read, which is not static and has another
operator on top.  So is each statement with a repetition below its top, and there is a cell that holds
it: no text makes an object if one of its statements is static, or is a repetition itself, and has a
repetition below its top. -/
theorem repetition_inside {text : String} {structs : Structs} {nodes : List Node} {o : Object}
    (read : parse (tokenize text) = .ok nodes) (made : assemble structs nodes = .ok o) :
    (∀ t ∈ o.tables, ∀ c ∈ t.cells, ∀ p ∈ c.node.parts, p.isRepetition = true →
      c.node ∈ nodes ∧ p ∈ c.node.innerParts ∧ c.node.isStatic = false ∧
        c.node.isRepetition = false) ∧
    ∀ n ∈ nodes, ∀ p ∈ n.innerParts, p.isRepetition = true →
      n.isStatic = false ∧ n.isRepetition = false ∧ ∃ t ∈ o.tables, ∃ c ∈ t.cells, c.node = n := by
  have hyields := yields_of_assemble made
  refine ⟨fun t ht c hc p hp hrepetition => ?_, fun n hn p hp hrepetition => ?_⟩
  · have hcell : c.node ∈ (o.tables.flatMap Table.cells).map Cell.node :=
      List.mem_map_of_mem (List.mem_flatMap_of_mem ht hc)
    refine hyields.forall_mem (P := fun d => p ∈ d.parts → d ∈ nodes ∧ p ∈ d.innerParts ∧
      d.isStatic = false ∧ d.isRepetition = false) (fun n hn ds hds d hd hp => ?_) _ hcell hp
    obtain ⟨i, ts, hstatement, _⟩ := located_of_parse read n hn
    obtain ⟨rfl, hinner⟩ := hstatement.expands_repetition hds hd hp hrepetition
    obtain ⟨hstatic, htop, _⟩ := hstatement.expands_inner hds hinner hrepetition
    exact ⟨hn, hinner, hstatic, htop⟩
  · obtain ⟨i, ts, hstatement, _⟩ := located_of_parse read n hn
    obtain ⟨es, hes, hmem⟩ := hyields.exists_expands hn (Node.isData_of_mem_innerParts hp)
    obtain ⟨hstatic, htop, rfl⟩ := hstatement.expands_inner hes hp hrepetition
    obtain ⟨c, hc, hnode⟩ := List.mem_map.mp (hmem n List.mem_cons_self)
    obtain ⟨t, ht, hc⟩ := List.mem_flatMap.mp hc
    exact ⟨hstatic, htop, t, ht, c, hc, hnode⟩

/-- `A + 1 x 3`, a sum with a repetition for its right side -/
def sumWithRepetition : Node :=
  .binary (.atomRef "A" (some 1)) .add (.binary (.value (.integer 1) .int (some 3)) .replicate
    (.value (.integer 3) .int (some 5)) (some 4)) (some 2)

theorem parse_sumWithRepetition : parse (tokenize "byte A + 1 x 3")
    = .ok [.record [.primitive "byte" 8 (some 0)], sumWithRepetition] := by
  have htokens : tokenize "byte A + 1 x 3" =
      [⟨.primitive .byte, "byte", 0, 4, 1, 0⟩, ⟨.atom, "A", 5, 6, 1, 5⟩,
        ⟨.operator .add, "+", 7, 8, 1, 7⟩, ⟨.int, "1", 9, 10, 1, 9⟩,
        ⟨.operator .replicate, "x", 11, 12, 1, 11⟩, ⟨.int, "3", 13, 14, 1, 13⟩] := by
    decide +kernel
  rw [htokens]
  exact parse_eq_cons rfl (parse_eq_cons rfl (Cursor.parse_of_none rfl))

/-- the sum is in the one cell of the object that its text makes -/
theorem repetition_inside_sum :
    parse (tokenize "byte A + 1 x 3")
        = .ok [.record [.primitive "byte" 8 (some 0)], sumWithRepetition] ∧
      ∃ o, assemble .empty [.record [.primitive "byte" 8 (some 0)], sumWithRepetition] = .ok o ∧
        sumWithRepetition.isStatic = false ∧ sumWithRepetition.isRepetition = false ∧
        ∃ t ∈ o.tables, ∃ c ∈ t.cells, c.node = sumWithRepetition := by
  refine ⟨parse_sumWithRepetition, _, rfl, ?_⟩
  have hright : Node.binary (.value (.integer 1) .int (some 3)) .replicate
      (.value (.integer 3) .int (some 5)) (some 4) ∈ sumWithRepetition.innerParts := by
    simp [sumWithRepetition, Node.innerParts, Node.parts]
  exact (repetition_inside parse_sumWithRepetition rfl).2 sumWithRepetition (by simp) _ hright rfl

/-- an object with a repetition in a cell -/
theorem repetition_packed_sum :
    ∃ nodes o, parse (tokenize "byte A + 1 x 3") = .ok nodes ∧ assemble .empty nodes = .ok o ∧
      ∃ t ∈ o.tables, ∃ c ∈ t.cells, ∃ p ∈ c.node.parts, p.isRepetition = true := by
  refine ⟨_, _, parse_sumWithRepetition, rfl, _, List.mem_cons_self, _, List.mem_cons_self,
    Node.binary (.value (.integer 1) .int (some 3)) .replicate
      (.value (.integer 3) .int (some 5)) (some 4), ?_, rfl⟩
  exact Node.mem_parts_binary.mpr (.inl (List.mem_append_right _
    (List.mem_append_right _ List.mem_cons_self)))

end TableAssembler

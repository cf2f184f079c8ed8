import TableAssembler.Proofs.Statement.Refusal
import TableAssembler.Proofs.Token.Excerpt

/-!
# Statements of the same words

Reading looks at words and not at the places where they stand: the same words make the same
statements, or fail in the same way.

* `Cursor.Alike`         cursors at the same index before the same words;
* `Step.Alike`           steps with the same outcome that leave the same words;
* `Cursor.Alike.next?`   one step on the same words;
* `parse_alike`          all steps on the same words.
-/

namespace TableAssembler

/-- cursors at the same index before the same words -/
structure Cursor.Alike (c d : Cursor) : Prop where
  index : c.index = d.index
  words : List.Forall₂ Token.Alike c.rest d.rest

/-- steps with the same outcome that leave the same words -/
structure Step.Alike (s s' : Step) : Prop where
  result : s.result = s'.result
  after : s.after.Alike s'.after

theorem Cursor.Alike.missing {c d : Cursor} (h : c.Alike d) (before : Nat) :
    c.missing before = d.missing before := by
  obtain ⟨i, ts⟩ := c
  obtain ⟨j, us⟩ := d
  obtain ⟨rfl, hwords⟩ := h
  cases hwords <;> rfl

theorem Step.Alike.getD {a b : Option Step} (h : Option.Rel Step.Alike a b) {s s' : Step}
    (hnone : s.Alike s') : (a.getD s).Alike (b.getD s') := by
  cases h with
  | none => exact hnone
  | some h => exact h

namespace Rules

theorem types_alike {ts us : List Token} (h : List.Forall₂ Token.Alike ts us) (i : Nat) :
    (types i ts).1 = (types i us).1 ∧ (types i ts).2.Alike (types i us).2 := by
  induction h generalizing i with
  | nil => exact ⟨rfl, rfl, .nil⟩
  | @cons t u ts us halike hmore ih =>
    obtain ⟨hnodes, hafter⟩ := ih (i + 1)
    rw [types, types, ← halike.kind, ← halike.text]
    cases Node.ofType? t.kind t.text (some i) with
    | none => exact ⟨rfl, rfl, .cons halike hmore⟩
    | some node => exact ⟨List.cons_eq_cons.mpr ⟨rfl, hnodes⟩, hafter⟩

/-- what comes of an operand, an operator and what follows them -/
theorem joined_alike {lhs : Node} {op : Operator} {index : Nat} {c d : Cursor} (hcd : c.Alike d)
    {s s' : Option Step} (h : Option.Rel Step.Alike s s') :
    (joined lhs op index c s).Alike (joined lhs op index d s') := by
  cases h with
  | none =>
    rw [joined, joined, hcd.missing]
    exact ⟨rfl, hcd⟩
  | @some s s' h =>
    obtain ⟨result, after⟩ := s
    obtain ⟨result', after'⟩ := s'
    obtain ⟨rfl, hafter⟩ := h
    cases result with
    | error f => exact ⟨rfl, hafter⟩
    | ok rhs => exact ⟨rfl, hafter⟩

theorem exists_operator {kind : Token.Kind} (h : kind.isOperator = true) :
    ∃ op, kind = .operator op := by
  cases kind with
  | operator op => exact ⟨op, rfl⟩
  | _ => cases h

theorem expressionFrom_alike {ts us : List Token} (h : List.Forall₂ Token.Alike ts us) (i : Nat) :
    Option.Rel Step.Alike (expressionFrom i ts) (expressionFrom i us) := by
  induction hn : ts.length using Nat.strong_induction_on generalizing ts us i with
  | _ n ih =>
    subst hn
    cases h with
    | nil => exact .none
    | @cons t u ts us halike hmore =>
      by_cases hop : t.kind.isOperand = true
      · have hop' : u.kind.isOperand = true := halike.kind ▸ hop
        cases hnode : Node.ofToken t.kind t.text (some i) with
        | error f =>
          rw [expressionFrom, expressionFrom, if_pos hop, if_pos hop', ← halike.kind,
            ← halike.text, hnode]
          exact .some ⟨rfl, rfl, hmore⟩
        | ok n =>
          have hnode' : Node.ofToken u.kind u.text (some i) = .ok n := by
            rw [← halike.kind, ← halike.text, hnode]
          cases hmore with
          | nil =>
            have hstop : ∀ o : Token, [].head? = some o → o.kind.isOperator = false := by
              intro o ho
              cases ho
            rw [expressionFrom_operand hop hnode hstop, expressionFrom_operand hop' hnode' hstop]
            exact .some ⟨rfl, rfl, .nil⟩
          | @cons o o' ts us hnext hmore =>
            -- an operator asks for a right side, and any other word ends the expression
            cases hk : o.kind.isOperator with
            | true =>
              obtain ⟨op, hkind⟩ := exists_operator hk
              have hshorter : ts.length < (t :: o :: ts).length := by
                rw [List.length_cons, List.length_cons]
                omega
              have hcursor : Cursor.Alike ⟨i + 2, ts⟩ ⟨i + 2, us⟩ := ⟨rfl, hmore⟩
              rw [expressionFrom_cons hop hnode hkind,
                expressionFrom_cons hop' hnode' (hnext.kind ▸ hkind)]
              exact .some (joined_alike hcursor (ih ts.length hshorter hmore (i + 2) rfl))
            | false =>
              have hstop : ∀ {o : Token} {ts : List Token}, o.kind.isOperator = false →
                  ∀ v, (o :: ts).head? = some v → v.kind.isOperator = false := by
                intro o ts ho v hv
                cases hv
                exact ho
              rw [expressionFrom_operand hop hnode (hstop hk),
                expressionFrom_operand hop' hnode' (hstop (hnext.kind ▸ hk))]
              exact .some ⟨rfl, rfl, .cons hnext hmore⟩
      · have hop' : ¬ u.kind.isOperand = true := halike.kind ▸ hop
        rw [expressionFrom, expressionFrom, if_neg hop, if_neg hop']
        exact .none

theorem atomDefinition_cons (i : Nat) (t u : Token) (ts : List Token) :
    atomDefinition ⟨i, t :: u :: ts⟩ =
      if u.kind = .atom then ⟨.ok (.atomDef u.text (some (i + 1))), ⟨i + 2, ts⟩⟩
      else ⟨.error (.unexpected (some (i + 1))), ⟨i + 1, u :: ts⟩⟩ := rfl

theorem macroDefinition_cons (i : Nat) (t u : Token) (ts : List Token) :
    macroDefinition ⟨i, t :: u :: ts⟩ =
      if u.kind = .macroName then ⟨.error (.unimplemented (some (i + 1))), ⟨i + 2, ts⟩⟩
      else ⟨.error (.unexpected (some (i + 1))), ⟨i + 1, u :: ts⟩⟩ := by
  by_cases hu : u.kind = .macroName <;>
    simp [macroDefinition, Cursor.advance, Cursor.kind?, Cursor.missing, Cursor.atEnd, hu]

theorem atomDefinition_alike (i : Nat) (t u : Token) {ts us : List Token}
    (hmore : List.Forall₂ Token.Alike ts us) :
    (atomDefinition ⟨i, t :: ts⟩).Alike (atomDefinition ⟨i, u :: us⟩) := by
  cases hmore with
  | nil => exact ⟨rfl, rfl, .nil⟩
  | cons halike hmore =>
    rw [atomDefinition_cons, atomDefinition_cons, ← halike.kind, ← halike.text]
    split
    · exact ⟨rfl, rfl, hmore⟩
    · exact ⟨rfl, rfl, .cons halike hmore⟩

theorem macroDefinition_alike (i : Nat) (t u : Token) {ts us : List Token}
    (hmore : List.Forall₂ Token.Alike ts us) :
    (macroDefinition ⟨i, t :: ts⟩).Alike (macroDefinition ⟨i, u :: us⟩) := by
  cases hmore with
  | nil => exact ⟨rfl, rfl, .nil⟩
  | cons halike hmore =>
    rw [macroDefinition_cons, macroDefinition_cons, ← halike.kind]
    split
    · exact ⟨rfl, rfl, hmore⟩
    · exact ⟨rfl, rfl, .cons halike hmore⟩

theorem statement_alike {t u : Token} {ts us : List Token} (halike : t.Alike u)
    (hmore : List.Forall₂ Token.Alike ts us) (i : Nat) :
    Option.Rel Step.Alike (statement ⟨i, t :: ts⟩) (statement ⟨i, u :: us⟩) := by
  have hwords : List.Forall₂ Token.Alike (t :: ts) (u :: us) := .cons halike hmore
  obtain ⟨hnodes, hafter⟩ := types_alike hwords i
  rw [statement_cons, statement_cons, ← halike.kind, ← halike.text]
  cases t.kind with
  | keywordAtom => exact .some (atomDefinition_alike i t u hmore)
  | keywordMacro => exact .some (macroDefinition_alike i t u hmore)
  | primitive type => exact .some ⟨congrArg (Except.ok ∘ Node.record) hnodes, hafter⟩
  | struct => exact .some ⟨congrArg (Except.ok ∘ Node.record) hnodes, hafter⟩
  | macroName => exact .some ⟨rfl, rfl, hmore⟩
  | string => exact .some ⟨rfl, rfl, hmore⟩
  | _ => exact expressionFrom_alike hwords i

end Rules

/-- **one step on the same words** -/
theorem Cursor.Alike.next? {c d : Cursor} (h : c.Alike d) :
    Option.Rel Step.Alike c.next? d.next? := by
  obtain ⟨i, ts⟩ := c
  obtain ⟨j, us⟩ := d
  obtain ⟨rfl, hwords⟩ := h
  cases hwords with
  | nil => exact .none
  | cons halike hmore =>
    rw [next?_cons, next?_cons]
    exact .some (Step.Alike.getD (Rules.statement_alike halike hmore i) ⟨rfl, rfl, hmore⟩)

theorem Cursor.Alike.parse {c d : Cursor} (h : c.Alike d) : c.parse = d.parse := by
  induction hn : c.rest.length using Nat.strong_induction_on generalizing c d with
  | _ n ih =>
    subst hn
    have hnext := h.next?
    cases hc : c.next? with
    | none =>
      rw [hc] at hnext
      cases hd : d.next? with
      | none => rw [Cursor.parse_of_none hc, Cursor.parse_of_none hd]
      | some s' => rw [hd] at hnext; cases hnext
    | some s =>
      rw [hc] at hnext
      cases hd : d.next? with
      | none => rw [hd] at hnext; cases hnext
      | some s' =>
        rw [hd] at hnext
        have hsteps : s.Alike s' := by cases hnext with | some h => exact h
        rw [Cursor.parse_of_some hc, Cursor.parse_of_some hd, hsteps.result,
          ih _ (Cursor.length_rest_next? hc) hsteps.after rfl]

/-- **The same words** make the same statements, or fail in the same way. -/
theorem parse_alike {ts us : List Token} (h : List.Forall₂ Token.Alike ts us) :
    parse ts = parse us :=
  Cursor.Alike.parse ⟨rfl, h⟩

end TableAssembler

import TableAssembler.Statement.Rules

/-!
# Reading all statements

The tokens of a source can be read strictly, up to the first fault, or past all faults.

* `Cursor.steps`    every step from a cursor to the end, faults and all;
* `Cursor.parse`    the statements from a cursor to the end, or the first fault;
* `parse`           the statements of all tokens, or the first fault.
-/

namespace TableAssembler

/-- Every step from a cursor to the end. -/
def Cursor.steps (c : Cursor) : List Step :=
  match _h : c.next? with
  | none => []
  | some step => step :: step.after.steps
termination_by c.rest.length
decreasing_by exact length_rest_next? _h

/-- The statements from a cursor to the end, or the first fault. -/
def Cursor.parse (c : Cursor) : Except Fault (List Node) :=
  match _h : c.next? with
  | none => .ok []
  | some step =>
    match step.result with
    | .error fault => .error fault
    | .ok node => (node :: ·) <$> step.after.parse
termination_by c.rest.length
decreasing_by exact length_rest_next? _h

theorem Cursor.steps_of_none {c : Cursor} (h : c.next? = none) : c.steps = [] := by
  rw [steps]
  split
  · rfl
  · next step hs => rw [h] at hs; cases hs

theorem Cursor.steps_of_some {c : Cursor} {s : Step} (h : c.next? = some s) :
    c.steps = s :: s.after.steps := by
  rw [steps]
  split
  · next hs => rw [h] at hs; cases hs
  · next step hs => rw [h] at hs; cases hs; rfl

theorem Cursor.parse_of_none {c : Cursor} (h : c.next? = none) : c.parse = .ok [] := by
  rw [parse]
  split
  · rfl
  · next step hs => rw [h] at hs; cases hs

theorem Cursor.parse_of_some {c : Cursor} {s : Step} (h : c.next? = some s) :
    c.parse = s.result.bind fun node => (node :: ·) <$> s.after.parse := by
  rw [parse]
  split
  · next hs => rw [h] at hs; cases hs
  · next step hs =>
    rw [h] at hs
    cases hs
    cases s.result <;> rfl

/-- The statements of all tokens, or the first fault. -/
def parse (tokens : List Token) : Except Fault (List Node) := (Cursor.start tokens).parse

end TableAssembler

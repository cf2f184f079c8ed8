import TableAssembler.Node.Build
import TableAssembler.Statement.Cursor

/-!
# Rules for statements

A statement is the definition of an atom, a record type, the use of a macro, a string or an
expression.  Each has a rule that looks at the next word and either takes responsibility for it, or
leaves it alone.  A rule that takes it has moved past everything it consumed, also where it fails,
so that the next statement can be read from there.

Operators have no precedence: `a op b op c` groups as `a op (b op c)` whatever the operators are.

* `Rules.keyword`, `Rules.record`, `Rules.macroUse`, `Rules.string`, `Rules.expression`  the rules;
* `Rules.statement`   the first rule that takes the next word;
* `Cursor.next?`      the next statement, with `Cursor.length_rest_next?`: it consumes something.
-/

namespace TableAssembler

namespace Rules

/-! ## definitions -/

/-- An atom definition, whose keyword is the next word. -/
def atomDefinition (c : Cursor) : Step :=
  let name := c.advance
  match name.rest with
  | [] => ⟨.error (name.missing c.index), name⟩
  | t :: _ =>
    if t.kind = .atom then ⟨.ok (.atomDef t.text (some name.index)), name.advance⟩
    else ⟨.error (name.missing c.index), name⟩

/-- A macro definition, whose keyword is the next word.  Macros are not supported yet. -/
def macroDefinition (c : Cursor) : Step :=
  let name := c.advance
  if name.kind? = some .macroName then
    ⟨.error (.unimplemented (some name.index)), name.advance⟩
  else ⟨.error (name.missing c.index), name⟩

def keyword (c : Cursor) : Option Step :=
  if c.kind? = some .keywordAtom then some (atomDefinition c)
  else if c.kind? = some .keywordMacro then some (macroDefinition c)
  else none

/-! ## record types -/

/-- The types at the beginning of some tokens, as many as there are, and the cursor after them. -/
def types (index : Nat) : List Token → List Node × Cursor
  | [] => ([], ⟨index, []⟩)
  | t :: ts =>
    match Node.ofType? t.kind t.text (some index) with
    | some node =>
      let more := types (index + 1) ts
      (node :: more.1, more.2)
    | none => ([], ⟨index, t :: ts⟩)

def record (c : Cursor) : Option Step :=
  if c.sees Token.Kind.isType then
    let fields := types c.index c.rest
    some ⟨.ok (.record fields.1), fields.2⟩
  else none

/-! ## macros and strings -/

def macroUse (c : Cursor) : Option Step :=
  match c.rest with
  | [] => none
  | t :: _ =>
    if t.kind = .macroName then some ⟨.ok (.macroRef t.text (some c.index)), c.advance⟩ else none

/-- A text without its first and its last character. -/
def unquoted (text : String) : String := String.ofList (text.toList.drop 1).dropLast

def string (c : Cursor) : Option Step :=
  match c.rest with
  | [] => none
  | t :: _ =>
    if t.kind = .string then some ⟨.ok (.string (unquoted t.text) (some c.index)), c.advance⟩
    else none

/-! ## expressions -/

/-- An expression at the beginning of some tokens: an operand, and if an operator follows, another
expression.  A loop that goes on joining operands for as long as operators come reads the same, since
no operator is left after a right side: `Stream.expression_eq` in `Proofs.Statement.Stream`. -/
def expressionFrom (index : Nat) : List Token → Option Step
  | [] => none
  | t :: ts =>
    if t.kind.isOperand then
      match Node.ofToken t.kind t.text (some index) with
      | .error fault => some ⟨.error fault, ⟨index + 1, ts⟩⟩
      | .ok lhs =>
        match ts with
        | [] => some ⟨.ok lhs, ⟨index + 1, []⟩⟩
        | o :: us =>
          match o.kind with
          | .operator op =>
            match expressionFrom (index + 2) us with
            | none => some ⟨.error (Cursor.missing ⟨index + 2, us⟩ (index + 1)), ⟨index + 2, us⟩⟩
            | some ⟨.error fault, after⟩ => some ⟨.error fault, after⟩
            | some ⟨.ok rhs, after⟩ => some ⟨.ok (.binary lhs op rhs (some (index + 1))), after⟩
          | _ => some ⟨.ok lhs, ⟨index + 1, o :: us⟩⟩
    else none

def expression (c : Cursor) : Option Step := expressionFrom c.index c.rest

/-! ## statements -/

/-- The rules, in the order in which they are tried. -/
def all : List (Cursor → Option Step) := [keyword, record, macroUse, string, expression]

/-- The first rule that takes the next word. -/
def statement (c : Cursor) : Option Step := all.findSome? fun rule => rule c

/-! ## progress -/

theorem length_rest_atomDefinition (c : Cursor) (h : c.rest ≠ []) :
    (atomDefinition c).after.rest.length < c.rest.length := by
  have h1 := c.length_rest_advance h
  unfold atomDefinition
  dsimp only
  split
  · exact h1
  · next t ts hts =>
    split
    · refine Nat.lt_trans (Cursor.length_rest_advance _ ?_) h1
      rw [hts]
      exact List.cons_ne_nil t ts
    · exact h1

theorem length_rest_macroDefinition (c : Cursor) (h : c.rest ≠ []) :
    (macroDefinition c).after.rest.length < c.rest.length := by
  have h1 := c.length_rest_advance h
  unfold macroDefinition
  dsimp only
  split
  · next hk =>
    refine Nat.lt_trans (Cursor.length_rest_advance _ fun hn => ?_) h1
    rw [Cursor.kind?, hn] at hk
    cases hk
  · exact h1

theorem length_rest_keyword {c : Cursor} {s : Step} (h : keyword c = some s) :
    s.after.rest.length < c.rest.length := by
  unfold keyword at h
  have hne : ∀ k, c.kind? = some k → c.rest ≠ [] := by
    intro k hk hn
    rw [Cursor.kind?, hn] at hk
    cases hk
  split at h
  · next hk => cases h; exact length_rest_atomDefinition c (hne _ hk)
  · split at h
    · next hk => cases h; exact length_rest_macroDefinition c (hne _ hk)
    · cases h

theorem length_rest_types (index : Nat) (ts : List Token) :
    (types index ts).2.rest.length ≤ ts.length := by
  induction ts generalizing index with
  | nil => exact Nat.le_refl _
  | cons t ts ih =>
    unfold types
    split
    · exact Nat.le_succ_of_le (ih (index + 1))
    · exact Nat.le_refl _

theorem length_rest_record {c : Cursor} {s : Step} (h : record c = some s) :
    s.after.rest.length < c.rest.length := by
  unfold record at h
  split at h
  · next hs =>
    cases h
    cases hc : c.rest with
    | nil => simp [Cursor.sees, Cursor.kind?, hc] at hs
    | cons t ts =>
      have ht : (Node.ofType? t.kind t.text (some c.index)).isSome = true := by
        rw [Node.isSome_ofType?]
        simpa [Cursor.sees, Cursor.kind?, hc] using hs
      obtain ⟨node, hnode⟩ := Option.isSome_iff_exists.mp ht
      show (types c.index (t :: ts)).2.rest.length < _
      rw [types, hnode]
      exact Nat.lt_succ_of_le (length_rest_types _ ts)
  · cases h

theorem length_rest_macroUse {c : Cursor} {s : Step} (h : macroUse c = some s) :
    s.after.rest.length < c.rest.length := by
  unfold macroUse at h
  split at h
  · cases h
  · next t ts hts =>
    split at h
    · cases h
      exact c.length_rest_advance (by rw [hts]; exact List.cons_ne_nil t ts)
    · cases h

theorem length_rest_string {c : Cursor} {s : Step} (h : string c = some s) :
    s.after.rest.length < c.rest.length := by
  unfold string at h
  split at h
  · cases h
  · next t ts hts =>
    split at h
    · cases h
      exact c.length_rest_advance (by rw [hts]; exact List.cons_ne_nil t ts)
    · cases h

theorem length_rest_expressionFrom {index : Nat} {ts : List Token} {s : Step}
    (h : expressionFrom index ts = some s) : s.after.rest.length < ts.length := by
  fun_induction expressionFrom index ts generalizing s with
  | case1 => cases h
  | case2 => cases h; simp
  | case3 => cases h; simp
  | case4 =>
    cases h
    simp only [List.length_cons]
    omega
  | case5 _ _ _ _ _ _ _ _ _ fault after he ih =>
    cases h
    have := ih he
    simp only [List.length_cons] at *
    omega
  | case6 _ _ _ _ _ _ _ _ _ rhs after he ih =>
    cases h
    have := ih he
    simp only [List.length_cons] at *
    omega
  | case7 => cases h; simp
  | case8 => cases h

theorem length_rest_statement {c : Cursor} {s : Step} (h : statement c = some s) :
    s.after.rest.length < c.rest.length := by
  obtain ⟨rule, hrule, hs⟩ := List.exists_of_findSome?_eq_some h
  simp only [all, List.mem_cons, List.not_mem_nil, or_false] at hrule
  rcases hrule with rfl | rfl | rfl | rfl | rfl
  · exact length_rest_keyword hs
  · exact length_rest_record hs
  · exact length_rest_macroUse hs
  · exact length_rest_string hs
  · exact length_rest_expressionFrom hs

end Rules

/-- The next statement, if there are words left.  A word that no rule takes is to blame itself and
is stepped over. -/
def Cursor.next? (c : Cursor) : Option Step :=
  if c.atEnd then none
  else
    match Rules.statement c with
    | some step => some step
    | none => some ⟨.error (.unexpected (some c.index)), c.advance⟩

/-- Reading a statement consumes something. -/
theorem Cursor.length_rest_next? {c : Cursor} {s : Step} (h : c.next? = some s) :
    s.after.rest.length < c.rest.length := by
  unfold next? at h
  split at h
  · cases h
  · next hend =>
    split at h
    · next step hs => cases h; exact Rules.length_rest_statement hs
    · cases h
      exact c.length_rest_advance fun hn => hend (by simp [atEnd, hn])

end TableAssembler

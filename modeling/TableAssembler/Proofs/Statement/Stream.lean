import TableAssembler.Proofs.Statement.Alike
import TableAssembler.Proofs.Statement.Progress

/-!
# Rules on a shared cursor

The rules for statements can also be run on one cursor that all of them move.  A rule that says
nothing could then have moved it all the same, and a failure leaves it where it was when the rule
failed.  Run in this way the rules do what they do as functions, so that none of them moves the
cursor for nothing.

* `Stream.Rule`             a rule that moves the cursor, which stays where it was left;
* `Stream.keyword`, `record`, `macroUse`, `string`, `expression`   the rules, word by word;
* `Stream.tried`            rules one after the other, up to the first that says something;
* `Stream.ofRule`           a rule that is a function, on the shared cursor;
* `Stream.isOperator_of_expressionFrom`   after a right side there is no further operator;
* `Stream.rules_eq`         each rule does what the function does.
-/

namespace TableAssembler

/-- the operator that a class of words is -/
def Token.Kind.operator? : Kind → Option Operator
  | .operator op => some op
  | _ => none

namespace Stream

/-- A rule on the shared cursor.  It gives a node, or nothing for a word that is not for it, or it
fails; the cursor is left where it was moved to, also by a failure. -/
abbrev Rule := EStateM Fault Cursor (Option Node)

/-! ## words -/

section
variable {α : Type}

/-- the next word, if it is of the kind that is wanted -/
def wanted (p : Token.Kind → Bool) : EStateM Fault Cursor (Option Token) := fun c =>
  .ok (c.rest.head?.filter fun t => p t.kind) c

/-- moves past the next word, and gives its index -/
def consume : EStateM Fault Cursor Nat := fun c => .ok c.index c.advance

/-- fails for a word that did not come -/
def missing (before : Nat) : EStateM Fault Cursor α := fun c => .error (c.missing before) c

/-- how many words there still are -/
def remaining : EStateM Fault Cursor Nat := fun c => .ok c.rest.length c

/-- what can fail without a look at the cursor -/
def lift : Except Fault α → EStateM Fault Cursor α
  | .ok a => pure a
  | .error f => throw f

end

/-! ## rules -/

def atomDefinition : EStateM Fault Cursor Node := do
  let keyword ← consume
  match ← wanted (· == .atom) with
  | none => missing keyword
  | some t => return .atomDef t.text (some (← consume))

def macroDefinition : EStateM Fault Cursor Node := do
  let keyword ← consume
  match ← wanted (· == .macroName) with
  | none => missing keyword
  | some _ => throw (.unimplemented (some (← consume)))

def keyword : Rule := do
  if (← wanted (· == .keywordAtom)).isSome then some <$> atomDefinition
  else if (← wanted (· == .keywordMacro)).isSome then some <$> macroDefinition
  else return none

/-- names of types, as long as they come and at most as many as words are left -/
def types : Nat → EStateM Fault Cursor (List Node)
  | 0 => return []
  | n + 1 => do
    match ← wanted Token.Kind.isType with
    | none => return []
    | some t =>
      let node ← lift (Node.ofToken t.kind t.text (some (← consume)))
      return node :: (← types n)

def record : Rule := do
  match ← wanted Token.Kind.isType with
  | none => return none
  | some _ => return some (.record (← types (← remaining)))

def macroUse : Rule := do
  match ← wanted (· == .macroName) with
  | none => return none
  | some t => return some (.macroRef t.text (some (← consume)))

def string : Rule := do
  match ← wanted (· == .string) with
  | none => return none
  | some t => return some (.string (Rules.unquoted t.text) (some (← consume)))

/-- operators as long as they come, each with what is read to the right of it -/
def operators (right : Rule) : Nat → Node → EStateM Fault Cursor Node
  | 0, lhs => return lhs
  | n + 1, lhs => do
    match (← wanted Token.Kind.isOperator).bind fun o => o.kind.operator? with
    | none => return lhs
    | some op =>
      let index ← consume
      match ← right with
      | none => missing index
      | some rhs => operators right n (.binary lhs op rhs (some index))

/-- an expression of no more than some number of words -/
def expressionOf : Nat → Rule
  | 0 => return none
  | n + 1 => do
    match ← wanted Token.Kind.isOperand with
    | none => return none
    | some t =>
      let lhs ← lift (Node.ofToken t.kind t.text (some (← consume)))
      some <$> operators (expressionOf n) n lhs

def expression : Rule := do expressionOf (← remaining)

/-- the rules in the order of the language -/
def rules : List Rule := [keyword, record, macroUse, string, expression]

/-- what comes of rules in some order: the first that says something is followed -/
def tried : List Rule → Rule
  | [] => return none
  | rule :: rules => do
    match ← rule with
    | some node => return some node
    | none => tried rules

/-! ## moves -/

section
variable {α β : Type} (c : Cursor) (i : Nat) (t : Token) (ts : List Token)

@[simp] theorem run_map (f : α → β) (x : EStateM Fault Cursor α) :
    (f <$> x).run c = match x.run c with
      | .ok a after => .ok (f a) after
      | .error e after => .error e after := by
  show EStateM.map f x c = _
  unfold EStateM.map EStateM.run
  cases x c <;> rfl

@[simp] theorem run_throw (f : Fault) :
    (throw f : EStateM Fault Cursor α).run c = .error f c := rfl

@[simp] theorem run_remaining : remaining.run c = .ok c.rest.length c := rfl

@[simp] theorem run_missing (before : Nat) :
    (missing before : EStateM Fault Cursor α).run c = .error (c.missing before) c := rfl

@[simp] theorem run_wanted_nil (p : Token.Kind → Bool) :
    (wanted p).run ⟨i, []⟩ = .ok none ⟨i, []⟩ := rfl

@[simp] theorem run_wanted_cons (p : Token.Kind → Bool) :
    (wanted p).run ⟨i, t :: ts⟩ = .ok (if p t.kind then some t else none) ⟨i, t :: ts⟩ := by
  unfold wanted EStateM.run
  cases h : p t.kind <;> simp [h, Option.filter]

@[simp] theorem run_consume : consume.run ⟨i, t :: ts⟩ = .ok i ⟨i + 1, ts⟩ := rfl

@[simp] theorem run_lift (a : Except Fault α) :
    (lift a).run c = match a with
      | .ok a => .ok a c
      | .error f => .error f c := by
  cases a <;> rfl

end

/-- what is the same at the end and at each word is the same -/
theorem ext_words {α : Type} {x y : EStateM Fault Cursor α}
    (nil : ∀ i, x.run ⟨i, []⟩ = y.run ⟨i, []⟩)
    (cons : ∀ i t ts, x.run ⟨i, t :: ts⟩ = y.run ⟨i, t :: ts⟩) : x = y := by
  funext ⟨i, ts⟩
  cases ts with
  | nil => exact nil i
  | cons t ts => exact cons i t ts

/-! ## rules that are functions -/

/-- a rule that is a function, on the shared cursor -/
def ofRule (rule : Cursor → Option Step) : Rule := fun c =>
  match rule c with
  | none => .ok none c
  | some ⟨.ok n, after⟩ => .ok (some n) after
  | some ⟨.error f, after⟩ => .error f after

@[simp] theorem run_ofRule (rule : Cursor → Option Step) (c : Cursor) :
    (ofRule rule).run c = match rule c with
      | none => .ok none c
      | some ⟨.ok n, after⟩ => .ok (some n) after
      | some ⟨.error f, after⟩ => .error f after := rfl

theorem keyword_eq : keyword = ofRule Rules.keyword := by
  refine ext_words (fun i => rfl) fun i t ts => ?_
  cases hk : t.kind with
  | keywordAtom =>
    rcases ts with _ | ⟨u, ts⟩
    · simp [keyword, atomDefinition, Rules.keyword, Rules.atomDefinition, Cursor.kind?,
        Cursor.advance, hk]
    · by_cases hu : u.kind = .atom <;>
        simp [keyword, atomDefinition, Rules.keyword, Rules.atomDefinition, Cursor.kind?,
          Cursor.advance, hk, hu]
  | keywordMacro =>
    rcases ts with _ | ⟨u, ts⟩
    · simp [keyword, macroDefinition, Rules.keyword, Rules.macroDefinition, Cursor.kind?,
        Cursor.advance, hk]
    · by_cases hu : u.kind = .macroName <;>
        simp [keyword, macroDefinition, Rules.keyword, Rules.macroDefinition, Cursor.kind?,
          Cursor.advance, hk, hu]
  | _ => simp [keyword, Rules.keyword, Cursor.kind?, hk]

theorem macroUse_eq : macroUse = ofRule Rules.macroUse := by
  refine ext_words (fun i => rfl) fun i t ts => ?_
  by_cases hk : t.kind = .macroName <;> simp [macroUse, Rules.macroUse, Cursor.advance, hk]

theorem string_eq : string = ofRule Rules.string := by
  refine ext_words (fun i => rfl) fun i t ts => ?_
  by_cases hk : t.kind = .string <;> simp [string, Rules.string, Cursor.advance, hk]

/-! ## record types -/

/-- a word that names a type is a node by itself -/
theorem ofToken_of_ofType? {kind : Token.Kind} {text : String} {t : Option Nat} {n : Node}
    (h : Node.ofType? kind text t = some n) : Node.ofToken kind text t = .ok n := by
  cases kind with
  | primitive type => cases h; rfl
  | struct => cases h; rfl
  | _ => cases h

/-- with room for all words, no type is left -/
theorem run_types {ts : List Token} {n : Nat} (hn : ts.length ≤ n) (i : Nat) :
    (types n).run ⟨i, ts⟩ = .ok (Rules.types i ts).1 (Rules.types i ts).2 := by
  induction ts generalizing n i with
  | nil => cases n <;> simp [types, Rules.types]
  | cons t ts ih =>
    obtain ⟨n, rfl⟩ : ∃ m, n = m + 1 := Nat.exists_eq_succ_of_ne_zero (by
      rw [List.length_cons] at hn
      omega)
    rw [List.length_cons, Nat.add_le_add_iff_right] at hn
    have hsome := Node.isSome_ofType? t.kind t.text (some i)
    cases hnode : Node.ofType? t.kind t.text (some i) with
    | none =>
      rw [hnode] at hsome
      simp [types, Rules.types, hnode, ← hsome]
    | some node =>
      rw [hnode] at hsome
      simp [types, Rules.types, hnode, ← hsome, ofToken_of_ofType? hnode, ih hn]

theorem record_eq : record = ofRule Rules.record := by
  refine ext_words (fun i => rfl) fun i t ts => ?_
  cases hk : t.kind.isType with
  | true => simp [record, Rules.record, Cursor.sees, Cursor.kind?, hk, run_types]
  | false => simp [record, Rules.record, Cursor.sees, Cursor.kind?, hk]

/-! ## expressions -/

/-- an expression that is read is not followed by an operator -/
theorem isOperator_of_expressionFrom {i : Nat} {ts : List Token} {n : Node} {after : Cursor}
    (h : Rules.expressionFrom i ts = some ⟨.ok n, after⟩) :
    ∀ o, after.rest.head? = some o → o.kind.isOperator = false := by
  fun_induction Rules.expressionFrom i ts generalizing n after with
  | case3 =>
    cases h
    intro o ho
    cases ho
  | case6 _ _ _ _ _ _ _ _ _ _ _ he ih =>
    cases h
    exact ih he
  | case7 _ _ _ _ _ o _ hother =>
    cases h
    intro o' ho
    cases ho
    cases hk : o.kind with
    | operator op => exact absurd hk (hother op)
    | _ => rfl
  | _ => cases h

section
variable (right : Rule) (n : Nat) (lhs : Node)

/-- without an operator nothing is joined -/
theorem run_operators_of_stop {c : Cursor}
    (h : ∀ o, c.rest.head? = some o → o.kind.isOperator = false) :
    (operators right n lhs).run c = .ok lhs c := by
  cases n with
  | zero => rfl
  | succ n =>
    obtain ⟨i, ts⟩ := c
    cases ts with
    | nil => simp [operators]
    | cons o ts => simp [operators, h o rfl]

/-- an operator asks for something to the right of it -/
theorem run_operators_cons {o : Token} {op : Operator} (ho : o.kind = .operator op) (j : Nat)
    (us : List Token) :
    (operators right (n + 1) lhs).run ⟨j, o :: us⟩ = match right.run ⟨j + 1, us⟩ with
      | .ok none after => .error (after.missing j) after
      | .ok (some rhs) after => (operators right n (.binary lhs op rhs (some j))).run after
      | .error f after => .error f after := by
  have hkind : o.kind.isOperator = true := by rw [ho]; rfl
  have hop : o.kind.operator? = some op := by rw [ho]; rfl
  simp only [operators, EStateM.run_bind, run_wanted_cons, if_pos hkind, Option.bind_some, hop,
    run_consume]
  rcases right.run ⟨j + 1, us⟩ with ⟨_ | rhs, after⟩ | ⟨f, after⟩ <;> rfl

end

/-- with room for all words, an expression is read to its end -/
theorem run_expressionOf {n i : Nat} {ts : List Token} (hn : ts.length ≤ n) :
    (expressionOf n).run ⟨i, ts⟩ = (ofRule Rules.expression).run ⟨i, ts⟩ := by
  induction n generalizing i ts with
  | zero =>
    rw [List.length_eq_zero_iff.mp (Nat.le_zero.mp hn)]
    rfl
  | succ n ih =>
    rcases ts with _ | ⟨t, ts⟩
    · rfl
    rw [List.length_cons, Nat.add_le_add_iff_right] at hn
    rw [run_ofRule, Rules.expression]
    by_cases hoperand : t.kind.isOperand = true
    · cases hnode : Node.ofToken t.kind t.text (some i) with
      | error f => simp [expressionOf, Rules.expressionFrom, hoperand, hnode]
      | ok lhs =>
        have hread : (expressionOf (n + 1)).run ⟨i, t :: ts⟩
            = (some <$> operators (expressionOf n) n lhs).run ⟨i + 1, ts⟩ := by
          simp [expressionOf, hoperand, hnode]
        rw [hread, run_map]
        by_cases hstop : ∀ o, ts.head? = some o → o.kind.isOperator = false
        · rw [run_operators_of_stop _ _ _ hstop, Rules.expressionFrom_operand hoperand hnode hstop]
        · -- an operator comes, and what is read to the right of it is not followed by another one
          obtain ⟨o, hhead, hoperator⟩ : ∃ o, ts.head? = some o ∧ o.kind.isOperator = true := by
            simpa using hstop
          obtain ⟨us, rfl⟩ := List.head?_eq_some_iff.mp hhead
          obtain ⟨op, ho⟩ := Rules.exists_operator hoperator
          obtain ⟨m, rfl⟩ : ∃ m, n = m + 1 := Nat.exists_eq_succ_of_ne_zero (by
            rw [List.length_cons] at hn
            omega)
          have hus : us.length ≤ m + 1 := Nat.le_of_succ_le hn
          rw [run_operators_cons _ _ _ ho, ih hus, Rules.expressionFrom_cons hoperand hnode ho,
            run_ofRule, Rules.expression]
          rcases hright : Rules.expressionFrom (i + 2) us with _ | ⟨f | rhs, after⟩
          · rfl
          · rfl
          · dsimp only
            rw [run_operators_of_stop _ _ _ (isOperator_of_expressionFrom hright)]
            rfl
    · simp [expressionOf, Rules.expressionFrom, hoperand]

theorem expression_eq : expression = ofRule Rules.expression := by
  have hrun : ∀ c, expression.run c = (ofRule Rules.expression).run c := by
    intro c
    rw [expression, EStateM.run_bind]
    exact run_expressionOf (Nat.le_refl _)
  exact ext_words (fun i => hrun _) fun i t ts => hrun _

/-- **each rule does on the shared cursor what it does as a function** -/
theorem rules_eq : rules = Rules.all.map ofRule := by
  rw [rules, keyword_eq, record_eq, macroUse_eq, string_eq, expression_eq]
  rfl

end Stream

end TableAssembler

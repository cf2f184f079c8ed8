import TableAssembler.Proofs.Statement.Parsing

/-!
# How reading fails

A step that fails has read the beginning of a statement: a keyword, or operands with an operator
after each.  Then comes a word that cannot follow, or none at all.

* `Chained`, `Pending`       the beginnings of statements that ask for another word;
* `Refused`                  what a failing step has read, what it says, and what it leaves;
* `next?_eq_error_iff`       a step fails in just these ways;
* `next?_local`              a step that reads a statement sees only it and the word after it;
* `parse_error`              a run that fails is a reading and then a refusal.
-/

namespace TableAssembler

/-! ## beginnings of statements -/

/-- operands in a row, each with an operator after it -/
inductive Chained : Nat → List Token → Prop
  | nil {i : Nat} : Chained i []
  | cons {i : Nat} {t o : Token} {ts : List Token} {n : Node} {op : Operator}
      (operand : t.kind.isOperand = true) (node : Node.ofToken t.kind t.text (some i) = .ok n)
      (operator : o.kind = .operator op) (more : Chained (i + 2) ts) : Chained i (t :: o :: ts)

/-- the beginning of a statement that asks for a word of some classes -/
inductive Pending (i : Nat) : List Token → (Token.Kind → Bool) → Prop
  | atomName {t : Token} (keyword : t.kind = .keywordAtom) : Pending i [t] (· = .atom)
  | macroName {t : Token} (keyword : t.kind = .keywordMacro) : Pending i [t] (· = .macroName)
  | operand {ts : List Token} (chain : Chained i ts) (filled : ts ≠ []) :
      Pending i ts Token.Kind.isOperand

/-- whether words of a class begin no statement -/
def Token.Kind.isStray : Kind → Bool
  | .operator _ | .bogus => true
  | _ => false

theorem Token.Kind.isOperand_of_isStray {kind : Token.Kind} (h : kind.isStray = true) :
    kind.isOperand = false := by
  cases kind with
  | operator => rfl
  | bogus => rfl
  | _ => cases h

/-- The ways in which a step fails: at a word that begins no statement, for want of a word, at a
word that is not asked for, at a numeral without a value, and at the name of a macro that is
defined. -/
inductive Refused : Cursor → Fault → Cursor → Prop
  | stray {i : Nat} {t : Token} {rest : List Token} (stray : t.kind.isStray = true) :
      Refused ⟨i, t :: rest⟩ (.unexpected (some i)) ⟨i + 1, rest⟩
  | ended {i : Nat} {ts : List Token} {wanted : Token.Kind → Bool} (begun : Pending i ts wanted) :
      Refused ⟨i, ts⟩ ⟨.endOfFile, some (i + ts.length - 1), none⟩ ⟨i + ts.length, []⟩
  | other {i : Nat} {ts : List Token} {wanted : Token.Kind → Bool} {u : Token}
      {rest : List Token} (begun : Pending i ts wanted) (unwanted : wanted u.kind = false) :
      Refused ⟨i, ts ++ u :: rest⟩ (.unexpected (some (i + ts.length))) ⟨i + ts.length, u :: rest⟩
  | numeral {i : Nat} {ts : List Token} {t : Token} {rest : List Token} {f : Fault}
      (chain : Chained i ts) (operand : t.kind.isOperand = true)
      (node : Node.ofToken t.kind t.text (some (i + ts.length)) = .error f) :
      Refused ⟨i, ts ++ t :: rest⟩ f ⟨i + ts.length + 1, rest⟩
  | macroDefinition {i : Nat} {t u : Token} {rest : List Token} (keyword : t.kind = .keywordMacro)
      (name : u.kind = .macroName) :
      Refused ⟨i, t :: u :: rest⟩ (.unimplemented (some (i + 1))) ⟨i + 2, rest⟩

theorem Pending.ne_nil {i : Nat} {ts : List Token} {wanted : Token.Kind → Bool}
    (h : Pending i ts wanted) : ts ≠ [] := by
  cases h with
  | atomName => exact List.cons_ne_nil _ _
  | macroName => exact List.cons_ne_nil _ _
  | operand _ filled => exact filled

theorem ofToken_eq_error {kind : Token.Kind} (hk : kind.isOperand = true) {text : String}
    {t : Option Nat} {f : Fault} (h : Node.ofToken kind text t = .error f) :
    ∃ cause, f = ⟨.numeral, t, some cause⟩ := by
  have key : ∀ form, Numeral.node form text t = .error f →
      ∃ cause, f = ⟨.numeral, t, some cause⟩ := by
    intro form hf
    unfold Numeral.node at hf
    split at hf
    · cases hf
    · next cause _ => cases hf; exact ⟨cause, rfl⟩
  cases kind with
  | int => exact key _ h
  | hex => exact key _ h
  | bin => exact key _ h
  | atom => cases h
  | _ => cases hk

namespace Rules

/-! ## expressions -/

theorem expressionFrom_eq_none_iff {i : Nat} {ts : List Token} :
    expressionFrom i ts = none ↔ ∀ t, ts.head? = some t → t.kind.isOperand = false := by
  constructor
  · intro h t ht
    obtain ⟨us, rfl⟩ := List.head?_eq_some_iff.mp ht
    rw [Bool.eq_false_iff]
    intro hop
    rw [expressionFrom, if_pos hop] at h
    grind
  · intro h
    cases ts with
    | nil => rfl
    | cons t ts => rw [expressionFrom, if_neg (by rw [h t rfl]; exact Bool.false_ne_true)]

/-- what comes of an operand and an operator, at an index, before a cursor where the right side was
looked for -/
def joined (lhs : Node) (op : Operator) (index : Nat) (c : Cursor) : Option Step → Step
  | none => ⟨.error (c.missing index), c⟩
  | some ⟨.error f, after⟩ => ⟨.error f, after⟩
  | some ⟨.ok rhs, after⟩ => ⟨.ok (.binary lhs op rhs (some index)), after⟩

/-- an expression goes on after an operand and an operator -/
theorem expressionFrom_cons {i : Nat} {t o : Token} {ts : List Token} {n : Node} {op : Operator}
    (operand : t.kind.isOperand = true) (node : Node.ofToken t.kind t.text (some i) = .ok n)
    (operator : o.kind = .operator op) :
    expressionFrom i (t :: o :: ts)
      = some (joined n op (i + 1) ⟨i + 2, ts⟩ (expressionFrom (i + 2) ts)) := by
  rw [expressionFrom, if_pos operand, node]
  dsimp only
  rw [operator]
  cases expressionFrom (i + 2) ts with
  | none => rfl
  | some step =>
    obtain ⟨result, after⟩ := step
    cases result with
    | error f => rfl
    | ok rhs => rfl

/-- the two ways in which an expression fails: at a numeral, and after an operator -/
theorem expressionFrom_error {i : Nat} {ts : List Token} {f : Fault} {after : Cursor}
    (h : expressionFrom i ts = some ⟨.error f, after⟩) :
    ∃ us rest, ts = us ++ rest ∧ Chained i us ∧
      ((∃ t more, rest = t :: more ∧ t.kind.isOperand = true ∧
          Node.ofToken t.kind t.text (some (i + us.length)) = .error f ∧
          after = ⟨i + us.length + 1, more⟩) ∨
        us ≠ [] ∧ expressionFrom (i + us.length) rest = none ∧
          f = Cursor.missing ⟨i + us.length, rest⟩ (i + us.length - 1) ∧
          after = ⟨i + us.length, rest⟩) := by
  fun_induction expressionFrom i ts generalizing f after with
  | case1 => cases h
  | case2 i t ts hop fault hnode =>
    cases h
    exact ⟨[], t :: ts, rfl, .nil, .inl ⟨t, ts, rfl, hop, hnode, rfl⟩⟩
  | case3 => cases h
  | case4 i t hop n hnode o us op ho hnone ih =>
    cases h
    exact ⟨[t, o], us, rfl, .cons hop hnode ho .nil, .inr ⟨List.cons_ne_nil _ _, hnone, rfl, rfl⟩⟩
  | case5 i t hop n hnode o us op ho fault after' he ih =>
    cases h
    obtain ⟨vs, rest, rfl, hchain, hcases⟩ := ih he
    have hindex : i + (t :: o :: vs).length = i + 2 + vs.length := by
      rw [List.length_cons, List.length_cons]
      omega
    refine ⟨t :: o :: vs, rest, rfl, .cons hop hnode ho hchain, ?_⟩
    rw [hindex]
    rcases hcases with hnumeral | ⟨_, hafter⟩
    · exact .inl hnumeral
    · exact .inr ⟨List.cons_ne_nil _ _, hafter⟩
  | case6 => cases h
  | case7 => cases h
  | case8 => cases h

/-- a fault after a chain is the fault of the whole -/
theorem expressionFrom_chained_error {i : Nat} {us : List Token} (hchain : Chained i us)
    {rest : List Token} {f : Fault} {after : Cursor}
    (h : expressionFrom (i + us.length) rest = some ⟨.error f, after⟩) :
    expressionFrom i (us ++ rest) = some ⟨.error f, after⟩ := by
  induction hchain with
  | nil => exact h
  | @cons i t o ts n op operand node operator more ih =>
    rw [List.length_cons, List.length_cons,
      show i + (ts.length + 1 + 1) = i + 2 + ts.length by omega] at h
    rw [List.cons_append, List.cons_append, expressionFrom_cons operand node operator, ih h]
    rfl

/-- a chain asks for an operand -/
theorem expressionFrom_chained_none {i : Nat} {us : List Token} (hchain : Chained i us)
    (hus : us ≠ []) {rest : List Token} (h : expressionFrom (i + us.length) rest = none) :
    expressionFrom i (us ++ rest)
      = some ⟨.error (Cursor.missing ⟨i + us.length, rest⟩ (i + us.length - 1)),
          ⟨i + us.length, rest⟩⟩ := by
  induction hchain with
  | nil => exact absurd rfl hus
  | @cons i t o ts n op operand node operator more ih =>
    have hindex : i + (t :: o :: ts).length = i + 2 + ts.length := by
      rw [List.length_cons, List.length_cons]
      omega
    rw [hindex] at h ⊢
    rw [List.cons_append, List.cons_append, expressionFrom_cons operand node operator]
    cases more with
    | nil =>
      have hnone : expressionFrom (i + 2) rest = none := h
      rw [List.nil_append, hnone]
      rfl
    | cons =>
      rw [ih (List.cons_ne_nil _ _) h]
      rfl

/-- an expression that is read sees only itself and the word after it -/
theorem expressionFrom_local {i : Nat} {ts : List Token} {n : Node} {after : Cursor}
    (h : expressionFrom i ts = some ⟨.ok n, after⟩) :
    ∃ us, ts = us ++ after.rest ∧ after.index = i + us.length ∧
      ∀ rest, rest.head? = after.rest.head? →
        expressionFrom i (us ++ rest) = some ⟨.ok n, ⟨after.index, rest⟩⟩ := by
  fun_induction expressionFrom i ts generalizing n after with
  | case1 => cases h
  | case2 => cases h
  | case3 i t hop m hnode =>
    cases h
    refine ⟨[t], rfl, rfl, fun rest hrest => expressionFrom_operand hop hnode fun o ho => ?_⟩
    cases hrest.symm.trans ho
  | case4 => cases h
  | case5 => cases h
  | case6 i t hop m hnode o us op ho rhs after' he ih =>
    cases h
    obtain ⟨vs, hvs, hindex, hlocal⟩ := ih he
    refine ⟨t :: o :: vs, by rw [List.cons_append, List.cons_append, ← hvs], ?_,
      fun rest hrest => ?_⟩
    · rw [hindex, List.length_cons, List.length_cons]
      omega
    · rw [List.cons_append, List.cons_append, expressionFrom_cons hop hnode ho, hlocal rest hrest]
      rfl
  | case7 i t hop m hnode o us hother =>
    cases h
    refine ⟨[t], rfl, rfl, fun rest hrest => expressionFrom_operand hop hnode fun o' ho => ?_⟩
    cases hrest.symm.trans ho
    cases hk : o.kind with
    | operator op => exact absurd hk (hother op)
    | _ => rfl
  | case8 => cases h

end Rules

/-! ## one step -/

theorem next?_cons (i : Nat) (t : Token) (ts : List Token) :
    Cursor.next? ⟨i, t :: ts⟩ =
      some ((Rules.statement ⟨i, t :: ts⟩).getD ⟨.error (.unexpected (some i)), ⟨i + 1, ts⟩⟩) := by
  rw [Cursor.next?]
  cases Rules.statement ⟨i, t :: ts⟩ with
  | none => rfl
  | some step => rfl

theorem next?_of_expressionFrom {i : Nat} {ts : List Token} {s : Step}
    (h : Rules.expressionFrom i ts = some s) : Cursor.next? ⟨i, ts⟩ = some s := by
  cases ts with
  | nil => cases h
  | cons t ts =>
    rw [next?_cons, Rules.statement_cons]
    cases hk : t.kind with
    | atom => simp only [h, Option.getD_some]
    | int => simp only [h, Option.getD_some]
    | hex => simp only [h, Option.getD_some]
    | bin => simp only [h, Option.getD_some]
    | _ =>
      rw [Rules.expressionFrom_eq_none_iff.mpr fun u hu => by cases hu; rw [hk]; rfl] at h
      cases h

theorem refused_of_expressionFrom {i : Nat} {ts : List Token} {f : Fault} {after : Cursor}
    (h : Rules.expressionFrom i ts = some ⟨.error f, after⟩) : Refused ⟨i, ts⟩ f after := by
  obtain ⟨us, rest, rfl, hchain, hcases⟩ := Rules.expressionFrom_error h
  rcases hcases with ⟨t, more, rfl, hop, hnode, rfl⟩ | ⟨hus, hnone, rfl, rfl⟩
  · exact .numeral hchain hop hnode
  · cases rest with
    | nil =>
      rw [List.append_nil]
      exact .ended (.operand hchain hus)
    | cons u rest =>
      exact .other (.operand hchain hus) (Rules.expressionFrom_eq_none_iff.mp hnone u rfl)

theorem refused_of_next? {c after : Cursor} {f : Fault} (h : c.next? = some ⟨.error f, after⟩) :
    Refused c f after := by
  obtain ⟨i, rest⟩ := c
  cases rest with
  | nil => cases h
  | cons t ts =>
    cases he : Rules.expressionFrom i (t :: ts) with
    | some step =>
      rw [next?_of_expressionFrom he] at h
      cases h
      exact refused_of_expressionFrom he
    | none =>
      have hop := Rules.expressionFrom_eq_none_iff.mp he t rfl
      rw [next?_cons, Rules.statement_cons, he] at h
      cases hk : t.kind with
      | keywordAtom =>
        simp only [hk, Rules.atomDefinition, Cursor.advance, List.tail_cons, Option.getD_some] at h
        cases ts with
        | nil => cases h; exact .ended (.atomName hk)
        | cons a ts =>
          dsimp only at h
          split at h
          · cases h
          · next ha => cases h; exact .other (.atomName hk) (decide_eq_false ha)
      | keywordMacro =>
        simp only [hk, Rules.macroDefinition, Cursor.advance, List.tail_cons, Option.getD_some] at h
        cases ts with
        | nil => cases h; exact .ended (.macroName hk)
        | cons a ts =>
          simp only [Cursor.kind?, List.head?_cons, Option.map_some, Option.some.injEq] at h
          split at h
          · next ha => cases h; exact .macroDefinition hk ha
          · next ha => cases h; exact .other (.macroName hk) (decide_eq_false ha)
      | primitive type => rw [hk] at h; cases h
      | struct => rw [hk] at h; cases h
      | macroName => rw [hk] at h; cases h
      | string => rw [hk] at h; cases h
      | operator op => rw [hk] at h; cases h; exact .stray (by rw [hk]; rfl)
      | bogus => rw [hk] at h; cases h; exact .stray (by rw [hk]; rfl)
      | _ => rw [hk] at hop; cases hop

theorem Refused.next? {c after : Cursor} {f : Fault} (h : Refused c f after) :
    c.next? = some ⟨.error f, after⟩ := by
  cases h with
  | @stray i t rest hstray =>
    have hnone : Rules.expressionFrom i (t :: rest) = none :=
      Rules.expressionFrom_eq_none_iff.mpr fun u hu => by
        cases hu
        exact Token.Kind.isOperand_of_isStray hstray
    rw [next?_cons, Rules.statement_cons, hnone]
    cases hk : t.kind with
    | operator op => rfl
    | bogus => rfl
    | _ => rw [hk] at hstray; cases hstray
  | @ended i ts wanted begun =>
    cases begun with
    | atomName keyword => rw [next?_cons, Rules.statement_cons, keyword]; rfl
    | macroName keyword => rw [next?_cons, Rules.statement_cons, keyword]; rfl
    | operand chain filled =>
      have hnone : Rules.expressionFrom (i + ts.length) [] = none := rfl
      have h := Rules.expressionFrom_chained_none chain filled hnone
      rw [List.append_nil] at h
      exact next?_of_expressionFrom h
  | @other i ts wanted u rest begun unwanted =>
    cases begun with
    | atomName keyword =>
      have hu : u.kind ≠ .atom := of_decide_eq_false unwanted
      rw [List.cons_append, List.nil_append, next?_cons, Rules.statement_cons, keyword]
      simp [Rules.atomDefinition, Cursor.advance, hu, Cursor.missing, Cursor.atEnd]
    | macroName keyword =>
      have hu : u.kind ≠ .macroName := of_decide_eq_false unwanted
      rw [List.cons_append, List.nil_append, next?_cons, Rules.statement_cons, keyword]
      simp [Rules.macroDefinition, Cursor.advance, Cursor.kind?, hu, Cursor.missing, Cursor.atEnd]
    | operand chain filled =>
      refine next?_of_expressionFrom (Rules.expressionFrom_chained_none chain filled ?_)
      exact Rules.expressionFrom_eq_none_iff.mpr fun v hv => by cases hv; exact unwanted
  | @numeral i ts t rest f chain operand node =>
    refine next?_of_expressionFrom (Rules.expressionFrom_chained_error chain ?_)
    rw [Rules.expressionFrom, if_pos operand, node]
  | @macroDefinition i t u rest keyword name =>
    rw [next?_cons, Rules.statement_cons, keyword]
    simp [Rules.macroDefinition, Cursor.advance, Cursor.kind?, name]

/-- **the ways in which a step fails** -/
theorem next?_eq_error_iff {c after : Cursor} {f : Fault} :
    c.next? = some ⟨.error f, after⟩ ↔ Refused c f after :=
  ⟨refused_of_next?, Refused.next?⟩

/-- **a step that reads a statement sees only it and the word after it** -/
theorem next?_local {c after : Cursor} {n : Node} (h : c.next? = some ⟨.ok n, after⟩) :
    ∃ us, c.rest = us ++ after.rest ∧ after.index = c.index + us.length ∧
      ∀ rest, rest.head? = after.rest.head? →
        Cursor.next? ⟨c.index, us ++ rest⟩ = some ⟨.ok n, ⟨after.index, rest⟩⟩ := by
  obtain ⟨t, ts, hrest, hs⟩ := statement_of_next? h
  obtain ⟨i, rest⟩ := c
  cases hrest
  have htypes : t.kind.isType = true → after = (Rules.types i (t :: ts)).2 →
      n = .record (Rules.types i (t :: ts)).1 →
      ∃ us, t :: ts = us ++ after.rest ∧ after.index = i + us.length ∧
        ∀ rest, rest.head? = after.rest.head? →
          Cursor.next? ⟨i, us ++ rest⟩ = some ⟨.ok n, ⟨after.index, rest⟩⟩ := by
    rintro hk rfl rfl
    obtain ⟨us, hus⟩ : ∃ us, Reads ⟨i, t :: ts⟩ ⟨us, .record (Rules.types i (t :: ts)).1⟩
        (Rules.types i (t :: ts)).2 := Rules.reads_types hk
    refine ⟨us, hus.tokens, hus.index, fun rest hhead => ?_⟩
    obtain ⟨hfilled, hnames⟩ := hus.statement.types
    have hread := Rules.types_complete hnames fun u hu => hus.greedy rfl u (hhead ▸ hu)
    obtain ⟨u, vs, rfl⟩ := List.exists_cons_of_ne_nil hfilled
    have hu : u = t := (List.cons.inj hus.tokens).1.symm
    rw [List.cons_append, hu] at hread ⊢
    rw [next?_cons, Rules.statement_cons, hread, hus.index]
    cases hkind : t.kind with
    | primitive type => rfl
    | struct => rfl
    | _ => rw [hkind] at hk; cases hk
  rw [Rules.statement_cons] at hs
  cases hk : t.kind with
  | keywordAtom =>
    simp only [hk, Rules.atomDefinition, Cursor.advance, List.tail_cons] at hs
    cases ts with
    | nil => cases hs
    | cons a ts =>
      dsimp only at hs
      split at hs
      · next ha =>
        cases hs
        refine ⟨[t, a], rfl, rfl, fun rest _ => ?_⟩
        rw [List.cons_append, next?_cons, Rules.statement_cons, hk]
        simp [Rules.atomDefinition, Cursor.advance, ha]
      · cases hs
  | keywordMacro =>
    simp only [hk, Rules.macroDefinition] at hs
    split at hs <;> cases hs
  | primitive type =>
    simp only [hk] at hs
    cases hs
    exact htypes (by rw [hk]; rfl) rfl rfl
  | struct =>
    simp only [hk] at hs
    cases hs
    exact htypes (by rw [hk]; rfl) rfl rfl
  | macroName =>
    simp only [hk] at hs
    cases hs
    refine ⟨[t], rfl, rfl, fun rest _ => ?_⟩
    rw [List.cons_append, next?_cons, Rules.statement_cons, hk]
    rfl
  | string =>
    simp only [hk] at hs
    cases hs
    refine ⟨[t], rfl, rfl, fun rest _ => ?_⟩
    rw [List.cons_append, next?_cons, Rules.statement_cons, hk]
    rfl
  | _ =>
    simp only [hk] at hs
    obtain ⟨us, hus, hindex, hlocal⟩ := Rules.expressionFrom_local hs
    exact ⟨us, hus, hindex, fun rest hhead => next?_of_expressionFrom (hlocal rest hhead)⟩

/-! ## all steps -/

theorem parse_error_of_next? {c after : Cursor} {f : Fault}
    (hnext : c.next? = some ⟨.error f, after⟩) : c.parse = .error f := by
  rw [Cursor.parse_of_some hnext]
  rfl

theorem parse_error_of_more {c after : Cursor} {n : Node} {f : Fault}
    (hnext : c.next? = some ⟨.ok n, after⟩) (hmore : after.parse = .error f) :
    c.parse = .error f := by
  rw [Cursor.parse_of_some hnext]
  dsimp only
  rw [hmore]
  rfl

/-- the next step fails, or a statement is read and a later step fails -/
theorem parse_error_cases {c : Cursor} {f : Fault} (h : c.parse = .error f) :
    (∃ after, c.next? = some ⟨.error f, after⟩) ∨
      ∃ n after, c.next? = some ⟨.ok n, after⟩ ∧ after.parse = .error f := by
  cases hnext : c.next? with
  | none => rw [Cursor.parse_of_none hnext] at h; cases h
  | some step =>
    obtain ⟨result, after⟩ := step
    rw [Cursor.parse_of_some hnext] at h
    cases result with
    | error g => cases h; exact .inl ⟨after, rfl⟩
    | ok n =>
      cases hmore : after.parse with
      | error g => rw [hmore] at h; cases h; exact .inr ⟨n, after, rfl, hmore⟩
      | ok ns => rw [hmore] at h; cases h

/-- **A run that fails is a reading and then a refusal.**  What comes after the refusal may be
exchanged: as long as the word after the reading stays, the run fails as it does from there. -/
theorem parse_error {c : Cursor} {f : Fault} (hts : ∀ t ∈ c.rest, t.Spelled)
    (h : c.parse = .error f) :
    ∃ ps d after, Reading c.index ps ∧ c.rest = Phrase.tokensOf ps ++ d.rest ∧
      d.index = c.index + (Phrase.tokensOf ps).length ∧ Refused d f after ∧
      ∀ rest, rest.head? = d.rest.head? → ∀ g, Cursor.parse ⟨d.index, rest⟩ = .error g →
        Cursor.parse ⟨c.index, Phrase.tokensOf ps ++ rest⟩ = .error g := by
  induction hn : c.rest.length using Nat.strong_induction_on generalizing c with
  | _ n ih =>
    subst hn
    rcases parse_error_cases h with ⟨after, hnext⟩ | ⟨node, after, hnext, hmore⟩
    · exact ⟨[], c, after, .nil, rfl, rfl, next?_eq_error_iff.mp hnext, fun _ _ _ hrest => hrest⟩
    · obtain ⟨us, htokens, hindex, hst, -⟩ := next?_sound hts hnext
      dsimp only at htokens hindex hst
      obtain ⟨vs, hvs, -, hlocal⟩ := next?_local hnext
      obtain rfl : us = vs := List.append_cancel_right (htokens.symm.trans hvs)
      have hafter : ∀ t ∈ after.rest, t.Spelled := fun t ht =>
        hts t (by rw [htokens]; exact List.mem_append_right us ht)
      obtain ⟨ps, d, last, hps, hrest, hd, hrefused, hexchange⟩ :=
        ih _ (Cursor.length_rest_next? hnext) hafter hmore rfl
      rw [hindex] at hps
      refine ⟨⟨us, node⟩ :: ps, d, last, .cons hst hps, ?_, ?_, hrefused, ?_⟩
      · rw [Phrase.tokensOf_cons, List.append_assoc, ← hrest, htokens]
      · rw [Phrase.tokensOf_cons, List.length_append, ← Nat.add_assoc, ← hindex, hd]
      · intro rest hhead g hg
        have hnext' := hlocal (Phrase.tokensOf ps ++ rest) (by
          rw [hrest, List.head?_append, List.head?_append, hhead])
        rw [Phrase.tokensOf_cons, List.append_assoc]
        exact parse_error_of_more hnext' (hexchange rest hhead g hg)

end TableAssembler

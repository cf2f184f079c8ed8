import TableAssembler.Proofs.Statement.Grammar
import TableAssembler.Statement.Reading

/-!
# Reading is the grammar

The rules that read statements accept just the phrases of the grammar.

* `Rules.statement_cons`            which rule takes a token;
* `next?_sound`, `next?_complete`   one step reads one statement;
* `parse_cases`                     all steps are one step and the others;
* `parse_sound`, `parse_complete`   all steps read a grouped reading;
* `parse_tokenize_grammar`          what is accepted, and the one way in which it is read.
-/

namespace TableAssembler

/-- from one cursor to another a phrase is read, and a record type as far as it goes -/
structure Reads (c : Cursor) (p : Phrase) (after : Cursor) : Prop where
  tokens : c.rest = p.tokens ++ after.rest
  index : after.index = c.index + p.tokens.length
  statement : Statement c.index p.tokens p.node
  greedy : p.node.isRecord = true → ∀ t, after.rest.head? = some t → t.kind.isType = false

namespace Rules

/-- the rule that takes a token is fixed by its class -/
theorem statement_cons (i : Nat) (t : Token) (ts : List Token) :
    statement ⟨i, t :: ts⟩ =
      match t.kind with
      | .keywordAtom => some (atomDefinition ⟨i, t :: ts⟩)
      | .keywordMacro => some (macroDefinition ⟨i, t :: ts⟩)
      | .primitive _ | .struct =>
        some ⟨.ok (.record (types i (t :: ts)).1), (types i (t :: ts)).2⟩
      | .macroName => some ⟨.ok (.macroRef t.text (some i)), ⟨i + 1, ts⟩⟩
      | .string => some ⟨.ok (.string (unquoted t.text) (some i)), ⟨i + 1, ts⟩⟩
      | _ => expressionFrom i (t :: ts) := by
  cases hk : t.kind <;>
    simp [statement, all, keyword, record, macroUse, string, expression, Cursor.kind?,
      Cursor.sees, Cursor.advance, Token.Kind.isType, hk]

/-! ## record types -/

theorem ofType?_eq_some_iff {i : Nat} {t : Token} {n : Node} :
    Node.ofType? t.kind t.text (some i) = some n ↔ TypeName i t n := by
  constructor
  · intro h
    cases hk : t.kind with
    | primitive type => rw [hk] at h; cases h; exact .primitive hk
    | struct => rw [hk] at h; cases h; exact .struct hk
    | _ => rw [hk] at h; cases h
  · intro h
    cases h with
    | primitive kind => rw [kind]; rfl
    | struct kind => rw [kind]; rfl

theorem ofType?_eq_none_iff {i : Nat} {t : Token} :
    Node.ofType? t.kind t.text (some i) = none ↔ t.kind.isType = false := by
  rw [← Node.isSome_ofType? t.kind t.text (some i), Option.isSome_eq_false_iff,
    Option.isNone_iff_eq_none]

/-- as many names of types as there are -/
theorem types_sound (i : Nat) (ts : List Token) :
    ∃ us, ts = us ++ (types i ts).2.rest ∧ (types i ts).2.index = i + us.length ∧
      TypeNames i us (types i ts).1 ∧
      ∀ t, (types i ts).2.rest.head? = some t → t.kind.isType = false := by
  fun_induction types i ts with
  | case1 i => exact ⟨[], rfl, rfl, .nil, fun t ht => by cases ht⟩
  | case2 i t ts node hnode more ih =>
    obtain ⟨us, hts, hindex, hus, hstop⟩ := ih
    refine ⟨t :: us, by rw [List.cons_append, ← hts], ?_, .cons (ofType?_eq_some_iff.mp hnode) hus,
      hstop⟩
    rw [hindex, List.length_cons]
    omega
  | case3 i t ts hnone =>
    refine ⟨[], rfl, rfl, .nil, fun u hu => ?_⟩
    rw [← Option.some.inj hu]
    exact ofType?_eq_none_iff.mp hnone

theorem types_complete {i : Nat} {ts : List Token} {ns : List Node} (h : TypeNames i ts ns)
    {rest : List Token} (hstop : ∀ t, rest.head? = some t → t.kind.isType = false) :
    types i (ts ++ rest) = (ns, ⟨i + ts.length, rest⟩) := by
  induction h with
  | @nil i =>
    cases rest with
    | nil => rfl
    | cons t rest =>
      rw [List.nil_append, types, ofType?_eq_none_iff.mpr (hstop t rfl)]
      rfl
  | @cons i t ts n ns first more ih =>
    rw [List.cons_append, types, ofType?_eq_some_iff.mpr first]
    dsimp only
    rw [ih, List.length_cons, Nat.add_assoc, Nat.add_comm 1]

/-! ## expressions -/

theorem expressionFrom_sound {i : Nat} {ts : List Token} (hts : ∀ t ∈ ts, t.Spelled) {n : Node}
    {after : Cursor} (h : expressionFrom i ts = some ⟨.ok n, after⟩) :
    ∃ us, ts = us ++ after.rest ∧ after.index = i + us.length ∧ Expression i us n := by
  have key : ∀ {j : Nat} {t : Token} {m : Node}, t ∈ ts → t.kind.isOperand = true →
      Node.ofToken t.kind t.text (some j) = .ok m → Operand j t m := fun ht ho hm =>
    (ofToken_eq_ok_iff (hts _ ht) ho _ _).mp hm
  fun_induction expressionFrom i ts generalizing n after with
  | case1 => cases h
  | case2 => cases h
  | case3 i t ho lhs hl =>
    cases h
    exact ⟨[t], rfl, rfl, .operand (key List.mem_cons_self ho hl)⟩
  | case4 => cases h
  | case5 => cases h
  | case6 i t ho lhs hl o us op hop rhs after' he ih =>
    cases h
    obtain ⟨vs, hvs, hindex, htree⟩ := ih
      (fun u hu => hts u (List.mem_cons_of_mem t (List.mem_cons_of_mem o hu))) he
      fun hu => key (List.mem_cons_of_mem t (List.mem_cons_of_mem o hu))
    refine ⟨t :: o :: vs, by rw [List.cons_append, List.cons_append, ← hvs], ?_,
      .binary (key List.mem_cons_self ho hl) hop htree⟩
    rw [hindex, List.length_cons, List.length_cons]
    omega
  | case7 i t ho lhs hl o us =>
    cases h
    exact ⟨[t], rfl, rfl, .operand (key List.mem_cons_self ho hl)⟩
  | case8 => cases h

/-- an operand without an operator after it is an expression -/
theorem expressionFrom_operand {i : Nat} {t : Token} {ts : List Token} {n : Node}
    (operand : t.kind.isOperand = true) (node : Node.ofToken t.kind t.text (some i) = .ok n)
    (stop : ∀ o, ts.head? = some o → o.kind.isOperator = false) :
    expressionFrom i (t :: ts) = some ⟨.ok n, ⟨i + 1, ts⟩⟩ := by
  rw [expressionFrom, if_pos operand, node]
  cases ts with
  | nil => rfl
  | cons o ts =>
    have hother := stop o rfl
    dsimp only
    split
    · next op hop => rw [hop] at hother; cases hother
    · rfl

theorem expressionFrom_complete {i : Nat} {ts : List Token} {n : Node} (h : Expression i ts n)
    (hts : ∀ t ∈ ts, t.Spelled) {rest : List Token}
    (hstop : ∀ t, rest.head? = some t → t.kind.isOperator = false) :
    expressionFrom i (ts ++ rest) = some ⟨.ok n, ⟨i + ts.length, rest⟩⟩ := by
  induction h with
  | @operand i t n ho =>
    have hn := (ofToken_eq_ok_iff (hts t List.mem_cons_self) ho.isOperand i n).mpr ho
    exact expressionFrom_operand ho.isOperand hn hstop
  | @binary i t o ts op lhs rhs left operator right ih =>
    have hn := (ofToken_eq_ok_iff (hts t List.mem_cons_self) left.isOperand i lhs).mpr left
    have hrhs := ih fun u hu => hts u (List.mem_cons_of_mem t (List.mem_cons_of_mem o hu))
    rw [List.cons_append, List.cons_append, expressionFrom, if_pos left.isOperand, hn]
    dsimp only
    rw [operator, hrhs, List.length_cons, List.length_cons,
      show i + (ts.length + 1 + 1) = i + 2 + ts.length by omega]

/-! ## statements -/

theorem unquoted_eq {text : String} {inside : List Char}
    (h : text.toList = '"' :: (inside ++ ['"'])) : unquoted text = String.ofList inside := by
  rw [unquoted, h, List.drop_succ_cons, List.drop_zero, List.dropLast_concat]

/-- a record type is read as far as it goes -/
theorem reads_types {i : Nat} {t : Token} {ts : List Token} (hk : t.kind.isType = true) :
    ∃ us, Reads ⟨i, t :: ts⟩ ⟨us, .record (types i (t :: ts)).1⟩ (types i (t :: ts)).2 := by
  obtain ⟨us, hus, hindex, hnames, hstop⟩ := types_sound i (t :: ts)
  refine ⟨us, hus, hindex, .record (fun e => ?_) hnames, fun _ => hstop⟩
  rw [show us = [] from e, List.nil_append] at hus
  rw [← hus] at hstop
  rw [hstop t rfl] at hk
  cases hk

theorem statement_sound {i : Nat} {t : Token} {ts : List Token}
    (hts : ∀ u ∈ t :: ts, u.Spelled) {n : Node} {after : Cursor}
    (h : statement ⟨i, t :: ts⟩ = some ⟨.ok n, after⟩) :
    ∃ us, Reads ⟨i, t :: ts⟩ ⟨us, n⟩ after := by
  rw [statement_cons] at h
  cases hk : t.kind with
  | keywordAtom =>
    simp only [hk, atomDefinition, Cursor.advance, List.tail_cons] at h
    cases ts with
    | nil => cases h
    | cons a ts =>
      dsimp only at h
      split at h
      · next ha =>
        cases h
        exact ⟨[t, a], rfl, rfl, .atomDef hk ha, fun hr => by cases hr⟩
      · cases h
  | keywordMacro =>
    simp only [hk, macroDefinition] at h
    split at h <;> cases h
  | primitive type =>
    simp only [hk] at h
    cases h
    exact reads_types (by rw [hk]; rfl)
  | struct =>
    simp only [hk] at h
    cases h
    exact reads_types (by rw [hk]; rfl)
  | macroName =>
    simp only [hk] at h
    cases h
    exact ⟨[t], rfl, rfl, .macroUse hk, fun hr => by cases hr⟩
  | string =>
    simp only [hk] at h
    cases h
    obtain ⟨inside, htext⟩ := (hts t List.mem_cons_self).string hk
    rw [unquoted_eq htext]
    exact ⟨[t], rfl, rfl, .string hk htext, fun hr => by cases hr⟩
  | _ =>
    simp only [hk] at h
    obtain ⟨us, hus, hindex, htree⟩ := expressionFrom_sound hts h
    exact ⟨us, hus, hindex, .expression htree, fun hr => by rw [htree.isRecord] at hr; cases hr⟩

theorem statement_complete {c after : Cursor} {p : Phrase} (h : Reads c p after)
    (hts : ∀ t ∈ p.tokens, t.Spelled)
    (hstop : ∀ t, after.rest.head? = some t → t.kind.isOperator = false) :
    statement c = some ⟨.ok p.node, after⟩ := by
  obtain ⟨i, rest⟩ := c
  obtain ⟨ts, n⟩ := p
  obtain ⟨j, after⟩ := after
  obtain ⟨htokens, hindex, hst, hgreedy⟩ := h
  dsimp only at htokens hindex hst hgreedy hts hstop ⊢
  subst htokens hindex
  cases hst with
  | @atomDef t a keyword name =>
    rw [List.cons_append, statement_cons, keyword]
    simp [atomDefinition, Cursor.advance, name]
  | @record _ ns filled types =>
    have htypes := types_complete types (hgreedy rfl)
    cases types with
    | nil => exact absurd rfl filled
    | @cons _ t us m ms first more =>
      rw [List.cons_append] at htypes ⊢
      rw [statement_cons, htypes]
      cases first with
      | primitive kind => rw [kind]
      | struct kind => rw [kind]
  | @macroUse t name => rw [List.cons_append, statement_cons, name]; rfl
  | @string t inside kind text =>
    rw [List.cons_append, statement_cons, kind, ← unquoted_eq text]
    rfl
  | @expression _ _ tree =>
    have htree := expressionFrom_complete tree hts hstop
    have hopen : ∃ t us, ts = t :: us ∧ t.kind.isOperand = true := by
      cases tree with
      | operand ho => exact ⟨_, _, rfl, ho.isOperand⟩
      | binary left _ _ => exact ⟨_, _, rfl, left.isOperand⟩
    obtain ⟨t, us, rfl, hk⟩ := hopen
    rw [List.cons_append] at htree ⊢
    rw [statement_cons, htree]
    cases hkind : t.kind <;> simp_all [Token.Kind.isOperand]

end Rules

/-! ## one step -/

theorem statement_of_next? {c after : Cursor} {n : Node} (h : c.next? = some ⟨.ok n, after⟩) :
    ∃ t ts, c.rest = t :: ts ∧ Rules.statement c = some ⟨.ok n, after⟩ := by
  obtain ⟨i, rest⟩ := c
  cases rest with
  | nil => cases h
  | cons t ts =>
    refine ⟨t, ts, rfl, ?_⟩
    cases hs : Rules.statement ⟨i, t :: ts⟩ with
    | none =>
      simp only [Cursor.next?, Cursor.atEnd, List.isEmpty_cons, hs] at h
      cases h
    | some step =>
      simp only [Cursor.next?, Cursor.atEnd, List.isEmpty_cons, hs] at h
      cases h
      rfl

theorem next?_sound {c after : Cursor} {n : Node} (hts : ∀ t ∈ c.rest, t.Spelled)
    (h : c.next? = some ⟨.ok n, after⟩) : ∃ us, Reads c ⟨us, n⟩ after := by
  obtain ⟨t, ts, hrest, hs⟩ := statement_of_next? h
  obtain ⟨i, rest⟩ := c
  cases hrest
  exact Rules.statement_sound hts hs

theorem next?_complete {c after : Cursor} {p : Phrase} (h : Reads c p after)
    (hts : ∀ t ∈ p.tokens, t.Spelled)
    (hstop : ∀ t, after.rest.head? = some t → t.kind.isOperator = false) :
    c.next? = some ⟨.ok p.node, after⟩ := by
  obtain ⟨t, us, hp, _⟩ := h.statement.exists_cons
  have hend : c.atEnd = false := by rw [Cursor.atEnd, h.tokens, hp]; rfl
  rw [Cursor.next?, hend, Rules.statement_complete h hts hstop]
  rfl

/-! ## all steps -/

/-- what the first token of a reading says about its first phrase -/
theorem Reading.head {i : Nat} {ps : List Phrase} (h : Reading i ps) {t : Token}
    (ht : (Phrase.tokensOf ps).head? = some t) :
    t.kind.isOperator = false ∧
      ∃ p, ps.head? = some p ∧ t.kind.isType = p.node.isRecord := by
  cases h with
  | nil => cases ht
  | @cons _ p ps first more =>
    obtain ⟨u, us, hp, hop, htype⟩ := first.exists_cons
    rw [Phrase.tokensOf_cons, hp] at ht
    cases ht
    exact ⟨hop, p, rfl, htype⟩

theorem Reading.reads {i : Nat} {p : Phrase} {ps : List Phrase} (h : Reading i (p :: ps))
    (hg : Grouped (p :: ps)) :
    Reads ⟨i, Phrase.tokensOf (p :: ps)⟩ p ⟨i + p.tokens.length, Phrase.tokensOf ps⟩ := by
  cases h with
  | cons first more =>
    refine ⟨rfl, rfl, first, fun hp t ht => ?_⟩
    obtain ⟨_, q, hq, htype⟩ := more.head ht
    rw [htype, Bool.eq_false_iff]
    exact fun hr => (grouped_cons_iff.mp hg).1 q hq ⟨hp, hr⟩

/-- the first phrase of a reading is what one step reads -/
theorem Reading.next? {i : Nat} {p : Phrase} {ps : List Phrase} (h : Reading i (p :: ps))
    (hg : Grouped (p :: ps)) (hts : ∀ t ∈ Phrase.tokensOf (p :: ps), t.Spelled) :
    Cursor.next? ⟨i, Phrase.tokensOf (p :: ps)⟩
      = some ⟨.ok p.node, ⟨i + p.tokens.length, Phrase.tokensOf ps⟩⟩ := by
  refine next?_complete (h.reads hg) (fun t ht => hts t (List.mem_append_left _ ht)) fun t ht => ?_
  cases h with
  | cons first more => exact (more.head ht).1

theorem rest_of_next?_eq_none {c : Cursor} (h : c.next? = none) : c.rest = [] := by
  unfold Cursor.next? at h
  split at h
  · next hend => exact List.isEmpty_iff.mp hend
  · split at h <;> cases h

theorem parse_eq_cons {c after : Cursor} {n : Node} {ns : List Node}
    (hnext : c.next? = some ⟨.ok n, after⟩) (hmore : after.parse = .ok ns) :
    c.parse = .ok (n :: ns) := by
  rw [Cursor.parse_of_some hnext]
  dsimp only
  rw [hmore]
  rfl

/-- the end is reached, or a statement is read and then the others -/
theorem parse_cases {c : Cursor} {nodes : List Node} (h : c.parse = .ok nodes) :
    (c.rest = [] ∧ nodes = []) ∨
      ∃ n ns after, c.next? = some ⟨.ok n, after⟩ ∧ after.parse = .ok ns ∧ nodes = n :: ns := by
  cases hnext : c.next? with
  | none =>
    rw [Cursor.parse_of_none hnext] at h
    cases h
    exact .inl ⟨rest_of_next?_eq_none hnext, rfl⟩
  | some step =>
    obtain ⟨result, after⟩ := step
    rw [Cursor.parse_of_some hnext] at h
    cases result with
    | error f => cases h
    | ok n =>
      cases hmore : after.parse with
      | error f => rw [hmore] at h; cases h
      | ok ns =>
        rw [hmore] at h
        cases h
        exact .inr ⟨n, ns, after, rfl, hmore, rfl⟩

theorem parse_sound {c : Cursor} {nodes : List Node} (hts : ∀ t ∈ c.rest, t.Spelled)
    (h : c.parse = .ok nodes) :
    ∃ ps, Reading c.index ps ∧ Grouped ps ∧ Phrase.tokensOf ps = c.rest ∧
      Phrase.nodesOf ps = nodes := by
  induction nodes generalizing c with
  | nil =>
    rcases parse_cases h with ⟨hrest, _⟩ | ⟨_, _, _, _, _, hcons⟩
    · exact ⟨[], .nil, .nil, hrest.symm, rfl⟩
    · cases hcons
  | cons n ns ih =>
    rcases parse_cases h with ⟨_, hnil⟩ | ⟨_, _, after, hnext, hmore, hcons⟩
    · cases hnil
    · cases hcons
      obtain ⟨us, hreads⟩ := next?_sound hts hnext
      have hafter : ∀ t ∈ after.rest, t.Spelled := fun t ht =>
        hts t (by rw [hreads.tokens]; exact List.mem_append_right us ht)
      obtain ⟨ps, hps, hg, htokens, hnodes⟩ := ih hafter hmore
      rw [hreads.index] at hps
      refine ⟨⟨us, n⟩ :: ps, .cons hreads.statement hps, ?_, ?_, ?_⟩
      · refine grouped_cons_iff.mpr ⟨fun q hq hboth => ?_, hg⟩
        obtain ⟨rest, rfl⟩ := List.head?_eq_some_iff.mp hq
        obtain ⟨t, vs, hqt, _, htype⟩ := by
          cases hps with
          | cons first _ => exact first.exists_cons
        have ht : after.rest.head? = some t := by
          rw [← htokens, Phrase.tokensOf_cons, hqt]
          rfl
        rw [hreads.greedy hboth.1 t ht, hboth.2] at htype
        cases htype
      · rw [Phrase.tokensOf_cons, htokens, hreads.tokens]
      · rw [Phrase.nodesOf_cons, hnodes]

theorem parse_complete {i : Nat} {ps : List Phrase} (h : Reading i ps) (hg : Grouped ps)
    (hts : ∀ t ∈ Phrase.tokensOf ps, t.Spelled) :
    Cursor.parse ⟨i, Phrase.tokensOf ps⟩ = .ok (Phrase.nodesOf ps) := by
  induction ps generalizing i with
  | nil => exact Cursor.parse_of_none rfl
  | cons p ps ih =>
    refine parse_eq_cons (h.next? hg hts) ?_
    cases h with
    | cons first more =>
      exact ih more (grouped_cons_iff.mp hg).2 fun t ht => hts t (List.mem_append_right _ ht)

theorem reading_unique {i : Nat} {ps qs : List Phrase} (hp : Reading i ps) (hgp : Grouped ps)
    (hq : Reading i qs) (hgq : Grouped qs) (hts : ∀ t ∈ Phrase.tokensOf ps, t.Spelled)
    (h : Phrase.tokensOf ps = Phrase.tokensOf qs) : ps = qs := by
  induction ps generalizing i qs with
  | nil =>
    cases hq with
    | nil => rfl
    | cons first more =>
      obtain ⟨t, us, hqt, _⟩ := first.exists_cons
      rw [Phrase.tokensOf_cons, hqt] at h
      cases h
  | cons p ps ih =>
    have hnext := hp.next? hgp hts
    cases qs with
    | nil => rw [h] at hnext; cases hnext
    | cons q qs =>
      have hnext' := hq.next? hgq (h ▸ hts)
      rw [h, hnext'] at hnext
      simp only [Option.some.injEq, Step.mk.injEq, Except.ok.injEq, Cursor.mk.injEq] at hnext
      obtain ⟨hnode, _, hrest⟩ := hnext
      rw [Phrase.tokensOf_cons, Phrase.tokensOf_cons, hrest] at h
      have htokens : p.tokens = q.tokens := List.append_cancel_right h
      obtain rfl : p = q := Phrase.ext htokens hnode.symm
      cases hp with
      | cons _ more =>
        cases hq with
        | cons _ more' =>
          rw [ih more (grouped_cons_iff.mp hgp).2 more' (grouped_cons_iff.mp hgq).2
            (fun t ht => hts t (List.mem_append_right _ ht)) hrest.symm]

/-! ## texts -/

/-- **Reading is the grammar.**  The tokens of a text are read if they are statements in a row, so
neither a macro definition nor a bogus character is among them.  The statements are then those of
the one grouped reading, in which type names that stand side by side are one record type. -/
theorem parse_tokenize_grammar (text : String) :
    ((∃ nodes, parse (tokenize text) = .ok nodes) ↔
        ∃ ps, Reading 0 ps ∧ Phrase.tokensOf ps = tokenize text) ∧
      (∀ nodes, parse (tokenize text) = .ok nodes ↔
        ∃ ps, Reading 0 ps ∧ Grouped ps ∧ Phrase.tokensOf ps = tokenize text ∧
          Phrase.nodesOf ps = nodes) ∧
      (∀ ps qs, Reading 0 ps → Grouped ps → Reading 0 qs → Grouped qs →
        Phrase.tokensOf ps = tokenize text → Phrase.tokensOf qs = tokenize text → ps = qs) ∧
      ∀ t ∈ tokenize text, t.kind = .keywordMacro ∨ t.kind = .bogus →
        ∀ nodes, parse (tokenize text) ≠ .ok nodes := by
  have hts : ∀ t ∈ tokenize text, t.Spelled := spelled_of_mem_tokenize
  have hsound : ∀ nodes, parse (tokenize text) = .ok nodes →
      ∃ ps, Reading 0 ps ∧ Grouped ps ∧ Phrase.tokensOf ps = tokenize text ∧
        Phrase.nodesOf ps = nodes := fun nodes h => parse_sound (c := ⟨0, tokenize text⟩) hts h
  have hcomplete : ∀ ps, Reading 0 ps → Grouped ps → Phrase.tokensOf ps = tokenize text →
      parse (tokenize text) = .ok (Phrase.nodesOf ps) := by
    intro ps h hg htokens
    rw [← htokens] at hts ⊢
    exact parse_complete h hg hts
  refine ⟨⟨?_, ?_⟩, fun nodes => ⟨hsound nodes, ?_⟩, ?_, ?_⟩
  · rintro ⟨nodes, h⟩
    obtain ⟨ps, hps, _, htokens, _⟩ := hsound nodes h
    exact ⟨ps, hps, htokens⟩
  · rintro ⟨ps, h, htokens⟩
    obtain ⟨qs, hqs, hg, htokens'⟩ := exists_grouped h
    exact ⟨_, hcomplete qs hqs hg (htokens'.trans htokens)⟩
  · rintro ⟨ps, h, hg, htokens, rfl⟩
    exact hcomplete ps h hg htokens
  · intro ps qs hp hgp hq hgq htp htq
    exact reading_unique hp hgp hq hgq (htp ▸ hts) (htp.trans htq.symm)
  · intro t ht hk nodes h
    obtain ⟨ps, hps, _, htokens, _⟩ := hsound nodes h
    have hkind := hps.isBarred t (htokens ▸ ht)
    rcases hk with hk | hk
    · rw [hk] at hkind
      cases hkind
    · rw [hk] at hkind
      cases hkind

end TableAssembler

import TableAssembler.Proofs.Statement.Survey
import TableAssembler.Proofs.Token.Excerpt

/-!
# A statement by itself

The span of a statement is a part of the text that is just this statement when it is read alone.
Its words are those of the statement, so all that changes is where they are counted from.

* `Node.shift`           a node further on, with `Node.isStatic_shift`;
* `Statement.exists_shift`   a phrase of the same words from an earlier index;
* `parse_single`         the words of a statement are read as this statement;
* `parse_excerpt`        all of it for the span of a statement of a text.
-/

namespace TableAssembler

/-! ## nodes further on -/

mutual

/-- a node that stands some words further on: all its tokens are moved up -/
def Node.shift (k : Nat) : Node → Node
  | .void => .void
  | .atomDef name t => .atomDef name (t.map (· + k))
  | .primitive name width t => .primitive name width (t.map (· + k))
  | .structName name t => .structName name (t.map (· + k))
  | .atomRef name t => .atomRef name (t.map (· + k))
  | .macroRef name t => .macroRef name (t.map (· + k))
  | .string text t => .string text (t.map (· + k))
  | .value number kind t => .value number kind (t.map (· + k))
  | .binary lhs op rhs t => .binary (lhs.shift k) op (rhs.shift k) (t.map (· + k))
  | .list items => .list (Node.shiftAll k items)
  | .record fields => .record (Node.shiftAll k fields)

def Node.shiftAll (k : Nat) : List Node → List Node
  | [] => []
  | n :: ns => n.shift k :: Node.shiftAll k ns

end

mutual

theorem Node.isStatic_shift (k : Nat) (n : Node) : (n.shift k).isStatic = n.isStatic := by
  cases n with
  | binary lhs op rhs t =>
    show ((lhs.shift k).isStatic && (rhs.shift k).isStatic) = (lhs.isStatic && rhs.isStatic)
    rw [Node.isStatic_shift k lhs, Node.isStatic_shift k rhs]
  | list items => exact Node.areStatic_shiftAll k items
  | record fields => exact Node.areStatic_shiftAll k fields
  | _ => rfl

theorem Node.areStatic_shiftAll (k : Nat) (ns : List Node) :
    Node.areStatic (Node.shiftAll k ns) = Node.areStatic ns := by
  cases ns with
  | nil => rfl
  | cons n ns =>
    show ((n.shift k).isStatic && Node.areStatic (Node.shiftAll k ns)) = _
    rw [Node.isStatic_shift k n, Node.areStatic_shiftAll k ns]
    rfl

end

/-! ## phrases of the same words -/

theorem Literal.of_alike {t u : Token} {v : Nat} {kind : ValueKind} (h : Literal t v kind)
    (alike : u.Alike t) : Literal u v kind := by
  obtain ⟨hkind, htext⟩ := alike
  cases h with
  | int kind short small =>
    rw [← htext] at short small ⊢
    exact .int (hkind.trans kind) short small
  | hex kind small =>
    rw [← htext] at small ⊢
    exact .hex (hkind.trans kind) small
  | bin kind small =>
    rw [← htext] at small ⊢
    exact .bin (hkind.trans kind) small

theorem Operand.exists_shift {i k : Nat} {t u : Token} {n : Node} (h : Operand (i + k) t n)
    (alike : u.Alike t) : ∃ m, Operand i u m ∧ m.shift k = n := by
  cases h with
  | atom kind => exact ⟨_, .atom (alike.kind.trans kind), by rw [alike.text]; rfl⟩
  | literal value => exact ⟨_, .literal (value.of_alike alike), rfl⟩

theorem Expression.exists_shift {i j k : Nat} {ts us : List Token} {n : Node}
    (h : Expression j ts n) (hj : j = i + k) (alike : List.Forall₂ Token.Alike us ts) :
    ∃ m, Expression i us m ∧ m.shift k = n := by
  induction h generalizing i us with
  | operand operand =>
    subst hj
    cases alike with
    | cons first more =>
      cases more
      obtain ⟨m, hm, rfl⟩ := operand.exists_shift first
      exact ⟨m, .operand hm, rfl⟩
  | @binary j t o ts op lhs rhs left operator right ih =>
    subst hj
    cases alike with
    | cons first alike =>
      cases alike with
      | cons second more =>
        obtain ⟨l, hl, rfl⟩ := left.exists_shift first
        obtain ⟨r, hr, rfl⟩ := ih (i := i + 2) (Nat.add_right_comm i k 2) more
        refine ⟨_, .binary hl (second.kind.trans operator) hr, ?_⟩
        show Node.binary _ op _ (some (i + 1 + k)) = _
        rw [Nat.add_right_comm]

theorem TypeName.exists_shift {i k : Nat} {t u : Token} {n : Node} (h : TypeName (i + k) t n)
    (alike : u.Alike t) : ∃ m, TypeName i u m ∧ m.shift k = n := by
  cases h with
  | primitive kind => exact ⟨_, .primitive (alike.kind.trans kind), by rw [alike.text]; rfl⟩
  | struct kind => exact ⟨_, .struct (alike.kind.trans kind), by rw [alike.text]; rfl⟩

theorem TypeNames.exists_shift {i j k : Nat} {ts us : List Token} {ns : List Node}
    (h : TypeNames j ts ns) (hj : j = i + k) (alike : List.Forall₂ Token.Alike us ts) :
    ∃ ms, TypeNames i us ms ∧ Node.shiftAll k ms = ns := by
  induction h generalizing i us with
  | nil =>
    cases alike
    exact ⟨[], .nil, rfl⟩
  | cons first more ih =>
    subst hj
    cases alike with
    | cons halike alike =>
      obtain ⟨m, hm, rfl⟩ := first.exists_shift halike
      obtain ⟨ms, hms, rfl⟩ := ih (i := i + 1) (Nat.add_right_comm i k 1) alike
      exact ⟨m :: ms, .cons hm hms, rfl⟩

/-- **the same words from an earlier index** are the same statement, with all its tokens so much
lower -/
theorem Statement.exists_shift {i k : Nat} {ts us : List Token} {n : Node}
    (h : Statement (i + k) ts n) (alike : List.Forall₂ Token.Alike us ts) :
    ∃ m, Statement i us m ∧ m.shift k = n := by
  cases h with
  | atomDef keyword name =>
    cases alike with
    | cons first alike =>
      cases alike with
      | cons second alike =>
        cases alike
        refine ⟨_, .atomDef (first.kind.trans keyword) (second.kind.trans name), ?_⟩
        show Node.atomDef _ (some (i + 1 + k)) = _
        rw [second.text, Nat.add_right_comm]
  | record filled types =>
    obtain ⟨ms, hms, rfl⟩ := types.exists_shift rfl alike
    refine ⟨.record ms, .record (fun hnil => filled ?_) hms, rfl⟩
    subst hnil
    cases alike
    rfl
  | macroUse name =>
    cases alike with
    | cons first alike =>
      cases alike
      exact ⟨_, .macroUse (first.kind.trans name), by rw [first.text]; rfl⟩
  | string kind text =>
    cases alike with
    | cons first alike =>
      cases alike
      exact ⟨_, .string (first.kind.trans kind) (first.text ▸ text), rfl⟩
  | expression tree =>
    obtain ⟨m, hm, rfl⟩ := tree.exists_shift rfl alike
    exact ⟨m, .expression hm, rfl⟩

/-! ## reading a statement alone -/

/-- the words of a statement are read as this statement -/
theorem parse_single {text : String} {n : Node} (h : Statement 0 (tokenize text) n) :
    parse (tokenize text) = .ok [n] := by
  have hone : Phrase.tokensOf [⟨tokenize text, n⟩] = tokenize text := List.append_nil _
  have hread : Reading 0 [⟨tokenize text, n⟩] := .cons h .nil
  have hparse := parse_complete hread (.singleton _) fun t ht => by
    rw [hone] at ht
    exact spelled_of_mem_tokenize t ht
  rwa [hone] at hparse

/-- **The span of a statement is the statement.**  Each statement that is read off a source, past
whatever faults before it, has a span that is a part of the text.  That part alone is read as one
statement, which is the same node with all its tokens lower by the first of them. -/
theorem parse_excerpt (s : Source) {n : Node}
    (h : n ∈ Step.nodesOf (Cursor.start s.tokens).steps) :
    ∃ (left : Nat) (span : Span) (m : Node),
      n.left = some (left : Int) ∧ s.span n.extent = .ok (some span) ∧
      span.start ≤ span.stop ∧ span.stop ≤ s.text.toList.length ∧
      parse (tokenize (span.cut s.text)) = .ok [m] ∧
      m.shift left = n ∧ m.isStatic = n.isStatic := by
  rw [s.tokens_eq] at h
  obtain ⟨before, words, after, htokens, hstatement⟩ := exists_statement_of_mem_nodesOf h
  obtain ⟨t, more, rfl, _⟩ := hstatement.exists_cons
  obtain ⟨u, hlast⟩ : ∃ u, (t :: more).getLast? = some u :=
    ⟨_, List.getLast?_eq_some_getLast (List.cons_ne_nil t more)⟩
  have hcovers := hstatement.covers
  have hspan : s.span n.extent = .ok (some ⟨t.start, u.stop⟩) := by
    have hright : ((before.length + (t :: more).length : Nat) : Int) - 1
        = ((before.length + more.length : Nat) : Int) := by
      rw [List.length_cons]
      omega
    rw [hcovers.extent, hright]
    refine Source.span_natCast ?_ ?_
    · rw [s.tokens_eq, htokens, List.getElem?_append_right (Nat.le_refl _), Nat.sub_self]
      rfl
    · rw [s.tokens_eq, htokens, List.getElem?_append_right (Nat.le_add_right _ _),
        Nat.add_sub_cancel_left, List.getElem?_append_left (Nat.lt_succ_self _), ← hlast,
        List.getLast?_eq_getElem?]
      rfl
  obtain ⟨hle, hinside, halike⟩ := tokenize_excerpt htokens rfl hlast
  rw [← Nat.zero_add before.length] at hstatement
  obtain ⟨m, hm, hshift⟩ := hstatement.exists_shift halike
  refine ⟨before.length, ⟨t.start, u.stop⟩, m, hcovers.left, hspan, hle, hinside, parse_single hm,
    hshift, ?_⟩
  rw [← hshift, Node.isStatic_shift]

/-- an expression with a comment in it, after a word that nothing wants -/
def commented : Source := .ofText "* 1 + ; one\n A" none

/-- that expression -/
def commentedSum : Node :=
  .binary (.value (.integer 1) .int (some 1)) .add (.atomRef "A" (some 3)) (some 2)

theorem parse_excerpt_commented :
    commentedSum ∈ Step.nodesOf (Cursor.start commented.tokens).steps ∧
      ∃ span m, commented.span ⟨some 1, some 3⟩ = .ok (some span) ∧
        parse (tokenize (span.cut commented.text)) = .ok [m] ∧ m.shift 1 = commentedSum := by
  have htokens : commented.tokens =
      [⟨.operator .mul, "*", 0, 1, 1, 0⟩, ⟨.int, "1", 2, 3, 1, 2⟩,
        ⟨.operator .add, "+", 4, 5, 1, 4⟩, ⟨.atom, "A", 13, 14, 2, 1⟩] := by
    show tokenize "* 1 + ; one\n A" = _
    decide +kernel
  have hmem : commentedSum ∈ Step.nodesOf (Cursor.start commented.tokens).steps := by
    rw [htokens, Cursor.steps_of_some rfl, Cursor.steps_of_some rfl]
    exact List.mem_cons_self
  obtain ⟨left, span, m, hleft, hspan, _, _, hparse, hshift, _⟩ := parse_excerpt commented hmem
  cases hleft
  exact ⟨hmem, span, m, hspan, hparse, hshift⟩

end TableAssembler

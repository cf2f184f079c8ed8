import TableAssembler.Proofs.Statement.Literal

/-!
# The grammar of statements

Which rows of tokens are statements, and which node each of them is.  The index of the first token
goes along, since nodes name tokens by index.

* `TypeNames`, `Expression`, `Statement`   the phrases of the language with their nodes;
* `Reading`                                statements one after the other;
* `Grouped`                                a reading without two record types in a row;
* `exists_grouped`                         every reading can be grouped.
-/

namespace TableAssembler

/-! ## phrases -/

/-- a token that names a type, and its node -/
inductive TypeName (i : Nat) (t : Token) : Node → Prop
  | primitive {type : Primitive} (kind : t.kind = .primitive type) :
      TypeName i t (.primitive t.text type.width (some i))
  | struct (kind : t.kind = .struct) : TypeName i t (.structName t.text (some i))

/-- names of types in a row, and their nodes -/
inductive TypeNames : Nat → List Token → List Node → Prop
  | nil {i : Nat} : TypeNames i [] []
  | cons {i : Nat} {t : Token} {ts : List Token} {n : Node} {ns : List Node}
      (first : TypeName i t n) (more : TypeNames (i + 1) ts ns) :
      TypeNames i (t :: ts) (n :: ns)

/-- Operands with operators between them.  Whatever the operators are, the tree leans to the right:
the left side of an operator is a bare operand. -/
inductive Expression : Nat → List Token → Node → Prop
  | operand {i : Nat} {t : Token} {n : Node} (operand : Operand i t n) : Expression i [t] n
  | binary {i : Nat} {t o : Token} {ts : List Token} {op : Operator} {lhs rhs : Node}
      (left : Operand i t lhs) (operator : o.kind = .operator op)
      (right : Expression (i + 2) ts rhs) :
      Expression i (t :: o :: ts) (.binary lhs op rhs (some (i + 1)))

/-- a statement that begins at an index, and its node -/
inductive Statement (i : Nat) : List Token → Node → Prop
  | atomDef {t a : Token} (keyword : t.kind = .keywordAtom) (name : a.kind = .atom) :
      Statement i [t, a] (.atomDef a.text (some (i + 1)))
  | record {ts : List Token} {ns : List Node} (filled : ts ≠ []) (types : TypeNames i ts ns) :
      Statement i ts (.record ns)
  | macroUse {t : Token} (name : t.kind = .macroName) :
      Statement i [t] (.macroRef t.text (some i))
  | string {t : Token} {inside : List Char} (kind : t.kind = .string)
      (text : t.text.toList = '"' :: (inside ++ ['"'])) :
      Statement i [t] (.string (String.ofList inside) (some i))
  | expression {ts : List Token} {n : Node} (tree : Expression i ts n) : Statement i ts n

/-- some tokens with the node that they are read as -/
@[ext]
structure Phrase where
  tokens : List Token
  node : Node

def Phrase.tokensOf (ps : List Phrase) : List Token := ps.flatMap Phrase.tokens

def Phrase.nodesOf (ps : List Phrase) : List Node := ps.map Phrase.node

/-- statements in a row, the first of which begins at an index -/
inductive Reading : Nat → List Phrase → Prop
  | nil {i : Nat} : Reading i []
  | cons {i : Nat} {p : Phrase} {ps : List Phrase} (first : Statement i p.tokens p.node)
      (more : Reading (i + p.tokens.length) ps) : Reading i (p :: ps)

def Node.isRecord : Node → Bool
  | .record _ => true
  | _ => false

/-- no record type follows on another -/
def Grouped (ps : List Phrase) : Prop :=
  ps.IsChain fun p q => ¬ (p.node.isRecord = true ∧ q.node.isRecord = true)

theorem Phrase.tokensOf_cons (p : Phrase) (ps : List Phrase) :
    tokensOf (p :: ps) = p.tokens ++ tokensOf ps := rfl

theorem Phrase.nodesOf_cons (p : Phrase) (ps : List Phrase) :
    nodesOf (p :: ps) = p.node :: nodesOf ps := rfl

/-! ## the first token of a phrase -/

theorem TypeName.isType {i : Nat} {t : Token} {n : Node} (h : TypeName i t n) :
    t.kind.isType = true := by
  cases h with
  | primitive kind => rw [kind]; rfl
  | struct kind => rw [kind]; rfl

theorem Operand.isOperand {i : Nat} {t : Token} {n : Node} (h : Operand i t n) :
    t.kind.isOperand = true := by
  cases h with
  | atom kind => rw [kind]; rfl
  | literal value =>
    cases value with
    | int kind => rw [kind]; rfl
    | hex kind => rw [kind]; rfl
    | bin kind => rw [kind]; rfl

theorem Operand.isRecord {i : Nat} {t : Token} {n : Node} (h : Operand i t n) :
    n.isRecord = false := by
  cases h <;> rfl

theorem Expression.isRecord {i : Nat} {ts : List Token} {n : Node} (h : Expression i ts n) :
    n.isRecord = false := by
  cases h with
  | operand ho => exact ho.isRecord
  | binary => rfl

/-- a statement begins with a word that is no operator, and that names a type only if it is a record
type -/
theorem Statement.exists_cons {i : Nat} {ts : List Token} {n : Node} (h : Statement i ts n) :
    ∃ t us, ts = t :: us ∧ t.kind.isOperator = false ∧ t.kind.isType = n.isRecord := by
  cases h with
  | atomDef keyword name => exact ⟨_, _, rfl, by rw [keyword]; rfl, by rw [keyword]; rfl⟩
  | record filled types =>
    cases types with
    | nil => exact absurd rfl filled
    | cons first more =>
      refine ⟨_, _, rfl, ?_, first.isType⟩
      cases first with
      | primitive kind => rw [kind]; rfl
      | struct kind => rw [kind]; rfl
  | macroUse name => exact ⟨_, _, rfl, by rw [name]; rfl, by rw [name]; rfl⟩
  | string kind text => exact ⟨_, _, rfl, by rw [kind]; rfl, by rw [kind]; rfl⟩
  | expression tree =>
    have key : ∀ {t : Token} {m : Node}, Operand i t m →
        t.kind.isOperator = false ∧ t.kind.isType = false := by
      intro t m ho
      have := ho.isOperand
      cases hk : t.kind <;> rw [hk] at this <;>
        first | exact ⟨rfl, rfl⟩ | cases this
    rw [tree.isRecord]
    cases tree with
    | operand ho => exact ⟨_, _, rfl, key ho⟩
    | binary left _ _ => exact ⟨_, _, rfl, key left⟩

theorem Statement.types {i : Nat} {ts : List Token} {ns : List Node}
    (h : Statement i ts (.record ns)) : ts ≠ [] ∧ TypeNames i ts ns := by
  cases h with
  | record filled types => exact ⟨filled, types⟩
  | expression tree => cases tree.isRecord

/-! ## words that are in no phrase -/

/-- whether words of a class are in no phrase -/
def Token.Kind.isBarred : Kind → Bool
  | .keywordMacro | .bogus => true
  | _ => false

theorem TypeName.isBarred {i : Nat} {t : Token} {n : Node} (h : TypeName i t n) :
    t.kind.isBarred = false := by
  cases h with
  | primitive kind => rw [kind]; rfl
  | struct kind => rw [kind]; rfl

theorem Operand.isBarred {i : Nat} {t : Token} {n : Node} (h : Operand i t n) :
    t.kind.isBarred = false := by
  have ho := h.isOperand
  cases hk : t.kind <;> rw [hk] at ho <;> first | rfl | cases ho

theorem TypeNames.isBarred {i : Nat} {ts : List Token} {ns : List Node} (h : TypeNames i ts ns) :
    ∀ t ∈ ts, t.kind.isBarred = false := by
  induction h with
  | nil => intro t ht; cases ht
  | cons first more ih => exact List.forall_mem_cons.mpr ⟨first.isBarred, ih⟩

theorem Expression.isBarred {i : Nat} {ts : List Token} {n : Node} (h : Expression i ts n) :
    ∀ t ∈ ts, t.kind.isBarred = false := by
  induction h with
  | operand ho => exact List.forall_mem_singleton.mpr ho.isBarred
  | binary left operator right ih =>
    refine List.forall_mem_cons.mpr ⟨left.isBarred, List.forall_mem_cons.mpr ⟨?_, ih⟩⟩
    rw [operator]
    rfl

theorem Statement.isBarred {i : Nat} {ts : List Token} {n : Node} (h : Statement i ts n) :
    ∀ t ∈ ts, t.kind.isBarred = false := by
  cases h with
  | atomDef keyword name =>
    refine List.forall_mem_cons.mpr ⟨by rw [keyword]; rfl, List.forall_mem_singleton.mpr ?_⟩
    rw [name]
    rfl
  | record filled types => exact types.isBarred
  | macroUse name => exact List.forall_mem_singleton.mpr (by rw [name]; rfl)
  | string kind text => exact List.forall_mem_singleton.mpr (by rw [kind]; rfl)
  | expression tree => exact tree.isBarred

theorem Reading.isBarred {i : Nat} {ps : List Phrase} (h : Reading i ps) :
    ∀ t ∈ Phrase.tokensOf ps, t.kind.isBarred = false := by
  induction h with
  | nil => intro t ht; cases ht
  | cons first more ih => exact List.forall_mem_append.mpr ⟨first.isBarred, ih⟩

/-! ## grouping -/

theorem TypeNames.append {i : Nat} {ts us : List Token} {ns ms : List Node}
    (h : TypeNames i ts ns) (h' : TypeNames (i + ts.length) us ms) :
    TypeNames i (ts ++ us) (ns ++ ms) := by
  induction h with
  | nil => exact h'
  | cons first more ih =>
    refine .cons first (ih ?_)
    rw [List.length_cons] at h'
    rwa [Nat.add_assoc, Nat.add_comm 1]

theorem grouped_cons_iff {p : Phrase} {ps : List Phrase} :
    Grouped (p :: ps) ↔
      (∀ q, ps.head? = some q → ¬ (p.node.isRecord = true ∧ q.node.isRecord = true)) ∧
        Grouped ps := by
  cases ps with
  | nil => exact ⟨fun _ => ⟨fun q hq => (nomatch hq), .nil⟩, fun _ => .singleton p⟩
  | cons q ps =>
    constructor
    · intro h
      cases h with
      | cons_cons hpq more => exact ⟨fun _ hr => Option.some.inj hr ▸ hpq, more⟩
    · exact fun h => .cons_cons (h.1 q rfl) h.2

theorem Node.exists_of_isRecord {n : Node} (h : n.isRecord = true) : ∃ ns, n = .record ns := by
  cases n with
  | record ns => exact ⟨ns, rfl⟩
  | _ => cases h

theorem exists_grouped {i : Nat} {ps : List Phrase} (h : Reading i ps) :
    ∃ qs, Reading i qs ∧ Grouped qs ∧ Phrase.tokensOf qs = Phrase.tokensOf ps := by
  induction h with
  | nil => exact ⟨[], .nil, .nil, rfl⟩
  | @cons i p ps first more ih =>
    obtain ⟨qs, hqs, hgroup, htokens⟩ := ih
    by_cases hmerge : ∃ q rest, qs = q :: rest ∧ p.node.isRecord = true ∧ q.node.isRecord = true
    · -- two record types in a row are read as one
      obtain ⟨⟨us, m⟩, rest, rfl, hp, hq⟩ := hmerge
      obtain ⟨ts, n⟩ := p
      obtain ⟨ns, rfl⟩ := Node.exists_of_isRecord hp
      obtain ⟨ms, rfl⟩ := Node.exists_of_isRecord hq
      obtain ⟨hts, hns⟩ := first.types
      cases hqs with
      | cons first' more' =>
        refine ⟨⟨ts ++ us, .record (ns ++ ms)⟩ :: rest, .cons ?_ ?_, ?_, ?_⟩
        · exact .record (fun e => hts (List.append_eq_nil_iff.mp e).1) (hns.append first'.types.2)
        · rw [List.length_append, ← Nat.add_assoc]
          exact more'
        · obtain ⟨hrest, hgroup'⟩ := grouped_cons_iff.mp hgroup
          exact grouped_cons_iff.mpr ⟨fun r hr hboth => hrest r hr ⟨rfl, hboth.2⟩, hgroup'⟩
        · rw [Phrase.tokensOf_cons, Phrase.tokensOf_cons, ← htokens, Phrase.tokensOf_cons,
            List.append_assoc]
    · refine ⟨p :: qs, .cons first hqs, grouped_cons_iff.mpr ⟨fun q hq hboth => ?_, hgroup⟩, ?_⟩
      · obtain ⟨rest, rfl⟩ := List.head?_eq_some_iff.mp hq
        exact hmerge ⟨q, rest, rfl, hboth⟩
      · rw [Phrase.tokensOf_cons, Phrase.tokensOf_cons, htokens]

end TableAssembler

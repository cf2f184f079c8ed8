import TableAssembler.Proofs.Node.Folding
import TableAssembler.Proofs.Object.Composition

/-!
# What cells hold

Whatever is done with an assembler, its cells hold numbers that fit in a word, atoms, and expressions
that wait for an atom.  All else that a statement says is worked out before it is packed.

* `Node.IsDatum`              the nodes that cells hold;
* `Expression.name_of_isName`, `Expression.isDatum_fold`   names in an expression, and what it folds
  to;
* `Statement.expands_isDatum` the data of a statement;
* `Assembler.yields_cells`, `yields_of_assemble`   the cells of a state, and of an object;
* `carry_isDatum`             all of it for a text.
-/

namespace TableAssembler

/-! ## data -/

/-- The nodes that cells hold.

* `real`       a floating-point number, which is of the kind for these;
* `integer`    an integer that fits in a word and is not negative if it is unsigned;
* `atomRef`    an atom;
* `dynamic`    an expression that is not static, with an atom in it. -/
inductive Node.IsDatum : Node → Prop
  | real (x : Float) (t : Option Nat) : IsDatum (.value (.real x) .float t)
  | integer {v : Int} {kind : ValueKind} (t : Option Nat) (fits : InWord v)
      (discrete : kind ≠ .float) (sign : kind = .uint → 0 ≤ v) :
      IsDatum (.value (.integer v) kind t)
  | atomRef (name : String) (t : Option Nat) : IsDatum (.atomRef name t)
  | dynamic {lhs rhs : Node} {op : Operator} {t : Option Nat}
      (dynamic : (Node.binary lhs op rhs t).isStatic = false)
      (atom : ∃ name u, .atomRef name u ∈ (Node.binary lhs op rhs t).parts) :
      IsDatum (.binary lhs op rhs t)

theorem Literal.bounds {t : Token} {n : Nat} {kind : ValueKind} (h : Literal t n kind) :
    n ≤ 2 ^ 32 - 1 ∧ kind ≠ .float := by
  cases h with
  | int _ _ small => exact ⟨by omega, fun hk => (nomatch hk)⟩
  | hex _ small => exact ⟨small, fun hk => (nomatch hk)⟩
  | bin _ small => exact ⟨small, fun hk => (nomatch hk)⟩

theorem Operand.isDatum {i : Nat} {t : Token} {n : Node} (h : Operand i t n) : n.IsDatum := by
  cases h with
  | atom kind => exact .atomRef _ _
  | literal value =>
    obtain ⟨small, discrete⟩ := value.bounds
    exact .integer _ ⟨by omega, by omega⟩ discrete fun _ => Int.natCast_nonneg _

/-! ## expressions -/

/-- the names in an expression are names of atoms -/
theorem Expression.name_of_isName {i : Nat} {ts : List Token} {n : Node} (h : Expression i ts n) :
    ∀ p ∈ n.parts, p.isName = true → ∃ name u, p = .atomRef name u := by
  have operand : ∀ {j : Nat} {t : Token} {m : Node}, Operand j t m →
      ∀ p ∈ m.parts, p.isName = true → ∃ name u, p = .atomRef name u := by
    intro j t m hm
    cases hm with
    | atom kind => exact List.forall_mem_singleton.mpr fun _ => ⟨_, _, rfl⟩
    | literal value => exact List.forall_mem_singleton.mpr fun hname => (nomatch hname)
  induction h with
  | operand ho => exact operand ho
  | binary left _ _ ih =>
    rw [Node.parts, List.forall_mem_append, List.forall_mem_append, List.forall_mem_singleton]
    exact ⟨⟨operand left, ih⟩, fun hname => (nomatch hname)⟩

/-- an expression that is not static has an atom in it -/
theorem Expression.exists_atomRef {i : Nat} {ts : List Token} {n : Node} (h : Expression i ts n)
    (dynamic : n.isStatic = false) : ∃ name u, .atomRef name u ∈ n.parts := by
  obtain ⟨p, hp, hname⟩ : ∃ p ∈ n.parts, p.isName = true := by
    by_contra hnone
    have hstatic := n.isStatic_iff.mpr fun p hp =>
      Bool.eq_false_iff.mpr fun hname => hnone ⟨p, hp, hname⟩
    rw [dynamic] at hstatic
    cases hstatic
  obtain ⟨name, u, rfl⟩ := h.name_of_isName p hp hname
  exact ⟨name, u, hp⟩

/-- a number that was computed is a datum, of the kind that its expression gives it -/
theorem Node.isDatum_foldedKind {n : Node} (hn : n.isExpression = true) {v : Number}
    (hv : n.evaluate = .ok v) : IsDatum (.value v (n.foldedKind v) n.token) := by
  cases v with
  | real x => exact .real x _
  | integer w =>
    refine .integer _ (inWord_of_evaluate hn hv) ?_ fun hkind => ?_
    · rw [foldedKind]
      split
      · intro hkind
        cases hkind
      · intro hkind
        cases hkind
    · obtain ⟨_, hw, hpos, _⟩ := foldedKind_eq_uint hkind
      cases hw
      exact hpos

/-- **what an expression folds to** is a datum -/
theorem Expression.isDatum_fold {i : Nat} {ts : List Token} {n d : Node} (h : Expression i ts n)
    (hd : n.fold = .ok d) : d.IsDatum := by
  rcases Node.fold_cases hd with ⟨hfoldable, v, hv, rfl⟩ | ⟨hnot, rfl⟩
  · rw [Node.isFoldable_eq, Bool.and_eq_true] at hfoldable
    exact Node.isDatum_foldedKind hfoldable.1 hv
  · cases h with
    | operand ho => exact ho.isDatum
    | binary left operator right =>
      exact .dynamic hnot ((Expression.binary left operator right).exists_atomRef hnot)

/-! ## statements -/

/-- a character is an unsigned number that fits in a word -/
theorem isDatum_character (c : Char) (t : Option Nat) :
    Node.IsDatum (.value (.integer c.toNat) .uint t) := by
  have hsize : c.toNat < 2 ^ 32 := c.val.toNat_lt
  exact .integer t ⟨by omega, by omega⟩ (fun hk => (nomatch hk)) fun _ => Int.natCast_nonneg _

/-- **what a statement packs** is data -/
theorem Statement.expands_isDatum {i : Nat} {ts : List Token} {n : Node} {ds : List Node}
    (h : Statement i ts n) (hds : Expands n ds) : ∀ d ∈ ds, d.IsDatum := by
  cases h with
  | expression tree =>
    cases hds with
    | value => exact List.forall_mem_singleton.mpr (tree.isDatum_fold rfl)
    | atomRef => exact List.forall_mem_singleton.mpr (.atomRef _ _)
    | folded other datum => exact List.forall_mem_singleton.mpr (tree.isDatum_fold datum)
    | repeated count low high datum =>
      -- the left side of an operator is an operand, so the datum that is repeated is one
      intro d hd
      rw [(List.mem_replicate.mp hd).2]
      cases tree with
      | operand ho => cases ho
      | binary left operator right => exact (Expression.operand left).isDatum_fold datum
    | string => cases tree with
      | operand ho => cases ho
  | string kind text =>
    cases hds with
    | string =>
      intro d hd
      obtain ⟨c, _, rfl⟩ := List.mem_map.mp hd
      exact isDatum_character c _
  | _ => cases hds

/-! ## cells -/

/-- the cells of a state hold the data of the statements that did not fail -/
theorem Assembler.yields_cells (atoms : Atoms) (structs : Structs) (actions : List Action) :
    Yields ((⟨⟨atoms, structs, []⟩, none⟩ : Assembler).accepted actions)
      (((⟨⟨atoms, structs, []⟩, none⟩ : Assembler).carry actions).cells.map Cell.node) := by
  obtain ⟨ds, hyields, made, current, hbatched, hheld⟩ :=
    packed_carry ⟨atoms, structs, []⟩ actions
  rw [hbatched.cells, hheld]
  exact hyields

/-- a run that does not fail takes all statements, and ends in the state after them and a close -/
theorem Assembler.carry_of_run {a a' : Assembler} {nodes : List Node}
    (h : a.run nodes = (a', none)) :
    a.accepted (nodes.map .statement ++ [.close]) = nodes ∧
      a.carry (nodes.map .statement ++ [.close]) = a' := by
  induction nodes generalizing a with
  | nil =>
    have hclose : a.act .close = (a', none) := h
    rw [List.map_nil, List.nil_append, accepted, carry, taken_of_none hclose, hclose]
    exact ⟨rfl, rfl⟩
  | cons n nodes ih =>
    obtain ⟨b, hfirst, hmore⟩ := run_cons_eq_iff.mp h
    have hact : a.act (.statement n) = (b, none) := hfirst
    obtain ⟨haccepted, hcarry⟩ := ih hmore
    rw [List.map_cons, List.cons_append, accepted, carry, taken_of_none hact, hact, haccepted]
    exact ⟨rfl, hcarry⟩

/-- the cells of an object hold the data of its statements -/
theorem yields_of_assemble {structs : Structs} {nodes : List Node} {o : Object}
    (h : assemble structs nodes = .ok o) :
    Yields nodes ((o.tables.flatMap Table.cells).map Cell.node) := by
  obtain ⟨a, hrun, rfl⟩ := assemble_eq_ok_iff_run.mp h
  obtain ⟨haccepted, hcarry⟩ := Assembler.carry_of_run hrun
  have hyields := Assembler.yields_cells .empty structs (nodes.map .statement ++ [.close])
  rw [show (⟨⟨.empty, structs, []⟩, none⟩ : Assembler) = .start structs from rfl, haccepted, hcarry,
    Assembler.cells, Assembler.builder_of_run hrun, Option.toList_none, List.flatMap_nil,
    List.append_nil] at hyields
  exact hyields

/-- **Cells hold data in normal form.**  An assembler that is given statements of a text, in any order
and past any failures, has in its cells only numbers that fit in a word, atoms, and expressions that
wait for an atom.  A number of the unsigned kind is not negative, and one of the floating-point kind is
a floating-point number; there is no static expression, no string, no macro and no type.  The same goes
for what each statement packs and for the cells of an object that the text makes. -/
theorem carry_isDatum (text : String) (structs : Structs) :
    (∀ actions : List Action,
      (∀ n, .statement n ∈ actions → n ∈ Step.nodesOf (Cursor.start (tokenize text)).steps) →
      ∀ c ∈ ((Assembler.start structs).carry actions).cells, c.node.IsDatum) ∧
    (∀ n ∈ Step.nodesOf (Cursor.start (tokenize text)).steps, ∀ ds, Expands n ds →
      ∀ d ∈ ds, d.IsDatum) ∧
    ∀ nodes o, parse (tokenize text) = .ok nodes → assemble structs nodes = .ok o →
      ∀ t ∈ o.tables, ∀ c ∈ t.cells, c.node.IsDatum := by
  have hread : ∀ n ∈ Step.nodesOf (Cursor.start (tokenize text)).steps, ∀ ds, Expands n ds →
      ∀ d ∈ ds, d.IsDatum := by
    intro n hn ds hds
    obtain ⟨i, ts, hstatement, _⟩ := located_of_mem_nodesOf hn
    exact hstatement.expands_isDatum hds
  refine ⟨fun actions hactions c hc => ?_, hread, fun nodes o hparse hmade t ht c hc => ?_⟩
  · have hyields := Assembler.yields_cells .empty structs actions
    exact hyields.forall_mem
      (fun n hn => hread n (hactions n (Assembler.mem_accepted hn))) _ (List.mem_map_of_mem hc)
  · refine (yields_of_assemble hmade).forall_mem (fun n hn ds hds => ?_) _
      (List.mem_map_of_mem (List.mem_flatMap_of_mem ht hc))
    obtain ⟨i, ts, hstatement, _⟩ := located_of_parse hparse n hn
    exact hstatement.expands_isDatum hds

/-- the statements of `byte A 2 + 3 "z" A + 1` -/
def mixedData : List Node :=
  [.record [.primitive "byte" 8 (some 0)], .atomRef "A" (some 1),
    .binary (.value (.integer 2) .int (some 2)) .add (.value (.integer 3) .int (some 4)) (some 3),
    .string "z" (some 5),
    .binary (.atomRef "A" (some 6)) .add (.value (.integer 1) .int (some 8)) (some 7)]

/-- an atom, a sum that is worked out, a character, and a sum that waits for an atom -/
theorem carry_isDatum_mixed :
    parse (tokenize "byte A 2 + 3 \"z\" A + 1") = .ok mixedData ∧
      ∃ o, assemble .empty mixedData = .ok o ∧
        (o.tables.flatMap Table.cells).map (fun c => c.node.className)
          = ["AtomRef", "Value", "Value", "Expr"] ∧
        ∀ t ∈ o.tables, ∀ c ∈ t.cells, c.node.IsDatum := by
  have htokens : tokenize "byte A 2 + 3 \"z\" A + 1" =
      [⟨.primitive .byte, "byte", 0, 4, 1, 0⟩, ⟨.atom, "A", 5, 6, 1, 5⟩, ⟨.int, "2", 7, 8, 1, 7⟩,
        ⟨.operator .add, "+", 9, 10, 1, 9⟩, ⟨.int, "3", 11, 12, 1, 11⟩,
        ⟨.string, "\"z\"", 13, 16, 1, 13⟩, ⟨.atom, "A", 17, 18, 1, 17⟩,
        ⟨.operator .add, "+", 19, 20, 1, 19⟩, ⟨.int, "1", 21, 22, 1, 21⟩] := by
    decide +kernel
  have hread : parse (tokenize "byte A 2 + 3 \"z\" A + 1") = .ok mixedData := by
    rw [htokens]
    refine parse_eq_cons rfl (parse_eq_cons rfl (parse_eq_cons rfl ?_))
    exact parse_eq_cons rfl (parse_eq_cons rfl (Cursor.parse_of_none rfl))
  exact ⟨hread, _, rfl, rfl, (carry_isDatum _ .empty).2.2 mixedData _ hread rfl⟩

end TableAssembler

import TableAssembler.Proofs.Object.Conservation
import TableAssembler.Proofs.Statement.Survey

/-!
# The guilty word

Whatever goes wrong with a source, there is a word in it to point at.  A statement that fails is to
blame on one of its own words, unless the table that a record type closes ends within a row: then
the last datum of that table is to blame, which some statement before it has packed.

* `Among`                a word from an index up to another;
* `Fault.Blames`         a fault of some words that is not about a row;
* `Expression.evaluate_fails`, `Statement.expand_fails`, `TypeNames.extend_fails`,
  `Assembler.packAll_guilt`       the parts of a statement;
* `Assembler.filling`, `Assembler.close_guilt`   the last datum of a table;
* `Statement.guilt`      a statement that fails;
* `Located`, `Yields.among`   the data of statements that were read;
* `run_fails`, `assemble_guilt`   all statements;
* `guilty_word`          all of it for a text.
-/

namespace TableAssembler

/-! ## words to blame -/

/-- a token that is there, from an index up to another -/
def Among (i j : Nat) (token : Option Nat) : Prop := ∃ k, token = some k ∧ i ≤ k ∧ k < j

theorem Among.mono {i j i' j' : Nat} {token : Option Nat} (h : Among i j token) (hi : i' ≤ i)
    (hj : j ≤ j') : Among i' j' token := by
  obtain ⟨k, htoken, hik, hkj⟩ := h
  exact ⟨k, htoken, hi.trans hik, Nat.lt_of_lt_of_le hkj hj⟩

theorem among_single (i : Nat) : Among i (i + 1) (some i) :=
  ⟨i, rfl, Nat.le_refl i, Nat.lt_succ_self i⟩

/-- a fault that is not about a row, and its word from an index up to another -/
structure Fault.Blames (f : Fault) (i j : Nat) : Prop where
  word : Among i j f.token
  other : f.kind ≠ .unsatisfied

theorem Fault.Blames.mono {f : Fault} {i j i' j' : Nat} (h : f.Blames i j) (hi : i' ≤ i)
    (hj : j ≤ j') : f.Blames i' j' := ⟨h.word.mono hi hj, h.other⟩

/-! ## expressions -/

theorem token_ofArithmetic (t : Option Nat) (e : ArithmeticError) :
    (Fault.ofArithmetic t e).token = t := by
  cases e <;> rfl

theorem kind_ofArithmetic (t : Option Nat) (e : ArithmeticError) :
    (Fault.ofArithmetic t e).kind ≠ .unsatisfied := by
  cases e <;> simp [Fault.ofArithmetic, Fault.unimplemented]

theorem Operand.among {i : Nat} {t : Token} {n : Node} (h : Operand i t n) :
    Among i (i + 1) n.token := by
  cases h with
  | atom kind => exact among_single i
  | literal value => exact among_single i

theorem Expression.among {i : Nat} {ts : List Token} {n : Node} (h : Expression i ts n) :
    Among i (i + ts.length) n.token := by
  cases h with
  | operand operand => exact operand.among
  | @binary _ t o ts op lhs rhs left operator right =>
    refine ⟨i + 1, rfl, Nat.le_succ i, ?_⟩
    rw [List.length_cons, List.length_cons]
    omega

theorem Expression.isData {i : Nat} {ts : List Token} {n : Node} (h : Expression i ts n) :
    n.isData = true := by
  cases h with
  | operand operand => cases operand <;> rfl
  | binary left operator right => rfl

theorem Operand.evaluate_fails {i : Nat} {t : Token} {n : Node} (h : Operand i t n) {f : Fault}
    (hf : n.evaluate = .error f) : f.Blames i (i + 1) := by
  cases h with
  | atom kind =>
    cases hf
    exact ⟨among_single i, fun hk => (nomatch hk)⟩
  | literal value => cases hf

/-- an expression that has no value is to blame on an operand or an operator in it -/
theorem Expression.evaluate_fails {i : Nat} {ts : List Token} {n : Node} (h : Expression i ts n)
    {f : Fault} (hf : n.evaluate = .error f) : f.Blames i (i + ts.length) := by
  induction h with
  | operand operand => exact operand.evaluate_fails hf
  | @binary i t o ts op lhs rhs left operator right ih =>
    have hlength : (t :: o :: ts).length = ts.length + 2 := rfl
    rw [Node.evaluate] at hf
    rcases bind_eq_error_iff.mp hf with hl | ⟨a, _, hf⟩
    · exact (left.evaluate_fails hl).mono (Nat.le_refl i) (by omega)
    · rcases bind_eq_error_iff.mp hf with hr | ⟨b, _, hf⟩
      · exact (ih hr).mono (Nat.le_add_right i 2) (by omega)
      · cases happly : Number.apply op a b with
        | ok v => rw [happly] at hf; cases hf
        | error e =>
          rw [happly] at hf
          cases hf
          refine ⟨⟨i + 1, token_ofArithmetic _ e, Nat.le_succ i, ?_⟩, kind_ofArithmetic _ e⟩
          omega

theorem Node.fold_fails {n : Node} {f : Fault} (h : n.fold = .error f) :
    n.evaluate = .error f := by
  unfold fold at h
  split at h
  · rcases bind_eq_error_iff.mp h with he | ⟨v, _, hv⟩
    · exact he
    · cases hv
  · cases h

/-- what a node folds to has its token -/
theorem Node.token_fold {n d : Node} (h : n.fold = .ok d) : d.token = n.token := by
  unfold fold at h
  split at h
  · obtain ⟨v, _, hv⟩ := bind_eq_ok_iff.mp h
    cases hv
    rfl
  · cases h
    rfl

/-! ## the parts of a statement -/

theorem repeatCount_fails {count : Number} {t : Option Nat} {f : Fault}
    (h : repeatCount count t = .error f) : f.token = t ∧ f.kind = .arithmetic := by
  unfold repeatCount at h
  cases count with
  | real x => cases h; exact ⟨rfl, rfl⟩
  | integer c =>
    dsimp only at h
    split at h
    · cases h; exact ⟨rfl, rfl⟩
    · split at h
      · cases h; exact ⟨rfl, rfl⟩
      · cases h

theorem Expression.expand_fails {i : Nat} {ts : List Token} {n : Node} (h : Expression i ts n)
    {f : Fault} (hf : n.expand = .error f) : f.Blames i (i + ts.length) := by
  cases h with
  | operand operand =>
    cases operand with
    | atom kind => cases hf
    | literal value => cases hf
  | @binary _ t o ts op lhs rhs left operator right =>
    have hlength : (t :: o :: ts).length = ts.length + 2 := rfl
    by_cases hop : op = .replicate
    · rw [hop, expand_replicate] at hf
      rcases bind_eq_error_iff.mp hf with hcount | ⟨count, _, hf⟩
      · exact (right.evaluate_fails hcount).mono (Nat.le_add_right i 2) (by omega)
      · rcases bind_eq_error_iff.mp hf with hk | ⟨k, _, hf⟩
        · obtain ⟨htoken, hkind⟩ := repeatCount_fails hk
          refine ⟨⟨i + 1, htoken, Nat.le_succ i, by omega⟩, ?_⟩
          rw [hkind]
          exact fun hk => (nomatch hk)
        · rcases bind_eq_error_iff.mp hf with hl | ⟨d, _, hf⟩
          · exact (left.evaluate_fails (Node.fold_fails hl)).mono (Nat.le_refl i) (by omega)
          · cases hf
    · rw [expand_binary hop] at hf
      rcases bind_eq_error_iff.mp hf with hn | ⟨d, _, hf⟩
      · exact (Expression.binary left operator right).evaluate_fails (Node.fold_fails hn)
      · cases hf

/-- a statement whose data cannot be had is to blame on one of its words -/
theorem Statement.expand_fails {i : Nat} {ts : List Token} {n : Node} (h : Statement i ts n)
    (hn : n.isData = true) {f : Fault} (hf : n.expand = .error f) : f.Blames i (i + ts.length) := by
  cases h with
  | expression tree => exact tree.expand_fails hf
  | string kind text => cases hf
  | _ => cases hn

/-- each datum of a statement has one of its words -/
theorem Statement.expands_among {i : Nat} {ts : List Token} {n : Node} {ds : List Node}
    (h : Statement i ts n) (hds : Expands n ds) : ∀ d ∈ ds, Among i (i + ts.length) d.token := by
  intro d hd
  cases h with
  | expression tree =>
    cases hds with
    | value => rw [List.mem_singleton.mp hd]; exact tree.among
    | atomRef => rw [List.mem_singleton.mp hd]; exact tree.among
    | folded other datum =>
      rw [List.mem_singleton.mp hd, Node.token_fold datum]
      exact tree.among
    | @repeated lhs rhs m t c count low high datum =>
      rw [(List.mem_replicate.mp hd).2, Node.token_fold datum]
      cases tree with
      | operand operand => cases operand
      | binary left operator right =>
        refine left.among.mono (Nat.le_refl i) ?_
        rw [List.length_cons]
        omega
    | string => cases tree with
      | operand operand => cases operand
  | @string t inside kind text =>
    cases hds with
    | string =>
      obtain ⟨c, _, rfl⟩ := List.mem_map.mp hd
      exact among_single i
  | _ => cases hds

/-- types that stand for no record type are to blame on one of them -/
theorem TypeNames.extend_fails {i : Nat} {ts : List Token} {ns : List Node}
    (h : TypeNames i ts ns) {structs : Structs} {s : Struct} {e : Failure}
    (he : s.extend structs ns = .error e) :
    ∃ f : Fault, e = .fault f ∧ f.Blames i (i + ts.length) := by
  induction h generalizing s with
  | nil => cases he
  | @cons i t ts n ns first more ih =>
    have hlength : (t :: ts).length = ts.length + 1 := rfl
    rw [Struct.extend] at he
    cases hfield : Field.resolve structs n with
    | ok field =>
      rw [hfield] at he
      obtain ⟨f, hf, hblames⟩ := ih he
      exact ⟨f, hf, hblames.mono (Nat.le_succ i) (by omega)⟩
    | error e' =>
      rw [hfield] at he
      cases he
      cases first with
      | primitive kind => cases hfield
      | struct kind =>
        rw [Field.resolve_structName] at hfield
        cases hfind : structs.find? t.text with
        | some d => rw [hfind] at hfield; cases hfield
        | none =>
          rw [hfind] at hfield
          cases hfield
          refine ⟨_, rfl, (among_single i).mono (Nat.le_refl i) (by omega), ?_⟩
          intro hk
          cases hk

namespace Assembler

theorem pack_guilt {a a' : Assembler} {n : Node} {e : Failure} (h : a.pack n = (a', some e)) :
    ∃ f : Fault, e = .fault f ∧ f.token = n.token ∧ f.kind ≠ .unsatisfied := by
  obtain ⟨object, _ | b⟩ := a
  · cases h
    exact ⟨_, rfl, rfl, fun hk => (nomatch hk)⟩
  · unfold pack TableBuilder.add RowBuilder.add at h
    dsimp only at h
    cases htodo : b.current.todo with
    | nil =>
      rw [htodo] at h
      cases h
      exact ⟨_, rfl, rfl, fun hk => (nomatch hk)⟩
    | cons field todo =>
      rw [htodo] at h
      dsimp only at h
      by_cases hempty : todo.isEmpty = true
      · rw [if_pos hempty] at h
        cases h
      · rw [if_neg hempty] at h
        cases h

/-- data that cannot be packed are to blame on one of them -/
theorem packAll_guilt {a a' : Assembler} {ds : List Node} {e : Failure}
    (h : a.packAll ds = (a', some e)) :
    ∃ f : Fault, e = .fault f ∧ f.kind ≠ .unsatisfied ∧ ∃ d ∈ ds, f.token = d.token := by
  induction ds generalizing a with
  | nil => cases h
  | cons d ds ih =>
    rw [packAll] at h
    cases hfirst : a.pack d with
    | mk b out =>
      rw [hfirst] at h
      cases out with
      | none =>
        obtain ⟨f, hf, hkind, m, hm, htoken⟩ := ih h
        exact ⟨f, hf, hkind, m, List.mem_cons_of_mem d hm, htoken⟩
      | some e' =>
        cases h
        obtain ⟨f, hf, htoken, hkind⟩ := pack_guilt hfirst
        exact ⟨f, hf, hkind, d, List.mem_cons_self, htoken⟩

theorem defineAtom_guilt {a a' : Assembler} {atom : Atom} {e : Failure}
    (h : a.defineAtom atom = (a', some e)) : e = .fault ⟨.duplicate, atom.token, none⟩ := by
  rw [defineAtom] at h
  by_cases hname : atom.name ∈ a.object.atoms.names
  · rw [Atoms.define_of_mem hname] at h
    cases h
    rfl
  · rw [Atoms.define_of_notMem hname] at h
    cases h

/-! ## the last datum of a table -/

/-- the data of the table that is being filled, in order -/
def filling (a : Assembler) : List Node :=
  (a.builder.toList.flatMap TableBuilder.cells).map Cell.node

theorem Holds.filling {a : Assembler} {current : Option Batch} (h : a.Holds current) :
    a.filling = current.toList.flatMap Batch.data := by
  unfold Assembler.filling
  rw [h.builder]
  cases current with
  | none => rfl
  | some b =>
    show ([b.builder].flatMap TableBuilder.cells).map Cell.node = [b].flatMap Batch.data
    rw [List.flatMap_singleton, List.flatMap_singleton]
    exact Batch.cells_builder (h.empty b rfl)

/-- a table that cannot be closed is to blame on its last datum -/
theorem close_guilt {a a' : Assembler} {current : Option Batch} (h : a.Holds current) {e : Failure}
    (hclose : a.close = (a', some e)) :
    ∃ d, a.filling.getLast? = some d ∧ e = .fault ⟨.unsatisfied, d.token, none⟩ := by
  rw [h.filling]
  rcases close_cases h with ⟨ts, _, hclosed⟩ | ⟨b, d, rfl, _, hlast, hfails⟩
  · cases hclosed.symm.trans hclose
  · cases hfails.symm.trans hclose
    refine ⟨d, ?_, rfl⟩
    show ([b].flatMap Batch.data).getLast? = some d
    rw [List.flatMap_singleton, hlast]

end Assembler

/-! ## statements -/

theorem Statement.data_guilt {i : Nat} {ts : List Token} {n : Node} (h : Statement i ts n)
    (hn : n.isData = true) {a a' : Assembler} {e : Failure}
    (he : a.statement n = (a', some e)) :
    ∃ f : Fault, e = .fault f ∧ f.Blames i (i + ts.length) := by
  rw [Assembler.statement_of_isData hn, Assembler.data] at he
  cases hexpand : n.expand with
  | error f =>
    rw [hexpand] at he
    cases he
    exact ⟨f, rfl, h.expand_fails hn hexpand⟩
  | ok ds =>
    rw [hexpand] at he
    obtain ⟨f, hf, hkind, d, hd, htoken⟩ := Assembler.packAll_guilt he
    refine ⟨f, hf, ?_, hkind⟩
    rw [htoken]
    exact h.expands_among ((expand_eq_ok_iff hn).mp hexpand) d hd

/-- **a statement that fails is to blame on one of its words**, or it is a record type and the table
before it cannot be closed -/
theorem Statement.guilt {i : Nat} {ts : List Token} {n : Node} (h : Statement i ts n)
    {a a' : Assembler} {e : Failure} (he : a.statement n = (a', some e)) :
    (∃ f : Fault, e = .fault f ∧ f.Blames i (i + ts.length)) ∨
      n.isRecord = true ∧ a.close = (a', some e) := by
  cases hn : n.isData with
  | true => exact .inl (h.data_guilt hn he)
  | false =>
    cases h with
    | @atomDef t name keyword kind =>
      refine .inl ⟨_, Assembler.defineAtom_guilt he, ?_, fun hk => (nomatch hk)⟩
      exact (among_single (i + 1)).mono (Nat.le_succ i) (Nat.le_refl _)
    | record filled types =>
      rcases Assembler.record_fails he with hclose | ⟨_, hresolve⟩
      · exact .inr ⟨rfl, hclose⟩
      · exact .inl (types.extend_fails hresolve)
    | macroUse name =>
      cases he
      exact .inl ⟨_, rfl, among_single i, fun hk => (nomatch hk)⟩
    | string kind text => cases hn
    | expression tree =>
      rw [tree.isData] at hn
      cases hn

/-- a statement that was read off some of the first words -/
def Located (count : Nat) (n : Node) : Prop :=
  ∃ i ts, Statement i ts n ∧ i + ts.length ≤ count

/-- the data of statements that were read have words of them -/
theorem Yields.among {count : Nat} {ns ds : List Node} (h : Yields ns ds)
    (hread : ∀ n ∈ ns, Located count n) : ∀ d ∈ ds, Among 0 count d.token := by
  refine h.forall_mem fun n hn es hes d hd => ?_
  obtain ⟨i, ts, hstatement, hcount⟩ := hread n hn
  exact (hstatement.expands_among hes d hd).mono (Nat.zero_le i) hcount

namespace Assembler

theorem mem_accepted {a : Assembler} {actions : List Action} {n : Node}
    (h : n ∈ a.accepted actions) : Action.statement n ∈ actions := by
  induction actions generalizing a with
  | nil => cases h
  | cons x xs ih =>
    rcases List.mem_append.mp h with hfirst | hmore
    · refine List.mem_cons.mpr (.inl ?_)
      unfold taken at hfirst
      split at hfirst
      · cases x with
        | statement m => rw [List.mem_singleton.mp hfirst]
        | close => cases hfirst
      · cases hfirst
    · exact List.mem_cons_of_mem x (ih hmore)

/-- the data of the table that is being filled have words of the statements before -/
theorem filling_among {count : Nat} {object : Object} {actions : List Action}
    (hread : ∀ n, .statement n ∈ actions → Located count n) :
    ∀ d ∈ ((⟨object, none⟩ : Assembler).carry actions).filling, Among 0 count d.token := by
  obtain ⟨ds, hyields, made, current, hbatched, hheld⟩ := packed_carry object actions
  intro d hd
  refine hyields.among (fun n hn => hread n (mem_accepted hn)) d ?_
  rw [hbatched.holds.filling] at hd
  rw [← hheld, held, List.flatMap_append]
  exact List.mem_append_right _ hd

/-- a table that cannot be closed is to blame on a word of a statement before, that of its last
datum -/
theorem carry_close_guilt {count : Nat} {object : Object} {actions : List Action}
    (hread : ∀ n, .statement n ∈ actions → Located count n) {a a' : Assembler}
    (ha : a = (⟨object, none⟩ : Assembler).carry actions) {e : Failure}
    (h : a.close = (a', some e)) :
    ∃ d k, a.filling.getLast? = some d ∧ d.token = some k ∧ k < count ∧
      e = .fault ⟨.unsatisfied, some k, none⟩ := by
  obtain ⟨current, hholds⟩ := holds_carry object actions
  rw [← ha] at hholds
  obtain ⟨d, hd, he⟩ := close_guilt hholds h
  have hmem : ∀ d ∈ a.filling, Among 0 count d.token := ha ▸ filling_among hread
  obtain ⟨k, htoken, _, hk⟩ := hmem d (List.mem_of_getLast? hd)
  exact ⟨d, k, hd, htoken, hk, by rw [he, htoken]⟩

/-! ## all statements -/

/-- a run fails with one of its statements, or with its close -/
theorem run_fails {a a' : Assembler} {nodes : List Node} {e : Failure}
    (h : a.run nodes = (a', some e)) :
    (∃ before n after, nodes = before ++ n :: after ∧
        (a.carry (before.map .statement)).statement n = (a', some e)) ∨
      (a.carry (nodes.map .statement)).close = (a', some e) := by
  induction nodes generalizing a with
  | nil => exact .inr h
  | cons m nodes ih =>
    rw [run] at h
    cases hfirst : a.statement m with
    | mk b out =>
      rw [hfirst] at h
      cases out with
      | some e' =>
        cases h
        exact .inl ⟨[], m, nodes, rfl, hfirst⟩
      | none =>
        have hcarry : ∀ ns : List Node, a.carry ((m :: ns).map .statement)
            = b.carry (ns.map .statement) := by
          intro ns
          show (a.statement m).1.carry _ = _
          rw [hfirst]
        rcases ih h with ⟨before, n, after, rfl, hn⟩ | hclose
        · exact .inl ⟨m :: before, n, after, rfl, by rw [hcarry]; exact hn⟩
        · exact .inr (by rw [hcarry]; exact hclose)

end Assembler

/-- an object is made by a run that does not fail -/
theorem assemble_eq_ok_iff_run {structs : Structs} {nodes : List Node} {o : Object} :
    assemble structs nodes = .ok o
      ↔ ∃ a, (Assembler.start structs).run nodes = (a, none) ∧ a.object = o := by
  unfold assemble
  obtain ⟨a, _ | e⟩ := (Assembler.start structs).run nodes
  · simp
  · simp

theorem assemble_eq_error_iff_run {structs : Structs} {nodes : List Node} {e : Failure} :
    assemble structs nodes = .error e
      ↔ ∃ a, (Assembler.start structs).run nodes = (a, some e) := by
  unfold assemble
  obtain ⟨a, _ | e'⟩ := (Assembler.start structs).run nodes
  · simp
  · simp

/-- statements that were read and make no object are to blame on one of their words -/
theorem assemble_guilt {count : Nat} {structs : Structs} {nodes : List Node}
    (hread : ∀ n ∈ nodes, Located count n) {e : Failure} (h : assemble structs nodes = .error e) :
    ∃ f : Fault, e = .fault f ∧ Among 0 count f.token := by
  have hactions : ∀ before : List Node, (∀ n ∈ before, n ∈ nodes) →
      ∀ n, Action.statement n ∈ before.map Action.statement → Located count n := by
    intro before hbefore n hn
    obtain ⟨m, hm, heq⟩ := List.mem_map.mp hn
    cases heq
    exact hread n (hbefore n hm)
  obtain ⟨a', hrun⟩ := assemble_eq_error_iff_run.mp h
  rcases Assembler.run_fails hrun with ⟨before, n, after, rfl, hn⟩ | hclose
  · obtain ⟨i, ts, hstatement, hcount⟩ := hread n (by simp)
    rcases hstatement.guilt hn with ⟨f, hf, hblames⟩ | ⟨_, hclose⟩
    · exact ⟨f, hf, hblames.word.mono (Nat.zero_le i) hcount⟩
    · obtain ⟨d, k, _, _, hk, he⟩ := Assembler.carry_close_guilt
        (hactions before fun m hm => List.mem_append_left _ hm) rfl hclose
      exact ⟨_, he, k, rfl, Nat.zero_le k, hk⟩
  · obtain ⟨d, k, _, _, hk, he⟩ := Assembler.carry_close_guilt
      (hactions nodes fun m hm => hm) rfl hclose
    exact ⟨_, he, k, rfl, Nat.zero_le k, hk⟩

/-! ## the words of a text -/

section
variable {text : String}

/-- each step that fails blames a word of the text -/
theorem among_of_mem_faultsOf {f : Fault}
    (h : f ∈ Step.faultsOf (Cursor.start (tokenize text)).steps) :
    Among 0 (tokenize text).length f.token := by
  obtain ⟨after, hstep⟩ := Step.mem_faultsOf.mp h
  obtain ⟨i, hi, hnext⟩ := exists_next?_of_mem_steps hstep
  obtain ⟨us, _, htokens, hindex⟩ := next?_consumes hnext
  obtain ⟨k, htoken, _, hk⟩ := (next?_eq_error_iff.mp hnext).blame
  have hlength := congrArg List.length htokens
  rw [List.length_append] at hlength
  simp only [Cursor.start, Nat.zero_add, List.length_drop] at hi hlength hindex
  refine ⟨k, htoken, Nat.zero_le k, ?_⟩
  rcases hk with hlast | ⟨hsame, _, hmore⟩
  · omega
  · have hpos := List.length_pos_iff.mpr hmore
    omega

theorem located_of_mem_nodesOf {n : Node}
    (h : n ∈ Step.nodesOf (Cursor.start (tokenize text)).steps) :
    Located (tokenize text).length n := by
  obtain ⟨before, words, after, htokens, hstatement⟩ := exists_statement_of_mem_nodesOf h
  refine ⟨before.length, words, hstatement, ?_⟩
  rw [htokens, List.length_append, List.length_append]
  omega

theorem among_of_parse {f : Fault} (h : parse (tokenize text) = .error f) :
    Among 0 (tokenize text).length f.token := by
  rw [parse, Cursor.parse_eq, strictly_eq_error] at h
  exact among_of_mem_faultsOf (List.mem_of_head? h)

theorem located_of_parse {nodes : List Node} (h : parse (tokenize text) = .ok nodes) :
    ∀ n ∈ nodes, Located (tokenize text).length n := by
  rw [parse, Cursor.parse_eq, strictly_eq_ok] at h
  rw [h.2]
  exact fun n hn => located_of_mem_nodesOf hn

/-- **The guilty word.**  Whatever is wrong with a text has one of its words to point at, when it is
read and when it is assembled.  An assembler that is given statements of the text, in any order and
past any failures, fails at a statement with one of the words of that statement; only if a table
ends within a row, which shows when a record type or the end closes it, the word is that of the last
datum in it. -/
theorem guilty_word (text : String) :
    (∀ f ∈ Step.faultsOf (Cursor.start (tokenize text)).steps,
      ∃ k, f.token = some k ∧ k < (tokenize text).length) ∧
    (∀ f, parse (tokenize text) = .error f →
      ∃ k, f.token = some k ∧ k < (tokenize text).length) ∧
    (∀ structs nodes e, parse (tokenize text) = .ok nodes → assemble structs nodes = .error e →
      ∃ f k, e = .fault f ∧ f.token = some k ∧ k < (tokenize text).length) ∧
    ∀ (structs : Structs) (actions : List Action) (a a' : Assembler) (e : Failure),
      (∀ n, .statement n ∈ actions → n ∈ Step.nodesOf (Cursor.start (tokenize text)).steps) →
      a = (Assembler.start structs).carry actions →
      (∀ n ∈ Step.nodesOf (Cursor.start (tokenize text)).steps, a.statement n = (a', some e) →
        ∃ f k, e = .fault f ∧ f.token = some k ∧ k < (tokenize text).length ∧
          (f.kind ≠ .unsatisfied ∧
              (∃ l r : Int, n.extent = ⟨some l, some r⟩ ∧ l ≤ k ∧ k ≤ r) ∨
            f.kind = .unsatisfied ∧ n.isRecord = true ∧
              ∃ d, a.filling.getLast? = some d ∧ d.token = some k)) ∧
      (a.close = (a', some e) →
        ∃ f k, e = .fault f ∧ f.token = some k ∧ k < (tokenize text).length ∧
          f.kind = .unsatisfied ∧ ∃ d, a.filling.getLast? = some d ∧ d.token = some k) := by
  refine ⟨fun f hf => ?_, fun f hf => ?_, fun structs nodes e hnodes he => ?_,
    fun structs actions a a' e hactions ha => ⟨fun n hn he => ?_, fun hclose => ?_⟩⟩
  · obtain ⟨k, htoken, _, hk⟩ := among_of_mem_faultsOf hf
    exact ⟨k, htoken, hk⟩
  · obtain ⟨k, htoken, _, hk⟩ := among_of_parse hf
    exact ⟨k, htoken, hk⟩
  · obtain ⟨f, hf, k, htoken, _, hk⟩ := assemble_guilt (located_of_parse hnodes) he
    exact ⟨f, k, hf, htoken, hk⟩
  · obtain ⟨i, ts, hstatement, hcount⟩ := located_of_mem_nodesOf hn
    rcases hstatement.guilt he with ⟨f, hf, ⟨k, htoken, hik, hki⟩, hkind⟩ | ⟨hrecord, hclose⟩
    · refine ⟨f, k, hf, htoken, by omega, .inl ⟨hkind, _, _, hstatement.covers.extent, ?_, ?_⟩⟩
      · omega
      · omega
    · obtain ⟨d, k, hlast, htoken, hk, rfl⟩ := Assembler.carry_close_guilt
        (fun m hm => located_of_mem_nodesOf (hactions m hm)) ha hclose
      exact ⟨_, k, rfl, rfl, hk, .inr ⟨rfl, hrecord, d, hlast, htoken⟩⟩
  · obtain ⟨d, k, hlast, htoken, hk, rfl⟩ := Assembler.carry_close_guilt
      (fun m hm => located_of_mem_nodesOf (hactions m hm)) ha hclose
    exact ⟨_, k, rfl, rfl, hk, rfl, d, hlast, htoken⟩

end

end TableAssembler

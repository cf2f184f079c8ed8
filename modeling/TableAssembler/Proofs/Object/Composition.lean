import TableAssembler.Proofs.Object.Guilt

/-!
# Programs one after another

What a run does hangs neither on the tables that are made already nor on the atoms that are defined,
but for atoms that would be defined twice.  A record type closes the table before it, so that a
program up to a record type and the one from there on are assembled apart.

* `Assembler.Above`          the same state with more tables and atoms before its own;
* `Assembler.OutcomeAbove`   the same outcome in such a state, with one lemma for each operation;
* `Assembler.Above.statement`, `Assembler.Above.run`   a statement and a run in such a state;
* `Assembler.Defines`        what a statement does to atoms and to record types;
* `Assembler.run_append_iff` a run is two runs at a record type;
* `assemble_append`          an object is made of two.
-/

namespace TableAssembler

namespace Assembler
variable {before : Object} {a b a' b' : Assembler}

/-! ## more tables and atoms -/

/-- `b` is the state `a` with the tables and the atoms of an object before its own -/
structure Above (before : Object) (a b : Assembler) : Prop where
  builder : b.builder = a.builder
  structs : b.object.structs = a.object.structs
  tables : b.object.tables = before.tables ++ a.object.tables
  atoms : b.object.atoms.definitions = before.atoms.definitions ++ a.object.atoms.definitions

theorem Above.unique (h : Above before a b) (h' : Above before a b') : b = b' := by
  obtain ⟨⟨atoms, structs, tables⟩, builder⟩ := b
  obtain ⟨⟨atoms', structs', tables'⟩, builder'⟩ := b'
  obtain ⟨rfl, rfl, rfl, hatoms⟩ := h
  obtain ⟨rfl, rfl, rfl, hatoms'⟩ := h'
  rw [show atoms = atoms' from Layer.eq_of_definitions (hatoms.trans hatoms'.symm)]

/-- the same failure, if any, in states of which one is above the other -/
inductive OutcomeAbove (before : Object) :
    Assembler × Option Failure → Assembler × Option Failure → Prop
  | intro {a b : Assembler} (state : Above before a b) (e : Option Failure) :
      OutcomeAbove before (a, e) (b, e)

theorem OutcomeAbove.eq_iff {r s : Assembler × Option Failure} (h : OutcomeAbove before r s) :
    s = (b', none) ↔ ∃ a', r = (a', none) ∧ Above before a' b' := by
  obtain ⟨hstate, e⟩ := h
  constructor
  · intro hs
    cases hs
    exact ⟨_, rfl, hstate⟩
  · rintro ⟨a', hr, habove⟩
    cases hr
    rw [hstate.unique habove]

/-- one operation after another -/
theorem OutcomeAbove.andThen {r s : Assembler × Option Failure}
    {k : Assembler → Assembler × Option Failure}
    (hk : ∀ {a b}, Above before a b → OutcomeAbove before (k a) (k b)) :
    OutcomeAbove before r s → OutcomeAbove before
      (match r with | (a, none) => k a | (a, some e) => (a, some e))
      (match s with | (b, none) => k b | (b, some e) => (b, some e))
  | .intro hstate none => hk hstate
  | .intro hstate (some e) => .intro hstate (some e)

theorem Above.close (h : Above before a b) : OutcomeAbove before a.close b.close := by
  unfold Assembler.close
  rw [h.builder]
  cases a.builder with
  | none => exact .intro h none
  | some builder =>
    dsimp only
    cases builder.finish with
    | error f => exact .intro h (some (.fault f))
    | ok table =>
      have htables : b.object.tables ++ [table] = before.tables ++ (a.object.tables ++ [table]) := by
        rw [h.tables, List.append_assoc]
      refine .intro ?_ none
      exact ⟨rfl, h.structs, htables, h.atoms⟩

theorem Above.pack (h : Above before a b) (n : Node) :
    OutcomeAbove before (a.pack n) (b.pack n) := by
  unfold Assembler.pack
  rw [h.builder]
  cases a.builder with
  | none => exact .intro h _
  | some builder =>
    dsimp only
    rcases builder.add n with ⟨builder', f | added⟩
    · refine .intro ?_ (some (.fault f))
      exact ⟨rfl, h.structs, h.tables, h.atoms⟩
    · refine .intro ?_ none
      exact ⟨rfl, h.structs, h.tables, h.atoms⟩

theorem Above.packAll (h : Above before a b) (ds : List Node) :
    OutcomeAbove before (a.packAll ds) (b.packAll ds) := by
  induction ds generalizing a b with
  | nil => exact .intro h none
  | cons d ds ih =>
    rw [Assembler.packAll, Assembler.packAll]
    exact .andThen ih (h.pack d)

theorem Above.data (h : Above before a b) (n : Node) :
    OutcomeAbove before (a.data n) (b.data n) := by
  unfold Assembler.data
  cases n.expand with
  | error f => exact .intro h (some (.fault f))
  | ok ds => exact h.packAll ds

/-- begin the table of a record type, where none is being filled -/
def begin (a : Assembler) (types : List Node) : Assembler × Option Failure :=
  match Struct.resolve a.object.structs none types with
  | .error e => (a, some e)
  | .ok struct => ({ a with builder := some (.start struct) }, none)

/-- a record type closes a table and begins one -/
theorem record_eq (a : Assembler) (types : List Node) :
    a.record types = match a.close with
      | (m, none) => m.begin types
      | (m, some e) => (m, some e) := by
  unfold record
  obtain ⟨m, _ | e⟩ := a.close <;> rfl

theorem Above.begin (h : Above before a b) (types : List Node) :
    OutcomeAbove before (a.begin types) (b.begin types) := by
  unfold Assembler.begin
  rw [h.structs]
  cases Struct.resolve a.object.structs none types with
  | error e => exact .intro h (some e)
  | ok struct =>
    refine .intro ?_ none
    exact ⟨rfl, h.structs, h.tables, h.atoms⟩

theorem Above.record (h : Above before a b) (types : List Node) :
    OutcomeAbove before (a.record types) (b.record types) := by
  rw [record_eq, record_eq]
  exact .andThen (fun h => h.begin types) h.close

/-- an atom is defined above other atoms just if it is defined and is new to them too -/
theorem Above.defineAtom (h : Above before a b) (name : String) (t : Option Nat) :
    b.statement (.atomDef name t) = (b', none) ↔
      ∃ a', a.statement (.atomDef name t) = (a', none) ∧ Above before a' b' := by
  simp only [defineAtom_eq_iff]
  constructor
  · rintro ⟨atoms, hatoms, rfl⟩
    rw [h.atoms, List.append_assoc] at hatoms
    obtain ⟨own, hown⟩ := exists_layer_of_sublist (l := atoms)
      (hatoms ▸ List.sublist_append_right before.atoms.definitions _)
    refine ⟨_, ⟨own, hown, rfl⟩, h.builder, h.structs, h.tables, ?_⟩
    rw [hatoms, hown]
  · rintro ⟨_, ⟨own, hown, rfl⟩, habove⟩
    have hatoms := habove.atoms
    rw [hown, ← List.append_assoc, ← h.atoms] at hatoms
    refine ⟨b'.object.atoms, hatoms, habove.unique ⟨h.builder, h.structs, h.tables, ?_⟩⟩
    exact habove.atoms

/-- **a statement in a state with more before it** -/
theorem Above.statement (h : Above before a b) (n : Node) :
    b.statement n = (b', none) ↔ ∃ a', a.statement n = (a', none) ∧ Above before a' b' := by
  by_cases hn : n.isData = true
  · rw [statement_of_isData hn, statement_of_isData hn]
    exact (h.data n).eq_iff
  cases n with
  | void => exact (OutcomeAbove.intro h none).eq_iff
  | atomDef name t => exact h.defineAtom name t
  | record types => exact (h.record types).eq_iff
  | macroRef name t => exact (OutcomeAbove.intro h (some (.fault (.unimplemented t)))).eq_iff
  | primitive name width t => exact (OutcomeAbove.intro h (some .unsupported)).eq_iff
  | structName name t => exact (OutcomeAbove.intro h (some .unsupported)).eq_iff
  | list ns => exact (OutcomeAbove.intro h (some .unsupported)).eq_iff
  | _ => exact absurd rfl hn

/-! ## atoms and record types -/

/-- from a state to another some more atoms are defined, and no record type -/
structure Defines (a : Assembler) (ds : List (Definition Atom)) (a' : Assembler) : Prop where
  structs : a'.object.structs = a.object.structs
  atoms : a'.object.atoms.definitions = a.object.atoms.definitions ++ ds

theorem Defines.trans {m : Assembler} {ds es : List (Definition Atom)} (h : Defines a ds m)
    (h' : Defines m es a') : Defines a (ds ++ es) a' where
  structs := h'.structs.trans h.structs
  atoms := by rw [h'.atoms, h.atoms, List.append_assoc]

theorem defines_of_close (h : a.close = (a', none)) : Defines a [] a' := by
  rw [close_succeeds h]
  exact ⟨rfl, (List.append_nil _).symm⟩

theorem object_pack (a : Assembler) (n : Node) : (a.pack n).1.object = a.object := by
  unfold pack
  cases a.builder with
  | none => rfl
  | some builder =>
    dsimp only
    rcases builder.add n with ⟨builder', f | added⟩ <;> rfl

theorem object_packAll (a : Assembler) (ds : List Node) : (a.packAll ds).1.object = a.object := by
  induction ds generalizing a with
  | nil => rfl
  | cons d ds ih =>
    have hpack := object_pack a d
    rw [packAll]
    cases hfirst : a.pack d with
    | mk m e =>
      rw [hfirst] at hpack
      cases e with
      | none => exact (ih m).trans hpack
      | some e => exact hpack

/-- what a statement defines -/
theorem defines_of_statement {n : Node} (h : a.statement n = (a', none)) :
    Defines a n.definition?.toList a' := by
  by_cases hn : n.isData = true
  · rw [statement_of_isData hn, data] at h
    cases hexpand : n.expand with
    | error f => rw [hexpand] at h; cases h
    | ok ds =>
      rw [hexpand] at h
      have hobject := object_packAll a ds
      rw [show a.packAll ds = (a', none) from h] at hobject
      rw [Node.definition?_of_isData hn, Option.toList_none]
      exact ⟨congrArg Object.structs hobject,
        by rw [List.append_nil]; exact congrArg (·.atoms.definitions) hobject⟩
  cases n with
  | void =>
    cases h
    exact ⟨rfl, (List.append_nil _).symm⟩
  | atomDef name t =>
    obtain ⟨atoms, hatoms, rfl⟩ := defineAtom_eq_iff.mp h
    exact ⟨rfl, hatoms⟩
  | record types =>
    rw [statement, record_eq] at h
    obtain ⟨m, hclose, hbegin⟩ := then_eq_iff.mp h
    unfold begin at hbegin
    cases hresolve : Struct.resolve m.object.structs none types with
    | error e => rw [hresolve] at hbegin; cases hbegin
    | ok struct =>
      rw [hresolve] at hbegin
      cases hbegin
      have hdefines := defines_of_close hclose
      exact ⟨hdefines.structs, hdefines.atoms⟩
  | macroRef name t => cases h
  | primitive name width t => cases h
  | structName name t => cases h
  | list ns => cases h
  | _ => exact absurd rfl hn

/-- what a run defines -/
theorem defines_of_run {nodes : List Node} (h : a.run nodes = (a', none)) :
    Defines a (definitions nodes) a' := by
  induction nodes generalizing a with
  | nil => exact defines_of_close h
  | cons n nodes ih =>
    obtain ⟨m, hfirst, hrun⟩ := run_cons_eq_iff.mp h
    have hdefinitions : definitions (n :: nodes) = n.definition?.toList ++ definitions nodes := by
      rw [definitions, List.filterMap_cons]
      cases n.definition? <;> rfl
    rw [hdefinitions]
    exact (defines_of_statement hfirst).trans (ih hrun)

/-! ## runs -/

theorem builder_of_close (h : a.close = (a', none)) : a'.builder = none := by
  rw [close_succeeds h]
  rfl

/-- a run leaves no table to be filled -/
theorem builder_of_run {nodes : List Node} (h : a.run nodes = (a', none)) : a'.builder = none := by
  induction nodes generalizing a with
  | nil => exact builder_of_close h
  | cons n nodes ih =>
    obtain ⟨m, _, hrun⟩ := run_cons_eq_iff.mp h
    exact ih hrun

theorem close_of_builder (h : a.builder = none) : a.close = (a, none) := by
  rw [close, h]

/-- **a run in a state with more before it** -/
theorem Above.run (h : Above before a b) (nodes : List Node) :
    b.run nodes = (b', none) ↔ ∃ a', a.run nodes = (a', none) ∧ Above before a' b' := by
  induction nodes generalizing a b with
  | nil => exact h.close.eq_iff
  | cons n nodes ih =>
    constructor
    · intro hb
      obtain ⟨m', hfirst, hrun⟩ := run_cons_eq_iff.mp hb
      obtain ⟨m, hm, habove⟩ := (h.statement n).mp hfirst
      obtain ⟨a', ha', hlast⟩ := (ih habove).mp hrun
      exact ⟨a', run_cons_eq_iff.mpr ⟨m, hm, ha'⟩, hlast⟩
    · rintro ⟨a', ha, hlast⟩
      obtain ⟨m, hfirst, hrun⟩ := run_cons_eq_iff.mp ha
      -- all atoms together are new in the end, so that the first of them are
      have hatoms := hlast.atoms
      rw [(defines_of_run hrun).atoms, ← List.append_assoc] at hatoms
      obtain ⟨atoms, hnew⟩ := exists_layer_of_sublist (l := b'.object.atoms)
        (hatoms ▸ List.sublist_append_left _ (definitions nodes))
      have habove : Above before m
          ⟨⟨atoms, m.object.structs, before.tables ++ m.object.tables⟩, m.builder⟩ :=
        ⟨rfl, rfl, rfl, hnew⟩
      exact run_cons_eq_iff.mpr ⟨_, (h.statement n).mpr ⟨m, hfirst, habove⟩,
        (ih habove).mpr ⟨a', hrun, hlast⟩⟩

section
variable {p q : List Node} (hq : ∀ n, q.head? = some n → n.isRecord = true)
include hq

/-- a run that begins with a record type, or is at its end, begins with a close -/
theorem exists_close_of_run (h : a.run q = (a', none)) : ∃ m, a.close = (m, none) := by
  cases q with
  | nil => exact ⟨a', h⟩
  | cons n q =>
    obtain ⟨types, rfl⟩ := Node.exists_of_isRecord (hq n rfl)
    obtain ⟨b, hfirst, _⟩ := run_cons_eq_iff.mp h
    rw [statement, record_eq] at hfirst
    obtain ⟨m, hclose, _⟩ := then_eq_iff.mp hfirst
    exact ⟨m, hclose⟩

/-- such a run does not hang on whether the table before it is closed already -/
theorem run_of_close {m : Assembler} (h : a.close = (m, none)) : m.run q = a.run q := by
  have hm : m.close = (m, none) := close_of_builder (builder_of_close h)
  cases q with
  | nil => rw [run, run, h, hm]
  | cons n q =>
    obtain ⟨types, rfl⟩ := Node.exists_of_isRecord (hq n rfl)
    rw [run, run, statement, statement, record_eq, record_eq, h, hm]

/-- **a run is two runs** where it comes to a record type, or to the end -/
theorem run_append_iff :
    a.run (p ++ q) = (a', none) ↔ ∃ m, a.run p = (m, none) ∧ m.run q = (a', none) := by
  induction p generalizing a with
  | nil =>
    constructor
    · intro h
      obtain ⟨m, hclose⟩ := exists_close_of_run hq h
      exact ⟨m, hclose, (run_of_close hq hclose).trans h⟩
    · rintro ⟨m, hclose, h⟩
      exact (run_of_close hq hclose).symm.trans h
  | cons n p ih =>
    simp only [List.cons_append, run_cons_eq_iff, ih]
    constructor
    · rintro ⟨b, hfirst, m, hp, hlast⟩
      exact ⟨m, ⟨b, hfirst, hp⟩, hlast⟩
    · rintro ⟨m, ⟨b, hfirst, hp⟩, hlast⟩
      exact ⟨b, hfirst, m, hp, hlast⟩

end

end Assembler

/-! ## objects -/

section
variable {structs : Structs} {p q : List Node}

theorem definitions_of_assemble {o : Object} (h : assemble structs p = .ok o) :
    o.structs = structs ∧ o.atoms.definitions = definitions p := by
  obtain ⟨a, hrun, rfl⟩ := assemble_eq_ok_iff_run.mp h
  have hdefines := Assembler.defines_of_run hrun
  exact ⟨hdefines.structs, hdefines.atoms⟩

/-- an object with the tables and the atoms of one object and then of another -/
structure Object.Joins (o op oq : Object) : Prop where
  structs : o.structs = op.structs
  tables : o.tables = op.tables ++ oq.tables
  atoms : o.atoms.definitions = op.atoms.definitions ++ oq.atoms.definitions

/-- the object of two programs is made of their objects -/
theorem assemble_append_eq_iff (hq : ∀ n, q.head? = some n → n.isRecord = true) {o : Object} :
    assemble structs (p ++ q) = .ok o ↔ ∃ op oq, assemble structs p = .ok op ∧
      assemble structs q = .ok oq ∧ o.Joins op oq := by
  have hstart : ∀ {m : Assembler}, (Assembler.start structs).run p = (m, none) →
      Assembler.Above m.object (Assembler.start structs) m := fun hp =>
    ⟨Assembler.builder_of_run hp, (Assembler.defines_of_run hp).structs,
      (List.append_nil _).symm, (List.append_nil _).symm⟩
  simp only [assemble_eq_ok_iff_run]
  constructor
  · rintro ⟨a, hrun, rfl⟩
    obtain ⟨m, hp, hlast⟩ := (Assembler.run_append_iff hq).mp hrun
    obtain ⟨b, hb, habove⟩ := ((hstart hp).run q).mp hlast
    refine ⟨m.object, b.object, ⟨m, hp, rfl⟩, ⟨b, hb, rfl⟩, ?_, habove.tables, habove.atoms⟩
    exact (Assembler.defines_of_run hlast).structs
  · rintro ⟨_, _, ⟨m, hp, rfl⟩, ⟨b, hb, rfl⟩, hjoins⟩
    have hstructs : o.structs = b.object.structs := by
      rw [hjoins.structs, (Assembler.defines_of_run hp).structs,
        (Assembler.defines_of_run hb).structs]
    have habove : Assembler.Above m.object b ⟨o, none⟩ :=
      ⟨(Assembler.builder_of_run hb).symm, hstructs, hjoins.tables, hjoins.atoms⟩
    refine ⟨⟨o, none⟩, (Assembler.run_append_iff hq).mpr ⟨m, hp, ?_⟩, rfl⟩
    exact ((hstart hp).run q).mpr ⟨b, hb, habove⟩

/-- **Programs are assembled apart at record types.**  If there is nothing after a program, or it
begins with a record type, then the two together make an object if and only if each makes one by
itself and they have no name of an atom in common.  That object has the tables and the atoms of the
first and then of the second. -/
theorem assemble_append (hq : ∀ n, q.head? = some n → n.isRecord = true) :
    ((∃ o, assemble structs (p ++ q) = .ok o) ↔
      (∃ op, assemble structs p = .ok op) ∧ (∃ oq, assemble structs q = .ok oq) ∧
        List.Disjoint ((definitions p).map Definition.name)
          ((definitions q).map Definition.name)) ∧
    ∀ o op oq, assemble structs (p ++ q) = .ok o → assemble structs p = .ok op →
      assemble structs q = .ok oq →
        o.atoms.definitions = op.atoms.definitions ++ oq.atoms.definitions ∧
          o.tables = op.tables ++ oq.tables ∧ o.structs = structs := by
  refine ⟨⟨?_, ?_⟩, ?_⟩
  · rintro ⟨o, ho⟩
    obtain ⟨op, oq, hp, hoq, hjoins⟩ := (assemble_append_eq_iff hq).mp ho
    refine ⟨⟨op, hp⟩, ⟨oq, hoq⟩, ?_⟩
    have hdistinct := o.atoms.distinct
    rw [hjoins.atoms, (definitions_of_assemble hp).2, (definitions_of_assemble hoq).2,
      List.map_append] at hdistinct
    exact List.disjoint_of_nodup_append hdistinct
  · rintro ⟨⟨op, hp⟩, ⟨oq, hoq⟩, hdisjoint⟩
    have hdistinct : ((op.atoms.definitions ++ oq.atoms.definitions).map Definition.name).Nodup := by
      rw [← (definitions_of_assemble hp).2, ← (definitions_of_assemble hoq).2] at hdisjoint
      rw [List.map_append]
      exact op.atoms.distinct.append oq.atoms.distinct hdisjoint
    exact ⟨⟨⟨_, hdistinct⟩, op.structs, op.tables ++ oq.tables⟩,
      (assemble_append_eq_iff hq).mpr ⟨op, oq, hp, hoq, rfl, rfl, rfl⟩⟩
  · intro o op oq ho hp hoq
    obtain ⟨op', oq', hp', hoq', hjoins⟩ := (assemble_append_eq_iff hq).mp ho
    cases hp.symm.trans hp'
    cases hoq.symm.trans hoq'
    exact ⟨hjoins.atoms, hjoins.tables, (definitions_of_assemble ho).1⟩

/-- a table of one row, with an atom defined before the datum -/
def oneRow (name : String) (n : Int) : List Node :=
  [.record [.primitive "byte" 8 none], .atomDef name none, .value (.integer n) .int none]

/-- two of them -/
theorem assemble_append_oneRows :
    (∀ n, (oneRow "B" 2).head? = some n → n.isRecord = true) ∧
      ∃ o op oq, assemble .empty (oneRow "A" 1 ++ oneRow "B" 2) = .ok o ∧
        assemble .empty (oneRow "A" 1) = .ok op ∧ assemble .empty (oneRow "B" 2) = .ok oq ∧
        o.atoms.definitions = op.atoms.definitions ++ oq.atoms.definitions ∧
        o.tables = op.tables ++ oq.tables ∧ o.structs = .empty := by
  have hq : ∀ n, (oneRow "B" 2).head? = some n → n.isRecord = true := by
    intro n hn
    cases hn
    rfl
  have hp : ∃ op, assemble .empty (oneRow "A" 1) = .ok op := ⟨_, rfl⟩
  have hoq : ∃ oq, assemble .empty (oneRow "B" 2) = .ok oq := ⟨_, rfl⟩
  have hnames : List.Disjoint ["A"] ["B"] := by simp
  obtain ⟨o, ho⟩ : ∃ o, assemble .empty (oneRow "A" 1 ++ oneRow "B" 2) = .ok o :=
    (assemble_append hq).1.mpr ⟨hp, hoq, hnames⟩
  obtain ⟨op, hop⟩ := hp
  obtain ⟨oq, hoq⟩ := hoq
  exact ⟨hq, o, op, oq, ho, hop, hoq, (assemble_append hq).2 o op oq ho hop hoq⟩

end

end TableAssembler

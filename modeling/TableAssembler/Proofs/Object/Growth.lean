import TableAssembler.Proofs.Object.Composition
import TableAssembler.Proofs.Record.Growth

/-!
# More record types

Only a record type looks at the registry, and it looks for names.  So a program that is assembled
with some record types is assembled to the same atoms and tables with more of them, and a program
that fails does so in the same way, unless it fails at a name that was not known.

* `Assembler.knowing`        the same state with another registry;
* `close_knowing`, `pack_knowing`, `packAll_knowing`, `data_knowing`, `defineAtom_knowing`
                             what hangs on no registry;
* `Assembler.SameOutcome`    the same outcome, unless a name was not known;
* `begin_knowing`, `record_knowing`, `statement_knowing`, `run_knowing`   a record type, a statement
                             and a run where more is known;
* `assemble_registerAll`     programs after further definitions of record types.
-/

namespace TableAssembler

namespace Assembler

/-! ## the same state with another registry -/

/-- the same state with another registry -/
def knowing (structs : Structs) (a : Assembler) : Assembler :=
  { a with object := { a.object with structs } }

section
variable (structs : Structs) (a : Assembler)

theorem close_knowing : (a.knowing structs).close = (a.close.1.knowing structs, a.close.2) := by
  obtain ⟨object, _ | b⟩ := a
  · rfl
  · unfold close knowing
    dsimp only
    cases b.finish <;> rfl

theorem pack_knowing (n : Node) :
    (a.knowing structs).pack n = ((a.pack n).1.knowing structs, (a.pack n).2) := by
  obtain ⟨object, _ | b⟩ := a
  · rfl
  · unfold pack knowing
    dsimp only
    rcases b.add n with ⟨b', f | added⟩ <;> rfl

theorem packAll_knowing (ds : List Node) :
    (a.knowing structs).packAll ds = ((a.packAll ds).1.knowing structs, (a.packAll ds).2) := by
  induction ds generalizing a with
  | nil => rfl
  | cons d ds ih =>
    rw [packAll, packAll, pack_knowing]
    cases a.pack d with
    | mk m e =>
      cases e with
      | none => exact ih m
      | some e => rfl

theorem data_knowing (n : Node) :
    (a.knowing structs).data n = ((a.data n).1.knowing structs, (a.data n).2) := by
  unfold data
  cases n.expand with
  | error f => rfl
  | ok ds => exact packAll_knowing structs a ds

theorem defineAtom_knowing (atom : Atom) :
    (a.knowing structs).defineAtom atom
      = ((a.defineAtom atom).1.knowing structs, (a.defineAtom atom).2) := by
  unfold defineAtom knowing
  dsimp only
  rcases a.object.atoms.define atom with ⟨atoms, f | atom⟩ <;> rfl

end

/-! ## where more is known -/

section
variable {structs : Structs} {a : Assembler}

/-- the outcome of a step where more is known: the same, unless a name was not known before -/
def SameOutcome (structs : Structs) (r s : Assembler × Option Failure) : Prop :=
  s = (r.1.knowing structs, r.2) ∨ ∃ e, r.2 = some e ∧ e.isUndefined = true

/-- one step after another -/
theorem SameOutcome.andThen {r s : Assembler × Option Failure}
    {k : Assembler → Assembler × Option Failure} :
    SameOutcome structs r s →
      (∀ m, r = (m, none) → SameOutcome structs (k m) (k (m.knowing structs))) →
      SameOutcome structs
        (match r with | (m, none) => k m | (m, some e) => (m, some e))
        (match s with | (m, none) => k m | (m, some e) => (m, some e)) := by
  intro h hk
  obtain ⟨m, e⟩ := r
  rcases h with rfl | ⟨e, rfl, hundefined⟩
  · cases e with
    | none => exact hk m rfl
    | some e => exact .inl rfl
  · exact .inr ⟨e, rfl, hundefined⟩

theorem begin_knowing (h : a.object.structs.Within structs) (types : List Node) :
    SameOutcome structs (a.begin types) ((a.knowing structs).begin types) := by
  have hknown : (a.knowing structs).object.structs = structs := rfl
  unfold begin
  rw [hknown]
  rcases Struct.resolve_within h none types with hsame | ⟨e, he, hundefined⟩
  · rw [hsame]
    cases Struct.resolve a.object.structs none types <;> exact .inl rfl
  · rw [he]
    exact .inr ⟨e, rfl, hundefined⟩

/-- a record type closes a table, whatever is known, and begins one -/
theorem record_knowing (h : a.object.structs.Within structs) (types : List Node) :
    SameOutcome structs (a.record types) ((a.knowing structs).record types) := by
  rw [record_eq, record_eq]
  refine SameOutcome.andThen (.inl (close_knowing structs a)) fun m hclose => begin_knowing ?_ types
  rw [(defines_of_close hclose).structs]
  exact h

/-- **a statement where more is known** -/
theorem statement_knowing (h : a.object.structs.Within structs) (n : Node) :
    SameOutcome structs (a.statement n) ((a.knowing structs).statement n) := by
  by_cases hn : n.isData = true
  · rw [statement_of_isData hn, statement_of_isData hn]
    exact .inl (data_knowing structs a n)
  -- of all that is left, only a record type looks at the registry
  cases n with
  | record types => exact record_knowing h types
  | atomDef name t => exact .inl (defineAtom_knowing structs a ⟨name, t⟩)
  | void => exact .inl rfl
  | macroRef name t => exact .inl rfl
  | primitive name width t => exact .inl rfl
  | structName name t => exact .inl rfl
  | list items => exact .inl rfl
  | _ => exact absurd rfl hn

/-- **a run where more is known** -/
theorem run_knowing (h : a.object.structs.Within structs) (nodes : List Node) :
    SameOutcome structs (a.run nodes) ((a.knowing structs).run nodes) := by
  induction nodes generalizing a with
  | nil => exact .inl (close_knowing structs a)
  | cons n nodes ih =>
    rw [run, run]
    refine SameOutcome.andThen (statement_knowing h n) fun m hfirst => ih ?_
    rw [(defines_of_statement hfirst).structs]
    exact h

end

end Assembler

/-! ## programs -/

/-- **More record types change nothing.**  A program that is assembled with some record types is
assembled after any further definitions, failed ones among them, to the same atoms and the same
tables.  If it fails, it fails after them in the same way, unless a name was not known. -/
theorem assemble_registerAll (structs : Structs) (calls : List (Definition Struct))
    (nodes : List Node) :
    (∀ o, assemble structs nodes = .ok o →
      assemble (structs.registerAll calls) nodes
        = .ok { o with structs := structs.registerAll calls }) ∧
    ∀ e, assemble structs nodes = .error e → e.isUndefined = false →
      assemble (structs.registerAll calls) nodes = .error e := by
  have hwithin := structs.within_registerAll calls
  generalize structs.registerAll calls = structs' at hwithin
  have hrun : Assembler.SameOutcome structs' ((Assembler.start structs).run nodes)
      ((Assembler.start structs').run nodes) :=
    Assembler.run_knowing hwithin nodes
  constructor
  · intro o ho
    obtain ⟨a, ha, rfl⟩ := assemble_eq_ok_iff_run.mp ho
    rw [ha] at hrun
    rcases hrun with hsame | ⟨e, he, _⟩
    · exact assemble_eq_ok_iff_run.mpr ⟨_, hsame, rfl⟩
    · cases he
  · intro e he hknown
    obtain ⟨a, ha⟩ := assemble_eq_error_iff_run.mp he
    rw [ha] at hrun
    rcases hrun with hsame | ⟨e', he', hundefined⟩
    · exact assemble_eq_error_iff_run.mpr ⟨_, hsame⟩
    · cases he'
      rw [hknown] at hundefined
      cases hundefined

/-- a registry with one record type -/
def pairs : Structs :=
  Structs.register .empty
    ⟨"Pair", none, { fields := [.primitive ⟨"byte", 8⟩, .primitive ⟨"byte", 8⟩] }⟩

/-- another record type for the name that is taken, and one for a new name -/
def laterTypes : List (Definition Struct) :=
  [⟨"Pair", some (.spot 9), { fields := [.primitive ⟨"word", 16⟩] }⟩,
    ⟨"Sprite", none, { fields := [.nested "Pair" none [.primitive ⟨"byte", 8⟩]] }⟩]

/-- a pair and a word for each row, and as many data as given -/
def pairRows (count : Nat) : List Node :=
  .record [.structName "Pair" (some 0), .primitive "word" 16 (some 1)] ::
    (List.range count).map fun i : Nat => .value (.integer i) .int (some (2 + i))

/-- a full row, and a row that ends early, after both definitions -/
theorem assemble_registerAll_pairs :
    (pairs.registerAll laterTypes).names = ["Pair", "Sprite"] ∧
      (∃ o, assemble pairs (pairRows 3) = .ok o ∧ o.tables.length = 1 ∧
        assemble (pairs.registerAll laterTypes) (pairRows 3)
          = .ok { o with structs := pairs.registerAll laterTypes }) ∧
      assemble pairs (pairRows 4) = .error (.fault ⟨.unsatisfied, some 5, none⟩) ∧
      assemble (pairs.registerAll laterTypes) (pairRows 4)
        = .error (.fault ⟨.unsatisfied, some 5, none⟩) := by
  obtain ⟨o, ho, htables⟩ : ∃ o, assemble pairs (pairRows 3) = .ok o ∧ o.tables.length = 1 :=
    ⟨_, rfl, rfl⟩
  have hbad : assemble pairs (pairRows 4) = .error (.fault ⟨.unsatisfied, some 5, none⟩) := rfl
  exact ⟨rfl,
    ⟨o, ho, htables, (assemble_registerAll pairs laterTypes (pairRows 3)).1 o ho⟩,
    hbad, (assemble_registerAll pairs laterTypes (pairRows 4)).2 _ hbad rfl⟩

end TableAssembler

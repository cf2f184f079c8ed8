import TableAssembler.Proofs.Object.Program
import TableAssembler.Proofs.Statement.Parsing

/-!
# Assembling is one look at the whole program

One pass with a table that is being filled gives what the program stands for as a whole.

* `Assembler.Holds`         what is open in a state: nothing, or a batch;
* `close_cases`, `pack_cases`   what a close does, and what becomes of a datum;
* `close_eq_iff`, `packAll_eq_iff`, `record_eq_iff`, `defineAtom_eq_iff`   the steps;
* `Tables`                  the tables of statements, given what is open before them;
* `run_eq_iff`              a run makes just these tables;
* `assemble_parse_iff`      when a program is assembled, and to what.
-/

namespace TableAssembler

/-! ## what is open -/

def Batch.extend (b : Batch) (ds : List Node) : Batch := ⟨b.record, b.data ++ ds⟩

/-- the table that is being filled was given a batch; a record type without columns has no data -/
structure Assembler.Holds (a : Assembler) (current : Option Batch) : Prop where
  builder : a.builder = current.map Batch.builder
  empty : ∀ b, current = some b → b.record.cols = 0 → b.data = []

/-- the tables from closing what is open after more data -/
inductive Closes : Option Batch → List Node → List Table → Prop
  | none : Closes none [] []
  | some {b : Batch} {ds : List Node} (whole : b.record.cols ∣ (b.extend ds).data.length) :
      Closes (some b) ds [(b.extend ds).table]

/-- whether data can be packed into what is open -/
def Takes (current : Option Batch) (ds : List Node) : Prop :=
  ds = [] ∨ ∃ b, current = some b ∧ 0 < b.record.cols

theorem Closes.unique {current : Option Batch} {ds : List Node} {ts us : List Table}
    (h : Closes current ds ts) (h' : Closes current ds us) : ts = us := by
  cases h <;> cases h' <;> rfl

theorem Batch.extend_nil (b : Batch) : b.extend [] = b := by
  rw [Batch.extend, List.append_nil]

theorem Batch.extend_extend (b : Batch) (ds es : List Node) :
    (b.extend ds).extend es = b.extend (ds ++ es) := by
  rw [Batch.extend, Batch.extend, Batch.extend, List.append_assoc]

namespace Assembler

theorem Holds.extend {a : Assembler} {current : Option Batch} (h : a.Holds current)
    {ds : List Node} (htakes : Takes current ds) :
    Holds { a with builder := (current.map (·.extend ds)).map Batch.builder }
      (current.map (·.extend ds)) := by
  refine ⟨rfl, fun b hb h0 => ?_⟩
  cases current with
  | none => cases hb
  | some c =>
    cases hb
    have hdata := h.empty c rfl h0
    rcases htakes with rfl | ⟨_, hc, hpos⟩
    · show c.data ++ [] = []
      rw [List.append_nil, hdata]
    · cases hc
      exact absurd h0 (Nat.ne_of_gt hpos)

/-! ## steps -/

theorem closes_some_iff {b : Batch} {ts : List Table} :
    Closes (some b) [] ts ↔ b.record.cols ∣ b.data.length ∧ ts = [b.table] := by
  constructor
  · intro h
    cases h with
    | some whole =>
      rw [Batch.extend_nil] at whole ⊢
      exact ⟨whole, rfl⟩
  · rintro ⟨whole, rfl⟩
    have h : Closes (some b) [] [(b.extend []).table] := .some (by rwa [Batch.extend_nil])
    rwa [Batch.extend_nil] at h

/-- a close makes the tables of what is open, or the last row is only partly filled and nothing
changes -/
theorem close_cases {a : Assembler} {current : Option Batch} (h : a.Holds current) :
    (∃ ts, Closes current [] ts ∧
        a.close = ({ object := { a.object with tables := a.object.tables ++ ts } }, none)) ∨
      ∃ b d, current = some b ∧ ¬ b.record.cols ∣ b.data.length ∧ b.data.getLast? = some d ∧
        a.close = (a, some (.fault ⟨.unsatisfied, d.token, none⟩)) := by
  obtain ⟨object, builder⟩ := a
  obtain ⟨hbuilder, hempty⟩ := h
  dsimp only at hbuilder
  subst hbuilder
  cases current with
  | none =>
    refine .inl ⟨[], .none, ?_⟩
    rw [List.append_nil]
    rfl
  | some b =>
    rw [close, Option.map_some]
    dsimp only
    by_cases hwhole : b.record.cols ∣ b.data.length
    · rw [Batch.finish_builder_of_dvd hwhole]
      exact .inl ⟨[b.table], closes_some_iff.mpr ⟨hwhole, rfl⟩, rfl⟩
    · have hdata : b.data ≠ [] := by
        intro hnil
        rw [hnil] at hwhole
        exact hwhole (Nat.dvd_zero _)
      have hcols : 0 < b.record.cols := Nat.pos_of_ne_zero fun h0 => hdata (hempty b rfl h0)
      rw [Batch.finish_builder_of_not_dvd hcols hwhole, List.getLast?_eq_some_getLast hdata]
      exact .inr ⟨b, b.data.getLast hdata, rfl, hwhole, List.getLast?_eq_some_getLast hdata, rfl⟩

theorem close_eq_iff {a a' : Assembler} {current : Option Batch} (h : a.Holds current) :
    a.close = (a', none) ↔ ∃ ts, Closes current [] ts ∧
      a' = { object := { a.object with tables := a.object.tables ++ ts } } := by
  rcases close_cases h with ⟨ts, hts, hclose⟩ | ⟨b, d, rfl, hnot, _, hclose⟩
  · rw [hclose]
    constructor
    · intro hclosed
      cases hclosed
      exact ⟨ts, hts, rfl⟩
    · rintro ⟨us, hus, rfl⟩
      rw [hts.unique hus]
  · rw [hclose]
    constructor
    · intro hclosed
      cases hclosed
    · rintro ⟨us, hus, _⟩
      exact absurd (closes_some_iff.mp hus).1 hnot

/-- a datum is taken by a table with columns, and else nothing changes -/
theorem pack_cases {a : Assembler} {current : Option Batch} (h : a.Holds current) (n : Node) :
    (∃ b, current = some b ∧ 0 < b.record.cols ∧
        a.pack n = ({ a with builder := some (b.push n).builder }, none)) ∨
      (∀ b, current = some b → b.record.cols = 0) ∧ ∃ e, a.pack n = (a, some e) := by
  obtain ⟨object, builder⟩ := a
  obtain ⟨hbuilder, hempty⟩ := h
  dsimp only at hbuilder
  subst hbuilder
  cases current with
  | none => exact .inr ⟨fun b hb => (nomatch hb), _, rfl⟩
  | some b =>
    rw [pack, Option.map_some]
    dsimp only
    rcases Nat.eq_zero_or_pos b.record.cols with h0 | hcols
    · rw [Batch.add_builder_of_cols_eq_zero h0 (hempty b rfl h0)]
      exact .inr ⟨fun c hc => by rw [← Option.some.inj hc, h0], _, rfl⟩
    · rw [Batch.add_builder hcols]
      exact .inl ⟨b, rfl, hcols, rfl⟩

theorem pack_eq_iff {a a' : Assembler} {current : Option Batch} (h : a.Holds current)
    {n : Node} : a.pack n = (a', none) ↔ ∃ b, current = some b ∧ 0 < b.record.cols ∧
      a' = { a with builder := some (b.push n).builder } := by
  rcases pack_cases h n with ⟨b, rfl, hcols, hpack⟩ | ⟨hzero, e, hpack⟩
  · rw [hpack]
    constructor
    · intro htaken
      cases htaken
      exact ⟨b, rfl, hcols, rfl⟩
    · rintro ⟨c, hc, _, rfl⟩
      cases hc
      rfl
  · rw [hpack]
    constructor
    · intro htaken
      cases htaken
    · rintro ⟨b, hb, hcols, _⟩
      exact absurd (hzero b hb) (Nat.ne_of_gt hcols)

/-- one step after another is without failure if both are -/
theorem then_eq_iff {r : Assembler × Option Failure}
    {k : Assembler → Assembler × Option Failure} {a' : Assembler} :
    (match r with
      | (b, none) => k b
      | (b, some e) => (b, some e)) = (a', none) ↔ ∃ b, r = (b, none) ∧ k b = (a', none) := by
  obtain ⟨b, _ | e⟩ := r
  · constructor
    · exact fun h => ⟨b, rfl, h⟩
    · rintro ⟨_, h, hk⟩
      cases h
      exact hk
  · constructor
    · intro h
      cases h
    · rintro ⟨_, h, _⟩
      cases h

theorem packAll_cons_eq_iff {a a' : Assembler} {n : Node} {ds : List Node} :
    a.packAll (n :: ds) = (a', none) ↔ ∃ b, a.pack n = (b, none) ∧ b.packAll ds = (a', none) := by
  rw [packAll]
  exact then_eq_iff

theorem packAll_eq_iff {a a' : Assembler} {current : Option Batch} (h : a.Holds current)
    {ds : List Node} : a.packAll ds = (a', none) ↔ Takes current ds ∧
      a' = { a with builder := (current.map (·.extend ds)).map Batch.builder } := by
  induction ds generalizing a current with
  | nil =>
    have hsame : { a with builder := (current.map (·.extend [])).map Batch.builder } = a := by
      simp only [Batch.extend_nil, Option.map_id_fun', id_eq, ← h.builder]
    rw [hsame]
    constructor
    · intro hpack
      cases hpack
      exact ⟨.inl rfl, rfl⟩
    · rintro ⟨_, rfl⟩
      rfl
  | cons n ds ih =>
    rw [packAll_cons_eq_iff]
    simp only [pack_eq_iff h]
    constructor
    · rintro ⟨_, ⟨b, rfl, hcols, rfl⟩, hmore⟩
      have hnext : Holds { a with builder := some (b.push n).builder } (some (b.push n)) :=
        ⟨rfl, fun c hc h0 => by cases hc; exact absurd h0 (Nat.ne_of_gt hcols)⟩
      obtain ⟨_, rfl⟩ := (ih hnext).mp hmore
      refine ⟨.inr ⟨b, rfl, hcols⟩, ?_⟩
      rw [Option.map_some, Option.map_some, Option.map_some, Option.map_some, Batch.extend,
        Batch.extend, Batch.push, List.append_assoc]
      rfl
    · rintro ⟨htakes, rfl⟩
      rcases htakes with hnil | ⟨b, rfl, hcols⟩
      · cases hnil
      · have hnext : Holds { a with builder := some (b.push n).builder } (some (b.push n)) :=
          ⟨rfl, fun c hc h0 => by cases hc; exact absurd h0 (Nat.ne_of_gt hcols)⟩
        refine ⟨_, ⟨b, rfl, hcols, rfl⟩, (ih hnext).mpr ⟨.inr ⟨_, rfl, hcols⟩, ?_⟩⟩
        rw [Option.map_some, Option.map_some, Option.map_some, Option.map_some, Batch.extend,
          Batch.extend, Batch.push, List.append_assoc]
        rfl

theorem data_eq_iff {a a' : Assembler} {current : Option Batch} (h : a.Holds current)
    {n : Node} (hn : n.isData = true) : a.statement n = (a', none) ↔
      ∃ ds, Expands n ds ∧ Takes current ds ∧
        a' = { a with builder := (current.map (·.extend ds)).map Batch.builder } := by
  have hdata : a.statement n = a.data n := by
    cases n <;> first | rfl | cases hn
  rw [hdata, data]
  cases hexpand : n.expand with
  | error f =>
    constructor
    · intro hpack
      cases hpack
    · rintro ⟨ds, hds, _⟩
      rw [(expand_eq_ok_iff hn).mpr hds] at hexpand
      cases hexpand
  | ok ds =>
    dsimp only
    rw [packAll_eq_iff h]
    constructor
    · exact fun hpack => ⟨ds, (expand_eq_ok_iff hn).mp hexpand, hpack⟩
    · rintro ⟨es, hes, hpack⟩
      rw [(expand_eq_ok_iff hn).mpr hes] at hexpand
      cases hexpand
      exact hpack

theorem record_eq_iff {a a' : Assembler} {current : Option Batch} (h : a.Holds current)
    {types : List Node} : a.statement (.record types) = (a', none) ↔
      ∃ ts r, Closes current [] ts ∧ Resolves a.object.structs types r ∧
        a' = ⟨{ a.object with tables := a.object.tables ++ ts }, some (Batch.mk r []).builder⟩ := by
  rw [statement, record]
  cases hclose : a.close with
  | mk b e =>
    cases e with
    | some e =>
      constructor
      · intro hrecord
        cases hrecord
      · rintro ⟨ts, r, hts, _⟩
        rw [(close_eq_iff h).mpr ⟨ts, hts, rfl⟩] at hclose
        cases hclose
    | none =>
      obtain ⟨ts, hts, rfl⟩ := (close_eq_iff h).mp hclose
      dsimp only
      cases hresolve : Struct.resolve a.object.structs none types with
      | error e =>
        constructor
        · intro hrecord
          cases hrecord
        · rintro ⟨_, r, _, hr, _⟩
          rw [resolve_eq_ok_iff.mpr hr] at hresolve
          cases hresolve
      | ok r =>
        constructor
        · intro hrecord
          cases hrecord
          rw [← Batch.builder_start]
          exact ⟨ts, r, hts, resolve_eq_ok_iff.mp hresolve, rfl⟩
        · rintro ⟨us, r', hus, hr, rfl⟩
          rw [resolve_eq_ok_iff.mpr hr] at hresolve
          cases hresolve
          rw [hts.unique hus, Batch.builder_start]

end Assembler

/-! ## atoms -/

theorem Layer.eq_of_definitions {α : Type} {l l' : Layer α} (h : l.definitions = l'.definitions) :
    l = l' := by
  cases l
  cases l'
  cases h
  rfl

/-- a definition that a layer has after another one is of a new name -/
theorem notMem_of_definitions {α : Type} {l l' : Layer α} {d : Definition α}
    (h : l'.definitions = l.definitions ++ [d]) : d.name ∉ l.names := by
  intro hmem
  have hdistinct := l'.distinct
  rw [h, List.map_append, List.nodup_append] at hdistinct
  exact hdistinct.2.2 d.name hmem d.name List.mem_cons_self rfl

/-- some definitions of a layer are a layer -/
theorem exists_layer_of_sublist {α : Type} {l : Layer α} {ds : List (Definition α)}
    (h : ds.Sublist l.definitions) : ∃ l' : Layer α, l'.definitions = ds :=
  ⟨⟨ds, l.distinct.sublist (h.map Definition.name)⟩, rfl⟩

/-- the first definitions of a layer are a layer -/
theorem exists_layer_of_append {α : Type} {l : Layer α} {ds es : List (Definition α)}
    {d : Definition α} (h : l.definitions = ds ++ d :: es) :
    ∃ l' : Layer α, l'.definitions = ds ++ [d] := by
  refine exists_layer_of_sublist (l := l) ?_
  rw [h]
  exact (List.sublist_append_left [d] es).append_left ds

theorem Assembler.defineAtom_eq_iff {a a' : Assembler} {name : String} {t : Option Nat} :
    a.statement (.atomDef name t) = (a', none) ↔
      ∃ atoms : Atoms,
        atoms.definitions = a.object.atoms.definitions ++ [⟨name, t.map .spot, ⟨name, t⟩⟩] ∧
        a' = { a with object := { a.object with atoms } } := by
  rw [statement, defineAtom]
  by_cases hname : name ∈ a.object.atoms.names
  · have hdefine : a.object.atoms.define ⟨name, t⟩ = _ := Atoms.define_of_mem hname
    rw [hdefine]
    constructor
    · intro h
      cases h
    · rintro ⟨atoms, hatoms, _⟩
      exact absurd hname (notMem_of_definitions hatoms)
  · have hdefine : a.object.atoms.define ⟨name, t⟩ = _ := Atoms.define_of_notMem hname
    rw [hdefine]
    constructor
    · intro h
      cases h
      exact ⟨_, rfl, rfl⟩
    · rintro ⟨atoms, hatoms, rfl⟩
      have hsame : a.object.atoms.add _ hname = atoms := Layer.eq_of_definitions hatoms.symm
      rw [hsame]

/-! ## runs -/

/-- the tables of statements, given what is open before them -/
def Tables (structs : Structs) (current : Option Batch) (nodes : List Node) (ts : List Table) :
    Prop :=
  ∃ ds first batches, Yields (lead nodes) ds ∧ Closes current ds first ∧
    List.Forall₂ (Section.Fills structs) (sections nodes) batches ∧
    ts = first ++ batches.map Batch.table

theorem tables_nil_iff {structs : Structs} {current : Option Batch} {ts : List Table} :
    Tables structs current [] ts ↔ Closes current [] ts := by
  constructor
  · rintro ⟨ds, first, batches, hds, hfirst, hbatches, rfl⟩
    cases hds
    cases hbatches
    rwa [List.map_nil, List.append_nil]
  · intro h
    exact ⟨[], ts, [], .nil, h, .nil, by rw [List.map_nil, List.append_nil]⟩

theorem tables_other_iff {structs : Structs} {current : Option Batch} {n : Node}
    {nodes : List Node} {ts : List Table} (hn : n.isData = false) (hr : n.isRecord = false) :
    Tables structs current (n :: nodes) ts ↔ Tables structs current nodes ts := by
  simp only [Tables, lead_cons hr, sections_cons hr, yields_other_iff hn]

theorem closes_append_iff {current : Option Batch} {ds es : List Node} {ts : List Table} :
    Closes current (ds ++ es) ts
      ↔ Takes current ds ∧ Closes (current.map (·.extend ds)) es ts := by
  cases current with
  | none =>
    constructor
    · generalize hall : ds ++ es = all
      intro h
      cases h
      obtain ⟨rfl, rfl⟩ := List.append_eq_nil_iff.mp hall
      exact ⟨.inl rfl, .none⟩
    · rintro ⟨rfl | ⟨b, hb, _⟩, h⟩
      · exact h
      · cases hb
  | some b =>
    constructor
    · intro h
      cases h with
      | some whole =>
        refine ⟨?_, ?_⟩
        · rcases Nat.eq_zero_or_pos b.record.cols with h0 | hcols
          · rw [show (b.extend (ds ++ es)).data = b.data ++ (ds ++ es) from rfl, h0,
              Nat.zero_dvd, List.length_eq_zero_iff, List.append_eq_nil_iff,
              List.append_eq_nil_iff] at whole
            exact .inl whole.2.1
          · exact .inr ⟨b, rfl, hcols⟩
        · rw [← Batch.extend_extend] at whole ⊢
          exact .some whole
    · rintro ⟨_, h⟩
      cases h with
      | some whole =>
        rw [Batch.extend_extend] at whole ⊢
        exact .some whole

theorem tables_data_iff {structs : Structs} {current : Option Batch} {n : Node}
    {nodes : List Node} {ts : List Table} (hn : n.isData = true) :
    Tables structs current (n :: nodes) ts ↔ ∃ ds, Expands n ds ∧ Takes current ds ∧
      Tables structs (current.map (·.extend ds)) nodes ts := by
  have hr := Node.isRecord_of_isData hn
  simp only [Tables, lead_cons hr, sections_cons hr, yields_data_iff hn]
  constructor
  · rintro ⟨_, first, batches, ⟨ds, es, hds, hes, rfl⟩, hfirst, hbatches, rfl⟩
    obtain ⟨htakes, hfirst⟩ := closes_append_iff.mp hfirst
    exact ⟨ds, hds, htakes, es, first, batches, hes, hfirst, hbatches, rfl⟩
  · rintro ⟨ds, hds, htakes, es, first, batches, hes, hfirst, hbatches, rfl⟩
    exact ⟨_, first, batches, ⟨ds, es, hds, hes, rfl⟩, closes_append_iff.mpr ⟨htakes, hfirst⟩,
      hbatches, rfl⟩

theorem tables_record_iff {structs : Structs} {current : Option Batch} {types nodes : List Node}
    {ts : List Table} : Tables structs current (.record types :: nodes) ts ↔
      ∃ first r rest, Closes current [] first ∧ Resolves structs types r ∧
        Tables structs (some ⟨r, []⟩) nodes rest ∧ ts = first ++ rest := by
  constructor
  · rintro ⟨ds, first, batches, hds, hfirst, hbatches, rfl⟩
    cases hds
    cases hbatches with
    | @cons _ b _ batches hb more =>
      have hlast : Closes (some ⟨b.record, []⟩) b.data [b.table] := .some hb.whole
      exact ⟨first, b.record, b.table :: batches.map Batch.table, hfirst, hb.record,
        ⟨b.data, [b.table], batches, hb.data, hlast, more, rfl⟩, rfl⟩
  · rintro ⟨first, r, _, hfirst, hr, ⟨ds, _, batches, hds, hlast, hbatches, rfl⟩, rfl⟩
    cases hlast with
    | some whole =>
      exact ⟨[], first, ⟨r, ds⟩ :: batches, .nil, hfirst, .cons ⟨hr, hds, whole⟩ hbatches, rfl⟩

theorem Assembler.run_cons_eq_iff {a a' : Assembler} {n : Node} {nodes : List Node} :
    a.run (n :: nodes) = (a', none)
      ↔ ∃ b, a.statement n = (b, none) ∧ b.run nodes = (a', none) := by
  rw [run]
  exact then_eq_iff

/-- what a run makes of a state: the tables, and all the atoms that are defined -/
structure Made (a : Assembler) (nodes : List Node) (ts : List Table) (a' : Assembler) : Prop where
  builder : a'.builder = none
  structs : a'.object.structs = a.object.structs
  tables : a'.object.tables = a.object.tables ++ ts
  atoms : a'.object.atoms.definitions = a.object.atoms.definitions ++ definitions nodes

/-- **A run makes the tables of its statements.** -/
theorem run_eq_iff {nodes : List Node} (hnodes : ∀ n ∈ nodes, n.IsStatement)
    {a a' : Assembler} {current : Option Batch} (h : a.Holds current) :
    a.run nodes = (a', none) ↔ (∀ n ∈ nodes, n.isMacro = false) ∧
      ∃ ts, Tables a.object.structs current nodes ts ∧ Made a nodes ts a' := by
  induction nodes generalizing a current with
  | nil =>
    simp only [tables_nil_iff]
    rw [Assembler.run, Assembler.close_eq_iff h]
    constructor
    · rintro ⟨ts, hts, rfl⟩
      exact ⟨fun n hn => (nomatch hn), ts, hts, rfl, rfl, rfl, (List.append_nil _).symm⟩
    · rintro ⟨_, ts, hts, hmade⟩
      refine ⟨ts, hts, ?_⟩
      obtain ⟨⟨atoms, structs, tables⟩, builder⟩ := a'
      obtain ⟨rfl, rfl, rfl, hatoms⟩ := hmade
      rw [definitions, List.filterMap_nil, List.append_nil] at hatoms
      rw [show atoms = a.object.atoms from Layer.eq_of_definitions hatoms]
  | cons n nodes ih =>
    obtain ⟨hn, hmore⟩ := List.forall_mem_cons.mp hnodes
    rw [Assembler.run_cons_eq_iff, List.forall_mem_cons]
    cases hn with
    | atomDef name t =>
      have hnext : ∀ atoms : Atoms,
          Assembler.Holds { a with object := { a.object with atoms } } current :=
        fun _ => ⟨h.builder, h.empty⟩
      simp only [Assembler.defineAtom_eq_iff]
      constructor
      · rintro ⟨_, ⟨atoms, hatoms, rfl⟩, hrun⟩
        obtain ⟨hm, ts, hts, hmade⟩ := (ih hmore (hnext atoms)).mp hrun
        refine ⟨⟨rfl, hm⟩, ts, (tables_other_iff rfl rfl).mpr hts, hmade.builder, hmade.structs,
          hmade.tables, ?_⟩
        rw [hmade.atoms, hatoms, List.append_assoc]
        rfl
      · rintro ⟨⟨_, hm⟩, ts, hts, hmade⟩
        obtain ⟨atoms, hatoms⟩ := exists_layer_of_append hmade.atoms
        refine ⟨_, ⟨atoms, hatoms, rfl⟩, (ih hmore (hnext atoms)).mpr ⟨hm, ts,
          (tables_other_iff rfl rfl).mp hts, hmade.builder, hmade.structs, hmade.tables, ?_⟩⟩
        rw [hmade.atoms, hatoms, List.append_assoc]
        rfl
    | macroRef name t =>
      constructor
      · rintro ⟨b, hb, _⟩
        cases hb
      · rintro ⟨⟨hm, _⟩, _⟩
        cases hm
    | @record types htypes =>
      have hnext : ∀ (object : Object) (r : Struct),
          Assembler.Holds ⟨object, some (Batch.mk r []).builder⟩ (some ⟨r, []⟩) :=
        fun _ _ => ⟨rfl, fun b hb _ => by cases hb; rfl⟩
      simp only [Assembler.record_eq_iff h]
      constructor
      · rintro ⟨_, ⟨first, r, hfirst, hr, rfl⟩, hrun⟩
        obtain ⟨hm, rest, hrest, hmade⟩ := (ih hmore (hnext _ r)).mp hrun
        refine ⟨⟨rfl, hm⟩, first ++ rest, tables_record_iff.mpr
          ⟨first, r, rest, hfirst, hr, hrest, rfl⟩, hmade.builder, hmade.structs, ?_, hmade.atoms⟩
        rw [hmade.tables, List.append_assoc]
      · rintro ⟨⟨_, hm⟩, ts, hts, hmade⟩
        obtain ⟨first, r, rest, hfirst, hr, hrest, rfl⟩ := tables_record_iff.mp hts
        refine ⟨_, ⟨first, r, hfirst, hr, rfl⟩, (ih hmore (hnext _ r)).mpr
          ⟨hm, rest, hrest, hmade.builder, hmade.structs, ?_, hmade.atoms⟩⟩
        rw [hmade.tables, List.append_assoc]
    | data hdata =>
      have hatoms : definitions (n :: nodes) = definitions nodes :=
        List.filterMap_cons_none (Node.definition?_of_isData hdata)
      simp only [Assembler.data_eq_iff h hdata, tables_data_iff hdata]
      constructor
      · rintro ⟨_, ⟨ds, hds, htakes, rfl⟩, hrun⟩
        obtain ⟨hm, ts, hts, hmade⟩ := (ih hmore (h.extend htakes)).mp hrun
        exact ⟨⟨Node.isMacro_of_isData hdata, hm⟩, ts, ⟨ds, hds, htakes, hts⟩, hmade.builder,
          hmade.structs, hmade.tables, hatoms ▸ hmade.atoms⟩
      · rintro ⟨⟨_, hm⟩, ts, ⟨ds, hds, htakes, hts⟩, hmade⟩
        exact ⟨_, ⟨ds, hds, htakes, rfl⟩, (ih hmore (h.extend htakes)).mpr ⟨hm, ts, hts,
          hmade.builder, hmade.structs, hmade.tables, hatoms ▸ hmade.atoms⟩⟩

/-! ## programs -/

theorem tables_start_iff {structs : Structs} {nodes : List Node} {ts : List Table} :
    Tables structs none nodes ts ↔ Yields (lead nodes) [] ∧
      ∃ batches, List.Forall₂ (Section.Fills structs) (sections nodes) batches ∧
        ts = batches.map Batch.table := by
  constructor
  · rintro ⟨ds, first, batches, hds, hfirst, hbatches, rfl⟩
    cases hfirst
    exact ⟨hds, batches, hbatches, rfl⟩
  · rintro ⟨hlead, batches, hbatches, rfl⟩
    exact ⟨[], [], batches, hlead, .none, hbatches, rfl⟩

theorem assemble_eq_ok_iff {structs : Structs} {nodes : List Node}
    (hnodes : ∀ n ∈ nodes, n.IsStatement) {o : Object} :
    assemble structs nodes = .ok o ↔ (∀ n ∈ nodes, n.isMacro = false) ∧
      Yields (lead nodes) [] ∧ o.structs = structs ∧
      o.atoms.definitions = definitions nodes ∧
      ∃ batches, List.Forall₂ (Section.Fills structs) (sections nodes) batches ∧
        o.tables = batches.map Batch.table := by
  have hstart : (Assembler.start structs).Holds none := ⟨rfl, fun b hb => (nomatch hb)⟩
  have hassemble : assemble structs nodes = .ok o
      ↔ (Assembler.start structs).run nodes = (⟨o, none⟩, none) := by
    rw [assemble]
    cases hrun : (Assembler.start structs).run nodes with
    | mk a e =>
      cases e with
      | none =>
        have hclosed := ((run_eq_iff hnodes hstart).mp hrun).2
        obtain ⟨_, _, hmade⟩ := hclosed
        obtain ⟨object, builder⟩ := a
        rw [show builder = none from hmade.builder]
        constructor
        · intro h
          cases h
          rfl
        · intro h
          cases h
          rfl
      | some e =>
        constructor
        · intro h
          cases h
        · intro h
          cases h
  rw [hassemble, run_eq_iff hnodes hstart]
  constructor
  · rintro ⟨hfree, ts, hts, hmade⟩
    obtain ⟨hlead, batches, hbatches, rfl⟩ := tables_start_iff.mp hts
    exact ⟨hfree, hlead, hmade.structs, hmade.atoms, batches, hbatches, hmade.tables⟩
  · rintro ⟨hfree, hlead, hstructs, hatoms, batches, hbatches, htables⟩
    exact ⟨hfree, _, tables_start_iff.mpr ⟨hlead, batches, hbatches, rfl⟩,
      rfl, hstructs, htables, hatoms⟩

theorem TypeNames.isType {i : Nat} {ts : List Token} {ns : List Node} (h : TypeNames i ts ns) :
    ∀ n ∈ ns, n.isType = true := by
  induction h with
  | nil => intro n hn; cases hn
  | cons first more ih =>
    refine List.forall_mem_cons.mpr ⟨?_, ih⟩
    cases first <;> rfl

theorem ofToken_isData {kind : Token.Kind} (hk : kind.isOperand = true) {text : String}
    {t : Option Nat} {n : Node} (h : Node.ofToken kind text t = .ok n) : n.isData = true := by
  have key : ∀ form, Numeral.node form text t = .ok n → n.isData = true := by
    intro form hn
    unfold Numeral.node at hn
    split at hn
    · cases hn
      rfl
    · cases hn
  cases kind with
  | int => exact key _ h
  | hex => exact key _ h
  | bin => exact key _ h
  | atom => cases h; rfl
  | _ => cases hk

theorem expressionFrom_isData {i : Nat} {ts : List Token} {n : Node} {after : Cursor}
    (h : Rules.expressionFrom i ts = some ⟨.ok n, after⟩) : n.isData = true := by
  fun_induction Rules.expressionFrom i ts generalizing n after with
  | case1 => cases h
  | case2 => cases h
  | case3 i t ho lhs hl => cases h; exact ofToken_isData ho hl
  | case4 => cases h
  | case5 => cases h
  | case6 => cases h; rfl
  | case7 i t ho lhs hl => cases h; exact ofToken_isData ho hl
  | case8 => cases h

/-- whatever the tokens are, what is read is a statement -/
theorem next?_isStatement {c after : Cursor} {n : Node} (h : c.next? = some ⟨.ok n, after⟩) :
    n.IsStatement := by
  obtain ⟨t, ts, hrest, hs⟩ := statement_of_next? h
  obtain ⟨i, rest⟩ := c
  cases hrest
  have htypes : (Node.record (Rules.types i (t :: ts)).1).IsStatement := by
    obtain ⟨_, _, _, hnames, _⟩ := Rules.types_sound i (t :: ts)
    exact .record hnames.isType
  rw [Rules.statement_cons] at hs
  cases hk : t.kind with
  | keywordAtom =>
    simp only [hk, Rules.atomDefinition] at hs
    split at hs
    · cases hs
    · split at hs
      · cases hs
        exact .atomDef _ _
      · cases hs
  | keywordMacro =>
    simp only [hk, Rules.macroDefinition] at hs
    split at hs <;> cases hs
  | primitive type =>
    simp only [hk] at hs
    cases hs
    exact htypes
  | struct =>
    simp only [hk] at hs
    cases hs
    exact htypes
  | macroName =>
    simp only [hk] at hs
    cases hs
    exact .macroRef _ _
  | string =>
    simp only [hk] at hs
    cases hs
    exact .data rfl
  | _ =>
    simp only [hk] at hs
    exact .data (expressionFrom_isData hs)

theorem parse_isStatement {c : Cursor} {nodes : List Node} (h : c.parse = .ok nodes) :
    ∀ n ∈ nodes, n.IsStatement := by
  induction nodes generalizing c with
  | nil => exact fun n hn => (nomatch hn)
  | cons n ns ih =>
    rcases parse_cases h with ⟨_, hnil⟩ | ⟨_, _, _, hnext, hmore, hcons⟩
    · cases hnil
    · cases hcons
      exact List.forall_mem_cons.mpr ⟨next?_isStatement hnext, ih hmore⟩

/-- **Assembling is one look at the whole program.**  Statements that were read make an object if
they are acceptable as a whole; the object then has the atoms in order of definition and one table
for each record type, with the data up to the next record type cut into rows. -/
theorem assemble_parse_iff {tokens : List Token} {nodes : List Node}
    (h : parse tokens = .ok nodes) (structs : Structs) :
    ((∃ o, assemble structs nodes = .ok o) ↔ Acceptable structs nodes) ∧
      ∀ o, assemble structs nodes = .ok o →
        o.structs = structs ∧ o.atoms.definitions = definitions nodes ∧
        o.tables.length = nodes.countP Node.isRecord ∧
        ∃ batches, List.Forall₂ (Section.Fills structs) (sections nodes) batches ∧
          o.tables = batches.map Batch.table := by
  have hnodes : ∀ n ∈ nodes, n.IsStatement := parse_isStatement h
  rw [acceptable_iff hnodes]
  refine ⟨⟨?_, ?_⟩, ?_⟩
  · rintro ⟨o, ho⟩
    obtain ⟨hfree, hlead, _, hatoms, batches, hbatches, _⟩ := (assemble_eq_ok_iff hnodes).mp ho
    exact ⟨hatoms ▸ o.atoms.distinct, hfree, hlead, batches, hbatches⟩
  · rintro ⟨hdistinct, hfree, hlead, batches, hbatches⟩
    exact ⟨⟨⟨_, hdistinct⟩, structs, batches.map Batch.table⟩, (assemble_eq_ok_iff hnodes).mpr
      ⟨hfree, hlead, rfl, rfl, batches, hbatches, rfl⟩⟩
  · intro o ho
    obtain ⟨_, _, hstructs, hatoms, batches, hbatches, htables⟩ :=
      (assemble_eq_ok_iff hnodes).mp ho
    refine ⟨hstructs, hatoms, ?_, batches, hbatches, htables⟩
    rw [htables, List.length_map, ← hbatches.length_eq, length_sections]

/-- the tokens of `atom A byte nybl 7 A 1 x 0 "hi"` -/
def twoRowsTokens : List Token :=
  [⟨.keywordAtom, "atom", 0, 4, 1, 0⟩, ⟨.atom, "A", 5, 6, 1, 5⟩,
    ⟨.primitive .byte, "byte", 7, 11, 1, 7⟩, ⟨.primitive .nybl, "nybl", 12, 16, 1, 12⟩,
    ⟨.int, "7", 17, 18, 1, 17⟩, ⟨.atom, "A", 19, 20, 1, 19⟩, ⟨.int, "1", 21, 22, 1, 21⟩,
    ⟨.operator .replicate, "x", 23, 24, 1, 23⟩, ⟨.int, "0", 25, 26, 1, 25⟩,
    ⟨.string, "\"hi\"", 27, 31, 1, 27⟩]

/-- the statements of these tokens: two rows, from data of which a repetition gives none -/
def twoRows : List Node :=
  [.atomDef "A" (some 1), .record [.primitive "byte" 8 (some 2), .primitive "nybl" 4 (some 3)],
    .value (.integer 7) .int (some 4), .atomRef "A" (some 5),
    .binary (.value (.integer 1) .int (some 6)) .replicate (.value (.integer 0) .int (some 8))
      (some 7), .string "hi" (some 9)]

theorem assemble_twoRows :
    parse (tokenize "atom A byte nybl 7 A 1 x 0 \"hi\"") = .ok twoRows ∧
      Acceptable .empty twoRows ∧ ∃ o, assemble .empty twoRows = .ok o ∧
        o.atoms.definitions = [⟨"A", some (.spot 1), ⟨"A", some 1⟩⟩] ∧ o.tables.length = 1 := by
  have htokens : tokenize "atom A byte nybl 7 A 1 x 0 \"hi\"" = twoRowsTokens := by
    decide +kernel
  have hparse : parse (tokenize "atom A byte nybl 7 A 1 x 0 \"hi\"") = .ok twoRows := by
    rw [htokens]
    refine parse_eq_cons rfl (parse_eq_cons rfl (parse_eq_cons rfl ?_))
    exact parse_eq_cons rfl (parse_eq_cons rfl (parse_eq_cons rfl (Cursor.parse_of_none rfl)))
  obtain ⟨o, ho⟩ : ∃ o, assemble .empty twoRows = .ok o := ⟨_, rfl⟩
  obtain ⟨hiff, hobject⟩ := assemble_parse_iff hparse .empty
  obtain ⟨_, hatoms, hcount, _⟩ := hobject o ho
  exact ⟨hparse, hiff.mp ⟨o, ho⟩, o, ho, hatoms, hcount⟩

end TableAssembler

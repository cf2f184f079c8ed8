import TableAssembler.Proofs.Object.Assembly

/-!
# Carrying on after failures

An assembler may be driven on past its failures, and its table may be closed at any time.  What it
holds in between is always a row of batches, the last of which may be open.

* `Action`, `Assembler.act`, `Assembler.carry`   a statement or a close, and the state after some;
* `Unresolved`             why types stand for no record type;
* `close_fails`, `data_fails`, `record_fails`, `statement_fails`   what a failing step leaves;
* `Batched`                a state as batches: those that are closed, and the open one;
* `Packed.act`, `Packed.carry`   what one action packs, and what several do;
* `failing_unchanged`      a failing step changes nothing, unless it closed a table first.
-/

namespace TableAssembler

/-! ## driving an assembler -/

/-- what an assembler may be asked for -/
inductive Action where
  | statement (n : Node)
  | close

/-- the statements of an action -/
def Action.nodes : Action → List Node
  | .statement n => [n]
  | .close => []

namespace Assembler

def act (a : Assembler) : Action → Assembler × Option Failure
  | .statement n => a.statement n
  | .close => a.close

/-- the state after some actions, whichever of them fail -/
def carry (a : Assembler) : List Action → Assembler
  | [] => a
  | x :: xs => (a.act x).1.carry xs

/-- the statements of an action, if it does not fail -/
def taken (a : Assembler) (x : Action) : List Node :=
  match (a.act x).2 with
  | none => x.nodes
  | some _ => []

/-- the statements among some actions that do not fail, in order -/
def accepted (a : Assembler) : List Action → List Node
  | [] => []
  | x :: xs => a.taken x ++ (a.act x).1.accepted xs

end Assembler

/-! ## failing steps -/

/-- why types stand for no record type: a name is not known, or a word that is no type is among
them, or a node that no field can be made of -/
inductive Unresolved : Failure → Prop
  | undefined (t : Option Nat) : Unresolved (.fault ⟨.undefined, t, none⟩)
  | unexpected (t : Option Nat) : Unresolved (.fault ⟨.unexpected, t, none⟩)
  | unsupported : Unresolved .unsupported

theorem field_resolve_fails {structs : Structs} {n : Node} {e : Failure}
    (h : Field.resolve structs n = .error e) : Unresolved e := by
  cases n with
  | primitive name width t => cases h
  | structName name t =>
    rw [Field.resolve_structName] at h
    cases hfind : structs.find? name with
    | none => rw [hfind] at h; cases h; exact .undefined t
    | some d => rw [hfind] at h; cases h
  | value number kind t => cases h; exact .unexpected t
  | atomRef name t => cases h; exact .unexpected t
  | macroRef name t => cases h; exact .unexpected t
  | _ => cases h; exact .unsupported

theorem extend_fails {structs : Structs} {s : Struct} {types : List Node} {e : Failure}
    (h : s.extend structs types = .error e) : Unresolved e := by
  induction types generalizing s with
  | nil => cases h
  | cons n ns ih =>
    rw [Struct.extend] at h
    cases hfield : Field.resolve structs n with
    | error e' => rw [hfield] at h; cases h; exact field_resolve_fails hfield
    | ok f => rw [hfield] at h; exact ih h

namespace Assembler

/-- the state in which a close leaves an assembler: without a builder, and with its table if there
was one -/
def closed (a : Assembler) : Assembler :=
  { object := { a.object with
      tables := a.object.tables ++ (a.builder.map fun b => ⟨b.record, b.rows⟩).toList } }

theorem close_succeeds {a a' : Assembler} (h : a.close = (a', none)) : a' = a.closed := by
  obtain ⟨object, _ | b⟩ := a
  · cases h
    rw [closed, Option.map_none, Option.toList_none, List.append_nil]
  · rw [close] at h
    dsimp only at h
    cases hfinish : b.finish with
    | error f => rw [hfinish] at h; cases h
    | ok table =>
      rw [hfinish] at h
      cases h
      unfold TableBuilder.finish at hfinish
      split at hfinish
      · cases hfinish
      · cases hfinish
        rfl

theorem close_fails {a a' : Assembler} {e : Failure} (h : a.close = (a', some e)) :
    a' = a ∧ ∃ t, e = .fault ⟨.unsatisfied, t, none⟩ := by
  obtain ⟨object, _ | b⟩ := a
  · cases h
  · rw [close] at h
    dsimp only at h
    cases hfinish : b.finish with
    | ok table => rw [hfinish] at h; cases h
    | error f =>
      rw [hfinish] at h
      cases h
      unfold TableBuilder.finish at hfinish
      split at hfinish
      · cases hfinish
        exact ⟨rfl, _, rfl⟩
      · cases hfinish

theorem pack_fails {a a' : Assembler} {current : Option Batch} (h : a.Holds current) {n : Node}
    {e : Failure} (hpack : a.pack n = (a', some e)) : a' = a := by
  rcases pack_cases h n with ⟨b, _, _, htaken⟩ | ⟨_, e', hrefused⟩
  · cases htaken.symm.trans hpack
  · cases hrefused.symm.trans hpack
    rfl

/-- data are packed all or not at all: what takes the first of them takes the others too -/
theorem packAll_fails {a a' : Assembler} {current : Option Batch} (h : a.Holds current)
    {ds : List Node} {e : Failure} (hpack : a.packAll ds = (a', some e)) : a' = a := by
  cases ds with
  | nil => cases hpack
  | cons n ds =>
    cases hfirst : a.pack n with
    | mk b out =>
      cases out with
      | some e' =>
        rw [packAll, hfirst] at hpack
        cases hpack
        exact pack_fails h hfirst
      | none =>
        obtain ⟨batch, hcurrent, hcols, _⟩ := (pack_eq_iff h).mp hfirst
        have htakes : Takes current (n :: ds) := .inr ⟨batch, hcurrent, hcols⟩
        have hall := (packAll_eq_iff h).mpr ⟨htakes, rfl⟩
        rw [hall] at hpack
        cases hpack

theorem statement_of_isData {n : Node} (h : n.isData = true) (a : Assembler) :
    a.statement n = a.data n := by
  cases n with
  | value => rfl
  | atomRef => rfl
  | binary => rfl
  | string => rfl
  | _ => cases h

theorem data_fails {a a' : Assembler} {current : Option Batch} (h : a.Holds current) {n : Node}
    (hn : n.isData = true) {e : Failure} (hdata : a.statement n = (a', some e)) : a' = a := by
  rw [statement_of_isData hn, data] at hdata
  cases hexpand : n.expand with
  | error f => rw [hexpand] at hdata; cases hdata; rfl
  | ok ds => rw [hexpand] at hdata; exact packAll_fails h hdata

theorem defineAtom_fails {a a' : Assembler} {atom : Atom} {e : Failure}
    (h : a.defineAtom atom = (a', some e)) : a' = a := by
  rw [defineAtom] at h
  by_cases hname : atom.name ∈ a.object.atoms.names
  · rw [Atoms.define_of_mem hname] at h
    cases h
    rfl
  · rw [Atoms.define_of_notMem hname] at h
    cases h

/-- a record type fails with its close, or else after it -/
theorem record_fails {a a' : Assembler} {types : List Node} {e : Failure}
    (h : a.record types = (a', some e)) :
    a.close = (a', some e) ∨
      a.close = (a', none) ∧ Struct.resolve a.object.structs none types = .error e := by
  rw [record] at h
  cases hclose : a.close with
  | mk b out =>
    cases out with
    | some e' => rw [hclose] at h; cases h; exact .inl rfl
    | none =>
      have hstructs : b.object.structs = a.object.structs := by rw [close_succeeds hclose]; rfl
      rw [hclose] at h
      dsimp only at h
      rw [hstructs] at h
      cases hresolve : Struct.resolve a.object.structs none types with
      | error e' => rw [hresolve] at h; cases h; exact .inr ⟨rfl, rfl⟩
      | ok r => rw [hresolve] at h; cases h

/-- **what a failing statement leaves**: the state before it, or that after the close with which a
record type begins -/
theorem statement_fails {a a' : Assembler} {current : Option Batch} (h : a.Holds current)
    {n : Node} {e : Failure} (hn : a.statement n = (a', some e)) :
    a' = a ∨ ∃ types, n = .record types ∧ a.close = (a', none) ∧
      Struct.resolve a.object.structs none types = .error e := by
  cases n with
  | void => cases hn
  | atomDef name t => exact .inl (defineAtom_fails hn)
  | record types =>
    rcases record_fails hn with hclose | hresolve
    · exact .inl (close_fails hclose).1
    · exact .inr ⟨types, rfl, hresolve⟩
  | value number kind t => exact .inl (data_fails h rfl hn)
  | atomRef name t => exact .inl (data_fails h rfl hn)
  | binary lhs op rhs t => exact .inl (data_fails h rfl hn)
  | string text t => exact .inl (data_fails h rfl hn)
  | macroRef name t => cases hn; exact .inl rfl
  | primitive name width t => cases hn; exact .inl rfl
  | structName name t => cases hn; exact .inl rfl
  | list items => cases hn; exact .inl rfl

/-! ## states as batches -/

/-- what an assembler has made since there were only some earlier tables: batches that fill whole
rows, and perhaps an open one -/
structure Batched (a : Assembler) (earlier : List Table) (made : List Batch)
    (current : Option Batch) : Prop where
  holds : a.Holds current
  tables : a.object.tables = earlier ++ made.map Batch.table
  whole : ∀ b ∈ made, b.record.cols ∣ b.data.length

end Assembler

/-- the data of some batches, and of an open one -/
def held (made : List Batch) (current : Option Batch) : List Node :=
  (made ++ current.toList).flatMap Batch.data

theorem held_close (made : List Batch) (current : Option Batch) :
    held (made ++ current.toList) none = held made current := by
  rw [held, held, Option.toList_none, List.append_nil]

theorem held_start (made : List Batch) (r : Struct) :
    held made (some ⟨r, []⟩) = held made none := by
  simp [held]

theorem held_extend {made : List Batch} {current : Option Batch} {ds : List Node}
    (h : Takes current ds) : held made (current.map (·.extend ds)) = held made current ++ ds := by
  cases current with
  | some b => simp [held, Batch.extend]
  | none =>
    rcases h with rfl | ⟨b, hb, _⟩
    · rw [List.append_nil]
      rfl
    · cases hb

/-- closing makes the open batch a table -/
theorem Closes.eq_map {current : Option Batch} {ts : List Table} (h : Closes current [] ts) :
    ts = current.toList.map Batch.table ∧
      ∀ b ∈ current.toList, b.record.cols ∣ b.data.length := by
  cases current with
  | none => cases h; exact ⟨rfl, fun b hb => (nomatch hb)⟩
  | some b =>
    obtain ⟨whole, rfl⟩ := Assembler.closes_some_iff.mp h
    exact ⟨rfl, List.forall_mem_singleton.mpr whole⟩

theorem Yields.append {ns ms ds es : List Node} (h : Yields ns ds) (h' : Yields ms es) :
    Yields (ns ++ ms) (ds ++ es) := by
  induction h with
  | nil => exact h'
  | other hother _ ih => exact .other hother ih
  | data first _ ih =>
    rw [List.append_assoc]
    exact .data first ih

namespace Assembler

section
variable {a a' : Assembler} {earlier : List Table} {made : List Batch} {current : Option Batch}

theorem Batched.begin (object : Object) : Batched ⟨object, none⟩ object.tables [] none :=
  ⟨⟨rfl, fun _ hb => (nomatch hb)⟩, (List.append_nil _).symm, fun _ hb => (nomatch hb)⟩

theorem Batched.close (h : a.Batched earlier made current) (hclose : a.close = (a', none)) :
    a'.Batched earlier (made ++ current.toList) none := by
  obtain ⟨ts, hts, rfl⟩ := (close_eq_iff h.holds).mp hclose
  obtain ⟨rfl, hwhole⟩ := hts.eq_map
  refine ⟨⟨rfl, fun b hb => (nomatch hb)⟩, ?_, List.forall_mem_append.mpr ⟨h.whole, hwhole⟩⟩
  show a.object.tables ++ _ = _
  rw [h.tables, List.map_append, List.append_assoc]

theorem Batched.record (h : a.Batched earlier made current) {types : List Node}
    (hrecord : a.statement (.record types) = (a', none)) :
    ∃ r, a'.Batched earlier (made ++ current.toList) (some ⟨r, []⟩) := by
  obtain ⟨ts, r, hts, _, rfl⟩ := (record_eq_iff h.holds).mp hrecord
  obtain ⟨rfl, hwhole⟩ := hts.eq_map
  refine ⟨r, ⟨rfl, fun b hb _ => by cases hb; rfl⟩, ?_,
    List.forall_mem_append.mpr ⟨h.whole, hwhole⟩⟩
  show a.object.tables ++ _ = _
  rw [h.tables, List.map_append, List.append_assoc]

theorem taken_of_none {x : Action} (h : a.act x = (a', none)) : a.taken x = x.nodes := by
  rw [taken, h]

theorem taken_of_some {x : Action} {e : Failure} (h : a.act x = (a', some e)) :
    a.taken x = [] := by
  rw [taken, h]

/-- a state that holds some data, in the tables since some earlier ones and in its builder -/
def Packed (a : Assembler) (earlier : List Table) (ds : List Node) : Prop :=
  ∃ made current, a.Batched earlier made current ∧ held made current = ds

theorem Batched.packed (h : a.Batched earlier made current) :
    a.Packed earlier (held made current) := ⟨made, current, h, rfl⟩

theorem Batched.packed_close (h : a.Batched earlier made current) (hclose : a.close = (a', none)) :
    a'.Packed earlier (held made current) := ⟨_, none, h.close hclose, held_close made current⟩

/-- a statement that does not fail packs its data after all others -/
theorem Batched.statement (h : a.Batched earlier made current) {n : Node}
    (hn : a.statement n = (a', none)) :
    ∃ ds, Yields [n] ds ∧ a'.Packed earlier (held made current ++ ds) := by
  have hdata : n.isData = true →
      ∃ ds, Yields [n] ds ∧ a'.Packed earlier (held made current ++ ds) := by
    intro hdata
    obtain ⟨ds, hds, htakes, rfl⟩ := (data_eq_iff h.holds hdata).mp hn
    have hyields := Yields.data hds .nil
    rw [List.append_nil] at hyields
    exact ⟨ds, hyields, made, _, ⟨h.holds.extend htakes, h.tables, h.whole⟩, held_extend htakes⟩
  have hother : n.isData = false → a'.Packed earlier (held made current) →
      ∃ ds, Yields [n] ds ∧ a'.Packed earlier (held made current ++ ds) := fun hn hpacked =>
    ⟨[], .other hn .nil, by rwa [List.append_nil]⟩
  cases n with
  | void =>
    cases hn
    exact hother rfl h.packed
  | atomDef name t =>
    obtain ⟨atoms, _, rfl⟩ := defineAtom_eq_iff.mp hn
    exact hother rfl
      ⟨made, current, ⟨⟨h.holds.builder, h.holds.empty⟩, h.tables, h.whole⟩, rfl⟩
  | record types =>
    obtain ⟨r, hbatched⟩ := h.record hn
    exact hother rfl ⟨_, _, hbatched, (held_start _ r).trans (held_close made current)⟩
  | value number kind t => exact hdata rfl
  | atomRef name t => exact hdata rfl
  | binary lhs op rhs t => exact hdata rfl
  | string text t => exact hdata rfl
  | macroRef name t => cases hn
  | primitive name width t => cases hn
  | structName name t => cases hn
  | list items => cases hn

/-- **one action**: the data of a statement that does not fail come after all others, and no other
action packs anything -/
theorem Packed.act {ds : List Node} (h : a.Packed earlier ds) (x : Action) :
    ∃ es, Yields (a.taken x) es ∧ (a.act x).1.Packed earlier (ds ++ es) := by
  obtain ⟨made, current, hbatched, rfl⟩ := h
  cases hact : a.act x with
  | mk a' out =>
    cases out with
    | none =>
      rw [taken_of_none hact]
      cases x with
      | statement n => exact hbatched.statement hact
      | close => exact ⟨[], .nil, by rw [List.append_nil]; exact hbatched.packed_close hact⟩
    | some e =>
      rw [taken_of_some hact]
      refine ⟨[], .nil, ?_⟩
      rw [List.append_nil]
      cases x with
      | statement n =>
        rcases statement_fails hbatched.holds hact with rfl | ⟨_, _, hclose, _⟩
        · exact hbatched.packed
        · exact hbatched.packed_close hclose
      | close =>
        rw [(close_fails hact).1]
        exact hbatched.packed

/-- **several actions**: the data of the statements that do not fail come one after the other -/
theorem Packed.carry {ds : List Node} (h : a.Packed earlier ds) (xs : List Action) :
    ∃ es, Yields (a.accepted xs) es ∧ (a.carry xs).Packed earlier (ds ++ es) := by
  induction xs generalizing a ds with
  | nil => exact ⟨[], .nil, by rwa [List.append_nil]⟩
  | cons x xs ih =>
    obtain ⟨es, hes, hstep⟩ := h.act x
    obtain ⟨fs, hfs, hrest⟩ := ih hstep
    rw [List.append_assoc] at hrest
    exact ⟨es ++ fs, hes.append hfs, hrest⟩

end

/-- after any actions, the tables since the beginning and the builder hold what the statements packed
that did not fail -/
theorem packed_carry (object : Object) (actions : List Action) :
    ∃ ds, Yields ((⟨object, none⟩ : Assembler).accepted actions) ds ∧
      ((⟨object, none⟩ : Assembler).carry actions).Packed object.tables ds :=
  Packed.carry (Batched.begin object).packed actions

theorem holds_carry (object : Object) (actions : List Action) :
    ∃ current, ((⟨object, none⟩ : Assembler).carry actions).Holds current := by
  obtain ⟨_, _, _, current, hbatched, _⟩ := packed_carry object actions
  exact ⟨current, hbatched.holds⟩

/-! ## what failures leave -/

/-- **A failing step changes nothing.**  Whatever was done before, a statement or a close that fails
leaves the whole state as it was; only a record type that closed the table before it and then could
not be resolved leaves what the close alone would have left. -/
theorem failing_unchanged {object : Object} {actions : List Action} {a a' : Assembler}
    (h : a = (⟨object, none⟩ : Assembler).carry actions) {x : Action} {e : Failure}
    (hfails : a.act x = (a', some e)) :
    a' = a ∧ (x = .close → ∃ t, e = .fault ⟨.unsatisfied, t, none⟩) ∧
        (∀ types, x = .statement (.record types) → a.close = (a, some e)) ∨
      (∃ types, x = .statement (.record types) ∧
          Struct.resolve a.object.structs none types = .error e) ∧
        Unresolved e ∧ a.close = (a', none) ∧ a' = a.closed := by
  obtain ⟨current, hholds⟩ := holds_carry object actions
  rw [← h] at hholds
  cases x with
  | close =>
    obtain ⟨hsame, hkind⟩ := close_fails hfails
    exact .inl ⟨hsame, fun _ => hkind, fun types hx => (nomatch hx)⟩
  | statement n =>
    by_cases hrecord : ∃ types, n = .record types
    · obtain ⟨types, rfl⟩ := hrecord
      rcases record_fails hfails with hclose | ⟨hclose, hresolve⟩
      · obtain ⟨rfl, _⟩ := close_fails hclose
        exact .inl ⟨rfl, fun hx => (nomatch hx), fun _ _ => hclose⟩
      · exact .inr ⟨⟨types, rfl, hresolve⟩, extend_fails hresolve, hclose, close_succeeds hclose⟩
    · rcases statement_fails hholds hfails with hsame | ⟨types, rfl, _⟩
      · exact .inl ⟨hsame, fun hx => (nomatch hx), fun types hx => by
          cases hx
          exact absurd ⟨types, rfl⟩ hrecord⟩
      · exact absurd ⟨types, rfl⟩ hrecord

/-- the state after a record type, half a row of it, a close that fails, and the other half -/
def betweenRows : Assembler :=
  (⟨{}, none⟩ : Assembler).carry
    [.statement (.record [.primitive "byte" 8 (some 0), .primitive "word" 16 (some 1)]),
      .statement (.value (.integer 7) .int (some 2)), .close, .statement (.string "!" (some 3))]

theorem failing_unknownType :
    betweenRows.act
        (.statement (.record [.primitive "byte" 8 (some 4), .structName "Sprite" (some 5)]))
      = (betweenRows.closed, some (.fault ⟨.undefined, some 5, none⟩)) ∧
    betweenRows.close = (betweenRows.closed, none) ∧
    betweenRows.closed.object.tables.length = 1 := by
  have hact : betweenRows.act
      (.statement (.record [.primitive "byte" 8 (some 4), .structName "Sprite" (some 5)]))
        = (betweenRows.closed, some (.fault ⟨.undefined, some 5, none⟩)) := rfl
  have hlength : betweenRows.closed.object.tables.length = 1 := rfl
  have hbegin : betweenRows = (⟨{}, none⟩ : Assembler).carry _ := rfl
  refine ⟨hact, ?_, hlength⟩
  rcases failing_unchanged hbegin hact with ⟨hsame, _⟩ | ⟨_, _, hclose, _⟩
  · -- the table that was closed is not in the state before
    rw [hsame] at hlength
    cases hlength
  · exact hclose

end Assembler

end TableAssembler

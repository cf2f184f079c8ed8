import TableAssembler.Proofs.Object.Program
import TableAssembler.Proofs.Record.Store
import TableAssembler.Proofs.Record.Totals

/-!
# Nesting in registries

A registry does not check what is nested in a record type.  But a record type that comes from types
that were resolved nests only what the registry knew at that time, and that stays as it is.  So the
record types of a registry nest one another in the order of their definitions, and never in a
circle.

* `NestsIn`                    fields that nest only what is among some definitions;
* `Layered`                    definitions that nest only what was defined before them;
* `nestsIn_of_resolve`         what is resolved in such a registry;
* `Structs.Resolving`          calls that put in only what was resolved in the registry;
* `layered_made`               what is defined after such calls;
* `first_definition_stands`    definitions and look-ups in any order, and what is nested.
-/

namespace TableAssembler

/-! ## fields among definitions -/

/-- the record types among some fields are among some definitions, each under the name of its
field -/
def NestsIn (ds : List (Definition Struct)) (places : List Field) : Prop :=
  ∀ name struct fields, .nested name struct fields ∈ places →
    ∃ e ∈ ds, e.name = name ∧ e.symbol = ⟨struct, fields⟩

/-- each record type nests, at any depth, only what was defined before it -/
def Layered (ds : List (Definition Struct)) : Prop :=
  ∀ before d after, ds = before ++ d :: after →
    NestsIn before (Field.placesOf d.symbol.fields)

theorem NestsIn.mono {ds es : List (Definition Struct)} {places : List Field}
    (h : NestsIn ds places) (hsub : ds ⊆ es) : NestsIn es places := by
  intro name struct fields hm
  obtain ⟨e, he, hsame⟩ := h name struct fields hm
  exact ⟨e, hsub he, hsame⟩

theorem NestsIn.append {ds : List (Definition Struct)} {places more : List Field}
    (h : NestsIn ds places) (hmore : NestsIn ds more) : NestsIn ds (places ++ more) :=
  fun name struct fields hm => (List.mem_append.mp hm).elim (h name struct fields)
    (hmore name struct fields)

theorem Layered.nestsIn_of_mem {ds : List (Definition Struct)} (h : Layered ds)
    {d : Definition Struct} (hd : d ∈ ds) : NestsIn ds (Field.placesOf d.symbol.fields) := by
  obtain ⟨before, after, rfl⟩ := List.append_of_mem hd
  exact (h before d after rfl).mono (List.subset_append_left _ _)

theorem Layered.of_prefix {ds es : List (Definition Struct)} (h : Layered es) (hle : ds <+: es) :
    Layered ds := by
  obtain ⟨more, rfl⟩ := hle
  exact fun before d after hds =>
    h before d (after ++ more) (by rw [hds, List.append_assoc, List.cons_append])

theorem layered_nil : Layered [] := by
  intro before d after h
  cases before <;> cases h

theorem Layered.snoc {ds : List (Definition Struct)} {d : Definition Struct} (h : Layered ds)
    (hd : NestsIn ds (Field.placesOf d.symbol.fields)) : Layered (ds ++ [d]) := by
  intro before e after heq
  rcases List.eq_nil_or_concat after with rfl | ⟨after, last, rfl⟩
  · obtain ⟨rfl, hlast⟩ := List.append_inj' heq rfl
    cases hlast
    exact hd
  · rw [List.concat_eq_append, ← List.cons_append, ← List.append_assoc] at heq
    obtain ⟨rfl, _⟩ := List.append_inj' heq rfl
    exact h before e after rfl

/-! ## resolving -/

section
variable {structs : Structs} (layered : Layered structs.definitions)
include layered

/-- a field nests what the registry knows -/
theorem nestsIn_of_typeField {n : Node} {f : Field} (h : TypeField structs n f) :
    NestsIn structs.definitions f.places := by
  intro name struct fields hm
  cases h with
  | primitive => cases List.mem_singleton.mp hm
  | nested hfind =>
    obtain ⟨hd, hname⟩ := Layer.find?_eq_some_iff.mp hfind
    rw [Struct.nested, Field.places] at hm
    rcases List.mem_cons.mp hm with hself | hinner
    · cases hself
      exact ⟨_, hd, hname, rfl⟩
    · exact layered.nestsIn_of_mem hd name struct fields hinner

theorem nestsIn_of_typeFields {types : List Node} {fs : List Field}
    (h : List.Forall₂ (TypeField structs) types fs) :
    NestsIn structs.definitions (Field.placesOf fs) := by
  induction h with
  | nil => exact fun name struct fields hm => (nomatch hm)
  | cons first _ ih => exact (nestsIn_of_typeField layered first).append ih

/-- **a record type that was resolved** nests what the registry knows -/
theorem nestsIn_of_resolve {title : Option String} {types : List Node} {r : Struct}
    (h : Struct.resolve structs title types = .ok r) :
    NestsIn structs.definitions (Field.placesOf r.fields) := by
  obtain ⟨fs, hfs, rfl⟩ := extend_eq_ok_iff.mp h
  exact nestsIn_of_typeFields layered hfs

end

/-! ## calls -/

namespace Structs

/-- each record type that is put into the registry comes from types that were resolved in it, as it
was at that time or before -/
def Resolving (cs : List Call) : Prop :=
  ∀ before name struct place after, cs = before ++ .define name struct place :: after →
    (∀ d ∈ calls.made before, d.name ≠ name) →
    ∃ earlier later title types, before = earlier ++ later ∧
      Struct.resolve (calls.after earlier) title types = .ok struct

theorem Resolving.of_append {cs more : List Call} (h : Resolving (cs ++ more)) : Resolving cs :=
  fun before name struct place after hcs =>
    h before name struct place (after ++ more) (by rw [hcs, List.append_assoc, List.cons_append])

/-- **a registry after such calls** nests in the order of its definitions -/
theorem layered_made {cs : List Call} (h : Resolving cs) : Layered (calls.made cs) := by
  induction cs using List.reverseRecOn with
  | nil => exact layered_nil
  | append_singleton cs c ih =>
    have layered : Layered (calls.made cs) := ih h.of_append
    rw [← Collection.definitions_after, Collection.after_snoc]
    rcases Collection.perform_cases (k := calls) (calls.after cs) c with
      ⟨_, hsame⟩ | ⟨d, _, _, hrefused⟩ | ⟨d, structs', hasked, hnew, hmade, hdefinitions⟩
    · rw [hsame, Collection.definitions_after]
      exact layered
    · rw [hrefused, Collection.definitions_after]
      exact layered
    · rw [hmade, hdefinitions, Collection.definitions_after]
      refine layered.snoc ?_
      cases c with
      | find name place => cases hasked
      | define name struct place =>
        cases hasked
        have hfirst : ∀ e ∈ calls.made cs, e.name ≠ name := fun e he hname =>
          hnew (Layer.mem_names_iff.mpr ⟨e, by rwa [Collection.definitions_after], hname⟩)
        -- what was resolved nests what was known then, and all of that is still known
        obtain ⟨earlier, later, title, types, rfl, hresolve⟩ := h cs name struct place [] rfl hfirst
        have hle : calls.made earlier <+: calls.made (earlier ++ later) :=
          calls.made_prefix earlier later
        rw [← Collection.definitions_after] at hle
        exact (nestsIn_of_resolve (layered.of_prefix hle) hresolve).mono hle.subset

end Structs

/-- **The first definition stands.**  After any calls on a registry or on a collection of atoms, a
definition fails, and changes nothing, if one of its name did not fail before it, and only then; a
look-up gives what was defined first, and fails if nothing was.  All names are there once, in the
order of their first definition.  The same is found if tokens and symbols are kept in two
dictionaries.  If all record types that are put into a registry were resolved in it, then each
record type that is nested in one of them, at any depth, is the one that is known by the name of its
field, and was defined before it. -/
theorem first_definition_stands :
    (∀ before : List Structs.Call, Structs.FirstStands before) ∧
    (∀ before : List Atoms.Call, Atoms.FirstStands before) ∧
    (∀ (α γ β : Type) (k : Collection α γ β) (cs : List γ),
      (({} : Store α).mountAll (k.asked cs)).Stores (k.after cs) ∧
      ∀ name, (({} : Store α).mountAll (k.asked cs)).symbols.lookup name
          = (k.first? cs name).map Definition.symbol ∧
        (({} : Store α).mountAll (k.asked cs)).places.lookup name
          = (k.first? cs name).map Definition.place) ∧
    ∀ cs : List Structs.Call, Structs.Resolving cs → ∀ before d after,
      (Structs.calls.after cs).definitions = before ++ d :: after →
      ∀ name struct fields, .nested name struct fields ∈ Field.placesOf d.symbol.fields →
        (∃ e ∈ before, e.name = name ∧ e.symbol = ⟨struct, fields⟩) ∧
          ∀ place, Structs.find (Structs.calls.after cs) name place = .ok ⟨struct, fields⟩ := by
  refine ⟨Structs.firstStands, Atoms.firstStands,
    fun α γ β k cs => ⟨Store.stores_after k cs, Store.lookup_after k cs⟩,
    fun cs hcs before d after hsplit name struct fields hm => ?_⟩
  have layered := Structs.layered_made hcs
  rw [← Collection.definitions_after] at layered
  obtain ⟨e, he, hname, hsymbol⟩ := layered before d after hsplit name struct fields hm
  refine ⟨⟨e, he, hname, hsymbol⟩, fun place => ?_⟩
  have hmem : e ∈ (Structs.calls.after cs).definitions :=
    hsplit ▸ List.mem_append_left _ he
  rw [Structs.find, Layer.find?_eq_some_iff.mpr ⟨hmem, hname⟩]
  exact congrArg _ hsymbol

/-- a pair of bytes, another one of the same name, and a row with a pair in it -/
def pairCalls : List Structs.Call :=
  [.define "Pair" ⟨none, [.primitive ⟨"byte", 8⟩, .primitive ⟨"byte", 8⟩]⟩
      (some (.spot 0)),
    .define "Pair" ⟨none, [.primitive ⟨"word", 16⟩]⟩ (some (.spot 4)),
    .define "Row" ⟨none, [.nested "Pair" none [.primitive ⟨"byte", 8⟩, .primitive ⟨"byte", 8⟩]]⟩
      none]

theorem resolving_pairCalls : Structs.Resolving pairCalls := by
  intro before name struct place after hsplit hnew
  rcases before with _ | ⟨first, _ | ⟨second, _ | ⟨third, before⟩⟩⟩
  · cases hsplit
    exact ⟨[], [], none, [.primitive "byte" 8 none, .primitive "byte" 8 none], rfl, rfl⟩
  · cases hsplit
    exact absurd rfl (hnew _ List.mem_cons_self)
  · cases hsplit
    exact ⟨_, [], none, [.structName "Pair" none], (List.append_nil _).symm, rfl⟩
  · cases before <;> cases hsplit

/-- the second pair is refused, and the row nests the first -/
theorem first_definition_stands_pairCalls :
    Structs.Resolving pairCalls ∧ (Structs.calls.after pairCalls).names = ["Pair", "Row"] ∧
      Structs.perform (Structs.calls.after (pairCalls.take 1))
          (.define "Pair" ⟨none, [.primitive ⟨"word", 16⟩]⟩ (some (.spot 4)))
        = (Structs.calls.after (pairCalls.take 1), .error ⟨.duplicate, some 4, none⟩) ∧
      ∀ place, Structs.find (Structs.calls.after pairCalls) "Pair" place
        = .ok ⟨none, [.primitive ⟨"byte", 8⟩, .primitive ⟨"byte", 8⟩]⟩ :=
  ⟨resolving_pairCalls, rfl,
    (first_definition_stands.1 (pairCalls.take 1)).refused _ _ _ ⟨_, List.mem_cons_self, rfl⟩,
    (first_definition_stands.2.2.2 pairCalls resolving_pairCalls [_] _ [] rfl "Pair" none _
      List.mem_cons_self).2⟩

end TableAssembler

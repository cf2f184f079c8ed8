import Mathlib.Data.List.Induction
import Mathlib.Data.List.Nodup
import TableAssembler.Object.Atom
import TableAssembler.Record.Struct

/-!
# Calls on collections

Record types and atoms are kept in the same way: a call defines a name, or it looks one up.  After
any calls a collection holds the definitions that did not fail, and a definition fails if and only
if one of its name did not fail before it.

* `Layer.find?_eq_some_iff`    each definition is found by its name;
* `Collection`                 what the calls of a collection do, with the laws for definitions;
* `Collection.run`, `after`, `log`, `made`   calls in a row, and the definitions that did not fail;
* `definitions_after`          a collection holds these;
* `names_after`                in the order in which their names were first defined;
* `perform_of_old`, `perform_of_new`   the next definition;
* `Structs.calls`, `Atoms.calls`   the two collections.
-/

namespace TableAssembler

/-! ## one definition -/

namespace Layer

variable {α : Type} {l : Layer α} {d : Definition α}

theorem mem_names_iff {name : String} : name ∈ l.names ↔ ∃ d ∈ l.definitions, d.name = name :=
  List.mem_map

/-- each definition is found by its name -/
theorem find?_eq_some_iff {name : String} :
    l.find? name = some d ↔ d ∈ l.definitions ∧ d.name = name := by
  have hfound : ∀ {e}, l.find? name = some e → e ∈ l.definitions ∧ e.name = name := by
    intro e he
    rw [find?] at he
    exact ⟨List.mem_of_find?_eq_some he, by simpa using List.find?_some he⟩
  refine ⟨hfound, fun h => ?_⟩
  obtain ⟨hd, hname⟩ := h
  cases hfind : l.find? name with
  | none => exact absurd (mem_names_iff.mpr ⟨d, hd, hname⟩) ((l.find?_eq_none_iff name).mp hfind)
  | some e =>
    obtain ⟨he, hename⟩ := hfound hfind
    rw [List.inj_on_of_nodup_map l.distinct he hd (hename.trans hname.symm)]

end Layer

/-! ## calls in a row -/

/-- A collection of what is defined by name.  A call may ask for a definition, which is made if its
name is new and refused otherwise, at its own place; any other call changes nothing. -/
structure Collection (α γ β : Type) where
  /-- what a call leaves, and what it answers -/
  perform : Layer α → γ → Layer α × Except Fault β
  /-- the definition that a call asks for -/
  asked? : γ → Option (Definition α)
  /-- the answer to a definition that is made -/
  answer : Definition α → β
  makes : ∀ {l : Layer α} {c : γ} {d : Definition α}, asked? c = some d →
    ∀ h : d.name ∉ l.names, perform l c = (l.add d h, .ok (answer d))
  refuses : ∀ {l : Layer α} {c : γ} {d : Definition α}, asked? c = some d →
    d.name ∈ l.names → perform l c = (l, .error ⟨.duplicate, d.place.bind Site.left, none⟩)
  looksUp : ∀ {l : Layer α} {c : γ}, asked? c = none → (perform l c).1 = l

namespace Collection

variable {α γ β : Type} (k : Collection α γ β)

/-- one more call, and its answer in the log -/
def step (s : Layer α × List (γ × Except Fault β)) (c : γ) : Layer α × List (γ × Except Fault β) :=
  ((k.perform s.1 c).1, s.2 ++ [(c, (k.perform s.1 c).2)])

/-- calls on a collection that was empty, with all answers -/
def run (cs : List γ) : Layer α × List (γ × Except Fault β) := cs.foldl k.step (.empty, [])

/-- what is defined after some calls -/
def after (cs : List γ) : Layer α := (k.run cs).1

/-- some calls with their answers -/
def log (cs : List γ) : List (γ × Except Fault β) := (k.run cs).2

/-- the definition that a call asks for, if the answer is that it is made -/
def granted? (e : γ × Except Fault β) : Option (Definition α) :=
  if e.2.isOk then k.asked? e.1 else none

/-- the definitions among some calls that did not fail, in order -/
def made (cs : List γ) : List (Definition α) := (k.log cs).filterMap k.granted?

/-- the first definition of a name among some calls, of those that did not fail -/
def first? (cs : List γ) (name : String) : Option (Definition α) :=
  (k.made cs).find? fun d => d.name == name

/-- the definitions that some calls ask for, whether they fail or not -/
def asked (cs : List γ) : List (Definition α) := cs.filterMap k.asked?

variable (cs : List γ) (c : γ)

theorem run_snoc : k.run (cs ++ [c]) = k.step (k.run cs) c := by
  rw [run, List.foldl_append]
  rfl

theorem after_snoc : k.after (cs ++ [c]) = (k.perform (k.after cs) c).1 := by
  rw [after, run_snoc]
  rfl

theorem made_snoc :
    k.made (cs ++ [c])
      = k.made cs ++ (k.granted? (c, (k.perform (k.after cs) c).2)).toList := by
  rw [made, log, run_snoc, step, List.filterMap_append]
  rfl

theorem asked_snoc : k.asked (cs ++ [c]) = k.asked cs ++ (k.asked? c).toList := by
  rw [asked, List.filterMap_append]
  rfl

/-- further calls take nothing away -/
theorem made_prefix (more : List γ) : k.made cs <+: k.made (cs ++ more) := by
  induction more using List.reverseRecOn with
  | nil => simp
  | append_singleton more c ih =>
    rw [← List.append_assoc, made_snoc]
    exact ih.trans (List.prefix_append _ _)

variable {k}

theorem asked?_of_granted? {e : γ × Except Fault β} {d : Definition α}
    (h : k.granted? e = some d) : k.asked? e.1 = some d := by
  unfold granted? at h
  split at h
  · exact h
  · cases h

/-- what is made was asked for -/
theorem mem_asked_of_mem_made {cs : List γ} {d : Definition α} (h : d ∈ k.made cs) :
    d ∈ k.asked cs := by
  induction cs using List.reverseRecOn with
  | nil => cases h
  | append_singleton cs c ih =>
    rw [made_snoc, List.mem_append, Option.mem_toList] at h
    rw [asked_snoc, List.mem_append, Option.mem_toList]
    exact h.imp ih asked?_of_granted?

/-! ## what a call does -/

/-- a call that asks for a definition leaves what its mount does -/
theorem fst_perform_of_asked {l : Layer α} {c : γ} {d : Definition α}
    (hasked : k.asked? c = some d) : (k.perform l c).1 = (l.mount d).1 := by
  by_cases h : d.name ∈ l.names
  · rw [k.refuses hasked h, Layer.mount_of_mem h]
  · rw [k.makes hasked h, Layer.mount_of_notMem h]

/-- a call changes nothing, or its definition is refused, or it is made -/
theorem perform_cases (l : Layer α) (c : γ) :
    (k.asked? c = none ∧ (k.perform l c).1 = l) ∨
    (∃ d, k.asked? c = some d ∧ d.name ∈ l.names ∧
      k.perform l c = (l, .error ⟨.duplicate, d.place.bind Site.left, none⟩)) ∨
    ∃ d l', k.asked? c = some d ∧ d.name ∉ l.names ∧ k.perform l c = (l', .ok (k.answer d)) ∧
      l'.definitions = l.definitions ++ [d] := by
  cases hasked : k.asked? c with
  | none => exact .inl ⟨rfl, k.looksUp hasked⟩
  | some d =>
    by_cases h : d.name ∈ l.names
    · exact .inr (.inl ⟨d, rfl, h, k.refuses hasked h⟩)
    · exact .inr (.inr ⟨d, l.add d h, rfl, h, k.makes hasked h, rfl⟩)

/-- **what is defined after some calls** are the definitions that did not fail -/
theorem definitions_after (cs : List γ) : (k.after cs).definitions = k.made cs := by
  induction cs using List.reverseRecOn with
  | nil => rfl
  | append_singleton cs c ih =>
    rw [after_snoc, made_snoc]
    rcases perform_cases (k.after cs) c with
      ⟨hasked, hsame⟩ | ⟨d, _, _, hrefused⟩ | ⟨d, l', hasked, _, hmade, hdefinitions⟩
    · rw [hsame, ih, granted?, hasked, ite_self, Option.toList_none, List.append_nil]
    · rw [hrefused, ih]
      exact (List.append_nil _).symm
    · rw [hmade, granted?, hasked, hdefinitions, ih]
      rfl

theorem names_snoc_eraseDups {names : List String} {name : String} :
    (names ++ [name]).eraseDups = names.eraseDups ++ if name ∈ names then [] else [name] := by
  rw [List.eraseDups_append, List.removeAll, List.filter_cons, List.filter_nil, List.elem_eq_mem]
  by_cases h : name ∈ names <;> simp [h, List.eraseDups_cons]

/-- **names in the order of their first definition**, whether later ones fail or not -/
theorem names_after (cs : List γ) :
    (k.after cs).names = ((k.asked cs).map Definition.name).eraseDups := by
  induction cs using List.reverseRecOn with
  | nil => rfl
  | append_singleton cs c ih =>
    have hmem : ∀ name, name ∈ (k.after cs).names ↔ name ∈ (k.asked cs).map Definition.name :=
      fun name => by rw [ih, List.mem_eraseDups]
    rw [after_snoc, asked_snoc, List.map_append]
    rcases perform_cases (k.after cs) c with
      ⟨hasked, hsame⟩ | ⟨d, hasked, hold, hrefused⟩ | ⟨d, l', hasked, hnew, hmade, hdefinitions⟩
    · rw [hsame, ih, hasked, Option.toList_none, List.map_nil, List.append_nil]
    · rw [hrefused, hasked, Option.toList_some, List.map_singleton, names_snoc_eraseDups,
        if_pos ((hmem _).mp hold), List.append_nil, ih]
    · rw [hmade, hasked, Option.toList_some, List.map_singleton, names_snoc_eraseDups,
        if_neg fun h => hnew ((hmem _).mpr h), Layer.names, hdefinitions, List.map_append, ← ih]
      rfl

theorem find?_after (cs : List γ) (name : String) :
    (k.after cs).find? name = k.first? cs name := by
  rw [Layer.find?, definitions_after, first?]

section
variable {cs : List γ} {c : γ} {d : Definition α} (hasked : k.asked? c = some d)
include hasked

/-- **a second definition** of a name is refused, and changes nothing -/
theorem perform_of_old (hold : ∃ e ∈ k.made cs, e.name = d.name) :
    k.perform (k.after cs) c
      = (k.after cs, .error ⟨.duplicate, d.place.bind Site.left, none⟩) := by
  rw [← definitions_after, ← Layer.mem_names_iff] at hold
  exact k.refuses hasked hold

/-- **a first definition** of a name is made -/
theorem perform_of_new (hnew : ∀ e ∈ k.made cs, e.name ≠ d.name) :
    ∃ l, k.perform (k.after cs) c = (l, .ok (k.answer d)) ∧
      l.definitions = k.made cs ++ [d] := by
  have hnone : d.name ∉ (k.after cs).names := fun hmem => by
    obtain ⟨e, he, hname⟩ := Layer.mem_names_iff.mp hmem
    rw [definitions_after] at he
    exact hnew e he hname
  refine ⟨_, k.makes hasked hnone, ?_⟩
  rw [← definitions_after]
  rfl

end

end Collection

/-! ## record types -/

namespace Structs

/-- a call on a registry: a definition, or a look-up, with its place if there is one -/
inductive Call where
  | define (name : String) (struct : Struct) (place : Option Site)
  | find (name : String) (place : Option Site)

/-- what a call leaves of a registry, and the record type that it answers -/
def perform (structs : Structs) : Call → Structs × Except Fault Struct
  | .define name struct place => structs.define name struct place
  | .find name place => (structs, structs.find name place)

def Call.asked? : Call → Option (Definition Struct)
  | .define name struct place => some ⟨name, place, struct⟩
  | .find _ _ => none

/-- the calls on registries -/
def calls : Collection Struct Call Struct where
  perform := perform
  asked? := Call.asked?
  answer := Definition.symbol
  makes := by
    intro l c d hasked h
    cases c with
    | define name struct place =>
      cases hasked
      exact define_of_notMem h struct place
    | find name place => cases hasked
  refuses := by
    intro l c d hasked h
    cases c with
    | define name struct place =>
      cases hasked
      exact define_of_mem h struct place
    | find name place => cases hasked
  looksUp := by
    intro l c hasked
    cases c with
    | define name struct place => cases hasked
    | find name place => rfl

theorem find_after (cs : List Call) (name : String) (place : Option Site) :
    Structs.find (calls.after cs) name place = match calls.first? cs name with
      | some d => .ok d.symbol
      | none => .error ⟨.undefined, place.bind Site.left, none⟩ := by
  unfold Structs.find
  cases hfirst : calls.first? cs name <;>
    simp only [Collection.find?_after, hfirst, Site.blame_eq]

/-- after some calls on a registry, the first definition of each name stands -/
structure FirstStands (before : List Call) : Prop where
  refused : ∀ name struct place, (∃ d ∈ calls.made before, d.name = name) →
    perform (calls.after before) (.define name struct place)
      = (calls.after before, .error ⟨.duplicate, place.bind Site.left, none⟩)
  defined : ∀ name struct place, (∀ d ∈ calls.made before, d.name ≠ name) →
    ∃ structs : Structs,
      perform (calls.after before) (.define name struct place) = (structs, .ok struct) ∧
      structs.definitions = (calls.after before).definitions ++ [⟨name, place, struct⟩]
  found : ∀ name place, perform (calls.after before) (.find name place)
    = (calls.after before, match calls.first? before name with
      | some d => .ok d.symbol
      | none => .error ⟨.undefined, place.bind Site.left, none⟩)
  names : (calls.after before).names = (calls.made before).map Definition.name
  distinct : (calls.after before).names.Nodup
  ordered : (calls.after before).names
    = ((calls.asked before).map Definition.name).eraseDups
  size : (calls.after before).size = (calls.after before).names.length

/-- **a registry after any calls** -/
theorem firstStands (before : List Call) : FirstStands before where
  refused name struct place hold :=
    Collection.perform_of_old (k := calls) (c := .define name struct place) rfl hold
  defined name struct place hnew := by
    rw [Collection.definitions_after]
    exact Collection.perform_of_new (k := calls) (c := .define name struct place) rfl hnew
  found name place := by rw [perform, find_after]
  names := by rw [Layer.names, Collection.definitions_after]
  distinct := (calls.after before).distinct
  ordered := Collection.names_after before
  size := by rw [Layer.size, Layer.names, List.length_map]

end Structs

/-! ## atoms -/

namespace Atoms

/-- a call on a collection of atoms: a definition, or a look-up of the atom or of its token -/
inductive Call where
  | define (atom : Atom)
  | find (name : String)
  | firstDefinition (name : String)

inductive Answer where
  | atom (atom : Atom)
  | place (place : Option Site)

/-- what a call leaves of a collection, and what it answers -/
def perform (atoms : Atoms) : Call → Atoms × Except Fault Answer
  | .define atom => ((atoms.define atom).1, .atom <$> (atoms.define atom).2)
  | .find name => (atoms, .atom <$> atoms.find name)
  | .firstDefinition name => (atoms, .place <$> atoms.firstDefinition name)

def Call.asked? : Call → Option (Definition Atom)
  | .define atom => some ⟨atom.name, atom.token.map .spot, atom⟩
  | _ => none

/-- the place of an atom starts at its token -/
theorem left_place (token : Option Nat) : (token.map Site.spot).bind Site.left = token := by
  cases token <;> rfl

/-- the calls on collections of atoms -/
def calls : Collection Atom Call Answer where
  perform := perform
  asked? := Call.asked?
  answer := fun d => .atom d.symbol
  makes := by
    intro l c d hasked h
    cases c with
    | define atom =>
      cases hasked
      rw [perform, define_of_notMem h]
      rfl
    | _ => cases hasked
  refuses := by
    intro l c d hasked h
    cases c with
    | define atom =>
      cases hasked
      rw [perform, define_of_mem h, left_place]
      rfl
    | _ => cases hasked
  looksUp := by
    intro l c hasked
    cases c with
    | define atom => cases hasked
    | _ => rfl

/-- an atom is defined under its own name -/
theorem name_of_mem_made {cs : List Call} {d : Definition Atom} (h : d ∈ calls.made cs) :
    d.symbol.name = d.name := by
  obtain ⟨c, _, hc⟩ := List.mem_filterMap.mp (Collection.mem_asked_of_mem_made h)
  cases c with
  | define atom =>
    cases hc
    rfl
  | _ => cases hc

theorem find_after (cs : List Call) (name : String) :
    Atoms.find (calls.after cs) name = match calls.first? cs name with
      | some d => .ok d.symbol
      | none => .error ⟨.undefined, none, none⟩ := by
  unfold Atoms.find
  cases hfirst : calls.first? cs name <;> simp only [Collection.find?_after, hfirst]

theorem firstDefinition_after (cs : List Call) (name : String) :
    firstDefinition (calls.after cs) name = match calls.first? cs name with
      | some d => .ok d.place
      | none => .error ⟨.undefined, none, none⟩ := by
  unfold Atoms.firstDefinition
  cases hfirst : calls.first? cs name <;> simp only [Collection.find?_after, hfirst]

/-- after some calls on a collection of atoms, the first definition of each name stands -/
structure FirstStands (before : List Call) : Prop where
  refused : ∀ atom : Atom, (∃ d ∈ calls.made before, d.name = atom.name) →
    perform (calls.after before) (.define atom)
      = (calls.after before, .error ⟨.duplicate, atom.token, none⟩)
  defined : ∀ atom : Atom, (∀ d ∈ calls.made before, d.name ≠ atom.name) →
    ∃ atoms : Atoms, perform (calls.after before) (.define atom) = (atoms, .ok (.atom atom)) ∧
      atoms.definitions
        = (calls.after before).definitions ++ [⟨atom.name, atom.token.map .spot, atom⟩]
  found : ∀ name, perform (calls.after before) (.find name)
    = (calls.after before, match calls.first? before name with
      | some d => .ok (.atom d.symbol)
      | none => .error ⟨.undefined, none, none⟩)
  located : ∀ name, perform (calls.after before) (.firstDefinition name)
    = (calls.after before, match calls.first? before name with
      | some d => .ok (.place d.place)
      | none => .error ⟨.undefined, none, none⟩)
  symbols : (calls.after before).symbols = (calls.made before).map Definition.symbol
  distinct : ((calls.after before).symbols.map Atom.name).Nodup
  ordered : (calls.after before).symbols.map Atom.name
    = ((calls.asked before).map Definition.name).eraseDups
  size : (calls.after before).size = (calls.after before).symbols.length

/-- the names of the atoms that are defined -/
theorem map_name_symbols_after (before : List Call) :
    (calls.after before).symbols.map Atom.name = (calls.after before).names := by
  rw [Layer.symbols, Layer.names, Collection.definitions_after, List.map_map]
  exact List.map_congr_left fun d hd => name_of_mem_made hd

/-- **a collection of atoms after any calls** -/
theorem firstStands (before : List Call) : FirstStands before where
  refused atom hold := by
    have hrefused := Collection.perform_of_old (k := calls) (c := .define atom) rfl hold
    rwa [left_place] at hrefused
  defined atom hnew := by
    rw [Collection.definitions_after]
    exact Collection.perform_of_new (k := calls) (c := .define atom) rfl hnew
  found name := by
    rw [perform, find_after]
    cases calls.first? before name <;> rfl
  located name := by
    rw [perform, firstDefinition_after]
    cases calls.first? before name <;> rfl
  symbols := by rw [Layer.symbols, Collection.definitions_after]
  distinct := by
    rw [map_name_symbols_after]
    exact (calls.after before).distinct
  ordered := (map_name_symbols_after before).trans (Collection.names_after before)
  size := by rw [Layer.size, Layer.symbols, List.length_map]

end Atoms

end TableAssembler

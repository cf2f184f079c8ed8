import TableAssembler.Proofs.Record.Calls

/-!
# Layers in two dictionaries

A layer can be kept in two dictionaries, of the places where the names are defined and of what the
names stand for.  Both are written at the same time and only for new names, so that they stay in
step: each name is a key of both or of none, and both have their keys in the order of definition.

* `assign`              what assignment to a key does to a dictionary;
* `Store`, `Store.mount`   the two dictionaries, and one more definition;
* `Store.Stores`        the dictionaries of a layer;
* `Store.Stores.mount`  one definition keeps them in step;
* `Store.Stores.places_lookup`, `symbols_lookup`   look-ups in either of them;
* `Store.stores_after`, `Store.lookup_after`   the dictionaries after any calls.
-/

namespace TableAssembler

/-- a dictionary after an assignment: a new key comes last, and an old one keeps its place -/
def assign {β : Type} (key : String) (value : β) : List (String × β) → List (String × β)
  | [] => [(key, value)]
  | entry :: entries =>
    if entry.1 = key then (key, value) :: entries else entry :: assign key value entries

theorem assign_of_new {β : Type} {key : String} {entries : List (String × β)} (value : β)
    (h : key ∉ entries.map Prod.fst) : assign key value entries = entries ++ [(key, value)] := by
  induction entries with
  | nil => rfl
  | cons entry entries ih =>
    rw [List.map_cons, List.mem_cons, not_or] at h
    rw [assign, if_neg (Ne.symm h.1), ih h.2, List.cons_append]

/-- a layer as it can be kept: the places of the definitions, and what the names stand for, each in a
dictionary of its own -/
structure Store (α : Type) where
  places : List (String × Option Site) := []
  symbols : List (String × α) := []

namespace Store

variable {α : Type}

/-- one more definition, unless its name is a key of the second dictionary: the dictionaries after
it, and its symbol if it is there now -/
def mount (s : Store α) (d : Definition α) : Store α × Option α :=
  if d.name ∈ s.symbols.map Prod.fst then (s, none)
  else (⟨assign d.name d.place s.places, assign d.name d.symbol s.symbols⟩, some d.symbol)

/-- the dictionaries after some definitions, whichever of them fail -/
def mountAll (s : Store α) (ds : List (Definition α)) : Store α :=
  ds.foldl (fun s d => (s.mount d).1) s

theorem mountAll_append (s : Store α) (ds es : List (Definition α)) :
    s.mountAll (ds ++ es) = (s.mountAll ds).mountAll es := List.foldl_append

/-- the dictionaries of a layer -/
structure Stores (s : Store α) (l : Layer α) : Prop where
  places : s.places = l.definitions.map fun d => (d.name, d.place)
  symbols : s.symbols = l.definitions.map fun d => (d.name, d.symbol)

theorem lookup_map {β : Type} (f : Definition α → β) (name : String)
    (ds : List (Definition α)) :
    (ds.map fun d => (d.name, f d)).lookup name = (ds.find? fun d => d.name == name).map f := by
  induction ds with
  | nil => rfl
  | cons d ds ih =>
    rw [List.map_cons, List.lookup_cons, List.find?_cons, Bool.beq_comm]
    cases d.name == name with
    | true => rfl
    | false => exact ih

namespace Stores

variable {s : Store α} {l : Layer α} (h : s.Stores l)
include h

theorem keys : s.places.map Prod.fst = l.names ∧ s.symbols.map Prod.fst = l.names := by
  rw [h.places, h.symbols, List.map_map, List.map_map]
  exact ⟨rfl, rfl⟩

/-- **one definition** keeps the dictionaries in step, and they refuse it if the layer does -/
theorem mount (d : Definition α) :
    (s.mount d).1.Stores (l.mount d).1 ∧ (s.mount d).2 = (l.mount d).2 := by
  obtain ⟨hplaces, hsymbols⟩ := h.keys
  unfold Store.mount
  rw [hsymbols]
  by_cases hold : d.name ∈ l.names
  · rw [if_pos hold, Layer.mount_of_mem hold]
    exact ⟨h, rfl⟩
  · rw [if_neg hold, Layer.mount_of_notMem hold, assign_of_new _ (hplaces ▸ hold),
      assign_of_new _ (hsymbols ▸ hold)]
    refine ⟨⟨?_, ?_⟩, rfl⟩
    · rw [Layer.add, List.map_append, h.places]
      rfl
    · rw [Layer.add, List.map_append, h.symbols]
      rfl

theorem places_lookup (name : String) :
    s.places.lookup name = (l.find? name).map Definition.place := by
  rw [h.places, lookup_map, Layer.find?]

theorem symbols_lookup (name : String) :
    s.symbols.lookup name = (l.find? name).map Definition.symbol := by
  rw [h.symbols, lookup_map, Layer.find?]

end Stores

/-- **the dictionaries after any calls** are those of the collection -/
theorem stores_after {γ β : Type} (k : Collection α γ β) (cs : List γ) :
    (({} : Store α).mountAll (k.asked cs)).Stores (k.after cs) := by
  induction cs using List.reverseRecOn with
  | nil => exact ⟨rfl, rfl⟩
  | append_singleton cs c ih =>
    rw [k.asked_snoc, k.after_snoc, mountAll_append]
    cases hasked : k.asked? c with
    | none =>
      rw [k.looksUp hasked]
      exact ih
    | some d =>
      rw [Collection.fst_perform_of_asked hasked]
      exact (ih.mount d).1

/-- **look-ups in the dictionaries** give the first definition that did not fail -/
theorem lookup_after {γ β : Type} (k : Collection α γ β) (cs : List γ) (name : String) :
    (({} : Store α).mountAll (k.asked cs)).symbols.lookup name
        = (k.first? cs name).map Definition.symbol ∧
      (({} : Store α).mountAll (k.asked cs)).places.lookup name
        = (k.first? cs name).map Definition.place := by
  have hstores := stores_after k cs
  rw [hstores.symbols_lookup, hstores.places_lookup, Collection.find?_after]
  exact ⟨rfl, rfl⟩

end Store

end TableAssembler

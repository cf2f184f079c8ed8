import TableAssembler.Node.Site

/-!
# Layers of names

A layer holds what an object defines, by name and in the order of definition.  It refuses to define
a name twice: the first definition stands.

* `Layer`              distinct names, each with a symbol and, if known, the place of its definition;
* `Layer.mount`        one more definition, if the name is new;
* `Layer.find?`        the definition of a name;
* `Layer.names`, `Layer.symbols`   what is defined, in order.
-/

namespace TableAssembler

/-- A name, the place where it is defined if that is known, and what it stands for. -/
structure Definition (α : Type) where
  name : String
  place : Option Site
  symbol : α
deriving Inhabited

/-- Definitions of distinct names, in order. -/
structure Layer (α : Type) where
  definitions : List (Definition α) := []
  distinct : (definitions.map Definition.name).Nodup := by exact List.nodup_nil

namespace Layer

variable {α : Type}

instance : Inhabited (Layer α) := ⟨{}⟩

def empty : Layer α := {}

def names (l : Layer α) : List String := l.definitions.map Definition.name

def symbols (l : Layer α) : List α := l.definitions.map Definition.symbol

def size (l : Layer α) : Nat := l.definitions.length

def find? (l : Layer α) (name : String) : Option (Definition α) :=
  l.definitions.find? fun d => d.name == name

def contains (l : Layer α) (name : String) : Bool := (l.find? name).isSome

theorem find?_eq_none_iff (l : Layer α) (name : String) :
    l.find? name = none ↔ name ∉ l.names := by
  simp [find?, names]

/-- One more definition after the others. -/
def add (l : Layer α) (d : Definition α) (h : d.name ∉ l.names) : Layer α where
  definitions := l.definitions ++ [d]
  distinct := by
    rw [List.map_append, List.nodup_append]
    refine ⟨l.distinct, by simp, ?_⟩
    intro a ha b hb hab
    rw [List.map_cons, List.map_nil, List.mem_singleton] at hb
    exact h (hb ▸ hab ▸ ha)

/-- One more definition: the layer after it, and its symbol unless it is refused. -/
def mount (l : Layer α) (d : Definition α) : Layer α × Option α :=
  match h : l.find? d.name with
  | none => (l.add d ((l.find?_eq_none_iff d.name).mp h), some d.symbol)
  | some _ => (l, none)

variable {l : Layer α} {d : Definition α}

/-- A name that is there is not defined again. -/
theorem mount_of_mem (h : d.name ∈ l.names) : l.mount d = (l, none) := by
  unfold mount
  split
  · next hnone => exact absurd h ((l.find?_eq_none_iff d.name).mp hnone)
  · rfl

theorem mount_of_notMem (h : d.name ∉ l.names) : l.mount d = (l.add d h, some d.symbol) := by
  unfold mount
  split
  · rfl
  · next hsome =>
    rw [(l.find?_eq_none_iff d.name).mpr h] at hsome
    cases hsome

end Layer

end TableAssembler

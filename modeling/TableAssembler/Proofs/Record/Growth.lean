import TableAssembler.Record.Struct

/-!
# Growing registries

The record types that are available by name only ever grow: a name keeps the record type that it was
defined with, whatever is defined after it.  So types that stand for a record type stand for the
same one in any larger registry, and types that stand for none fail there in the same way, unless
they fail at a name that was not known.

* `Structs.register`, `Structs.registerAll`   the registry after definitions, also after some that
                                fail;
* `Structs.Within`              all that one registry knows is known in another;
* `within_register`, `within_registerAll`   one definition, and several;
* `Failure.isUndefined`         a name that is not known;
* `resolve_within`              what types stand for in a larger registry.
-/

namespace TableAssembler

namespace Structs

/-! ## definitions, one after the other -/

/-- the registry after one definition, also after one that fails -/
def register (structs : Structs) (d : Definition Struct) : Structs :=
  (structs.define d.name d.symbol d.place).1

/-- the registry after some definitions, whichever of them fail -/
def registerAll (structs : Structs) : List (Definition Struct) → Structs
  | [] => structs
  | d :: ds => (structs.register d).registerAll ds

/-- what a name is defined as in one registry, it is defined as in another -/
def Within (structs structs' : Structs) : Prop :=
  ∀ name d, structs.find? name = some d → structs'.find? name = some d

theorem Within.refl (structs : Structs) : structs.Within structs := fun _ _ h => h

theorem Within.trans {s₁ s₂ s₃ : Structs} (h : s₁.Within s₂) (h' : s₂.Within s₃) :
    s₁.Within s₃ := fun name d hd => h' name d (h name d hd)

/-- **one definition** takes nothing away -/
theorem within_register (structs : Structs) (d : Definition Struct) :
    structs.Within (structs.register d) := by
  intro name e he
  rw [register]
  by_cases hname : d.name ∈ structs.names
  · rw [define_of_mem hname]
    exact he
  · rw [define_of_notMem hname]
    have hold : structs.definitions.find? (fun d => d.name == name) = some e := he
    show (structs.definitions ++ [d]).find? (fun d => d.name == name) = some e
    rw [List.find?_append, hold, Option.some_or]

/-- **several definitions** take nothing away -/
theorem within_registerAll (structs : Structs) (ds : List (Definition Struct)) :
    structs.Within (structs.registerAll ds) := by
  induction ds generalizing structs with
  | nil => exact .refl structs
  | cons d ds ih => exact (within_register structs d).trans (ih (structs.register d))

end Structs

/-! ## types in a larger registry -/

/-- whether a name is not known -/
def Failure.isUndefined : Failure → Bool
  | .fault f => f.kind == .undefined
  | .unsupported => false

section
variable {structs structs' : Structs} (h : structs.Within structs')
include h

/-- a type stands for the same field in a larger registry, unless its name was not known -/
theorem Field.resolve_within (n : Node) :
    Field.resolve structs' n = Field.resolve structs n ∨
      ∃ e, Field.resolve structs n = .error e ∧ e.isUndefined = true := by
  cases n with
  | structName name t =>
    rw [Field.resolve_structName, Field.resolve_structName]
    cases hfind : structs.find? name with
    | none => exact .inr ⟨_, rfl, rfl⟩
    | some d =>
      rw [h name d hfind]
      exact .inl rfl
  | _ => exact .inl rfl

theorem Struct.extend_within (s : Struct) (types : List Node) :
    s.extend structs' types = s.extend structs types ∨
      ∃ e, s.extend structs types = .error e ∧ e.isUndefined = true := by
  induction types generalizing s with
  | nil => exact .inl rfl
  | cons n ns ih =>
    unfold Struct.extend
    rcases Field.resolve_within h n with hsame | ⟨e, he, hundefined⟩
    · rw [hsame]
      cases Field.resolve structs n with
      | error e => exact .inl rfl
      | ok f => exact ih (s.addField f)
    · rw [he]
      exact .inr ⟨e, rfl, hundefined⟩

/-- **types in a larger registry** stand for the same record type, unless one of their names was not
known -/
theorem Struct.resolve_within (name : Option String) (types : List Node) :
    Struct.resolve structs' name types = Struct.resolve structs name types ∨
      ∃ e, Struct.resolve structs name types = .error e ∧ e.isUndefined = true :=
  Struct.extend_within h { name } types

end

end TableAssembler

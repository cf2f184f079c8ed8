import TableAssembler.Fault
import TableAssembler.Layer
import TableAssembler.Node.Basic
import TableAssembler.Record.Field

/-!
# Record types

* `Struct`               a record type, built field by field with `Struct.addField`;
* `Structs`              the record types that are available for nesting, by name;
* `Structs.define`, `Structs.find`   with the faults for a second definition and for none, and
  `Structs.define_of_mem`: a second definition changes nothing;
* `Struct.resolve`       the record type that a list of type nodes stands for.
-/

namespace TableAssembler

/-- A record type: its name, if it has one, and its fields in order. -/
structure Struct where
  name : Option String := none
  fields : List Field := []
deriving Inhabited

namespace Struct

def addField (s : Struct) (f : Field) : Struct := { s with fields := s.fields ++ [f] }

def stride (s : Struct) : Nat := Field.strideOf s.fields

def cols (s : Struct) : Nat := Field.colsOf s.fields

/-- The primitive fields of a record in order, nested ones flattened out. -/
def leaves (s : Struct) : List Leaf := Field.leavesOf s.fields

/-- The record type as a field of another one. -/
def nested (s : Struct) (name : String) : Field := .nested name s.name s.fields

/-- How a record type is shown: by the names of its fields. -/
def text (s : Struct) : String :=
  "<" ++ String.intercalate ", " (s.fields.map Field.name) ++ ">"

end Struct

/-! ## record types by name -/

/-- The record types that are available for nesting, by name. -/
abbrev Structs := Layer Struct

namespace Structs

/-- One more record type by name: the registry after it, and the record type.  A name that is
defined already is a fault at the place of the new definition. -/
def define (structs : Structs) (name : String) (struct : Struct) (place : Option Site) :
    Structs × Except Fault Struct :=
  match structs.mount ⟨name, place, struct⟩ with
  | (structs', some struct) => (structs', .ok struct)
  | (structs', none) => (structs', .error ⟨.duplicate, Site.blame place, none⟩)

theorem define_of_mem {structs : Structs} {name : String} (h : name ∈ structs.names)
    (struct : Struct) (place : Option Site) : structs.define name struct place
      = (structs, .error ⟨.duplicate, place.bind Site.left, none⟩) := by
  rw [define, Layer.mount_of_mem (d := ⟨name, place, struct⟩) h, ← Site.blame_eq]

theorem define_of_notMem {structs : Structs} {name : String} (h : name ∉ structs.names)
    (struct : Struct) (place : Option Site) :
    structs.define name struct place = (structs.add ⟨name, place, struct⟩ h, .ok struct) := by
  rw [define, Layer.mount_of_notMem (d := ⟨name, place, struct⟩) h]

/-- The record type of a name.  A name that is not defined is a fault at the place that asks. -/
def find (structs : Structs) (name : String) (place : Option Site) : Except Fault Struct :=
  match structs.find? name with
  | some d => .ok d.symbol
  | none => .error ⟨.undefined, Site.blame place, none⟩

end Structs

/-! ## from nodes -/

/-- The field that a type node stands for.  A number or a name of another sort is unexpected, and
other nodes are not supported. -/
def Field.resolve (structs : Structs) : Node → Except Failure Field
  | .primitive name width _ => .ok (.primitive ⟨name, width⟩)
  | .structName name t =>
    match structs.find name (some (.structName name t)) with
    | .ok struct => .ok (struct.nested name)
    | .error f => .error (.fault f)
  | .value _ _ t => .error (.fault (.unexpected t))
  | .atomRef _ t => .error (.fault (.unexpected t))
  | .macroRef _ t => .error (.fault (.unexpected t))
  | _ => .error .unsupported

theorem Field.resolve_structName (structs : Structs) (name : String) (t : Option Nat) :
    Field.resolve structs (.structName name t) = match structs.find? name with
      | some d => .ok (d.symbol.nested name)
      | none => .error (.fault ⟨.undefined, t, none⟩) := by
  rw [Field.resolve, Structs.find, Site.blame_structName]
  cases structs.find? name <;> rfl

/-- A record type with more fields at its end, one for each type node. -/
def Struct.extend (structs : Structs) (s : Struct) : List Node → Except Failure Struct
  | [] => .ok s
  | n :: ns =>
    match Field.resolve structs n with
    | .ok f => (s.addField f).extend structs ns
    | .error e => .error e

/-- The record type that a list of type nodes stands for. -/
def Struct.resolve (structs : Structs) (name : Option String) (nodes : List Node) :
    Except Failure Struct :=
  Struct.extend structs { name } nodes

end TableAssembler

import TableAssembler.Fault
import TableAssembler.Layer

/-!
# Atoms

Atoms are unique symbols without a value, such as the registers of a machine.  An object defines and
exports them; the first definition stands.

* `Atom`            a name, with the token that defines it; two atoms are equal if their names are;
* `Atoms.define`, `Atoms.find`, `Atoms.firstDefinition`   with the faults for a second definition
  and for none, and `Atoms.define_of_mem`: a second definition changes nothing.
-/

namespace TableAssembler

/-- An atom and the token that defines it. -/
structure Atom where
  name : String
  token : Option Nat := none
deriving Inhabited

instance : BEq Atom := ⟨fun a b => a.name == b.name⟩

instance : Hashable Atom := ⟨fun a => hash a.name⟩

def Atom.labelled (a : Atom) : String := "<Atom " ++ a.name ++ ">"

/-- The atoms that an object defines. -/
abbrev Atoms := Layer Atom

namespace Atoms

/-- One more atom: the collection after it, and the atom.  A name that is defined already is a fault
at the new definition. -/
def define (atoms : Atoms) (atom : Atom) : Atoms × Except Fault Atom :=
  match atoms.mount ⟨atom.name, atom.token.map .spot, atom⟩ with
  | (atoms', some atom) => (atoms', .ok atom)
  | (atoms', none) => (atoms', .error ⟨.duplicate, atom.token, none⟩)

theorem define_of_mem {atoms : Atoms} {atom : Atom} (h : atom.name ∈ atoms.names) :
    atoms.define atom = (atoms, .error ⟨.duplicate, atom.token, none⟩) := by
  rw [define, Layer.mount_of_mem (d := ⟨atom.name, atom.token.map .spot, atom⟩) h]

theorem define_of_notMem {atoms : Atoms} {atom : Atom} (h : atom.name ∉ atoms.names) :
    atoms.define atom = (atoms.add ⟨atom.name, atom.token.map .spot, atom⟩ h, .ok atom) := by
  rw [define, Layer.mount_of_notMem (d := ⟨atom.name, atom.token.map .spot, atom⟩) h]

def find (atoms : Atoms) (name : String) : Except Fault Atom :=
  match atoms.find? name with
  | some d => .ok d.symbol
  | none => .error ⟨.undefined, none, none⟩

/-- The place of the first definition of a name, if it is known. -/
def firstDefinition (atoms : Atoms) (name : String) : Except Fault (Option Site) :=
  match atoms.find? name with
  | some d => .ok d.place
  | none => .error ⟨.undefined, none, none⟩

end Atoms

end TableAssembler

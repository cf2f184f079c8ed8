import TableAssembler.Node.Evaluate
import TableAssembler.Object.Atom
import TableAssembler.Table.Builder

/-!
# Assembling

One pass over the statements of a source produces an object: the atoms that it defines, the record
types that it knows, and its tables in order.  Data go into the table that is being filled, and a
new record type closes that table and begins another.

* `Object`                 what is produced;
* `Node.expand`            the data that a statement packs;
* `Assembler`              an object and the table that is being filled;
* `Assembler.statement`    one statement: the state after it, and what went wrong if anything;
* `Assembler.run`, `assemble`   all statements up to the first failure, and the object.
-/

namespace TableAssembler

/-- What assembling produces. -/
structure Object where
  atoms : Atoms := .empty
  structs : Structs := .empty
  tables : List Table := []
deriving Inhabited

/-- How an object is shown: by its tables. -/
def Object.text (o : Object) : String := String.intercalate "\n" (o.tables.map Table.text)

/-! ## data -/

/-- The most data that one repetition packs: a full address space of sixteen bits. -/
def repeatLimit : Nat := 0x10000

/-- How often a count repeats a datum. -/
def repeatCount (count : Number) (token : Option Nat) : Except Fault Nat :=
  let bad : Except Fault Nat := .error ⟨.arithmetic, token, some (.badCount count)⟩
  match count with
  | .real _ => bad
  | .integer n =>
    if n < 0 then bad
    else if (repeatLimit : Int) < n then
      .error ⟨.arithmetic, token, some (.countTooLarge repeatLimit)⟩
    else .ok n.toNat

/-- The data that a statement packs: a repetition its left side as often as its right side says,
any other expression its folded form, and a string one unsigned value for each character. -/
def Node.expand : Node → Except Fault (List Node)
  | .binary lhs .replicate rhs t => do
    let count ← repeatCount (← rhs.evaluate) t
    return List.replicate count (← lhs.fold)
  | .string text t =>
    .ok (text.toList.map fun c => .value (.integer c.toNat) .uint t)
  | n => do return [← n.fold]

/-! ## the assembler -/

/-- An object in the making, and the table that is being filled, if there is one. -/
structure Assembler where
  object : Object := {}
  builder : Option TableBuilder := none
deriving Inhabited

namespace Assembler

/-- The state before all statements, with the record types that are known. -/
def start (structs : Structs) : Assembler := { object := { structs } }

/-- Close the table that is being filled, if there is one. -/
def close (a : Assembler) : Assembler × Option Failure :=
  match a.builder with
  | none => (a, none)
  | some b =>
    match b.finish with
    | .error f => (a, some (.fault f))
    | .ok table =>
      ({ object := { a.object with tables := a.object.tables ++ [table] } }, none)

/-- Pack one datum into the table that is being filled. -/
def pack (a : Assembler) (node : Node) : Assembler × Option Failure :=
  match a.builder with
  | none => (a, some (.fault ⟨.noRecord, node.token, none⟩))
  | some b =>
    match b.add node with
    | (b', .error f) => ({ a with builder := some b' }, some (.fault f))
    | (b', .ok _) => ({ a with builder := some b' }, none)

/-- Pack several data, up to the first failure. -/
def packAll (a : Assembler) : List Node → Assembler × Option Failure
  | [] => (a, none)
  | node :: nodes =>
    match a.pack node with
    | (a', none) => a'.packAll nodes
    | (a', some e) => (a', some e)

/-- Begin a table of a record type, which closes the one before. -/
def record (a : Assembler) (fields : List Node) : Assembler × Option Failure :=
  match a.close with
  | (a', some e) => (a', some e)
  | (a', none) =>
    match Struct.resolve a'.object.structs none fields with
    | .error e => (a', some e)
    | .ok struct => ({ a' with builder := some (.start struct) }, none)

def defineAtom (a : Assembler) (atom : Atom) : Assembler × Option Failure :=
  match a.object.atoms.define atom with
  | (atoms, .error f) => ({ a with object := { a.object with atoms } }, some (.fault f))
  | (atoms, .ok _) => ({ a with object := { a.object with atoms } }, none)

def data (a : Assembler) (node : Node) : Assembler × Option Failure :=
  match node.expand with
  | .error f => (a, some (.fault f))
  | .ok nodes => a.packAll nodes

/-- One statement: the state after it, and what went wrong if anything. -/
def statement (a : Assembler) (node : Node) : Assembler × Option Failure :=
  match node with
  | .void => (a, none)
  | .atomDef name t => a.defineAtom ⟨name, t⟩
  | .record fields => a.record fields
  | .value .. => a.data node
  | .atomRef .. => a.data node
  | .binary .. => a.data node
  | .string .. => a.data node
  | .macroRef _ t => (a, some (.fault (.unimplemented t)))
  | .primitive .. => (a, some .unsupported)
  | .structName .. => (a, some .unsupported)
  | .list _ => (a, some .unsupported)

/-- All statements up to the first failure, and then the close. -/
def run (a : Assembler) : List Node → Assembler × Option Failure
  | [] => a.close
  | node :: nodes =>
    match a.statement node with
    | (a', none) => a'.run nodes
    | (a', some e) => (a', some e)

end Assembler

/-- The object that some statements make, or the first failure. -/
def assemble (structs : Structs) (nodes : List Node) : Except Failure Object :=
  match (Assembler.start structs).run nodes with
  | (a, none) => .ok a.object
  | (_, some e) => .error e

end TableAssembler

import TableAssembler.Fault
import TableAssembler.Node.Basic
import TableAssembler.Record.Struct

/-!
# Rows

A row has one cell for each column of its record type.  It is filled from the left; once it is full
it is satisfied and takes no more.

* `Cell`, `Row`      a datum in its column, and a full row;
* `RowBuilder`       a row that is being filled;
* `RowBuilder.add`   one more datum, with the row if that completes it.
-/

namespace TableAssembler

/-- One datum, the column that it was packed into, and where that is. -/
structure Cell where
  field : Leaf
  node : Node
  row : Nat
  col : Nat
deriving Inhabited

def Cell.text (c : Cell) : String := c.node.text

def Cell.labelled (c : Cell) : String :=
  "[" ++ toString c.row ++ "][" ++ toString c.col ++ "] " ++ c.field.name ++ ": " ++ c.node.text

/-- A full row, with its number from zero. -/
structure Row where
  index : Nat
  cells : List Cell
deriving Inhabited

def Row.text (r : Row) : String := String.intercalate ", " (r.cells.map Cell.text)

def Row.labelled (r : Row) : String := "<Row " ++ toString r.index ++ ": " ++ r.text ++ ">"

/-- A row that is being filled: its number, the next column, the fields that still want a datum, and
the cells that have one, the last of them first. -/
structure RowBuilder where
  index : Nat
  col : Nat
  todo : List Leaf
  done : List Cell
deriving Inhabited

namespace RowBuilder

def start (struct : Struct) (index : Nat) : RowBuilder := ⟨index, 0, struct.leaves, []⟩

def isStarted (b : RowBuilder) : Bool := !b.done.isEmpty

/-- Whether the last column has its datum.  A row without columns is never satisfied. -/
def isSatisfied (b : RowBuilder) : Bool := b.isStarted && b.todo.isEmpty

def cells (b : RowBuilder) : List Cell := b.done.reverse

def last? (b : RowBuilder) : Option Node := b.done.head?.map Cell.node

/-- One more datum: the builder after it, and the row if that completes it. -/
def add (b : RowBuilder) (node : Node) : RowBuilder × Except Fault (Option Row) :=
  match b.todo with
  | [] => (b, .error ⟨.rowSatisfied, node.token, none⟩)
  | field :: todo =>
    let done := ⟨field, node, b.index, b.col⟩ :: b.done
    let row := if todo.isEmpty then some ⟨b.index, done.reverse⟩ else none
    (⟨b.index, b.col + 1, todo, done⟩, .ok row)

end RowBuilder

end TableAssembler

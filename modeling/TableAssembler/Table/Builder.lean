import TableAssembler.Table.Row

/-!
# Tables

Data come one at a time, with nothing to mark where a record ends.  Only the number of columns says
so: a table is filled row by row, and the next row is begun when a datum comes for it.

* `Table`               finished rows of one record type;
* `TableBuilder.add`    one more datum, with the row if that completes one;
* `TableBuilder.finish` the table, unless the last row is only partly filled.
-/

namespace TableAssembler

/-- The finished rows of one record type. -/
structure Table where
  record : Struct
  rows : List Row
deriving Inhabited

/-- How a table is shown: its record type and its rows, a line each. -/
def Table.text (t : Table) : String :=
  "\x7b\t" ++ t.record.text ++ "\n" ++ String.join (t.rows.map fun r => "\t" ++ r.text ++ "\n")
    ++ "\x7d"

/-- A table that is being filled: its record type, the finished rows, the last of them first, and
the row that takes the next datum if it is not satisfied. -/
structure TableBuilder where
  record : Struct
  done : List Row
  row : RowBuilder
deriving Inhabited

namespace TableBuilder

def start (record : Struct) : TableBuilder := ⟨record, [], .start record 0⟩

def rows (b : TableBuilder) : List Row := b.done.reverse

def isSatisfied (b : TableBuilder) : Bool := b.row.isSatisfied

/-- The row that takes the next datum: a satisfied one is followed by an empty one. -/
def current (b : TableBuilder) : RowBuilder :=
  if b.row.isSatisfied then .start b.record (b.row.index + 1) else b.row

/-- One more datum: the builder after it, and the row if that completes one.  A row that was begun
for the datum is there even if it does not take it. -/
def add (b : TableBuilder) (node : Node) : TableBuilder × Except Fault (Option Row) :=
  match b.current.add node with
  | (row, .error f) => (⟨b.record, b.done, row⟩, .error f)
  | (row, .ok none) => (⟨b.record, b.done, row⟩, .ok none)
  | (row, .ok (some full)) => (⟨b.record, full :: b.done, row⟩, .ok (some full))

/-- The table, unless the last row is only partly filled.  A table without data is just empty. -/
def finish (b : TableBuilder) : Except Fault Table :=
  if b.row.isStarted && !b.row.isSatisfied then
    .error ⟨.unsatisfied, b.row.last?.bind Node.token, none⟩
  else .ok ⟨b.record, b.rows⟩

end TableBuilder

end TableAssembler

import TableAssembler.Object.Assembler
import TableAssembler.Report.Basic
import TableAssembler.Statement.Reading

/-!
# Programs

From a source, a file or a line to statements and to an object.  What is wrong goes to a report.

* `Source.statements`   the statements of a source, unless one is wrong;
* `Source.survey`       the statements of a source that are not wrong, with an issue for each that is;
* `Source.build`        the object that some statements make, unless something is wrong;
* `Source.assemble`     both in one;
* `assembleFile`        the same for a file;
* `evaluateLine`        what there is to show for a line, statements first and then tables.
-/

namespace TableAssembler

/-- A result and the report after it, or an interruption. -/
abbrev Reporting (α : Type) := Except Interruption (Report × α)

/-! ## what is printed -/

/-- Some lines as a text, each with its end. -/
def printed (lines : List String) : String := String.join (lines.map (· ++ "\n"))

/-- One line about the table of a number. -/
def Table.summary (t : Table) (number : Nat) : String :=
  "Table " ++ toString number ++ ": " ++ t.record.text ++ ", " ++ toString t.rows.length
    ++ " row(s)"

/-- One line about each table, counted from one. -/
def Object.summary (o : Object) : List String := (o.tables.zipIdx 1).map fun t => t.1.summary t.2

/-- An object as it is listed: its atoms and then its tables. -/
def Object.listing (o : Object) : List String :=
  o.atoms.names.map ("atom " ++ ·) ++ o.tables.map Table.text

/-! ## sources -/

namespace Source

/-- The statements of a source; the first that is wrong is an issue, and then there are none. -/
def statements (s : Source) (r : Report) : Reporting (Option (List Node)) :=
  match parse s.tokens with
  | .ok nodes => .ok (r, some nodes)
  | .error f => (r.fault (some s) f).map fun r => (r, none)

/-- The statements that some steps read; each that is wrong is an issue. -/
def collect (s : Source) (r : Report) : List Step → Reporting (List Node)
  | [] => .ok (r, [])
  | step :: steps =>
    match step.result with
    | .ok node => (s.collect r steps).map fun done => (done.1, node :: done.2)
    | .error f => (r.fault (some s) f).bind fun r => s.collect r steps

theorem collect_nil (s : Source) (r : Report) : s.collect r [] = .ok (r, []) := rfl

theorem collect_cons_ok (s : Source) (r : Report) (node : Node) (c : Cursor)
    (steps : List Step) : s.collect r (⟨.ok node, c⟩ :: steps)
      = (s.collect r steps).map fun done => (done.1, node :: done.2) := rfl

theorem collect_cons_error (s : Source) (r : Report) (f : Fault) (c : Cursor)
    (steps : List Step) : s.collect r (⟨.error f, c⟩ :: steps)
      = (r.fault (some s) f).bind fun r => s.collect r steps := rfl

/-- The statements of a source that are not wrong; each that is wrong is an issue. -/
def survey (s : Source) (r : Report) : Reporting (List Node) :=
  s.collect r (Cursor.start s.tokens).steps

/-- The object that some statements of a source make; what is wrong is an issue, and then there is
none.  Every table that was finished is said. -/
def build (s : Source) (structs : Structs) (nodes : List Node) (r : Report) :
    Reporting (Option Object) :=
  let a := (Assembler.start structs).run nodes
  let r := r.info a.1.object.summary
  match a.2 with
  | none => .ok (r, some a.1.object)
  | some (.fault f) => (r.fault (some s) f).map fun r => (r, none)
  | some .unsupported => .error ⟨.unsupported, r⟩

/-- The object that a source makes; what is wrong is an issue, and then there is none. -/
def assemble (s : Source) (structs : Structs) (r : Report) : Reporting (Option Object) :=
  (s.statements r).bind fun read =>
    match read.2 with
    | none => .ok (read.1, none)
    | some nodes => s.build structs nodes read.1

end Source

/-! ## files and lines -/

/-- What there is in a file: its bytes, or why there are none. -/
abbrev Contents := Except FileError (List UInt8)

/-- The object that a file makes.  A file that is not there has an issue of its own. -/
def assembleFile (path : String) (contents : Contents) (r : Report) : Reporting (Option Object) :=
  let r := r.info ["Assembling " ++ path]
  match contents with
  | .error e =>
    let issue :=
      if e.reason = .notFound then r.missing e else r.fault none ⟨.file, none, some (.file e)⟩
    issue.map fun r => (r, none)
  | .ok bytes =>
    match Text.Utf8.decode bytes with
    | .error e => .error ⟨.undecodable e, r⟩
    | .ok text =>
      (Source.ofText (String.ofList (Text.unixBreaks text)) (some path)).assemble .empty r

/-- What there is to show for a line: its statements, and its tables if nothing is wrong. -/
def evaluateLine (line : String) (r : Report) : Reporting (List String) :=
  let s := Source.ofText line none
  (s.survey r).bind fun read =>
    let shown := read.2.map Node.text
    if read.1.isOk && !read.2.isEmpty then
      (s.build .empty read.2 read.1).map fun built =>
        (built.1, shown ++ (built.2.map fun o => o.tables.map Table.text).getD [])
    else .ok (read.1, shown)

end TableAssembler

import TableAssembler.Number.Arithmetic
import TableAssembler.Text.Quoted

/-!
# Faults

Everything that can be wrong with a program is a fault: its kind says what went wrong, its token
where, if a word is to blame, and its cause why, if there is more to say.

* `FileError`, `Cause`     the reasons, with their words;
* `Fault.Kind`, `Fault`    what went wrong, with `Fault.message`;
* `Failure`                a fault, or a node that an operation has no rule for.

The visitor library looks for the rule of an operation by the class of the node.  If there is none it
raises an error of its own, which is no fault: `Failure.unsupported` stands for it.
-/

namespace TableAssembler

/-! ## causes -/

/-- Why a file cannot be read. -/
inductive FileError.Reason where
  | notFound
  | isDirectory
  | notDirectory
  | denied
  | other (code : Nat) (text : String)
deriving DecidableEq, Repr

/-- A file that cannot be read, and why. -/
structure FileError where
  reason : FileError.Reason
  path : String
deriving DecidableEq, Repr

/-- The number that the operating system gives a reason. -/
def FileError.Reason.code : FileError.Reason → Nat
  | .notFound => 2
  | .isDirectory => 21
  | .notDirectory => 20
  | .denied => 13
  | .other code _ => code

/-- The words that the operating system has for a reason. -/
def FileError.Reason.text : FileError.Reason → String
  | .notFound => "No such file or directory"
  | .isDirectory => "Is a directory"
  | .notDirectory => "Not a directory"
  | .denied => "Permission denied"
  | .other _ text => text

/-- The words for a file error, with the number of its reason. -/
def FileError.message (e : FileError) : String :=
  "[Errno " ++ toString e.reason.code ++ "] " ++ e.reason.text ++ ": " ++ Text.quoted e.path

/-- Why something is a fault. -/
inductive Cause where
  | arithmetic (e : ArithmeticError)
  | notNumeral (base : Nat) (text : String)
  | tooManyDigits (count limit : Nat)
  | numeralTooLarge (text : String)
  | badCount (count : Number)
  | countTooLarge (limit : Nat)
  | file (e : FileError)
  | remark (text : String)

/-- A quoted text cut off after two hundred characters. -/
def shortQuoted (text : String) : String := String.ofList ((Text.quoted text).toList.take 200)

def Cause.message : Cause → String
  | .arithmetic e => e.message
  | .notNumeral base text =>
    "invalid literal for int() with base " ++ toString base ++ ": " ++ shortQuoted text
  | .tooManyDigits count limit =>
    "Exceeds the limit (" ++ toString limit ++ " digits) for integer string conversion: "
      ++ "value has " ++ toString count
      ++ " digits; use sys.set_int_max_str_digits() to increase the limit"
  | .numeralTooLarge text => text ++ " does not fit in 32 bits"
  | .badCount count => "cannot repeat " ++ count.text ++ " times"
  | .countTooLarge limit => "cannot repeat more than " ++ toString limit ++ " times"
  | .file e => e.message
  | .remark text => text

/-! ## faults -/

/-- What went wrong.

* `endOfFile`     the words ended in the middle of a statement;
* `unexpected`    a word is missing, or of the wrong sort;
* `duplicate`     a name is defined twice;
* `noRecord`      there is data before any record type;
* `rowSatisfied`  a row that has a value for every column is given another;
* `unsatisfied`   a table ends in the middle of a row;
* `unimplemented` something is understood but not supported;
* `unresolved`    a value is asked for that only a linker knows;
* `undefined`     a name has no definition;
* `arithmetic`    a computation has no result;
* `file`          a file cannot be read;
* `numeral`       a numeral has no value;
* `other`         anything else, by its title. -/
inductive Fault.Kind where
  | endOfFile
  | unexpected
  | duplicate
  | noRecord
  | rowSatisfied
  | unsatisfied
  | unimplemented
  | unresolved
  | undefined
  | arithmetic
  | file
  | numeral
  | other (title : String)
deriving DecidableEq, Repr, Inhabited

def Fault.Kind.title : Fault.Kind → String
  | .endOfFile => "End Of File"
  | .unexpected => "Unexpected"
  | .duplicate => "Duplicate"
  | .noRecord => "No Record"
  | .rowSatisfied => "Row Satisfied"
  | .unsatisfied => "Unsatisfied"
  | .unimplemented => "Unimplemented"
  | .unresolved => "Unimplemented"
  | .undefined => "Undefined"
  | .arithmetic => "Arithmetic"
  | .file => "I/O"
  | .numeral => "Parse Int"
  | .other title => title

/-- The kinds that have a title of their own. -/
def Fault.Kind.titled : List Fault.Kind :=
  [.endOfFile, .unexpected, .duplicate, .noRecord, .rowSatisfied, .unsatisfied, .unimplemented,
    .undefined, .arithmetic, .file, .numeral]

/-- The kind with a title. -/
def Fault.Kind.ofTitle (title : String) : Fault.Kind :=
  (titled.find? fun kind => kind.title == title).getD (.other title)

/-- What went wrong, where (an index into the tokens of the source), and why. -/
structure Fault where
  kind : Fault.Kind
  token : Option Nat := none
  cause : Option Cause := none
deriving Inhabited

namespace Fault

/-- The words for a fault: its title, and its cause if it has one. -/
def message (f : Fault) : String :=
  match f.kind, f.cause with
  | .unresolved, _ => "Requires external resolution"
  | kind, none => kind.title
  | kind, some cause => kind.title ++ ": " ++ cause.message

def isEndOfFile (f : Fault) : Bool := f.kind == .endOfFile

def isFileError (f : Fault) : Bool := f.kind == .file

/-- A word that is missing or of the wrong sort. -/
def unexpected (token : Option Nat) : Fault := ⟨.unexpected, token, none⟩

/-- Something that is understood but not supported. -/
def unimplemented (token : Option Nat) : Fault := ⟨.unimplemented, token, none⟩

/-- The fault of an operator that gives no result: an operand of the wrong sort is not supported,
all else is arithmetic. -/
def ofArithmetic (token : Option Nat) : ArithmeticError → Fault
  | .notArithmetic => unimplemented token
  | .notIntegers => ⟨.unimplemented, token, some (.arithmetic .notIntegers)⟩
  | e => ⟨.arithmetic, token, some (.arithmetic e)⟩

end Fault

/-- How an operation on nodes fails: with a fault, or because the node is of a class that the
operation has no rule for. -/
inductive Failure where
  | fault (f : Fault)
  | unsupported
deriving Inhabited

end TableAssembler

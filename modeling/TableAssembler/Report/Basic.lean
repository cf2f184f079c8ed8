import TableAssembler.Fault
import TableAssembler.Report.Outburst
import TableAssembler.Report.Picture
import TableAssembler.Text.Utf8

/-!
# Reports

A report collects issues as they happen and tells the console about them when asked.  It has a limit:
the issue that reaches it is kept and interrupts whatever is going on.

* `Report`            the issues so far, and the lines said to the console;
* `Interruption`      what ends everything at once, and the report at that time;
* `Report.add`        one more issue, with an interruption at the limit;
* `Report.fault`      a fault of a source as an issue, `Report.missing` a file that is not there;
* `Report.info`       a line for those who want to know more;
* `Report.complain`   all issues to the console;
* `Report.demand`     a complaint and a refusal if there are issues.
-/

namespace TableAssembler

/-- The issues so far and the lines said to the console so far.  A limit of zero is none. -/
structure Report where
  verbose : Bool := false
  limit : Nat := 10
  issues : List Picture := []
  said : List String := []
deriving Inhabited

/-- Why everything ends at once: the report is full, a node is of a class that assembling has no rule
for, or a file is no text. -/
inductive Interruption.Reason where
  | tooManyIssues
  | unsupported
  | undecodable (e : Text.Utf8.Error)
deriving DecidableEq, Repr

/-- An interruption, with the report at that time. -/
structure Interruption where
  reason : Interruption.Reason
  report : Report

/-- How a kind of fault is introduced. -/
def Fault.Kind.introduction : Fault.Kind → String
  | .endOfFile => "Ran out of words in the middle of something."
  | .unexpected => "Retronym got confused here."
  | .duplicate => "This symbol is defined more than once in the same object."
  | .noRecord => "There is data here, but no record type yet to say how to pack it."
  | .rowSatisfied => "This row already has a value for every column."
  | .unsatisfied => "The last row of this table is only partly filled."
  | .unimplemented => "This is recognized, but not supported yet."
  | .unresolved => "This is recognized, but not supported yet."
  | .undefined => "I don't see what this refers to."
  | .arithmetic => "This arithmetic does not work out."
  | .file => "Something went pear-shaped while trying to read a file."
  | .numeral => "This number does not make sense as written."
  | .other title => title

/-- How a fault is introduced: by its kind, and its cause if it has one. -/
def Fault.introduction (f : Fault) : String :=
  match f.cause with
  | none => f.kind.introduction
  | some cause => f.kind.introduction ++ " (" ++ cause.message ++ ")"

/-- The picture of a fault, which points at the token to blame if there is a source. -/
def Fault.picture (f : Fault) (source : Option Source) : Picture :=
  match source, f.token with
  | some s, some i => { intro := f.introduction, panels := [⟨s, [⟨.token i, f.message⟩]⟩] }
  | _, _ => { intro := f.introduction }

def FileError.picture (e : FileError) : Picture :=
  { intro := "I see no file called " ++ e.path, footer := [e.message] }

namespace Report

def isOk (r : Report) : Bool := r.issues.isEmpty

def say (r : Report) (lines : List String) : Report := { r with said := r.said ++ lines }

/-- Lines for those who want to know more. -/
def info (r : Report) (lines : List String) : Report := if r.verbose then r.say lines else r

def reset (r : Report) : Report := { r with issues := [] }

theorem issues_info (r : Report) (lines : List String) : (r.info lines).issues = r.issues := by
  unfold info
  split <;> rfl

theorem limit_info (r : Report) (lines : List String) : (r.info lines).limit = r.limit := by
  unfold info
  split <;> rfl

/-! ## issues -/

/-- The report with one more issue, whether or not that fills it. -/
def push (r : Report) (p : Picture) : Report := { r with issues := r.issues ++ [p] }

/-- One more issue.  The one that reaches the limit is too many. -/
def add (r : Report) (p : Picture) : Except Interruption Report :=
  if (r.push p).issues.length = r.limit then .error ⟨.tooManyIssues, r.push p⟩ else .ok (r.push p)

theorem length_issues_push (r : Report) (p : Picture) :
    (r.push p).issues.length = r.issues.length + 1 := by
  simp [push]

theorem add_of_ne {r : Report} (p : Picture) (h : r.issues.length + 1 ≠ r.limit) :
    r.add p = .ok (r.push p) := by
  rw [add, length_issues_push, if_neg h]

theorem add_of_eq {r : Report} (p : Picture) (h : r.issues.length + 1 = r.limit) :
    r.add p = .error ⟨.tooManyIssues, r.push p⟩ := by
  rw [add, length_issues_push, if_pos h]

def fault (r : Report) (source : Option Source) (f : Fault) : Except Interruption Report :=
  r.add (f.picture source)

def missing (r : Report) (e : FileError) : Except Interruption Report := r.add e.picture

/-! ## complaints -/

def stars : String := String.ofList (List.replicate 60 '*')

def dashes : String := String.join (List.replicate 20 "  -")

/-- What is said to the console about all issues. -/
def complaint (r : Report) (o : Outburst) : List String :=
  if r.isOk then [] else stars :: o.text :: r.issues.flatMap fun p => [dashes, p.text]

def complain (r : Report) (o : Outburst) : Report := r.say (r.complaint o)

/-- If there are issues, a complaint, and a refusal that opens with another outburst. -/
def demand (r : Report) (first second : Outburst) (message : String) : Report × Option String :=
  (r.complain first, if r.isOk then none else some (second.text ++ " " ++ message))

end Report

end TableAssembler

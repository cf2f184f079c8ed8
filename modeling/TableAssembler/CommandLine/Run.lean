import TableAssembler.CommandLine.Arguments
import TableAssembler.CommandLine.Path
import TableAssembler.Prompt

/-!
# Runs

A run of the command line says what the arguments mean, assembles a program, or answers at a prompt.

* `Plan`, `Plan.ofArguments`   what a run is going to do;
* `Outcome`                    how a run ends and what it prints;
* `assembleProgram`            the run that assembles a program;
* `run`                        any run, given what there is around it.
-/

namespace TableAssembler

/-! ## texts -/

def usage : String := "usage: retronym [-h] [-c] [-v] [program]"

/-- What is said about the command line to one who asks. -/
def help : List String := [
  usage,
  "",
  "A thoroughly modern assembler for retro consoles and computer systems.",
  "",
  "positional arguments:",
  "  program        the source file to assemble; leave it off for an interactive",
  "                 prompt.",
  "",
  "options:",
  "  -h, --help     show this help message and exit",
  "  -c, --check    Check the program but do not print what it assembles to.",
  "  -v, --verbose  Say more about what is going on."]

/-- What is said to one who gives no arguments at all. -/
def welcome : List String := [
  "This is Retronym, a thoroughly modern assembler for retro consoles and computer systems.",
  "",
  usage,
  "",
  "",
  "For example:",
  "",
  "    retronym program.rym",
  "",
  "will assemble program.rym if possible, or else try to explain why not.",
  "",
  "    retronym",
  "",
  "with no program starts an interactive prompt.",
  "",
  "    retronym -h",
  "",
  "will explain all the arguments."]

/-- What is said about arguments that make no sense. -/
def ArgumentError.lines (e : ArgumentError) : List String :=
  [usage, "retronym: error: " ++ e.message]

/-! ## outcomes -/

/-- How a run ends: with an exit code, or by an interruption that nothing stops. -/
inductive Ending where
  | exit (code : Nat)
  | interrupted (reason : Interruption.Reason)
deriving DecidableEq, Repr

instance : Inhabited Ending := ⟨.exit 0⟩

/-- How a run ends, and what it prints to the console's output and to its errors. -/
structure Outcome where
  ending : Ending := default
  output : String := ""
  errors : String := ""
deriving DecidableEq, Repr, Inhabited

/-! ## plans -/

/-- What a run is going to do.

* `finish`     nothing: the outcome is known;
* `prompt`     answer at a prompt, after a welcome;
* `assemble`   assemble a program. -/
inductive Plan where
  | finish (outcome : Outcome)
  | prompt (welcome : List String) (verbose : Bool)
  | assemble (program : String) (check verbose : Bool)
deriving DecidableEq, Repr

def Plan.ofOptions (o : Options) : Plan :=
  match o.program with
  | none => .prompt [] (o.verbose ≠ 0)
  | some program => .assemble program o.check (o.verbose ≠ 0)

def Plan.ofArguments (arguments : List String) : Plan :=
  if arguments.isEmpty then .prompt welcome false
  else
    match Request.ofArguments arguments with
    | .error e => .finish { ending := .exit 2, errors := printed e.lines }
    | .ok .help => .finish { output := printed help }
    | .ok (.run o) => .ofOptions o

/-! ## runs -/

/-- The path of a program as it is seen from a directory. -/
def programPath (directory program : String) : String :=
  ((Path.read directory).below (Path.read program)).text

/-- The run that assembles a program, or only checks it. -/
def assembleProgram (path : String) (contents : Contents) (check verbose : Bool) (o : Outburst) :
    Outcome :=
  let failed (r : Report) : Outcome :=
    { ending := .exit 1, errors := printed (r.complain o).said }
  match assembleFile path contents { verbose } with
  | .ok (r, none) => failed r
  | .ok (r, some object) =>
    if check then { errors := printed (r.said ++ ["Looks plausible to me."]) }
    else { output := printed object.listing, errors := printed r.said }
  | .error ⟨.tooManyIssues, r⟩ => failed r
  | .error ⟨reason, r⟩ => { ending := .interrupted reason, errors := printed r.said }

/-- What there is around a run: the working directory, the files by their paths, the lines to be
typed, and the outburst that chance would give to each of them. -/
structure Surroundings where
  directory : String
  files : String → Contents
  input : List String
  chance : Nat → Outburst

def run (arguments : List String) (s : Surroundings) : Outcome :=
  match Plan.ofArguments arguments with
  | .finish outcome => outcome
  | .prompt welcome verbose =>
    let replies := Prompt.run (Prompt.start verbose)
      (s.input.zipIdx.map fun l => (l.1, s.chance l.2))
    { output := printed (welcome ++ Prompt.greeting) ++ Prompt.output replies,
      errors := Prompt.errors replies }
  | .assemble program check verbose =>
    let path := programPath s.directory program
    assembleProgram path (s.files path) check verbose (s.chance 0)

end TableAssembler

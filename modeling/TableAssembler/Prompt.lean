import TableAssembler.Program

/-!
# The prompt

The prompt reads a line, shows what became of it, and reads the next one.  Every line is an object of
its own: nothing of it is left for the line after.

* `Reply`         what is printed for a line;
* `Prompt.step`   the reply to a line, and the report for the next one;
* `Prompt.run`    the replies to several lines;
* `Prompt.output` everything that is printed for them.
-/

namespace TableAssembler

/-- What is printed for a line: the lines for the console's output and those for its errors. -/
structure Reply where
  shown : List String
  said : List String
deriving DecidableEq, Repr, Inhabited

namespace Prompt

def greeting : List String := ["(use ^C or ^D to quit)", ""]

/-- What stands before a line that is to be typed. -/
def mark : String := "> "

def start (verbose : Bool) : Report := { verbose }

/-- The reply to a line.  Nothing is shown for a line with too many issues.  All issues of a line are
said, and then forgotten. -/
def step (r : Report) (line : String) (o : Outburst) : Reply × Report :=
  let done : Report × List String :=
    match evaluateLine line r with
    | .ok done => done
    | .error e => (e.report, [])
  let told := done.1.complain o
  (⟨done.2, told.said⟩, { told.reset with said := [] })

/-- The replies to several lines, each with the outburst that it would draw. -/
def run (r : Report) : List (String × Outburst) → List Reply
  | [] => []
  | (line, o) :: lines => (step r line o).1 :: run (step r line o).2 lines

theorem run_cons (r : Report) (line : String) (o : Outburst) (lines : List (String × Outburst)) :
    run r ((line, o) :: lines) = (step r line o).1 :: run (step r line o).2 lines := rfl

/-! ## the console -/

/-- What the console shows of some replies, from the first mark to the end of the input. -/
def output (replies : List Reply) : String :=
  String.join (replies.map fun r => mark ++ printed r.shown) ++ mark ++ "\n"

/-- What the console shows of the errors of some replies. -/
def errors (replies : List Reply) : String := String.join (replies.map fun r => printed r.said)

end Prompt

end TableAssembler

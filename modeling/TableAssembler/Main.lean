import TableAssembler.CommandLine.Run

/-!
# The program

The outer layer of the command line: it reads files and lines, draws by chance, and prints.
-/

namespace TableAssembler

def drawOutburst : IO Outburst := do
  return .draw (← IO.rand 0 1000000) (← IO.rand 0 1000000) (← IO.rand 0 1000000)

/-- The reason for a failure to read a file. -/
def failureReason : IO.Error → FileError.Reason
  | .noFileOrDirectory .. => .notFound
  | .inappropriateType _ code _ => if code = 21 then .isDirectory else .notDirectory
  | .permissionDenied .. => .denied
  | e => .other 5 (toString e)

/-- What there is in the file of a path. -/
def readContents (path : String) : IO Contents := do
  try return .ok (← IO.FS.readBinFile path).toList
  catch e => return .error ⟨failureReason e, path⟩

/-- Prints an outcome, and gives the exit code. -/
def finish (outcome : Outcome) : IO UInt32 := do
  (← IO.getStdout).putStr outcome.output
  (← IO.getStderr).putStr outcome.errors
  match outcome.ending with
  | .exit code => return code.toUInt32
  | .interrupted (.undecodable e) => IO.eprintln e.message; return 1
  | .interrupted _ => return 1

/-- Answers lines until there are no more. -/
partial def converse (r : Report) : IO Unit := do
  let output ← IO.getStdout
  output.putStr Prompt.mark
  output.flush
  let line ← (← IO.getStdin).getLine
  if line.isEmpty then output.putStrLn ""
  else
    let text := String.ofList (line.toList.reverse.dropWhile (· = '\n')).reverse
    let (reply, r) := Prompt.step r text (← drawOutburst)
    output.putStr (printed reply.shown)
    (← IO.getStderr).putStr (printed reply.said)
    output.flush
    converse r

end TableAssembler

open TableAssembler in
def main (arguments : List String) : IO UInt32 := do
  match Plan.ofArguments arguments with
  | .finish outcome => finish outcome
  | .prompt welcome verbose =>
    (← IO.getStdout).putStr (printed (welcome ++ Prompt.greeting))
    converse (Prompt.start verbose)
    return 0
  | .assemble program check verbose =>
    let path := programPath (← IO.currentDir).toString program
    finish (assembleProgram path (← readContents path) check verbose (← drawOutburst))

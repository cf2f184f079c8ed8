import TableAssembler.Text.Blank
import TableAssembler.Text.Place
import TableAssembler.Text.Utf8
import TableAssembler.Number.Arithmetic
import TableAssembler.Node.Evaluate
import TableAssembler.Token.Scan
import TableAssembler.Numeral
import TableAssembler.Statement.Reading
import TableAssembler.Object.Assembler
import TableAssembler.Report.Basic
import TableAssembler.Program
import TableAssembler.Prompt
import TableAssembler.CommandLine.Arguments
import TableAssembler.CommandLine.Path
import TableAssembler.CommandLine.Run
import TableAssembler.Main
import TableAssembler.Proofs.Token.Language
import TableAssembler.Proofs.Token.Munch
import TableAssembler.Proofs.Statement.Literal
import TableAssembler.Proofs.Statement.Grammar
import TableAssembler.Proofs.Statement.Parsing
import TableAssembler.Proofs.Node.Evaluation
import TableAssembler.Proofs.Object.Program
import TableAssembler.Proofs.Object.Assembly
import TableAssembler.Proofs.Object.Recovery
import TableAssembler.Proofs.Object.Conservation
import TableAssembler.Proofs.Token.Continuation
import TableAssembler.Proofs.Statement.Refusal
import TableAssembler.Proofs.Statement.Blame
import TableAssembler.Proofs.Statement.Progress
import TableAssembler.Proofs.Statement.Survey
import TableAssembler.Proofs.Object.Guilt
import TableAssembler.Proofs.Report.Outcome
import TableAssembler.Proofs.Token.Excerpt
import TableAssembler.Proofs.Statement.Excerpt
import TableAssembler.Proofs.Text.Breaks
import TableAssembler.Proofs.Token.Spacing
import TableAssembler.Proofs.Token.Layout
import TableAssembler.Proofs.Token.Returns
import TableAssembler.Proofs.Statement.Alike
import TableAssembler.Proofs.Report.LineEnds
import TableAssembler.Proofs.Object.Composition
import TableAssembler.Proofs.Record.Growth
import TableAssembler.Proofs.Object.Growth
import TableAssembler.Proofs.Table.Chunks
import TableAssembler.Proofs.Node.Staticness
import TableAssembler.Proofs.Node.Folding
import TableAssembler.Proofs.Number.Word
import TableAssembler.Proofs.Node.Word
import TableAssembler.Proofs.Statement.Spelling
import TableAssembler.Proofs.Record.Totals
import TableAssembler.Proofs.Statement.Repeats
import TableAssembler.Proofs.Object.Cells
import TableAssembler.Proofs.Object.Repetition
import TableAssembler.Proofs.Text.Encoding
import TableAssembler.Proofs.Report.Files
import TableAssembler.Proofs.Report.Lines
import TableAssembler.Proofs.Report.Session
import TableAssembler.Proofs.Statement.Stream
import TableAssembler.Proofs.Statement.Order
import TableAssembler.Proofs.Number.Magnitude
import TableAssembler.Proofs.Node.Workings
import TableAssembler.Proofs.Record.Calls
import TableAssembler.Proofs.Record.Store
import TableAssembler.Proofs.Record.Nesting

import TableAssembler.Numeral
import TableAssembler.Token.Basic

/-!
# Nodes from words

* `Node.ofType?`     the node of a word that names a type;
* `Node.ofToken`     the node of a word that is a node by itself;
* `Node.ofOperator`  two nodes with an operator between them, given as it is written.
-/

namespace TableAssembler.Node

def ofType? (kind : Token.Kind) (text : String) (token : Option Nat) : Option Node :=
  match kind with
  | .primitive type => some (.primitive text type.width token)
  | .struct => some (.structName text token)
  | _ => none

theorem isSome_ofType? (kind : Token.Kind) (text : String) (token : Option Nat) :
    (ofType? kind text token).isSome = kind.isType := by
  cases kind <;> rfl

/-- The node of a word that is a node by itself: a number, a name or a type. -/
def ofToken (kind : Token.Kind) (text : String) (token : Option Nat) : Except Fault Node :=
  match kind with
  | .int => Numeral.node .decimal text token
  | .hex => Numeral.node .hex text token
  | .bin => Numeral.node .binary text token
  | .atom => .ok (.atomRef text token)
  | .macroName => .ok (.macroRef text token)
  | kind =>
    match ofType? kind text token with
    | some node => .ok node
    | none => .error (.unexpected token)

/-- Two nodes with an operator between them, given as it is written. -/
def ofOperator (lhs : Node) (glyph : String) (rhs : Node) (token : Option Nat) :
    Except Fault Node :=
  match Operator.ofGlyph? glyph with
  | some op => .ok (.binary lhs op rhs token)
  | none => .error (.unexpected token)

end TableAssembler.Node

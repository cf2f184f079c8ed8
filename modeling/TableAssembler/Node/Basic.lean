import TableAssembler.Number.Basic
import TableAssembler.Operator

/-!
# Nodes

A statement is read as a tree of nodes.  A node remembers the token to blame for it, as an index,
and never changes.

* `Node`                     the classes of nodes;
* `Node.text`                how a node is shown;
* `Node.isStatic`            whether its value can be had without knowing any name;
* `Node.left`, `Node.right`  the first and the last token that it covers.
-/

namespace TableAssembler

/-- How a value came about: from a decimal literal, from a bit pattern, or by floating-point
arithmetic. -/
inductive ValueKind where
  | int
  | uint
  | float
deriving DecidableEq, Repr, Inhabited

def ValueKind.name : ValueKind → String
  | .int => "int"
  | .uint => "uint"
  | .float => "float"

/-- A node.

* `void`        nothing;
* `atomDef`     the definition of an atom, where the token is the name;
* `primitive`   a primitive type with its width in bits;
* `structName`  a record type by name;
* `atomRef`     an atom as a datum;
* `macroRef`    the use of a macro;
* `string`      a text, which stands for its characters;
* `value`       a number;
* `binary`      an operator between two nodes, where the token is the operator;
* `list`        several nodes;
* `record`      a record type, as a list of types. -/
inductive Node where
  | void
  | atomDef (name : String) (token : Option Nat)
  | primitive (name : String) (width : Int) (token : Option Nat)
  | structName (name : String) (token : Option Nat)
  | atomRef (name : String) (token : Option Nat)
  | macroRef (name : String) (token : Option Nat)
  | string (text : String) (token : Option Nat)
  | value (number : Number) (kind : ValueKind) (token : Option Nat)
  | binary (lhs : Node) (op : Operator) (rhs : Node) (token : Option Nat)
  | list (items : List Node)
  | record (fields : List Node)
deriving Inhabited

namespace Node

def className : Node → String
  | .void => "Void"
  | .atomDef .. => "DefAtom"
  | .primitive .. => "Primitive"
  | .structName .. => "StructName"
  | .atomRef .. => "AtomRef"
  | .macroRef .. => "MacroRef"
  | .string .. => "Str"
  | .value .. => "Value"
  | .binary .. => "Expr"
  | .list _ => "NodeList"
  | .record _ => "Record"

/-- The token to blame for a node. -/
def token : Node → Option Nat
  | .void => none
  | .atomDef _ t => t
  | .primitive _ _ t => t
  | .structName _ t => t
  | .atomRef _ t => t
  | .macroRef _ t => t
  | .string _ t => t
  | .value _ _ t => t
  | .binary _ _ _ t => t
  | .list _ => none
  | .record _ => none

/-! ## how nodes are shown -/

mutual

/-- How a node is shown: an expression with all its parentheses, a list with commas. -/
def text : Node → String
  | .void => "<VOID>"
  | .atomDef name _ => "atom " ++ name
  | .primitive name _ _ => name
  | .structName name _ => name
  | .atomRef name _ => name
  | .macroRef name _ => name
  | .string s _ => "\"" ++ s ++ "\""
  | .value number _ _ => number.text
  | .binary lhs op rhs _ => "(" ++ lhs.text ++ " " ++ op.glyph ++ " " ++ rhs.text ++ ")"
  | .list items => String.intercalate ", " (texts items)
  | .record fields => String.intercalate ", " (texts fields)

def texts : List Node → List String
  | [] => []
  | n :: ns => n.text :: texts ns

end

/-- How a node is shown together with its class. -/
def labelled (n : Node) : String := "<" ++ n.className ++ " " ++ n.text ++ ">"

/-! ## staticness -/

mutual

/-- Whether the value of a node can be had without knowing any name. -/
def isStatic : Node → Bool
  | .structName .. => false
  | .atomRef .. => false
  | .macroRef .. => false
  | .binary lhs _ rhs _ => lhs.isStatic && rhs.isStatic
  | .list items => areStatic items
  | .record fields => areStatic fields
  | _ => true

def areStatic : List Node → Bool
  | [] => true
  | n :: ns => n.isStatic && areStatic ns

end

/-! ## spans -/

mutual

/-- The first token that a node covers.  An atom definition starts at its keyword, one before the
name; that is before the first token if the name is the first one. -/
def left : Node → Option Int
  | .atomDef _ t => t.map fun i => (i : Int) - 1
  | .binary lhs _ _ _ => lhs.left
  | .list items => leftOf items
  | .record fields => leftOf fields
  | n => n.token.map fun i => (i : Int)

def leftOf : List Node → Option Int
  | [] => none
  | n :: _ => n.left

end

mutual

def right : Node → Option Int
  | .binary _ _ rhs _ => rhs.right
  | .list items => rightOf items
  | .record fields => rightOf fields
  | n => n.token.map fun i => (i : Int)

def rightOf : List Node → Option Int
  | [] => none
  | [n] => n.right
  | _ :: m :: ns => rightOf (m :: ns)

end

end Node

end TableAssembler

import TableAssembler.Operator
import TableAssembler.Primitive

/-!
# Tokens

A token is one word of a source, classified once and for all, so that nobody needs to look at its
spelling again.

* `Token.Kind`             the classes of words, with `Token.Kind.tag`;
* `Token.Kind.ofWord`      the class of a word of letters and digits;
* `Token`                  a word with the place where it stands.
-/

namespace TableAssembler

/-- The class of a word.

* `keywordAtom`, `keywordMacro`  the words that open a definition;
* `primitive`, `struct`          the names of types;
* `atom`, `macroName`            the names of atoms and of macros;
* `string`                       a text between quotes;
* `int`, `hex`, `bin`            numerals in base ten, sixteen and two;
* `operator`                     an operator;
* `bogus`                        a character that makes no word. -/
inductive Token.Kind where
  | keywordAtom
  | keywordMacro
  | primitive (type : Primitive)
  | struct
  | atom
  | macroName
  | string
  | int
  | hex
  | bin
  | operator (op : Operator)
  | bogus
deriving DecidableEq, Repr, Inhabited

namespace Token.Kind

def tag : Kind → String
  | .keywordAtom => "keyword_atom"
  | .keywordMacro => "keyword_macro"
  | .primitive _ => "primitive"
  | .struct => "struct"
  | .atom => "atom"
  | .macroName => "macro"
  | .string => "string"
  | .int => "int"
  | .hex => "hex"
  | .bin => "bin"
  | .operator _ => "operator"
  | .bogus => "bogus"

def isKeyword : Kind → Bool
  | .keywordAtom | .keywordMacro => true
  | _ => false

def isType : Kind → Bool
  | .primitive _ | .struct => true
  | _ => false

def isNumeral : Kind → Bool
  | .int | .hex | .bin => true
  | _ => false

/-- Whether a word is an operand, so that it opens an expression. -/
def isOperand : Kind → Bool
  | .atom | .int | .hex | .bin => true
  | _ => false

def isOperator : Kind → Bool
  | .operator _ => true
  | _ => false

/-- The width in bits of the primitive type that a word names. -/
def width? : Kind → Option Nat
  | .primitive type => some type.width
  | _ => none

/-! ## words of letters and digits -/

/-- The class of a word that is no keyword, no primitive type and no operator: a capital opens the
name of a struct or, if no small letter follows, of an atom; all else names a macro. -/
def ofName (word : List Char) : Kind :=
  match word with
  | [] => .macroName
  | c :: _ =>
    if c.isUpper then if word.any Char.isLower then .struct else .atom
    else .macroName

/-- The class of a word of letters and digits. -/
def ofWord (word : List Char) : Kind :=
  let text := String.ofList word
  if text = "atom" then .keywordAtom
  else if text = "macro" then .keywordMacro
  else
    match Primitive.ofName? text with
    | some type => .primitive type
    | none => if text = Operator.replicate.glyph then .operator .replicate else ofName word

end Token.Kind

/-- One word of a source: its class, its text, the offsets where it starts and stops, and the row
and the column where it starts. -/
structure Token where
  kind : Token.Kind
  text : String
  start : Nat
  stop : Nat
  row : Nat
  col : Nat
deriving DecidableEq, Repr, Inhabited

end TableAssembler

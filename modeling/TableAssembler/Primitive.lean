/-!
# Primitive types

The five primitive types have fixed widths on the target system.

* `Primitive.name`, `Primitive.width`   what a type is called and how many bits it has;
* `Primitive.ofName?`                   the type of a name.
-/

namespace TableAssembler

inductive Primitive where
  | bool
  | nybl
  | byte
  | word
  | long
deriving DecidableEq, Repr, Inhabited

namespace Primitive

def all : List Primitive := [.bool, .nybl, .byte, .word, .long]

def name : Primitive → String
  | .bool => "bool"
  | .nybl => "nybl"
  | .byte => "byte"
  | .word => "word"
  | .long => "long"

/-- The width of a primitive type in bits. -/
def width : Primitive → Nat
  | .bool => 1
  | .nybl => 4
  | .byte => 8
  | .word => 16
  | .long => 32

/-- The primitive type that is called so, if there is one. -/
def ofName? (name : String) : Option Primitive := all.find? fun p => p.name == name

end Primitive

end TableAssembler

import TableAssembler.Fault
import TableAssembler.Node.Basic
import TableAssembler.Token.Basic

/-!
# Cursors

Statements are read off the tokens of a source from left to right.

* `Cursor`           the tokens that are still to be read, and the index of the first of them;
* `Cursor.missing`   the fault for a word that did not come;
* `Step`             a node or a fault, with the cursor after it.
-/

namespace TableAssembler

/-- The tokens that are still to be read, and the index of the first of them. -/
structure Cursor where
  index : Nat
  rest : List Token
deriving DecidableEq, Repr, Inhabited

namespace Cursor

def start (tokens : List Token) : Cursor := ⟨0, tokens⟩

def atEnd (c : Cursor) : Bool := c.rest.isEmpty

def kind? (c : Cursor) : Option Token.Kind := c.rest.head?.map Token.kind

/-- Whether there is a next word and its class has a property. -/
def sees (c : Cursor) (p : Token.Kind → Bool) : Bool := c.kind?.any p

def advance (c : Cursor) : Cursor := ⟨c.index + 1, c.rest.tail⟩

def advance? (c : Cursor) : Option Cursor := if c.atEnd then none else some c.advance

/-- The fault for a word that did not come: the end is blamed on the word before, or else the word
that came instead is to blame. -/
def missing (c : Cursor) (before : Nat) : Fault :=
  if c.atEnd then ⟨.endOfFile, some before, none⟩ else .unexpected (some c.index)

theorem length_rest_advance (c : Cursor) (h : c.rest ≠ []) :
    c.advance.rest.length < c.rest.length := by
  cases hc : c.rest with
  | nil => exact absurd hc h
  | cons t ts => simp [advance, hc]

end Cursor

/-- The outcome of reading: a node or what is wrong, and the cursor after the words consumed. -/
structure Step where
  result : Except Fault Node
  after : Cursor

end TableAssembler

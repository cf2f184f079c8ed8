/-!
# Operators

The twelve binary operators.  Eleven compute with numbers; `replicate` asks for a datum to be packed
several times and is spelled like a word.

* `Operator.glyph`     how an operator is written;
* `Operator.ofGlyph?`  the operator written so, with `ofGlyph?_glyph`.
-/

namespace TableAssembler

inductive Operator where
  | add
  | sub
  | mul
  | div
  | mod
  | pow
  | xor
  | and
  | or
  | shl
  | shr
  | replicate
deriving DecidableEq, Repr, Inhabited

namespace Operator

def all : List Operator :=
  [.add, .sub, .mul, .div, .mod, .pow, .xor, .and, .or, .shl, .shr, .replicate]

theorem mem_all (op : Operator) : op ∈ all := by cases op <;> decide

/-- How an operator is written. -/
def glyph : Operator → String
  | .add => "+"
  | .sub => "-"
  | .mul => "*"
  | .div => "/"
  | .mod => "\\\\"
  | .pow => "**"
  | .xor => "^"
  | .and => "&"
  | .or => "|"
  | .shl => "<<"
  | .shr => ">>"
  | .replicate => "x"

/-- The operator that is written so, if there is one. -/
def ofGlyph? (text : String) : Option Operator := all.find? fun op => op.glyph == text

theorem glyph_of_ofGlyph? {text : String} {op : Operator} (h : ofGlyph? text = some op) :
    op.glyph = text := by
  simpa using List.find?_some h

theorem glyph_injective {a b : Operator} (h : a.glyph = b.glyph) : a = b := by
  cases a <;> cases b <;> first | rfl | simp [glyph] at h

theorem ofGlyph?_glyph (op : Operator) : ofGlyph? op.glyph = some op := by
  cases h : ofGlyph? op.glyph with
  | none =>
    have := List.find?_eq_none.1 h op (mem_all op)
    simp at this
  | some op' => rw [glyph_injective (glyph_of_ofGlyph? h)]

end Operator

end TableAssembler

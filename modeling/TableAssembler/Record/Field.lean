/-!
# Fields

A record type is a row of fields.  A field is a primitive of some width in bits, or another record
type nested whole.  Fields smaller than a byte are not packed: each takes a whole byte.

* `ceilByte`                      the bytes that a number of bits takes, at least one;
* `Leaf`, `Field`                 a primitive field, and any field;
* `Field.stride`, `Field.cols`    its bytes and its columns;
* `Field.leaves`                  its primitive fields, nested ones flattened out.
-/

namespace TableAssembler

/-- The bytes that a number of bits takes: no field takes less than one. -/
def ceilByte (bits : Int) : Nat := max 1 ((bits + 7) / 8).toNat

theorem ceilByte_pos (bits : Int) : 0 < ceilByte bits := by
  unfold ceilByte
  omega

theorem ceilByte_bytes (n : Nat) : ceilByte ((n * 8 : Nat) : Int) = max 1 n := by
  unfold ceilByte
  omega

/-- A primitive field: its name and its width in bits. -/
structure Leaf where
  name : String
  width : Int
deriving DecidableEq, Repr, Inhabited

/-- A field: a primitive, or a record type, which may have a name of its own, nested whole. -/
inductive Field where
  | primitive (leaf : Leaf)
  | nested (name : String) (struct : Option String) (fields : List Field)
deriving Inhabited

namespace Field

def name : Field → String
  | .primitive leaf => leaf.name
  | .nested name _ _ => name

mutual

/-- The width of a field in bits; a nested record type has whole bytes. -/
def bits : Field → Int
  | .primitive leaf => leaf.width
  | .nested _ _ fields => ((strideOf fields * 8 : Nat) : Int)

def strideOf : List Field → Nat
  | [] => 0
  | f :: fs => ceilByte f.bits + strideOf fs

end

def stride (f : Field) : Nat := ceilByte f.bits

mutual

def cols : Field → Nat
  | .primitive _ => 1
  | .nested _ _ fields => colsOf fields

def colsOf : List Field → Nat
  | [] => 0
  | f :: fs => f.cols + colsOf fs

end

mutual

/-- The primitive fields that a field comes down to, in order. -/
def leaves : Field → List Leaf
  | .primitive leaf => [leaf]
  | .nested _ _ fields => leavesOf fields

def leavesOf : List Field → List Leaf
  | [] => []
  | f :: fs => f.leaves ++ leavesOf fs

end

end Field

end TableAssembler

import TableAssembler.Proofs.Table.Batch
import Mathlib.Data.Rat.Floor

/-!
# Totals

A record type adds up its bytes and its columns field by field, and a nested one adds the bytes that
it came to itself.  Here the totals are read off the layout, with everything nested flattened out:
a column for each primitive field, the bytes of each, and one byte more wherever a record type
without fields is nested.

* `Totals`, `Field.totals`, `Field.totalsFrom`   the totals, as they are added up;
* `Field.places`                what is found at a field, itself and all that is nested in it;
* `Field.isHollow`              a record type without fields;
* `leafBytes`                   the bytes of primitive fields, rounded up one by one;
* `totalsFrom_eq`               the totals of some fields are their bytes and their columns;
* `strideOf_eq`                 bytes, read off the layout;
* `Struct.hollows`              how often a record type without fields is nested;
* `totals_layout`               the totals of a record type that is built field by field.
-/

namespace TableAssembler

/-! ## adding up -/

/-- the bytes and the columns of a record type, while it is built -/
structure Totals where
  stride : Nat := 0
  cols : Nat := 0

/-- the totals with those of one more field -/
def Totals.add (t u : Totals) : Totals := ⟨t.stride + u.stride, t.cols + u.cols⟩

namespace Field

mutual

/-- what a field adds to the totals -/
def totals : Field → Totals
  | .primitive leaf => ⟨ceilByte leaf.width, 1⟩
  | .nested _ _ fields =>
    ⟨ceilByte (((totalsFrom {} fields).stride * 8 : Nat) : Int), (totalsFrom {} fields).cols⟩

/-- the totals after some more fields, each added to what there was before it -/
def totalsFrom (t : Totals) : List Field → Totals
  | [] => t
  | f :: fs => totalsFrom (t.add f.totals) fs

end

mutual

theorem totals_eq (f : Field) : f.totals = ⟨f.stride, f.cols⟩ := by
  cases f with
  | primitive leaf => rfl
  | nested name struct fields =>
    rw [totals, totalsFrom_eq, stride, bits, cols, Nat.zero_add, Nat.zero_add]

/-- **the totals of some fields** are their bytes and their columns, on top of what there was -/
theorem totalsFrom_eq (t : Totals) (fs : List Field) :
    totalsFrom t fs = ⟨t.stride + strideOf fs, t.cols + colsOf fs⟩ := by
  cases fs with
  | nil => rfl
  | cons f fs =>
    rw [totalsFrom, totalsFrom_eq (t.add f.totals) fs, totals_eq f, strideOf, colsOf, Totals.add,
      Nat.add_assoc, Nat.add_assoc, stride]

end

/-! ## the layout -/

mutual

/-- what is found at a field: itself, and all that is nested in it at any depth -/
def places : Field → List Field
  | .primitive leaf => [.primitive leaf]
  | .nested name struct fields => .nested name struct fields :: placesOf fields

def placesOf : List Field → List Field
  | [] => []
  | f :: fs => f.places ++ placesOf fs

end

/-- whether a field is a record type without fields -/
def isHollow : Field → Bool
  | .primitive _ => false
  | .nested _ _ fields => fields.isEmpty

end Field

/-- the bytes of primitive fields, each rounded up by itself and never to none -/
def leafBytes (leaves : List Leaf) : ℤ :=
  (leaves.map fun leaf => max 1 ⌈(leaf.width : ℚ) / 8⌉).sum

theorem ceilByte_eq (width : Int) : (ceilByte width : ℤ) = max 1 ⌈(width : ℚ) / 8⌉ := by
  have hceil : ⌈(width : ℚ) / 8⌉ = -(-width / 8) := Rat.ceil_intCast_div_natCast width 8
  rw [hceil, ceilByte]
  omega

theorem leafBytes_append (leaves more : List Leaf) :
    leafBytes (leaves ++ more) = leafBytes leaves + leafBytes more := by
  rw [leafBytes, List.map_append, List.sum_append]
  rfl

namespace Field

theorem strideOf_eq_zero_iff (fs : List Field) : strideOf fs = 0 ↔ fs = [] := by
  cases fs with
  | nil => exact iff_of_true rfl rfl
  | cons f fs =>
    have hfield : 0 < ceilByte f.bits := ceilByte_pos f.bits
    rw [strideOf]
    exact iff_of_false (by omega) (List.cons_ne_nil f fs)

/-- a nested record type takes the bytes that it came to, and one if it came to none -/
theorem stride_nested (name : String) (struct : Option String) (fields : List Field) :
    stride (.nested name struct fields)
      = strideOf fields + if (nested name struct fields).isHollow then 1 else 0 := by
  rw [stride, bits, ceilByte_bytes]
  cases fields with
  | nil => rfl
  | cons f fs =>
    have hsome : strideOf (f :: fs) ≠ 0 :=
      fun h => List.cons_ne_nil f fs ((strideOf_eq_zero_iff _).mp h)
    rw [isHollow, List.isEmpty_cons, if_neg Bool.false_ne_true]
    omega

mutual

theorem stride_eq (f : Field) :
    (f.stride : ℤ) = leafBytes f.leaves + f.places.countP isHollow := by
  cases f with
  | primitive leaf =>
    rw [stride, bits, ceilByte_eq, leaves, places, leafBytes]
    simp [isHollow]
  | nested name struct fields =>
    rw [stride_nested, leaves, places, List.countP_cons]
    push_cast
    rw [strideOf_eq fields, add_assoc]

/-- **bytes, read off the layout**: those of the primitive fields, and one for each record type
without fields -/
theorem strideOf_eq (fs : List Field) :
    (strideOf fs : ℤ) = leafBytes (leavesOf fs) + (placesOf fs).countP isHollow := by
  cases fs with
  | nil => rfl
  | cons f fs =>
    have hfield : (ceilByte f.bits : ℤ) = leafBytes f.leaves + f.places.countP isHollow :=
      stride_eq f
    rw [strideOf, leavesOf, placesOf, leafBytes_append, List.countP_append]
    push_cast
    rw [hfield, strideOf_eq fs]
    ring

end

end Field

/-! ## record types -/

/-- how often a record type without fields is nested, at any depth -/
def Struct.hollows (s : Struct) : Nat := (Field.placesOf s.fields).countP Field.isHollow

theorem Struct.hollows_eq_zero_iff (s : Struct) :
    s.hollows = 0 ↔ ∀ f ∈ Field.placesOf s.fields, f.isHollow = false := by
  simp [hollows, List.countP_eq_zero]

theorem fields_foldl_addField (s : Struct) (fs : List Field) :
    (fs.foldl Struct.addField s).fields = s.fields ++ fs := by
  induction fs generalizing s with
  | nil => exact (List.append_nil s.fields).symm
  | cons f fs ih =>
    rw [List.foldl_cons, ih, Struct.addField, List.append_assoc, List.singleton_append]

/-- **Totals match the layout.**  A record type that is built field by field adds up a column for
each primitive field, and the bytes of these with one byte more for each place where a record type
without fields is nested.  So its bytes are those of its primitive fields just if there is no such
place, and there are none of them only if there is no field. -/
theorem totals_layout (name : Option String) (fs : List Field) :
    let s := fs.foldl Struct.addField { name }
    Field.totalsFrom {} fs = ⟨s.stride, s.cols⟩ ∧
      s.cols = s.leaves.length ∧
      s.stride = leafBytes s.leaves + s.hollows ∧
      (s.stride = leafBytes s.leaves ↔ ∀ f ∈ Field.placesOf s.fields, f.isHollow = false) ∧
      (s.stride = 0 ↔ s.fields = []) := by
  intro s
  have hfields : s.fields = fs := fields_foldl_addField { name } fs
  have hstride : (s.stride : ℤ) = leafBytes s.leaves + s.hollows := Field.strideOf_eq s.fields
  refine ⟨?_, s.length_leaves.symm, hstride, ?_, Field.strideOf_eq_zero_iff s.fields⟩
  · rw [Field.totalsFrom_eq, Nat.zero_add, Nat.zero_add, ← hfields]
    rfl
  · rw [← s.hollows_eq_zero_iff]
    omega

/-- a byte, nothing, and nothing within something: each takes a byte -/
example : (Field.totalsFrom {} [.primitive ⟨"byte", 8⟩, .nested "Nothing" none [],
    .nested "Outer" none [.nested "Nothing" none []]]).stride = 3 := by decide

end TableAssembler

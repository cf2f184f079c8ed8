import TableAssembler.Proofs.Object.Recovery

/-!
# Nothing is lost, doubled or moved

Reading all cells of a state in order gives back the data that were packed into it, and every cell
says where it stands.

* `CellsFit`, `RowsFit`, `Assembler.WellFormed`   cells and rows that stand where they say;
* `Assembler.cells`        all cells of a state: of its tables, and then of its builder;
* `Batch.rowsFit`, `Batch.cells_builder`, `Batch.cells_table`   the same for one batch;
* `carry_conserves`        both for every state, whatever failed on the way.
-/

namespace TableAssembler

/-! ## rows in their places -/

/-- cells that stand in a row of a record type, from its first column on -/
def CellsFit (record : Struct) (i : Nat) (cells : List Cell) : Prop :=
  ∀ (j : Nat) (c : Cell), cells[j]? = some c →
    c.row = i ∧ c.col = j ∧ record.leaves[j]? = some c.field

/-- a full row of a record type, at its number -/
structure Row.Fits (record : Struct) (i : Nat) (r : Row) : Prop where
  index : r.index = i
  full : r.cells.length = record.leaves.length
  cells : CellsFit record i r.cells

def RowsFit (record : Struct) (rows : List Row) : Prop :=
  ∀ (i : Nat) (r : Row), rows[i]? = some r → r.Fits record i

/-- the cells of the row that is not full -/
def TableBuilder.unfinished (b : TableBuilder) : List Cell :=
  if b.isSatisfied then [] else b.row.cells

/-- All rows of the tables and of the builder are full and stand at their numbers, and so do the
cells of the row that is not full. -/
structure Assembler.WellFormed (a : Assembler) : Prop where
  tables : ∀ t ∈ a.object.tables, RowsFit t.record t.rows
  rows : ∀ b, a.builder = some b → RowsFit b.record b.rows
  unfinished : ∀ b, a.builder = some b → CellsFit b.record b.rows.length b.unfinished

/-! ## all cells -/

def Table.cells (t : Table) : List Cell := t.rows.flatMap Row.cells

def TableBuilder.cells (b : TableBuilder) : List Cell := b.rows.flatMap Row.cells ++ b.unfinished

/-- the cells of the tables in order, and then those of the builder -/
def Assembler.cells (a : Assembler) : List Cell :=
  a.object.tables.flatMap Table.cells ++ a.builder.toList.flatMap TableBuilder.cells

/-! ## the cells of a batch -/

theorem cellsFit_cellsOf (record : Struct) (i : Nat) (data : List Node) :
    CellsFit record i (cellsOf record.leaves i data) := by
  intro j c hc
  rw [cellsOf, List.getElem?_mapIdx] at hc
  obtain ⟨⟨leaf, node⟩, hp, rfl⟩ := Option.map_eq_some_iff.mp hc
  exact ⟨rfl, rfl, (List.getElem?_zip_eq_some.mp hp).1⟩

namespace Batch

theorem length_slice {b : Batch} {i : Nat} (h : i < b.full) :
    (b.slice i).length = b.record.cols := by
  have hle : (i + 1) * b.record.cols ≤ b.data.length :=
    Nat.le_trans (Nat.mul_le_mul_right _ h) (Nat.div_mul_le_self _ _)
  rw [Nat.succ_mul] at hle
  rw [slice, List.length_take, List.length_drop]
  omega

theorem rowsFit (b : Batch) : RowsFit b.record b.rows := by
  intro i r hr
  rw [rows, List.getElem?_map] at hr
  obtain ⟨k, hk, rfl⟩ := Option.map_eq_some_iff.mp hr
  obtain ⟨hlength, hget⟩ := List.getElem?_eq_some_iff.mp hk
  obtain rfl : i = k := by rwa [List.getElem_range] at hget
  have hi : i < b.full := by rwa [List.length_range] at hlength
  refine ⟨rfl, ?_, cellsFit_cellsOf b.record i (b.slice i)⟩
  show (cellsOf b.record.leaves i (b.slice i)).length = _
  rw [length_cellsOf, length_slice hi, Struct.length_leaves, Nat.min_self]

theorem rows_builder (b : Batch) : b.builder.rows = b.rows := List.reverse_reverse _

theorem length_rows (b : Batch) : b.rows.length = b.full := by
  rw [rows, List.length_map, List.length_range]

/-- the full rows one after the other -/
theorem cells_rows (b : Batch) :
    (b.rows.flatMap Row.cells).map Cell.node = b.data.take (b.full * b.record.cols) := by
  have key : ∀ k ≤ b.full, (((List.range k).map fun i =>
      Row.mk i (cellsOf b.record.leaves i (b.slice i))).flatMap Row.cells).map Cell.node
        = b.data.take (k * b.record.cols) := by
    intro k hk
    induction k with
    | zero => rw [Nat.zero_mul]; rfl
    | succ k ih =>
      have hfit : (b.slice k).length ≤ b.record.leaves.length := by
        rw [length_slice hk, Struct.length_leaves]
      rw [List.range_succ, List.map_append, List.flatMap_append, List.map_append,
        ih (Nat.le_of_succ_le hk), Nat.succ_mul, List.take_add]
      congr 1
      simp only [List.map_cons, List.map_nil, List.flatMap_cons, List.flatMap_nil, List.append_nil]
      exact map_node_cellsOf k hfit
  exact key b.full (Nat.le_refl _)

theorem cells_table {b : Batch} (h : b.record.cols ∣ b.data.length) :
    b.table.cells.map Cell.node = b.data := by
  show (b.rows.flatMap Row.cells).map Cell.node = b.data
  rw [cells_rows, full, Nat.div_mul_cancel h, List.take_length]

theorem unfinished_eq (b : TableBuilder) : b.unfinished = b.current.cells := by
  rw [TableBuilder.unfinished, TableBuilder.current, TableBuilder.isSatisfied]
  split <;> rfl

theorem unfinished_builder {b : Batch} (h : b.record.cols = 0 → b.data = []) :
    b.builder.unfinished = cellsOf b.record.leaves b.full b.part := by
  rcases Nat.eq_zero_or_pos b.record.cols with h0 | hcols
  · obtain ⟨record, data⟩ := b
    obtain rfl : data = [] := h h0
    have hpart : (Batch.mk record []).part = [] := List.drop_nil
    rw [builder_start, hpart, cellsOf_nil, unfinished_eq]
    rfl
  · rw [unfinished_eq, current_builder hcols]
    exact List.reverse_reverse _

theorem cells_builder {b : Batch} (h : b.record.cols = 0 → b.data = []) :
    b.builder.cells.map Cell.node = b.data := by
  have hfit : b.part.length ≤ b.record.leaves.length := by
    rw [Struct.length_leaves, length_part]
    rcases Nat.eq_zero_or_pos b.record.cols with h0 | hcols
    · rw [h h0, List.length_nil, Nat.zero_mod]
      exact Nat.zero_le _
    · exact Nat.le_of_lt (Nat.mod_lt _ hcols)
  rw [TableBuilder.cells, List.map_append, rows_builder, cells_rows, unfinished_builder h,
    map_node_cellsOf b.full hfit, part, List.take_append_drop]

end Batch

/-! ## the cells of a state -/

namespace Assembler

section
variable {a : Assembler} {made : List Batch} {current : Option Batch}

theorem Batched.wellFormed (h : a.Batched [] made current) : a.WellFormed := by
  have hbuilder : ∀ b, a.builder = some b → ∃ c : Batch, b = c.builder ∧
      (c.record.cols = 0 → c.data = []) := by
    intro b hb
    rw [h.holds.builder] at hb
    obtain ⟨c, hc, rfl⟩ := Option.map_eq_some_iff.mp hb
    exact ⟨c, rfl, h.holds.empty c hc⟩
  refine ⟨fun t ht => ?_, fun b hb => ?_, fun b hb => ?_⟩
  · rw [h.tables, List.nil_append] at ht
    obtain ⟨c, _, rfl⟩ := List.mem_map.mp ht
    exact c.rowsFit
  · obtain ⟨c, rfl, _⟩ := hbuilder b hb
    rw [c.rows_builder]
    exact c.rowsFit
  · obtain ⟨c, rfl, hempty⟩ := hbuilder b hb
    rw [Batch.unfinished_builder hempty, c.rows_builder, c.length_rows]
    exact cellsFit_cellsOf c.record c.full c.part

theorem Batched.cells (h : a.Batched [] made current) :
    a.cells.map Cell.node = held made current := by
  have hmade : ∀ bs : List Batch, (∀ b ∈ bs, b.record.cols ∣ b.data.length) →
      ((bs.map Batch.table).flatMap Table.cells).map Cell.node = bs.flatMap Batch.data := by
    intro bs hbs
    induction bs with
    | nil => rfl
    | cons b bs ih =>
      obtain ⟨hb, hmore⟩ := List.forall_mem_cons.mp hbs
      rw [List.map_cons, List.flatMap_cons, List.map_append, Batch.cells_table hb, ih hmore,
        List.flatMap_cons]
  have hopen : (a.builder.toList.flatMap TableBuilder.cells).map Cell.node
      = current.toList.flatMap Batch.data := by
    rw [h.holds.builder]
    cases current with
    | none => rfl
    | some b =>
      simp only [Option.map_some, Option.toList_some, List.flatMap_cons, List.flatMap_nil,
        List.append_nil]
      exact Batch.cells_builder (h.holds.empty b rfl)
  rw [Assembler.cells, List.map_append, h.tables, List.nil_append, hmade made h.whole, hopen, held,
    List.flatMap_append]

end

/-- **Nothing is lost, doubled or moved.**  Whatever is done with an assembler that has no table
yet, and whatever of it fails, all rows and cells stand where they say, and the cells in order hold
the data of the statements that did not fail. -/
theorem carry_conserves (atoms : Atoms) (structs : Structs) (actions : List Action) :
    ((⟨⟨atoms, structs, []⟩, none⟩ : Assembler).carry actions).WellFormed ∧
      Yields ((⟨⟨atoms, structs, []⟩, none⟩ : Assembler).accepted actions)
        (((⟨⟨atoms, structs, []⟩, none⟩ : Assembler).carry actions).cells.map Cell.node) := by
  obtain ⟨ds, hyields, made, current, hbatched, hheld⟩ :=
    packed_carry ⟨atoms, structs, []⟩ actions
  refine ⟨hbatched.wellFormed, ?_⟩
  rw [hbatched.cells, hheld]
  exact hyields

end Assembler

end TableAssembler

import TableAssembler.Table.Builder

/-!
# Tables from all their data at once

A builder is given its data one by one.  Here its state is read off all the data that it was given.

* `Struct.length_leaves`     a record type has as many primitive fields as columns;
* `Batch`                    a record type and the data for it;
* `Batch.table`              the table of a batch, row by row;
* `Batch.builder`            the builder that was given a batch;
* `Batch.add_builder`        one more datum gives the builder of one more datum;
* `Batch.finish_builder_of_dvd`, `Batch.finish_builder_of_not_dvd`   the table is finished if the
                             data fill whole rows, and only then.
-/

namespace TableAssembler

/-! ## columns -/

mutual

theorem Field.length_leaves (f : Field) : f.leaves.length = f.cols := by
  cases f with
  | primitive leaf => rfl
  | nested name struct fields =>
    rw [Field.leaves, Field.cols]
    exact Field.length_leavesOf fields

theorem Field.length_leavesOf (fs : List Field) : (leavesOf fs).length = colsOf fs := by
  cases fs with
  | nil => rfl
  | cons f fs =>
    rw [leavesOf, colsOf, List.length_append, Field.length_leaves f, Field.length_leavesOf fs]

end

theorem Struct.length_leaves (s : Struct) : s.leaves.length = s.cols :=
  Field.length_leavesOf s.fields

/-! ## cells -/

/-- the cells of a row, each datum in its column -/
def cellsOf (leaves : List Leaf) (row : Nat) (data : List Node) : List Cell :=
  (leaves.zip data).mapIdx fun col p => ⟨p.1, p.2, row, col⟩

theorem length_cellsOf (leaves : List Leaf) (row : Nat) (data : List Node) :
    (cellsOf leaves row data).length = min leaves.length data.length := by
  rw [cellsOf, List.length_mapIdx, List.length_zip]

theorem zip_concat {leaves rest : List Leaf} {leaf : Leaf} {data : List Node}
    (h : leaves.drop data.length = leaf :: rest) (node : Node) :
    leaves.zip (data ++ [node]) = leaves.zip data ++ [(leaf, node)] := by
  induction data generalizing leaves with
  | nil =>
    rw [show leaves = leaf :: rest from h, List.zip_nil_right, List.nil_append, List.zip_cons_cons,
      List.zip_nil_right, List.nil_append]
  | cons d data ih =>
    cases leaves with
    | nil => cases h
    | cons l leaves =>
      rw [List.cons_append, List.zip_cons_cons, List.zip_cons_cons, List.cons_append, ih h]

theorem cellsOf_concat {leaves rest : List Leaf} {leaf : Leaf} {row : Nat} {data : List Node}
    (h : leaves.drop data.length = leaf :: rest) (node : Node) :
    cellsOf leaves row (data ++ [node])
      = cellsOf leaves row data ++ [⟨leaf, node, row, data.length⟩] := by
  have hlt : data.length < leaves.length := by
    have := congrArg List.length h
    rw [List.length_drop, List.length_cons] at this
    omega
  rw [cellsOf, zip_concat h, List.mapIdx_concat, List.length_zip,
    Nat.min_eq_right (Nat.le_of_lt hlt)]
  rfl

/-! ## batches -/

/-- a record type and the data for it, in the order in which they came -/
structure Batch where
  record : Struct
  data : List Node

namespace Batch

def push (b : Batch) (node : Node) : Batch := ⟨b.record, b.data ++ [node]⟩

/-- the data of the row with a number -/
def slice (b : Batch) (i : Nat) : List Node :=
  (b.data.drop (i * b.record.cols)).take b.record.cols

/-- how many rows are full -/
def full (b : Batch) : Nat := b.data.length / b.record.cols

/-- the data after the full rows -/
def part (b : Batch) : List Node := b.data.drop (b.full * b.record.cols)

def rows (b : Batch) : List Row :=
  (List.range b.full).map fun i => ⟨i, cellsOf b.record.leaves i (b.slice i)⟩

def table (b : Batch) : Table := ⟨b.record, b.rows⟩

/-- the row with a number, filled with the data from there on -/
def rowBuilder (b : Batch) (i : Nat) : RowBuilder :=
  let data := b.data.drop (i * b.record.cols)
  ⟨i, data.length, b.record.leaves.drop data.length, (cellsOf b.record.leaves i data).reverse⟩

/-- the builder that was given a batch -/
def builder (b : Batch) : TableBuilder :=
  ⟨b.record, b.rows.reverse, b.rowBuilder ((b.data.length - 1) / b.record.cols)⟩

theorem cellsOf_nil (leaves : List Leaf) (row : Nat) : cellsOf leaves row [] = [] := by
  rw [cellsOf, List.zip_nil_right]
  rfl

theorem builder_start (record : Struct) : (Batch.mk record []).builder = .start record := by
  have hrows : (Batch.mk record []).rows = [] := by
    rw [rows, full, List.length_nil, Nat.zero_div]
    rfl
  have hzero : (([] : List Node).length - 1) / record.cols = 0 := Nat.zero_div _
  rw [builder, hrows, hzero, rowBuilder, List.drop_nil, cellsOf_nil]
  rfl

/-! ## rows -/

theorem length_data (b : Batch) :
    b.data.length = b.full * b.record.cols + b.data.length % b.record.cols := by
  rw [full, Nat.mul_comm]
  exact (Nat.div_add_mod _ _).symm

theorem length_part (b : Batch) : b.part.length = b.data.length % b.record.cols := by
  have := b.length_data
  rw [part, List.length_drop]
  omega

theorem slice_push {b : Batch} {i : Nat} (h : i * b.record.cols + b.record.cols ≤ b.data.length)
    (node : Node) : (b.push node).slice i = b.slice i := by
  have hlen : b.record.cols ≤ (b.data.drop (i * b.record.cols)).length := by
    rw [List.length_drop]
    omega
  show ((b.data ++ [node]).drop (i * b.record.cols)).take b.record.cols = _
  rw [List.drop_append_of_le_length (by omega), List.take_append_of_le_length hlen]
  rfl

theorem drop_push (b : Batch) (node : Node) :
    (b.push node).data.drop (b.full * b.record.cols) = b.part ++ [node] := by
  have := b.length_data
  rw [push, List.drop_append_of_le_length (by omega), part]

/-- the rows that are full stay as they are -/
theorem map_slice_push (b : Batch) (node : Node) :
    (List.range b.full).map
        (fun i => Row.mk i (cellsOf b.record.leaves i ((b.push node).slice i))) = b.rows := by
  refine List.map_congr_left fun i hi => ?_
  have hle : (i + 1) * b.record.cols ≤ b.data.length :=
    Nat.le_trans (Nat.mul_le_mul_right _ (List.mem_range.mp hi)) (Nat.div_mul_le_self _ _)
  rw [Nat.succ_mul] at hle
  rw [slice_push hle]

theorem rows_push_of_lt {b : Batch} (node : Node) (h : b.part.length + 1 < b.record.cols) :
    (b.push node).rows = b.rows := by
  have hlen := b.length_data
  rw [length_part] at h
  have hfull : (b.push node).full = b.full := by
    rw [full, push, List.length_append, List.length_singleton]
    refine Nat.div_eq_of_lt_le ?_ ?_
    · show b.full * b.record.cols ≤ _
      omega
    · show _ < (b.full + 1) * b.record.cols
      rw [Nat.succ_mul]
      omega
  rw [rows, hfull]
  exact b.map_slice_push node

theorem rows_push_of_eq {b : Batch} (node : Node) (h : b.part.length + 1 = b.record.cols) :
    (b.push node).rows
      = b.rows ++ [⟨b.full, cellsOf b.record.leaves b.full (b.part ++ [node])⟩] := by
  have hlen := b.length_data
  rw [length_part] at h
  have hfull : (b.push node).full = b.full + 1 := by
    rw [full, push, List.length_append, List.length_singleton]
    refine Nat.div_eq_of_eq_mul_left (by show 0 < b.record.cols; omega) ?_
    show _ = (b.full + 1) * b.record.cols
    rw [Nat.succ_mul]
    omega
  have hslice : (b.push node).slice b.full = b.part ++ [node] := by
    show ((b.push node).data.drop (b.full * b.record.cols)).take b.record.cols = _
    rw [drop_push]
    refine List.take_of_length_le ?_
    rw [List.length_append, length_part, List.length_singleton]
    omega
  rw [rows, hfull, List.range_succ, List.map_append, List.map_singleton, hslice]
  congr 1
  exact b.map_slice_push node

/-! ## builders -/

theorem isStarted_rowBuilder {b : Batch} (hcols : 0 < b.record.cols) (i : Nat) :
    (b.rowBuilder i).isStarted = true ↔ i * b.record.cols < b.data.length := by
  rw [RowBuilder.isStarted, Bool.not_eq_true', List.isEmpty_eq_false_iff, ← List.length_pos_iff]
  show 0 < (cellsOf b.record.leaves i (b.data.drop (i * b.record.cols))).reverse.length ↔ _
  rw [List.length_reverse, length_cellsOf, Struct.length_leaves, List.length_drop]
  omega

/-- a row is satisfied if it has as many data as columns -/
theorem isSatisfied_rowBuilder {b : Batch} (hcols : 0 < b.record.cols) (i : Nat) :
    (b.rowBuilder i).isSatisfied = true
      ↔ i * b.record.cols + b.record.cols ≤ b.data.length := by
  have htodo : (b.rowBuilder i).todo.isEmpty = true
      ↔ b.record.cols ≤ b.data.length - i * b.record.cols := by
    rw [List.isEmpty_iff]
    show b.record.leaves.drop (b.data.drop (i * b.record.cols)).length = [] ↔ _
    rw [List.drop_eq_nil_iff, Struct.length_leaves, List.length_drop]
  rw [RowBuilder.isSatisfied, Bool.and_eq_true, isStarted_rowBuilder hcols, htodo]
  omega

/-- the row of the last datum, which may be full -/
theorem div_cases {b : Batch} (hcols : 0 < b.record.cols) :
    b.data.length = ((b.data.length - 1) / b.record.cols + 1) * b.record.cols ∨
      (b.data.length - 1) / b.record.cols = b.full ∧
        b.data.length < b.full * b.record.cols + b.record.cols := by
  have hlow := Nat.div_mul_le_self (b.data.length - 1) b.record.cols
  have hhigh : b.data.length - 1
      < (b.data.length - 1) / b.record.cols * b.record.cols + b.record.cols :=
    Nat.lt_div_mul_add hcols
  rw [Nat.succ_mul]
  by_cases hfull : (b.data.length - 1) / b.record.cols * b.record.cols + b.record.cols
      ≤ b.data.length
  · exact .inl (by omega)
  · have hdiv : b.full = (b.data.length - 1) / b.record.cols := by
      refine Nat.div_eq_of_lt_le (by omega) ?_
      rw [Nat.succ_mul]
      omega
    exact .inr ⟨hdiv.symm, by rw [hdiv]; omega⟩

/-- the row that takes the next datum -/
theorem current_builder {b : Batch} (hcols : 0 < b.record.cols) :
    b.builder.current = b.rowBuilder b.full := by
  have hsat := isSatisfied_rowBuilder hcols ((b.data.length - 1) / b.record.cols)
  rcases div_cases hcols with hlen | ⟨hdiv, hless⟩
  · -- the last datum filled its row, so the next one begins a row
    have hfull : b.full = (b.data.length - 1) / b.record.cols + 1 :=
      Nat.div_eq_of_eq_mul_left hcols hlen
    have hdrop : b.data.drop (b.full * b.record.cols) = [] := by
      rw [hfull]
      exact List.drop_eq_nil_of_le (Nat.le_of_eq hlen)
    rw [Nat.succ_mul] at hlen
    rw [TableBuilder.current, builder, if_pos (hsat.mpr (Nat.le_of_eq hlen.symm)), rowBuilder,
      rowBuilder, hdrop, cellsOf_nil, hfull]
    rfl
  · have hopen : ¬ (b.rowBuilder ((b.data.length - 1) / b.record.cols)).isSatisfied = true := by
      rw [hsat, hdiv]
      omega
    rw [TableBuilder.current, builder, if_neg hopen, hdiv]

theorem exists_leaf {b : Batch} (hcols : 0 < b.record.cols) :
    ∃ leaf rest, b.record.leaves.drop b.part.length = leaf :: rest := by
  refine List.exists_cons_of_ne_nil fun h => ?_
  have hle := List.drop_eq_nil_iff.mp h
  have hless := Nat.mod_lt b.data.length hcols
  rw [Struct.length_leaves, length_part] at hle
  omega

theorem builder_push (b : Batch) (node : Node) :
    (b.push node).builder
      = ⟨b.record, (b.push node).rows.reverse, (b.push node).rowBuilder b.full⟩ := by
  have hprev : ((b.push node).data.length - 1) / b.record.cols = b.full := by
    rw [push, List.length_append, List.length_singleton, Nat.add_sub_cancel, full]
  show TableBuilder.mk b.record (b.push node).rows.reverse
    ((b.push node).rowBuilder (((b.push node).data.length - 1) / b.record.cols)) = _
  rw [hprev]

theorem rowBuilder_push {b : Batch} {leaf : Leaf} {rest : List Leaf}
    (h : b.record.leaves.drop b.part.length = leaf :: rest) (node : Node) :
    (b.push node).rowBuilder b.full
      = ⟨b.full, b.part.length + 1, rest,
          (cellsOf b.record.leaves b.full (b.part ++ [node])).reverse⟩ := by
  have hrest : b.record.leaves.drop (b.part.length + 1) = rest := by
    rw [← List.drop_drop, h, List.drop_one, List.tail_cons]
  show RowBuilder.mk b.full ((b.push node).data.drop (b.full * b.record.cols)).length
    (b.record.leaves.drop ((b.push node).data.drop (b.full * b.record.cols)).length)
    (cellsOf b.record.leaves b.full
      ((b.push node).data.drop (b.full * b.record.cols))).reverse = _
  rw [drop_push, List.length_append, List.length_singleton, hrest]

/-- one more datum gives the builder of one more datum, and the row if that is full -/
theorem add_builder {b : Batch} (hcols : 0 < b.record.cols) (node : Node) :
    b.builder.add node
      = ((b.push node).builder, .ok
          (if b.part.length + 1 = b.record.cols then
            some ⟨b.full, cellsOf b.record.leaves b.full (b.part ++ [node])⟩
          else none)) := by
  obtain ⟨leaf, rest, hleaf⟩ := exists_leaf hcols
  have hcurrent : b.builder.current
      = ⟨b.full, b.part.length, leaf :: rest, (cellsOf b.record.leaves b.full b.part).reverse⟩ := by
    rw [current_builder hcols, ← hleaf]
    rfl
  have hcells : (cellsOf b.record.leaves b.full (b.part ++ [node])).reverse
      = ⟨leaf, node, b.full, b.part.length⟩ ::
          (cellsOf b.record.leaves b.full b.part).reverse := by
    rw [cellsOf_concat hleaf, List.reverse_append]
    rfl
  have hlen : b.record.cols = b.part.length + 1 + rest.length := by
    have hless := Nat.mod_lt b.data.length hcols
    have := congrArg List.length hleaf
    rw [List.length_drop, Struct.length_leaves, List.length_cons] at this
    omega
  rw [builder_push, rowBuilder_push hleaf, hcells, TableBuilder.add, hcurrent]
  cases rest with
  | nil =>
    have hfull : b.part.length + 1 = b.record.cols := by
      rw [hlen]
      rfl
    rw [rows_push_of_eq node hfull, if_pos hfull, List.reverse_append,
      ← List.reverse_reverse (cellsOf b.record.leaves b.full (b.part ++ [node])), hcells]
    rfl
  | cons leaf' rest =>
    have hless : b.part.length + 1 < b.record.cols := by
      rw [hlen, List.length_cons]
      omega
    rw [rows_push_of_lt node hless, if_neg (Nat.ne_of_lt hless)]
    rfl

/-- a row without columns takes no datum, and the builder stays as it is -/
theorem add_builder_of_cols_eq_zero {b : Batch} (h : b.record.cols = 0) (hempty : b.data = [])
    (node : Node) : b.builder.add node = (b.builder, .error ⟨.rowSatisfied, node.token, none⟩) := by
  obtain ⟨record, data⟩ := b
  obtain rfl : data = [] := hempty
  have hleaves : record.leaves = [] := List.length_eq_zero_iff.mp (record.length_leaves.trans h)
  rw [builder_start, TableBuilder.add, TableBuilder.current, TableBuilder.start, RowBuilder.start,
    hleaves]
  rfl

/-! ## tables -/

/-- data that fill whole rows are a table -/
theorem finish_builder_of_dvd {b : Batch} (h : b.record.cols ∣ b.data.length) :
    b.builder.finish = .ok b.table := by
  have hrows : b.builder.rows = b.rows := List.reverse_reverse _
  suffices hdone : ¬ (b.builder.row.isStarted && !b.builder.row.isSatisfied) = true by
    rw [TableBuilder.finish, if_neg hdone, hrows]
    rfl
  rw [Bool.and_eq_true, Bool.not_eq_true', ← Bool.not_eq_true]
  rcases Nat.eq_zero_or_pos b.record.cols with h0 | hcols
  · obtain ⟨record, data⟩ := b
    rw [show record.cols = 0 from h0, Nat.zero_dvd, List.length_eq_zero_iff] at h
    rw [show data = [] from h, builder_start]
    intro hstart
    cases hstart.1
  · have hstarted := isStarted_rowBuilder hcols ((b.data.length - 1) / b.record.cols)
    have hsatisfied := isSatisfied_rowBuilder hcols ((b.data.length - 1) / b.record.cols)
    rintro ⟨hs, hopen⟩
    rcases div_cases hcols with hlen | ⟨hdiv, hless⟩
    · rw [Nat.succ_mul] at hlen
      exact hopen (hsatisfied.mpr (Nat.le_of_eq hlen.symm))
    · have hlow := hstarted.mp hs
      have hlen := b.length_data
      rw [Nat.mod_eq_zero_of_dvd h] at hlen
      rw [hdiv] at hlow
      omega

theorem map_node_cellsOf {leaves : List Leaf} {data : List Node} (row : Nat)
    (h : data.length ≤ leaves.length) : (cellsOf leaves row data).map Cell.node = data := by
  calc (cellsOf leaves row data).map Cell.node
      = ((leaves.zip data).zipIdx.map Prod.fst).map Prod.snd := by
        rw [cellsOf, List.mapIdx_eq_zipIdx_map, List.map_map, List.map_map]
        rfl
    _ = data := by rw [List.zipIdx_map_fst, List.map_snd_zip h]

/-- data that end within a row are none, and the last of them is to blame -/
theorem finish_builder_of_not_dvd {b : Batch} (hcols : 0 < b.record.cols)
    (h : ¬ b.record.cols ∣ b.data.length) :
    b.builder.finish = .error ⟨.unsatisfied, b.data.getLast?.bind Node.token, none⟩ := by
  rcases div_cases hcols with hlen | ⟨hdiv, hless⟩
  · exact absurd ⟨_, hlen.trans (Nat.mul_comm _ _)⟩ h
  · have hrow : b.builder.row = b.rowBuilder b.full := by
      rw [builder, hdiv]
    have hopen : ¬ b.builder.row.isSatisfied = true := by
      rw [hrow, isSatisfied_rowBuilder hcols]
      omega
    have hpart : 0 < b.part.length := by
      rw [length_part]
      exact Nat.pos_of_ne_zero fun h0 => h (Nat.dvd_of_mod_eq_zero h0)
    have hstarted : b.builder.row.isStarted = true := by
      rw [hrow, isStarted_rowBuilder hcols, b.length_data, ← length_part]
      omega
    have hlast : b.builder.row.last? = b.data.getLast? := by
      rw [hrow]
      have hfit : b.part.length ≤ b.record.leaves.length := by
        rw [Struct.length_leaves, length_part]
        exact Nat.le_of_lt (Nat.mod_lt _ hcols)
      show (cellsOf b.record.leaves b.full b.part).reverse.head?.map Cell.node = _
      rw [List.head?_reverse, ← List.getLast?_map, map_node_cellsOf b.full hfit, part,
        List.getLast?_drop, if_neg]
      rw [part, List.length_drop] at hpart
      omega
    rw [TableBuilder.finish, hstarted, hlast, Bool.eq_false_iff.mpr hopen]
    rfl

end Batch

end TableAssembler

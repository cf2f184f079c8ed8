import TableAssembler.Proofs.Object.Conservation

/-!
# Tables in chunks

A table of a record type with columns takes any data, and cuts them into rows of as many data as
there are columns.  A record type without columns takes none.

* `TableBuilder.next`, `TableBuilder.answer`    one datum: the builder after it, and what it gave;
* `TableBuilder.feed`, `TableBuilder.answers`   several data, whichever of them fail;
* `getElem?_answers`        what each of them gives, read off those before it;
* `Batch.feed_builder`, `Batch.answer_builder`  a builder that was given a batch, after more data;
* `Batch.exists_row`, `Batch.isSatisfied_builder`   the rows of a batch, and when they are all full;
* `Chunked`                 what a table with columns is after some data;
* `feed_chunked`            tables with columns, and without.
-/

namespace TableAssembler

/-! ## feeding a builder -/

namespace TableBuilder

/-- the builder after one datum, also after one that fails -/
def next (b : TableBuilder) (node : Node) : TableBuilder := (b.add node).1

/-- what one datum gives: the row that it completes, if it completes one, or a fault -/
def answer (b : TableBuilder) (node : Node) : Except Fault (Option Row) := (b.add node).2

/-- the builder after some data, whichever of them fail -/
def feed (b : TableBuilder) : List Node → TableBuilder
  | [] => b
  | node :: nodes => (b.next node).feed nodes

/-- what some data give, one after the other -/
def answers (b : TableBuilder) : List Node → List (Except Fault (Option Row))
  | [] => []
  | node :: nodes => b.answer node :: (b.next node).answers nodes

/-- each datum answers to the builder after those before it -/
theorem getElem?_answers (b : TableBuilder) {nodes : List Node} {k : Nat} {node : Node}
    (h : nodes[k]? = some node) :
    (b.answers nodes)[k]? = some ((b.feed (nodes.take k)).answer node) := by
  induction nodes generalizing b k with
  | nil => cases h
  | cons first nodes ih =>
    -- the builder moves on with the list, so the claim is for every builder
    cases k with
    | zero =>
      cases h
      rfl
    | succ k => exact ih (b.next first) h

end TableBuilder

/-! ## batches -/

namespace Batch

variable {b : Batch}

theorem extend_cons (b : Batch) (node : Node) (nodes : List Node) :
    b.extend (node :: nodes) = (b.push node).extend nodes := (b.extend_extend [node] nodes).symm

theorem next_builder (hcols : 0 < b.record.cols) (node : Node) :
    b.builder.next node = (b.push node).builder := by
  rw [TableBuilder.next, add_builder hcols]

/-- **a builder that was given a batch, after more data** -/
theorem feed_builder (hcols : 0 < b.record.cols) (nodes : List Node) :
    b.builder.feed nodes = (b.extend nodes).builder := by
  induction nodes generalizing b with
  | nil => rw [TableBuilder.feed, b.extend_nil]
  | cons node nodes ih =>
    rw [TableBuilder.feed, next_builder hcols, ih (b := b.push node) hcols, extend_cons]

/-- one more datum gives the row that it completes, if it completes one -/
theorem rows_push (hcols : 0 < b.record.cols) (node : Node) :
    (b.push node).rows = b.rows ++
      (if b.part.length + 1 = b.record.cols then
        some ⟨b.full, cellsOf b.record.leaves b.full (b.part ++ [node])⟩
      else none : Option Row).toList := by
  have hpart : b.part.length < b.record.cols := by
    rw [length_part]
    exact Nat.mod_lt _ hcols
  rcases Nat.lt_or_eq_of_le (Nat.succ_le_of_lt hpart) with hless | hfull
  · rw [if_neg (Nat.ne_of_lt hless), rows_push_of_lt node hless, Option.toList_none,
      List.append_nil]
  · rw [if_pos hfull, rows_push_of_eq node hfull, Option.toList_some]

/-- more data leave the rows that are full as they are -/
theorem rows_prefix_extend (hcols : 0 < b.record.cols) (nodes : List Node) :
    b.rows <+: (b.extend nodes).rows := by
  induction nodes generalizing b with
  | nil => rw [b.extend_nil]
  | cons node nodes ih =>
    have hfirst : b.rows <+: (b.push node).rows := by
      rw [rows_push hcols node]
      exact List.prefix_append _ _
    rw [b.extend_cons node nodes]
    exact hfirst.trans (ih (b := b.push node) hcols)

/-- **what one more datum gives**: the row at the end, if that is new -/
theorem answer_builder (hcols : 0 < b.record.cols) (node : Node) :
    b.builder.answer node = .ok (b.push node).rows[b.full]? := by
  have hlast : ∀ row : Option Row, (b.rows ++ row.toList)[b.full]? = row := by
    intro row
    rw [← b.length_rows, List.getElem?_append_right (Nat.le_refl _), Nat.sub_self]
    cases row <;> rfl
  rw [TableBuilder.answer, add_builder hcols, rows_push hcols, hlast]

/-! ## rows and cells -/

theorem getElem?_cellsOf {leaves : List Leaf} {data : List Node} {j : Nat} {leaf : Leaf}
    {node : Node} (hleaf : leaves[j]? = some leaf) (hnode : data[j]? = some node) (row : Nat) :
    (cellsOf leaves row data)[j]? = some ⟨leaf, node, row, j⟩ := by
  have hzip : (leaves.zip data)[j]? = some (leaf, node) :=
    List.getElem?_zip_eq_some.mpr ⟨hleaf, hnode⟩
  rw [cellsOf, List.getElem?_mapIdx, hzip]
  rfl

/-- **the row with a number** has a cell for each column, with the datum that came for it -/
theorem exists_row {i : Nat} (h : i < b.full) :
    ∃ r, b.rows[i]? = some r ∧ r.index = i ∧ r.cells.length = b.record.cols ∧
      ∀ j < b.record.cols, ∃ leaf node, b.record.leaves[j]? = some leaf ∧
        b.data[i * b.record.cols + j]? = some node ∧ r.cells[j]? = some ⟨leaf, node, i, j⟩ := by
  have hend : (i + 1) * b.record.cols ≤ b.data.length :=
    Nat.le_trans (Nat.mul_le_mul_right _ h) (Nat.div_mul_le_self _ _)
  rw [Nat.succ_mul] at hend
  refine ⟨⟨i, cellsOf b.record.leaves i (b.slice i)⟩, ?_, rfl, ?_, fun j hj => ?_⟩
  · rw [rows, List.getElem?_map, List.getElem?_range h]
    rfl
  · show (cellsOf b.record.leaves i (b.slice i)).length = _
    rw [length_cellsOf, length_slice h, Struct.length_leaves, Nat.min_self]
  · have hleaf : j < b.record.leaves.length := by rwa [Struct.length_leaves]
    have hnode : i * b.record.cols + j < b.data.length := by omega
    refine ⟨_, _, List.getElem?_eq_getElem hleaf, List.getElem?_eq_getElem hnode, ?_⟩
    refine getElem?_cellsOf (List.getElem?_eq_getElem hleaf) ?_ i
    rw [slice, List.getElem?_take_of_lt hj, List.getElem?_drop, List.getElem?_eq_getElem hnode]

/-- a builder is satisfied when its data fill rows, and at least one -/
theorem isSatisfied_builder (hcols : 0 < b.record.cols) :
    b.builder.isSatisfied = true ↔ 0 < b.data.length ∧ b.record.cols ∣ b.data.length := by
  have hrow := isSatisfied_rowBuilder hcols ((b.data.length - 1) / b.record.cols)
  show (b.rowBuilder ((b.data.length - 1) / b.record.cols)).isSatisfied = true ↔ _
  rw [hrow]
  have hlow := Nat.div_mul_le_self (b.data.length - 1) b.record.cols
  rcases div_cases hcols with hlen | ⟨hdiv, hless⟩
  · have hdvd : b.record.cols ∣ b.data.length := ⟨_, hlen.trans (Nat.mul_comm _ _)⟩
    rw [Nat.succ_mul] at hlen
    exact ⟨fun _ => ⟨by omega, hdvd⟩, fun _ => Nat.le_of_eq hlen.symm⟩
  · rw [hdiv] at hlow ⊢
    refine ⟨fun h => absurd h (by omega), fun ⟨hpos, hdvd⟩ => ?_⟩
    -- data that fill rows would end with the row of the last datum
    have hall : b.full * b.record.cols = b.data.length := Nat.div_mul_cancel hdvd
    omega

end Batch

/-! ## tables -/

section
variable {record : Struct} (hcols : 0 < record.cols) (nodes : List Node)
include hcols

theorem feed_start : (TableBuilder.start record).feed nodes = (Batch.mk record nodes).builder := by
  rw [← Batch.builder_start]
  exact Batch.feed_builder (b := ⟨record, []⟩) hcols nodes

/-- what each datum gives, read off the rows that are full after it -/
theorem answer_start {k : Nat} (hk : k < nodes.length) :
    ((TableBuilder.start record).answers nodes)[k]?
      = some (.ok (Batch.mk record (nodes.take (k + 1))).rows[k / record.cols]?) := by
  have hnode : nodes[k]? = some nodes[k] := List.getElem?_eq_getElem hk
  have hpush : (Batch.mk record (nodes.take k)).push nodes[k]
      = Batch.mk record (nodes.take (k + 1)) := by
    rw [Batch.push, List.take_add_one, hnode, Option.toList_some]
  have hfull : (Batch.mk record (nodes.take k)).full = k / record.cols := by
    rw [Batch.full, List.length_take_of_le (Nat.le_of_lt hk)]
  rw [TableBuilder.getElem?_answers _ hnode, feed_start hcols,
    Batch.answer_builder (b := ⟨record, nodes.take k⟩) hcols, hpush, hfull]

/-- a row that is full after some of the data is there after all of them -/
theorem getElem?_rows_of_take {m i : Nat} {r : Row}
    (hr : (Batch.mk record (nodes.take m)).rows[i]? = some r) :
    (Batch.mk record nodes).rows[i]? = some r := by
  have hextend : (Batch.mk record (nodes.take m)).extend (nodes.drop m)
      = Batch.mk record nodes := by
    rw [Batch.extend, List.take_append_drop]
  obtain ⟨more, hmore⟩ : (Batch.mk record (nodes.take m)).rows <+: (Batch.mk record nodes).rows :=
    hextend ▸ Batch.rows_prefix_extend (b := ⟨record, nodes.take m⟩) hcols (nodes.drop m)
  rw [← hmore, List.getElem?_append_left (List.getElem?_eq_some_iff.mp hr).1, hr]

/-- a datum gives a row if it is the last of as many as there are columns -/
theorem answer_chunk {k : Nat} (hk : k < nodes.length) :
    if record.cols ∣ k + 1 then
      ∃ r, ((TableBuilder.start record).answers nodes)[k]? = some (.ok (some r)) ∧
        r.index = (k + 1) / record.cols - 1 ∧ (Batch.mk record nodes).rows[r.index]? = some r
    else ((TableBuilder.start record).answers nodes)[k]? = some (.ok none) := by
  have hfull : (Batch.mk record (nodes.take (k + 1))).full = (k + 1) / record.cols := by
    rw [Batch.full, List.length_take_of_le hk]
  rw [answer_start hcols nodes hk]
  split
  · next hdvd =>
    have hrow : (k + 1) / record.cols = k / record.cols + 1 := Nat.succ_div_of_dvd hdvd
    obtain ⟨r, hr, hindex, _⟩ := Batch.exists_row
      (b := ⟨record, nodes.take (k + 1)⟩) (i := k / record.cols) (by omega)
    refine ⟨r, by rw [hr], by omega, ?_⟩
    rw [hindex]
    exact getElem?_rows_of_take hcols nodes hr
  · next hdvd =>
    have hrow : (k + 1) / record.cols = k / record.cols := Nat.succ_div_of_not_dvd hdvd
    rw [List.getElem?_eq_none (by rw [Batch.length_rows]; omega)]

end

/-- What a table of a record type with columns is after some data: no datum fails, and one that is
the last of as many as there are columns gives the row of them.  The table is finished if the data
fill whole rows, and is not satisfied before the first datum. -/
structure Chunked (record : Struct) (nodes : List Node) : Prop where
  answers : ∀ k < nodes.length,
    if record.leaves.length ∣ k + 1 then
      ∃ r, ((TableBuilder.start record).answers nodes)[k]? = some (.ok (some r)) ∧
        r.index = (k + 1) / record.leaves.length - 1 ∧
        ((TableBuilder.start record).feed nodes).rows[r.index]? = some r
    else ((TableBuilder.start record).answers nodes)[k]? = some (.ok none)
  count : ((TableBuilder.start record).feed nodes).rows.length
    = nodes.length / record.leaves.length
  cells : ∀ i < nodes.length / record.leaves.length,
    ∃ r, ((TableBuilder.start record).feed nodes).rows[i]? = some r ∧ r.index = i ∧
      r.cells.length = record.leaves.length ∧
      ∀ j < record.leaves.length, ∃ leaf node, record.leaves[j]? = some leaf ∧
        nodes[i * record.leaves.length + j]? = some node ∧ r.cells[j]? = some ⟨leaf, node, i, j⟩
  satisfied : ((TableBuilder.start record).feed nodes).isSatisfied = true
    ↔ 0 < nodes.length ∧ record.leaves.length ∣ nodes.length
  finished : record.leaves.length ∣ nodes.length →
    ((TableBuilder.start record).feed nodes).finish
      = .ok ⟨record, ((TableBuilder.start record).feed nodes).rows⟩
  unfinished : ¬ record.leaves.length ∣ nodes.length →
    ∃ last, nodes.getLast? = some last ∧
      ((TableBuilder.start record).feed nodes).finish
        = .error ⟨.unsatisfied, last.token, none⟩

theorem chunked {record : Struct} (hcols : 0 < record.cols) (nodes : List Node) :
    Chunked record nodes := by
  have hfeed := feed_start hcols nodes
  have hrows : ((TableBuilder.start record).feed nodes).rows = (Batch.mk record nodes).rows := by
    rw [hfeed, Batch.rows_builder]
  constructor
  all_goals rw [record.length_leaves]
  case answers =>
    rw [hrows]
    exact fun k hk => answer_chunk hcols nodes hk
  case count => rw [hrows, Batch.length_rows, Batch.full]
  case cells =>
    rw [hrows]
    exact fun i hi => Batch.exists_row (b := ⟨record, nodes⟩) hi
  case satisfied =>
    rw [hfeed]
    exact Batch.isSatisfied_builder (b := ⟨record, nodes⟩) hcols
  case finished =>
    intro hdvd
    rw [hrows, hfeed, Batch.finish_builder_of_dvd (b := ⟨record, nodes⟩) hdvd, Batch.table]
  case unfinished =>
    intro hdvd
    have hne : nodes ≠ [] := by
      rintro rfl
      exact hdvd (Nat.dvd_zero _)
    have hlast := List.getLast?_eq_some_getLast hne
    refine ⟨_, hlast, ?_⟩
    rw [hfeed, Batch.finish_builder_of_not_dvd (b := ⟨record, nodes⟩) hcols hdvd, hlast]
    rfl

/-- a table without columns is not changed by any data, each of which fails -/
theorem feed_of_cols_eq_zero {record : Struct} (h : record.cols = 0) (nodes : List Node) :
    (TableBuilder.start record).feed nodes = .start record ∧
      (TableBuilder.start record).answers nodes
        = nodes.map fun node => .error ⟨.rowSatisfied, node.token, none⟩ := by
  have hadd : ∀ node, (TableBuilder.start record).add node
      = (.start record, .error ⟨.rowSatisfied, node.token, none⟩) := by
    intro node
    rw [← Batch.builder_start]
    exact Batch.add_builder_of_cols_eq_zero (b := ⟨record, []⟩) h rfl node
  have hnext : ∀ node, (TableBuilder.start record).next node = .start record := by
    intro node
    rw [TableBuilder.next, hadd]
  induction nodes with
  | nil => exact ⟨rfl, rfl⟩
  | cons node nodes ih =>
    rw [TableBuilder.feed, TableBuilder.answers, hnext, ih.1, ih.2, TableBuilder.answer, hadd]
    exact ⟨rfl, rfl⟩

/-- **Tables are chunks of their data.**  A table of a record type with columns takes any data and
cuts them into rows of as many data as there are columns.  If there are no columns, each datum
fails and changes nothing, and the table is empty. -/
theorem feed_chunked (record : Struct) (nodes : List Node) :
    (0 < record.leaves.length → Chunked record nodes) ∧
    (record.leaves = [] →
      (TableBuilder.start record).feed nodes = .start record ∧
      (TableBuilder.start record).answers nodes
        = (nodes.map fun node => .error ⟨.rowSatisfied, node.token, none⟩) ∧
      ((TableBuilder.start record).feed nodes).finish = .ok ⟨record, []⟩) := by
  constructor
  · intro hleaves
    rw [record.length_leaves] at hleaves
    exact chunked hleaves nodes
  · intro hleaves
    have hcols : record.cols = 0 := by
      rw [← record.length_leaves, hleaves]
      rfl
    obtain ⟨hfeed, hanswers⟩ := feed_of_cols_eq_zero hcols nodes
    exact ⟨hfeed, hanswers, by rw [hfeed]; rfl⟩

/-- a byte, and a pair of another byte and a word -/
def bytePair : Struct :=
  { fields := [.primitive ⟨"byte", 8⟩,
      .nested "Pair" none [.primitive ⟨"byte", 8⟩, .primitive ⟨"word", 16⟩]] }

/-- nothing but a record type without columns -/
def hollow : Struct := { fields := [.nested "Nothing" none []] }

/-- some atoms, each at the token of its number -/
def atomRow (count : Nat) : List Node :=
  (List.range count).map fun i => .atomRef "A" (some i)

/-- two rows and a datum, and a datum for a table without columns -/
theorem feed_chunked_bytePair :
    (0 < bytePair.leaves.length ∧ Chunked bytePair (atomRow 7) ∧
      ((TableBuilder.start bytePair).feed (atomRow 7)).rows.length = 2 ∧
      ((TableBuilder.start bytePair).feed (atomRow 7)).finish
        = .error ⟨.unsatisfied, some 6, none⟩) ∧
    hollow.leaves = [] ∧
      (TableBuilder.start hollow).answers (atomRow 1)
        = [.error ⟨.rowSatisfied, some 0, none⟩] ∧
      ((TableBuilder.start hollow).feed (atomRow 1)).finish = .ok ⟨hollow, []⟩ := by
  have hcols : 0 < bytePair.leaves.length := by decide
  have hchunked : Chunked bytePair (atomRow 7) := (feed_chunked bytePair (atomRow 7)).1 hcols
  obtain ⟨last, hlast, hfinish⟩ := hchunked.unfinished (by decide)
  cases hlast
  have hhollow : hollow.leaves = [] := rfl
  obtain ⟨_, hanswers, hempty⟩ := (feed_chunked hollow (atomRow 1)).2 hhollow
  exact ⟨⟨hcols, hchunked, hchunked.count, hfinish⟩, hhollow, hanswers, hempty⟩

end TableAssembler

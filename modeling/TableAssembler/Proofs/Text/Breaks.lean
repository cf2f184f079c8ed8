import Mathlib.Data.List.Basic
import TableAssembler.Text.Place

/-!
# Line breaks

How the breaks in a text move the places after it, and what changes if each of them is one line
feed.

* `rowEnds`                the number of row ends in a text;
* `Place.advance_row`      each of them moves a place down by one row;
* `Place.advance_newline`  the place at the beginning of a new row;
* `Place.advance_moved`    a place further on in a text stays so much further on;
* `Paired`, `joinBreaks`   texts in which a carriage return only stands before a line feed, and such
                           a text with one line feed for the two;
* `joinBreaks_eq_dropReturns`, `unixBreaks_eq_joinBreaks`   then only the carriage returns are dropped;
* `InStep`                 two places at the same row and column, or in the middle of a line break.
-/

namespace TableAssembler.Text

/-! ## row ends -/

theorem rows_break {c : Char} {s : List Char} (hbreak : c = '\n' ∨ c = '\r')
    (hpair : c = '\r' → s.head? ≠ some '\n') : rows (c :: s) = [c] :: rows s := by
  rw [rows, if_pos hbreak]
  rintro t rfl rfl
  exact hpair rfl rfl

theorem rows_ne_nil (s : List Char) : rows s ≠ [] := by
  fun_induction rows s with
  | case1 => exact List.cons_ne_nil _ _
  | case2 s _ => exact List.cons_ne_nil _ _
  | case3 c s _ _ _ => exact List.cons_ne_nil _ _
  | case4 c s _ _ _ _ => exact List.cons_ne_nil _ _
  | case5 c s _ _ _ _ _ _ => exact List.cons_ne_nil _ _

/-- the row ends in a text: every row but the last has one -/
def rowEnds (s : List Char) : Nat := (rows s).length - 1

theorem length_rows (s : List Char) : (rows s).length = rowEnds s + 1 :=
  (Nat.sub_add_cancel (List.length_pos_iff.mpr (rows_ne_nil s))).symm

theorem rowEnds_pair (s : List Char) : rowEnds ('\r' :: '\n' :: s) = rowEnds s + 1 := length_rows s

theorem rowEnds_break {c : Char} {s : List Char} (hbreak : c = '\n' ∨ c = '\r')
    (hpair : c = '\r' → s.head? ≠ some '\n') : rowEnds (c :: s) = rowEnds s + 1 := by
  rw [rowEnds, rows_break hbreak hpair]
  exact length_rows s

theorem rowEnds_other {c : Char} {s : List Char} (hc : ¬(c = '\n' ∨ c = '\r')) :
    rowEnds (c :: s) = rowEnds s := by
  rw [rowEnds, rowEnds, rows, if_neg hc]
  · cases rows s <;> rfl
  · rintro t rfl rfl
    exact hc (.inr rfl)

namespace Place

theorem next_feed (p : Place) :
    p.next '\n' = ⟨p.offset + 1, if p.afterReturn then p.row else p.row + 1, 0, false⟩ := rfl

theorem next_return (p : Place) : p.next '\r' = ⟨p.offset + 1, p.row + 1, 0, true⟩ := rfl

theorem next_other (p : Place) {c : Char} (hc : ¬(c = '\n' ∨ c = '\r')) :
    p.next c = ⟨p.offset + 1, p.row, p.col + 1, false⟩ := by
  obtain ⟨hfeed, hreturn⟩ := not_or.mp hc
  rw [next, if_neg hfeed, if_neg hreturn]

/-- every row end moves a place down by one row -/
theorem advance_row {p : Place} {s : List Char}
    (h : p.afterReturn = false ∨ s.head? ≠ some '\n') :
    (p.advance s).row = p.row + rowEnds s := by
  fun_induction rows s generalizing p with
  | case1 => rfl
  | case2 s ih =>
    rw [advance_cons, advance_cons, next_return, next_feed, ih (.inl rfl),
      rowEnds_pair, if_pos rfl]
    dsimp only
    omega
  | case3 c s hpair hbreak ih =>
    have hfeed : c = '\r' → s.head? ≠ some '\n' := by
      rintro rfl hs
      obtain ⟨t, rfl⟩ := List.head?_eq_some_iff.mp hs
      exact hpair t rfl rfl
    rw [advance_cons, rowEnds_break hbreak hfeed]
    rcases hbreak with rfl | rfl
    · have hfresh : p.afterReturn = false := h.resolve_right fun hs => hs rfl
      rw [next_feed, hfresh, ih (.inl rfl)]
      simp only [Bool.false_eq_true, if_false]
      omega
    · rw [next_return, ih (.inr (hfeed rfl))]
      dsimp only
      omega
  | case4 c s _ _ hnil _ => exact absurd hnil (rows_ne_nil s)
  | case5 c s _ hother _ _ _ ih =>
    rw [advance_cons, rowEnds_other hother, next_other p hother, ih (.inl rfl)]

/-- the place at the beginning of a new row -/
theorem advance_newline (s : List Char) :
    start.advance (s ++ ['\n']) = ⟨s.length + 1, 1 + rowEnds (s ++ ['\n']), 0, false⟩ := by
  have hoffset : (start.advance (s ++ ['\n'])).offset = s.length + 1 := by
    rw [advance_offset, List.length_append]
    exact Nat.zero_add _
  have hrow : (start.advance (s ++ ['\n'])).row = 1 + rowEnds (s ++ ['\n']) :=
    advance_row (.inl rfl)
  rw [← hoffset, ← hrow, advance_append]
  rfl

/-! ## places further on -/

/-- a place so many characters and rows further on -/
def moved (k r : Nat) (p : Place) : Place := { p with offset := p.offset + k, row := p.row + r }

theorem next_moved (k r : Nat) (p : Place) (c : Char) :
    (p.moved k r).next c = (p.next c).moved k r := by
  by_cases hfeed : c = '\n'
  · subst hfeed
    rw [next_feed, next_feed, moved, moved]
    cases p.afterReturn <;> simp [Nat.add_right_comm]
  · by_cases hreturn : c = '\r'
    · subst hreturn
      rw [next_return, next_return, moved, moved]
      simp [Nat.add_right_comm]
    · have hother : ¬(c = '\n' ∨ c = '\r') := not_or.mpr ⟨hfeed, hreturn⟩
      rw [next_other _ hother, next_other _ hother, moved, moved]
      simp [Nat.add_right_comm]

/-- a place further on stays so much further on -/
theorem advance_moved (k r : Nat) (p : Place) (s : List Char) :
    (p.moved k r).advance s = (p.advance s).moved k r := by
  induction s generalizing p with
  | nil => rfl
  | cons c s ih => rw [advance_cons, advance_cons, next_moved, ih]

end Place

/-! ## one line feed for each break -/

/-- a text in which every carriage return stands right before a line feed -/
def Paired : List Char → Prop
  | [] => True
  | c :: s => (c = '\r' → s.head? = some '\n') ∧ Paired s

instance instDecidablePaired : (s : List Char) → Decidable (Paired s)
  | [] => isTrue trivial
  | _ :: s =>
    have : Decidable (Paired s) := instDecidablePaired s
    inferInstanceAs (Decidable (_ ∧ Paired s))

theorem Paired.ne_return {c : Char} {s : List Char} (h : Paired (c :: s))
    (hpair : ∀ t, c = '\r' → s = '\n' :: t → False) : c ≠ '\r' := by
  rintro rfl
  obtain ⟨t, rfl⟩ := List.head?_eq_some_iff.mp (h.1 rfl)
  exact hpair t rfl rfl

theorem Paired.of_append {u s : List Char} (h : Paired (u ++ s)) : Paired s := by
  induction u with
  | nil => exact h
  | cons c u ih => exact ih h.2

/-- a text with one line feed for each carriage return before a line feed -/
def joinBreaks : List Char → List Char
  | [] => []
  | '\r' :: '\n' :: s => '\n' :: joinBreaks s
  | c :: s => c :: joinBreaks s

/-- a text without its carriage returns -/
def dropReturns (s : List Char) : List Char := s.filter (· ≠ '\r')

theorem dropReturns_cons {c : Char} (hc : c ≠ '\r') (s : List Char) :
    dropReturns (c :: s) = c :: dropReturns s := List.filter_cons_of_pos (decide_eq_true hc)

theorem dropReturns_append (s t : List Char) :
    dropReturns (s ++ t) = dropReturns s ++ dropReturns t := List.filter_append ..

theorem dropReturns_of_notMem {s : List Char} (h : '\r' ∉ s) : dropReturns s = s :=
  List.filter_eq_self.mpr fun _ hc => decide_eq_true fun e => h (e ▸ hc)

theorem mem_dropReturns {c : Char} {s : List Char} (hc : c ≠ '\r') :
    c ∈ dropReturns s ↔ c ∈ s := by
  simp [dropReturns, hc]

/-- the beginning of a text without its carriage returns is that of a beginning of the text -/
theorem exists_prefix_of_dropReturns {s w : List Char} (h : w <+: dropReturns s) :
    ∃ u, u <+: s ∧ dropReturns u = w ∧ u.getLast? ≠ some '\r' := by
  induction s generalizing w with
  | nil =>
    obtain rfl := List.prefix_nil.mp h
    exact ⟨[], List.prefix_refl _, rfl, fun he => (nomatch he)⟩
  | cons c s ih =>
    cases w with
    | nil => exact ⟨[], List.nil_prefix, rfl, fun he => (nomatch he)⟩
    | cons d w =>
      by_cases hc : c = '\r'
      · subst hc
        obtain ⟨u, hpre, hu, hlast⟩ := ih h
        have hne : u ≠ [] := by
          rintro rfl
          cases hu
        refine ⟨'\r' :: u, List.cons_prefix_cons.mpr ⟨rfl, hpre⟩, hu, ?_⟩
        rwa [← List.singleton_append, List.getLast?_append_of_ne_nil _ hne]
      · rw [dropReturns_cons hc] at h
        obtain ⟨rfl, hw⟩ := List.cons_prefix_cons.mp h
        obtain ⟨u, hpre, rfl, hlast⟩ := ih hw
        refine ⟨d :: u, List.cons_prefix_cons.mpr ⟨rfl, hpre⟩, dropReturns_cons hc u, ?_⟩
        cases u with
        | nil => exact fun he => hc (Option.some.inj he)
        | cons e u => rwa [List.getLast?_cons_cons]

/-- a carriage return that is not the last character of a part has its line feed in it too -/
theorem Paired.feed_mem {u s : List Char} (h : Paired (u ++ s)) (hlast : u.getLast? ≠ some '\r')
    (hmem : '\r' ∈ u) : '\n' ∈ u := by
  induction u with
  | nil => cases hmem
  | cons c u ih =>
    cases u with
    | nil =>
      obtain rfl := List.mem_singleton.mp hmem
      exact absurd rfl hlast
    | cons d u =>
      rcases List.mem_cons.mp hmem with rfl | hmem
      · have hfeed : d = '\n' := Option.some.inj (h.1 rfl)
        rw [hfeed]
        exact List.mem_cons_of_mem _ List.mem_cons_self
      · rw [List.getLast?_cons_cons] at hlast
        exact List.mem_cons_of_mem c (ih h.2 hlast hmem)

theorem joinBreaks_eq_dropReturns {s : List Char} (h : Paired s) :
    joinBreaks s = dropReturns s := by
  fun_induction joinBreaks s with
  | case1 => rfl
  | case2 s ih => rw [ih h.2.2]; rfl
  | case3 c s hpair ih =>
    rw [ih h.2, dropReturns_cons (h.ne_return hpair)]

/-- where every carriage return stands before a line feed there are no other breaks to convert -/
theorem unixBreaks_eq_joinBreaks {s : List Char} (h : Paired s) : unixBreaks s = joinBreaks s := by
  fun_induction joinBreaks s with
  | case1 => rfl
  | case2 s ih => rw [unixBreaks, ih h.2.2]
  | case3 c s hpair ih =>
    rw [unixBreaks, if_neg (h.ne_return hpair), ih h.2]
    exact hpair

/-! ## places in step -/

/-- Two places before the same rest of a text, in the text as it is and in the one without carriage
returns: both at the same row and column, or both before the line feed of a break that the first
place has counted already. -/
inductive InStep : Place → Place → List Char → Prop
  | level {p q : Place} {s : List Char} (row : p.row = q.row) (col : p.col = q.col)
      (fresh : p.afterReturn = false) (fresh' : q.afterReturn = false) : InStep p q s
  | halfway {p q : Place} {s : List Char} (row : p.row = q.row + 1)
      (after : p.afterReturn = true) (fresh' : q.afterReturn = false)
      (feed : s.head? = some '\n') : InStep p q s

/-- **places stay in step** -/
theorem InStep.advance {u s : List Char} {p q : Place} (h : InStep p q (u ++ s))
    (hpaired : Paired (u ++ s)) : InStep (p.advance u) (q.advance (dropReturns u)) s := by
  induction u generalizing p q with
  | nil => exact h
  | cons c u ih =>
    obtain ⟨hfeed, hmore⟩ := hpaired
    cases h with
    | level row col fresh fresh' =>
      by_cases hc : c = '\r'
      · subst hc
        -- the carriage return is only in the first text
        have hstep : InStep (p.next '\r') q (u ++ s) :=
          .halfway (by rw [Place.next_return, row]) rfl fresh' (hfeed rfl)
        exact ih hstep hmore
      · have hstep : InStep (p.next c) (q.next c) (u ++ s) := by
          by_cases hn : c = '\n'
          · subst hn
            rw [Place.next_feed, Place.next_feed, fresh, fresh', row]
            exact .level rfl rfl rfl rfl
          · have hother : ¬(c = '\n' ∨ c = '\r') := not_or.mpr ⟨hn, hc⟩
            rw [Place.next_other p hother, Place.next_other q hother, row, col]
            exact .level rfl rfl rfl rfl
        rw [dropReturns_cons hc]
        exact ih hstep hmore
    | halfway row after fresh' feed =>
      obtain rfl : c = '\n' := Option.some.inj feed
      have hstep : InStep (p.next '\n') (q.next '\n') (u ++ s) := by
        rw [Place.next_feed, Place.next_feed, after, fresh', row]
        exact .level rfl rfl rfl rfl
      exact ih hstep hmore

end TableAssembler.Text

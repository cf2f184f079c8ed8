import TableAssembler.Proofs.Statement.Refusal
import TableAssembler.Source

/-!
# Steps go forward

Each step from a word on ends after that word, whether it reads a statement or fails.  A statement
covers just the words that were read for it, and a fault blames the last of those that were read or
the next one.

* `Node.Covers`        the words of a node, and the places of the operators in it;
* `Statement.covers`   a statement covers its words;
* `next?_consumes`     a step takes words off the front of those that are left;
* `Refused.blame`      which word a step that fails is to blame on;
* `Driven`             steps one after the other, past all faults;
* `Tiles`              nodes that cover words one after the other, without gap or overlap;
* `next?_progress`     all of it for the tokens of a text.
-/

namespace TableAssembler

/-! ## the words of a node -/

/-- a node is a node or is somewhere in it -/
inductive Node.Inside (m : Node) : Node → Prop
  | refl : Inside m m
  | lhs {l r : Node} {op : Operator} {t : Option Nat} (h : Inside m l) :
      Inside m (.binary l op r t)
  | rhs {l r : Node} {op : Operator} {t : Option Nat} (h : Inside m r) :
      Inside m (.binary l op r t)
  | item {n : Node} {items : List Node} (mem : n ∈ items) (h : Inside m n) :
      Inside m (.list items)
  | field {n : Node} {fields : List Node} (mem : n ∈ fields) (h : Inside m n) :
      Inside m (.record fields)

/-- The words of a node are those from an index up to another.  Each operator in it comes right
after the words of its left side and right before those of its right side. -/
structure Node.Covers (n : Node) (i j : Nat) : Prop where
  extent : n.extent = ⟨some (i : Int), some ((j : Int) - 1)⟩
  operators : ∀ l op r t, Inside (.binary l op r t) n →
    ∃ k : Nat, t = some k ∧ l.right = some ((k : Int) - 1) ∧ r.left = some ((k : Int) + 1)

namespace Node.Covers

theorem left {n : Node} {i j : Nat} (h : n.Covers i j) : n.left = some (i : Int) :=
  congrArg Extent.first h.extent

theorem right {n : Node} {i j : Nat} (h : n.Covers i j) : n.right = some ((j : Int) - 1) :=
  congrArg Extent.last h.extent

/-- a node of one word -/
theorem single {n : Node} {i : Nat} (hextent : n.extent = .token i)
    (hbare : ∀ l op r t, ¬ Inside (.binary l op r t) n) : n.Covers i (i + 1) := by
  refine ⟨?_, fun l op r t h => absurd h (hbare l op r t)⟩
  rw [hextent, Int.natCast_add, Int.natCast_one, Int.add_sub_cancel]
  rfl

end Node.Covers

theorem Operand.covers {i : Nat} {t : Token} {n : Node} (h : Operand i t n) :
    n.Covers i (i + 1) := by
  cases h with
  | atom kind => exact .single rfl fun l op r t h => (nomatch h)
  | literal value => exact .single rfl fun l op r t h => (nomatch h)

theorem Expression.covers {i : Nat} {ts : List Token} {n : Node} (h : Expression i ts n) :
    n.Covers i (i + ts.length) := by
  induction h with
  | operand operand => exact operand.covers
  | @binary i t o ts op lhs rhs left operator right ih =>
    refine ⟨?_, fun l op r t h => ?_⟩
    · have hlast : ((i + 2 + ts.length : Nat) : Int) = (i + (t :: o :: ts).length : Nat) := by
        rw [List.length_cons, List.length_cons]
        omega
      show (⟨lhs.left, rhs.right⟩ : Extent) = _
      rw [left.covers.left, ih.right, hlast]
    · cases h with
      | refl => exact ⟨i + 1, rfl, left.covers.right, ih.left⟩
      | lhs h => exact left.covers.operators l op r t h
      | rhs h => exact ih.operators l op r t h

theorem TypeName.covers {i : Nat} {t : Token} {n : Node} (h : TypeName i t n) :
    n.Covers i (i + 1) := by
  cases h with
  | primitive kind => exact .single rfl fun l op r t h => (nomatch h)
  | struct kind => exact .single rfl fun l op r t h => (nomatch h)

theorem TypeNames.covers {i : Nat} {ts : List Token} {ns : List Node} (h : TypeNames i ts ns)
    (filled : ts ≠ []) : (Node.record ns).Covers i (i + ts.length) := by
  induction h with
  | nil => exact absurd rfl filled
  | @cons i t ts n ns first more ih =>
    cases more with
    | nil =>
      refine ⟨?_, fun l op r t h => ?_⟩
      · exact first.covers.extent
      · cases h with
        | field mem h => exact first.covers.operators l op r t (List.mem_singleton.mp mem ▸ h)
    | @cons _ u us m ms second more =>
      have hmore := ih (List.cons_ne_nil u us)
      refine ⟨?_, fun l op r t h => ?_⟩
      · have hlast : ((i + 1 + (u :: us).length : Nat) : Int)
            = (i + (t :: u :: us).length : Nat) := by
          rw [List.length_cons, List.length_cons, List.length_cons]
          omega
        show (⟨n.left, (Node.record (m :: ms)).right⟩ : Extent) = _
        rw [first.covers.left, hmore.right, hlast]
      · cases h with
        | field mem h =>
          rcases List.mem_cons.mp mem with rfl | mem
          · exact first.covers.operators l op r t h
          · exact hmore.operators l op r t (.field mem h)

/-- **a statement covers its words** -/
theorem Statement.covers {i : Nat} {ts : List Token} {n : Node} (h : Statement i ts n) :
    n.Covers i (i + ts.length) := by
  cases h with
  | @atomDef t a keyword name =>
    refine ⟨?_, fun l op r t h => (nomatch h)⟩
    have hfirst : ((i + 1 : Nat) : Int) - 1 = i := by omega
    have hlast : ((i + 1 : Nat) : Int) = ((i + [t, a].length : Nat) : Int) - 1 := by
      rw [List.length_cons, List.length_singleton]
      omega
    show (⟨some (((i + 1 : Nat) : Int) - 1), some ((i + 1 : Nat) : Int)⟩ : Extent) = _
    rw [hfirst, hlast]
  | record filled types => exact types.covers filled
  | macroUse name => exact .single rfl fun l op r t h => (nomatch h)
  | string kind text => exact .single rfl fun l op r t h => (nomatch h)
  | expression tree => exact tree.covers

/-! ## one step -/

theorem Refused.consumes {c after : Cursor} {f : Fault} (h : Refused c f after) :
    ∃ us, us ≠ [] ∧ c.rest = us ++ after.rest ∧ after.index = c.index + us.length := by
  cases h with
  | stray => exact ⟨[_], List.cons_ne_nil _ _, rfl, rfl⟩
  | ended begun => exact ⟨_, begun.ne_nil, (List.append_nil _).symm, rfl⟩
  | other begun unwanted => exact ⟨_, begun.ne_nil, rfl, rfl⟩
  | @numeral i ts t rest _ chain operand node =>
    refine ⟨ts ++ [t], List.append_ne_nil_of_right_ne_nil _ (List.cons_ne_nil _ _), ?_, ?_⟩
    · rw [List.append_assoc, List.singleton_append]
    · rw [List.length_append, List.length_singleton, ← Nat.add_assoc]
  | @macroDefinition i t u rest keyword name => exact ⟨[t, u], List.cons_ne_nil _ _, rfl, rfl⟩

/-- a step takes words off the front of those that are left -/
theorem next?_consumes {c : Cursor} {s : Step} (h : c.next? = some s) :
    ∃ us, us ≠ [] ∧ c.rest = us ++ s.after.rest ∧ s.after.index = c.index + us.length := by
  obtain ⟨result, after⟩ := s
  cases result with
  | error f => exact (next?_eq_error_iff.mp h).consumes
  | ok n =>
    obtain ⟨us, htokens, hindex, _⟩ := next?_local h
    refine ⟨us, ?_, htokens, hindex⟩
    rintro rfl
    have hshorter : after.rest.length < c.rest.length := Cursor.length_rest_next? h
    rw [htokens] at hshorter
    exact Nat.lt_irrefl _ hshorter

/-- from a word on, a step ends after that word -/
theorem next?_drop {ts : List Token} {i : Nat} (h : i < ts.length) :
    ∃ result j, Cursor.next? ⟨i, ts.drop i⟩ = some ⟨result, ⟨j, ts.drop j⟩⟩ ∧ i < j ∧
      j ≤ ts.length := by
  obtain ⟨t, more, hdrop⟩ := List.exists_cons_of_ne_nil (List.drop_eq_nil_iff.not.mpr h.not_ge)
  obtain ⟨⟨result, j, rest⟩, hnext⟩ : ∃ s, Cursor.next? ⟨i, ts.drop i⟩ = some s :=
    ⟨_, by rw [hdrop, next?_cons]⟩
  obtain ⟨us, hus, htokens, hindex⟩ := next?_consumes hnext
  dsimp only at htokens hindex
  obtain rfl : rest = ts.drop j := by
    rw [hindex, ← List.drop_drop, htokens, List.drop_left]
  have hpos : 0 < us.length := List.length_pos_iff.mpr hus
  have hlength := congrArg List.length htokens
  rw [List.length_drop, List.length_append] at hlength
  exact ⟨result, j, hnext, by omega, by omega⟩

/-- a fault blames the last word that was consumed, or the next one if that is unexpected -/
theorem Refused.blame {c after : Cursor} {f : Fault} (h : Refused c f after) :
    ∃ k, f.token = some k ∧ c.index ≤ k ∧
      (k + 1 = after.index ∨ k = after.index ∧ f.kind = .unexpected ∧ after.rest ≠ []) := by
  cases h with
  | stray => exact ⟨_, rfl, Nat.le_refl _, .inl rfl⟩
  | @ended i ts wanted begun =>
    have hpos : 0 < ts.length := List.length_pos_iff.mpr begun.ne_nil
    exact ⟨_, rfl, by dsimp only; omega, .inl (by dsimp only; omega)⟩
  | other begun unwanted =>
    exact ⟨_, rfl, Nat.le_add_right _ _, .inr ⟨rfl, rfl, List.cons_ne_nil _ _⟩⟩
  | numeral chain operand node =>
    obtain ⟨cause, rfl⟩ := ofToken_eq_error operand node
    exact ⟨_, rfl, Nat.le_add_right _ _, .inl rfl⟩
  | macroDefinition => exact ⟨_, rfl, Nat.le_add_right _ _, .inl rfl⟩

/-! ## all steps -/

/-- steps one after the other from a cursor to another, past all faults -/
inductive Driven : Cursor → List Step → Cursor → Prop
  | nil {c : Cursor} : Driven c [] c
  | cons {c d : Cursor} {s : Step} {ss : List Step} (next : c.next? = some s)
      (more : Driven s.after ss d) : Driven c (s :: ss) d

theorem Driven.length_le {c d : Cursor} {ss : List Step} (h : Driven c ss d) :
    ss.length + d.rest.length ≤ c.rest.length := by
  induction h with
  | nil => exact Nat.le_of_eq (Nat.zero_add _)
  | cons next more ih =>
    have hshorter := Cursor.length_rest_next? next
    rw [List.length_cons]
    omega

theorem driven_steps (c : Cursor) : Driven c c.steps ⟨c.index + c.rest.length, []⟩ := by
  fun_induction Cursor.steps c with
  | case1 c hnext =>
    have hrest := rest_of_next?_eq_none hnext
    obtain ⟨i, ts⟩ := c
    cases hrest
    exact .nil
  | case2 c s hnext ih =>
    obtain ⟨us, _, htokens, hindex⟩ := next?_consumes hnext
    rw [htokens, List.length_append, ← Nat.add_assoc, ← hindex]
    exact .cons hnext ih

/-- nodes that cover the words from an index up to another in a row, without gap or overlap -/
inductive Tiles : Nat → List Node → Nat → Prop
  | nil {i : Nat} : Tiles i [] i
  | cons {i j k : Nat} {n : Node} {ns : List Node} (filled : i < j) (first : n.Covers i j)
      (more : Tiles j ns k) : Tiles i (n :: ns) k

theorem Reading.tiles {i : Nat} {ps : List Phrase} (h : Reading i ps) :
    Tiles i (Phrase.nodesOf ps) (i + (Phrase.tokensOf ps).length) := by
  induction h with
  | nil => exact .nil
  | @cons i p ps first more ih =>
    obtain ⟨t, us, hp, _⟩ := first.exists_cons
    rw [Phrase.nodesOf_cons, Phrase.tokensOf_cons, List.length_append, ← Nat.add_assoc]
    refine .cons ?_ first.covers ih
    rw [hp, List.length_cons]
    omega

/-- **Steps go forward.**  From each word of a text on, a step reads a statement that covers just
the words up to where it ends, or fails and blames the last of them, or the next one if that is
unexpected.  So a driver that goes on past all faults comes to the end in no more steps than there
are words, and statements that are read without a fault tile the words. -/
theorem next?_progress (text : String) :
    (∀ i < (tokenize text).length, ∃ result j,
        Cursor.next? ⟨i, (tokenize text).drop i⟩ = some ⟨result, ⟨j, (tokenize text).drop j⟩⟩ ∧
        i < j ∧ j ≤ (tokenize text).length ∧
        (∀ n, result = .ok n → n.Covers i j) ∧
        ∀ f, result = .error f → ∃ k, f.token = some k ∧ i ≤ k ∧
          (k + 1 = j ∨ k = j ∧ f.kind = .unexpected ∧ j < (tokenize text).length)) ∧
      Driven (.start (tokenize text)) (Cursor.start (tokenize text)).steps
        ⟨(tokenize text).length, []⟩ ∧
      (∀ ss d, Driven (.start (tokenize text)) ss d → ss.length ≤ (tokenize text).length) ∧
      ∀ nodes, parse (tokenize text) = .ok nodes → Tiles 0 nodes (tokenize text).length := by
  refine ⟨fun i hi => ?_, ?_, fun ss d h => ?_, fun nodes h => ?_⟩
  · obtain ⟨result, j, hnext, hij, hj⟩ := next?_drop hi
    refine ⟨result, j, hnext, hij, hj, ?_, ?_⟩
    · rintro n rfl
      have hspelled : ∀ t ∈ (tokenize text).drop i, t.Spelled := fun t ht =>
        spelled_of_mem_tokenize t (List.mem_of_mem_drop ht)
      obtain ⟨us, hreads⟩ := next?_sound hspelled hnext
      have hcovers := hreads.statement.covers
      rwa [← hreads.index] at hcovers
    · rintro f rfl
      obtain ⟨k, htoken, hk, hlast⟩ := (next?_eq_error_iff.mp hnext).blame
      refine ⟨k, htoken, hk, hlast.imp_right fun ⟨he, hkind, hmore⟩ => ⟨he, hkind, ?_⟩⟩
      exact Nat.lt_of_not_ge (List.drop_eq_nil_iff.not.mp hmore)
  · have h := driven_steps (.start (tokenize text))
    rwa [show (Cursor.start (tokenize text)).index = 0 from rfl, Nat.zero_add] at h
  · exact (Nat.le_add_right _ _).trans h.length_le
  · obtain ⟨ps, hps, _, htokens, rfl⟩ := parse_sound (c := .start (tokenize text))
      spelled_of_mem_tokenize h
    have htiles := hps.tiles
    rw [htokens] at htiles
    rwa [show (Cursor.start (tokenize text)).index = 0 from rfl, Nat.zero_add] at htiles

end TableAssembler

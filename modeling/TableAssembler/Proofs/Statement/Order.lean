import TableAssembler.Proofs.Statement.Stream

/-!
# The order of the rules

Each class of words is for one rule or for none.  On a cursor that all rules share, a rule that a
word is not for leaves the cursor where it was, and one that takes it moves on, so the rules can be
tried in any order.

* `Token.Kind.taker?`    the place of the rule that a class of words is for;
* `Rules.isSome_rule`    a rule takes just the words that are for it;
* `Rules.statement_of_rule`   what a rule makes of a word is what comes of all rules;
* `Stream.rule_cases`    a rule says nothing and leaves the cursor, or says something and moves on;
* `Stream.speaks_iff`, `Stream.eq_of_speaks`   at most one rule says something;
* `Stream.run_tried_of_speaks`, `Stream.tried_perm`   rules in some order, and in another one;
* `Stream.tried_any_order`   all of it for every word of some tokens.
-/

namespace TableAssembler

/-- the place among all rules of the one that a class of words is for -/
def Token.Kind.taker? : Kind → Option Nat
  | .keywordAtom | .keywordMacro => some 0
  | .primitive _ | .struct => some 1
  | .macroName => some 2
  | .string => some 3
  | .atom | .int | .hex | .bin => some 4
  | .operator _ | .bogus => none

namespace Rules

/-! ## which rule takes a word -/

theorem isSome_keyword (c : Cursor) :
    (keyword c).isSome = true ↔ c.kind?.bind Token.Kind.taker? = some 0 := by
  unfold keyword
  cases c.kind? with
  | none => simp
  | some kind => cases kind <;> simp [Token.Kind.taker?]

theorem isSome_record (c : Cursor) :
    (record c).isSome = true ↔ c.kind?.bind Token.Kind.taker? = some 1 := by
  unfold record Cursor.sees
  cases c.kind? with
  | none => simp
  | some kind => cases kind <;> simp [Token.Kind.taker?, Token.Kind.isType]

theorem isSome_macroUse (c : Cursor) :
    (macroUse c).isSome = true ↔ c.kind?.bind Token.Kind.taker? = some 2 := by
  unfold macroUse Cursor.kind?
  cases c.rest with
  | nil => simp
  | cons t ts => cases h : t.kind <;> simp [Token.Kind.taker?, h]

theorem isSome_string (c : Cursor) :
    (string c).isSome = true ↔ c.kind?.bind Token.Kind.taker? = some 3 := by
  unfold string Cursor.kind?
  cases c.rest with
  | nil => simp
  | cons t ts => cases h : t.kind <;> simp [Token.Kind.taker?, h]

theorem isSome_expression (c : Cursor) :
    (expression c).isSome = true ↔ c.kind?.bind Token.Kind.taker? = some 4 := by
  rw [expression, Option.isSome_iff_ne_none, ne_eq, expressionFrom_eq_none_iff, Cursor.kind?]
  cases c.rest with
  | nil => simp
  | cons t ts => cases h : t.kind <;> simp [Token.Kind.taker?, Token.Kind.isOperand, h]

/-- **a rule takes just the words that are for it** -/
theorem isSome_rule (c : Cursor) {k : Nat} (hk : k < all.length) :
    (all[k] c).isSome = true ↔ c.kind?.bind Token.Kind.taker? = some k := by
  match k, hk with
  | 0, _ => exact isSome_keyword c
  | 1, _ => exact isSome_record c
  | 2, _ => exact isSome_macroUse c
  | 3, _ => exact isSome_string c
  | 4, _ => exact isSome_expression c

/-- **no word is for two rules** -/
theorem eq_of_isSome {c : Cursor} {k l : Nat} {hk : k < all.length} {hl : l < all.length}
    (h : (all[k] c).isSome = true) (h' : (all[l] c).isSome = true) : k = l :=
  Option.some.inj (((isSome_rule c hk).mp h).symm.trans ((isSome_rule c hl).mp h'))

section
variable {c : Cursor} {rule : Cursor → Option Step} {s : Step}

theorem eq_of_mem_all {rule' : Cursor → Option Step} {s' : Step} (hrule : rule ∈ all)
    (hrule' : rule' ∈ all) (h : rule c = some s) (h' : rule' c = some s') : s = s' := by
  obtain ⟨k, hk, rfl⟩ := List.getElem_of_mem hrule
  obtain ⟨l, hl, rfl⟩ := List.getElem_of_mem hrule'
  obtain rfl := eq_of_isSome (Option.isSome_of_eq_some h) (Option.isSome_of_eq_some h')
  exact Option.some.inj (h.symm.trans h')

/-- of rules in any order, and however often, the first that takes a word does what each of them
that takes it does -/
theorem findSome?_eq_some_iff {rules : List (Cursor → Option Step)} (h : ∀ r ∈ rules, r ∈ all) :
    rules.findSome? (fun r => r c) = some s ↔ ∃ r ∈ rules, r c = some s := by
  constructor
  · exact List.exists_of_findSome?_eq_some
  · rintro ⟨r, hr, hs⟩
    cases hfirst : rules.findSome? fun r => r c with
    | none => exact absurd hs (by rw [List.findSome?_eq_none_iff.mp hfirst r hr]; nofun)
    | some s' =>
      obtain ⟨r', hr', hs'⟩ := List.exists_of_findSome?_eq_some hfirst
      rw [eq_of_mem_all (h r hr) (h r' hr') hs hs']

/-- what a rule makes of a word is what comes of all rules -/
theorem statement_of_rule (hrule : rule ∈ all) (h : rule c = some s) : statement c = some s :=
  (findSome?_eq_some_iff fun _ hr => hr).mpr ⟨rule, hrule, h⟩

theorem next?_of_statement (h : statement c = some s) : c.next? = some s := by
  obtain ⟨i, ts⟩ := c
  cases ts with
  | nil => cases h
  | cons t ts => rw [next?_cons, h, Option.getD_some]

end

end Rules

namespace Stream

/-! ## what a rule says -/

/-- **a rule says nothing and leaves the cursor where it was**, or it reads a statement or fails,
and leaves the cursor at a later word -/
theorem rule_cases {rule : Rule} (hrule : rule ∈ rules) (ts : List Token) (i : Nat) :
    rule.run ⟨i, ts.drop i⟩ = .ok none ⟨i, ts.drop i⟩ ∨
      ∃ j, i < j ∧ j ≤ ts.length ∧
        ((∃ n, rule.run ⟨i, ts.drop i⟩ = .ok (some n) ⟨j, ts.drop j⟩) ∨
          ∃ f, rule.run ⟨i, ts.drop i⟩ = .error f ⟨j, ts.drop j⟩) := by
  rw [rules_eq] at hrule
  obtain ⟨r, hr, rfl⟩ := List.mem_map.mp hrule
  rw [run_ofRule]
  cases h : r ⟨i, ts.drop i⟩ with
  | none => exact .inl rfl
  | some s =>
    have hnext := Rules.next?_of_statement (Rules.statement_of_rule hr h)
    have hi : i < ts.length := by
      by_contra hend
      rw [List.drop_eq_nil_of_le (Nat.le_of_not_lt hend)] at hnext
      cases hnext
    obtain ⟨result, j, hstep, hij, hj⟩ := next?_drop hi
    cases hnext.symm.trans hstep
    refine .inr ⟨j, hij, hj, ?_⟩
    cases result with
    | ok n => exact .inl ⟨n, rfl⟩
    | error f => exact .inr ⟨f, rfl⟩

section
variable {c : Cursor}

/-- a rule that says nothing leaves the cursor -/
theorem run_ofRule_eq_none_iff {r : Cursor → Option Step} {after : Cursor} :
    (ofRule r).run c = .ok none after ↔ r c = none ∧ after = c := by
  rw [run_ofRule]
  rcases r c with _ | ⟨f | n, after'⟩
  · simp [eq_comm]
  · simp
  · simp

/-- **a rule says something** about the words that are for it, and about no others -/
theorem speaks_iff {k : Nat} {rule : Rule} (hrule : rules[k]? = some rule) :
    (∀ after, rule.run c ≠ .ok none after) ↔ c.kind?.bind Token.Kind.taker? = some k := by
  rw [rules_eq, List.getElem?_map] at hrule
  obtain ⟨r, hr, rfl⟩ := Option.map_eq_some_iff.mp hrule
  obtain ⟨hk, rfl⟩ := List.getElem?_eq_some_iff.mp hr
  rw [← Rules.isSome_rule c hk, Option.isSome_iff_ne_none]
  constructor
  · exact fun h hnone => h c (run_ofRule_eq_none_iff.mpr ⟨hnone, rfl⟩)
  · exact fun h after hafter => h (run_ofRule_eq_none_iff.mp hafter).1

/-- no two rules say something about the same word -/
theorem eq_of_speaks {k l : Nat} {rule rule' : Rule} (hrule : rules[k]? = some rule)
    (hrule' : rules[l]? = some rule') (h : ∀ after, rule.run c ≠ .ok none after)
    (h' : ∀ after, rule'.run c ≠ .ok none after) : k = l :=
  Option.some.inj (((speaks_iff hrule).mp h).symm.trans ((speaks_iff hrule').mp h'))

/-- a rule says nothing and leaves the cursor, or it says something -/
theorem silent_or_speaks {rule : Rule} (hrule : rule ∈ rules) (c : Cursor) :
    rule.run c = .ok none c ∨ ∀ after, rule.run c ≠ .ok none after := by
  rw [rules_eq] at hrule
  obtain ⟨r, _, rfl⟩ := List.mem_map.mp hrule
  by_cases h : r c = none
  · exact .inl (run_ofRule_eq_none_iff.mpr ⟨h, rfl⟩)
  · exact .inr fun after hafter => h (run_ofRule_eq_none_iff.mp hafter).1

/-! ## rules in some order -/

theorem run_tried_cons (rule : Rule) (order : List Rule) :
    (tried (rule :: order)).run c = match rule.run c with
      | .ok none after => (tried order).run after
      | .ok (some n) after => .ok (some n) after
      | .error f after => .error f after := by
  rw [tried, EStateM.run_bind]
  rcases rule.run c with ⟨_ | n, after⟩ | ⟨f, after⟩ <;> rfl

theorem run_tried_of_silent {order : List Rule} (h : ∀ rule ∈ order, rule.run c = .ok none c) :
    (tried order).run c = .ok none c := by
  induction order with
  | nil => rfl
  | cons rule order ih =>
    rw [run_tried_cons, h rule List.mem_cons_self]
    exact ih fun r hr => h r (List.mem_cons_of_mem _ hr)

/-- what comes of rules in any order, and however often, is what the one says that says something -/
theorem run_tried_of_speaks {order : List Rule} (horder : ∀ r ∈ order, r ∈ rules) {rule : Rule}
    (hrule : rule ∈ order) (h : ∀ after, rule.run c ≠ .ok none after) :
    (tried order).run c = rule.run c := by
  induction order with
  | nil => cases hrule
  | cons first order ih =>
    rw [run_tried_cons]
    rcases silent_or_speaks (horder first List.mem_cons_self) c with hsilent | hspeaks
    · rw [hsilent]
      rcases List.mem_cons.mp hrule with rfl | hmore
      · exact absurd hsilent (h c)
      · exact ih (fun r hr => horder r (List.mem_cons_of_mem _ hr)) hmore
    · -- the first that says something is the only one
      obtain ⟨k, hk⟩ := List.mem_iff_getElem?.mp (horder first List.mem_cons_self)
      obtain ⟨l, hl⟩ := List.mem_iff_getElem?.mp (horder rule hrule)
      obtain rfl := eq_of_speaks hk hl hspeaks h
      cases hk.symm.trans hl
      rcases hrun : rule.run c with ⟨_ | n, after⟩ | ⟨f, after⟩
      · exact absurd hrun (h after)
      · rfl
      · rfl

/-- **rules in another order** say the same, and leave the cursor at the same place -/
theorem tried_perm {order : List Rule} (h : order.Perm rules) (c : Cursor) :
    (tried order).run c = (tried rules).run c := by
  by_cases hsilent : ∀ rule ∈ rules, rule.run c = .ok none c
  · rw [run_tried_of_silent hsilent,
      run_tried_of_silent fun rule hrule => hsilent rule (h.mem_iff.mp hrule)]
  · obtain ⟨rule, hrule, hnot⟩ : ∃ rule ∈ rules, rule.run c ≠ .ok none c := by
      simpa using hsilent
    have hspeaks := (silent_or_speaks hrule c).resolve_left hnot
    rw [run_tried_of_speaks (fun _ hr => hr) hrule hspeaks,
      run_tried_of_speaks (fun _ hr => h.mem_iff.mp hr) (h.mem_iff.mpr hrule) hspeaks]

/-- in their own order, the rules on the shared cursor read a statement as they do as functions -/
theorem tried_rules : tried rules = ofRule Rules.statement := by
  have hrun : ∀ (rs : List (Cursor → Option Step)) c, (tried (rs.map ofRule)).run c
      = (ofRule fun c => rs.findSome? fun r => r c).run c := by
    intro rs c
    induction rs with
    | nil => rfl
    | cons r rs ih =>
      rw [List.map_cons, run_tried_cons, run_ofRule, run_ofRule, List.findSome?_cons]
      rcases r c with _ | ⟨f | n, after⟩
      · exact ih
      · rfl
      · rfl
  rw [rules_eq]
  exact ext_words (fun i => hrun _ _) fun i t ts => hrun _ _

end

/-- **Rules can be tried in any order.**  At each place among some tokens, a rule on the shared
cursor either says nothing and leaves the cursor where it was, or reads a statement or fails, and
leaves the cursor further on.  The class of the word there fixes the one rule that says something,
if there is one, so that no two do.  Hence the rules say the same in every order, and leave the
cursor at the same place; and they do what they do as functions. -/
theorem tried_any_order (ts : List Token) (i : Nat) :
    (∀ rule ∈ rules, rule.run ⟨i, ts.drop i⟩ = .ok none ⟨i, ts.drop i⟩ ∨
      ∃ j, i < j ∧ j ≤ ts.length ∧
        ((∃ n, rule.run ⟨i, ts.drop i⟩ = .ok (some n) ⟨j, ts.drop j⟩) ∨
          ∃ f, rule.run ⟨i, ts.drop i⟩ = .error f ⟨j, ts.drop j⟩)) ∧
    (∀ (k : Nat) (rule : Rule), rules[k]? = some rule →
      ((∀ after, rule.run ⟨i, ts.drop i⟩ ≠ .ok none after) ↔
        ts[i]?.bind (fun t => t.kind.taker?) = some k)) ∧
    (∀ (k l : Nat) (rule rule' : Rule), rules[k]? = some rule → rules[l]? = some rule' →
      (∀ after, rule.run ⟨i, ts.drop i⟩ ≠ .ok none after) →
      (∀ after, rule'.run ⟨i, ts.drop i⟩ ≠ .ok none after) → k = l) ∧
    (∀ order : List Rule, order.Perm rules →
      (tried order).run ⟨i, ts.drop i⟩ = (tried rules).run ⟨i, ts.drop i⟩) ∧
    rules = Rules.all.map ofRule ∧ tried rules = ofRule Rules.statement := by
  have hkind : (Cursor.kind? ⟨i, ts.drop i⟩).bind Token.Kind.taker?
      = ts[i]?.bind fun t => t.kind.taker? := by
    rw [Cursor.kind?, List.head?_drop]
    cases ts[i]? <;> rfl
  exact ⟨fun rule hrule => rule_cases hrule ts i,
    fun k rule hrule => (speaks_iff hrule).trans (by rw [hkind]),
    fun k l rule rule' hrule hrule' h h' => eq_of_speaks hrule hrule' h h',
    fun order h => tried_perm h _, rules_eq, tried_rules⟩

end Stream

end TableAssembler

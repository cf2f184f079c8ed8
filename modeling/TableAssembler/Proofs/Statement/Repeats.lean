import TableAssembler.Proofs.Statement.Survey

/-!
# Words that are blamed twice

Steps that go on past all faults blame words in their order.  A word that does not go on what was
begun is blamed and left for the next step, since a statement may begin with it.  If none does, the
next step blames it again.

* `Cursor.failsAtOnce`        whether a step fails for the word that it starts from;
* `Step.Leaves`, `Step.Ends`  a step that leaves the word that it blames, and all ways to end;
* `ends_of_next?`             each step ends in one of these ways;
* `Step.blamed`, `Cursor.blamed`   the words that some steps blame, and all steps from a cursor on;
* `pairwise_blamed`           they come in order;
* `Step.Repeats`              a step after which the next one blames the same word;
* `count_blamed`              how often a word is blamed;
* `blamed_twice`              all of it for the steps from the first word on.
-/

namespace TableAssembler

/-! ## failing at once -/

/-- Whether a step fails for the word that it starts from: a word that begins no statement, a
keyword with nothing after it, or a numeral without a value. -/
def Cursor.failsAtOnce (c : Cursor) : Bool :=
  match c.rest with
  | [] => false
  | t :: ts =>
    t.kind.isStray || t.kind.isKeyword && ts.isEmpty ||
      t.kind.isOperand && !(Node.ofToken t.kind t.text (some c.index)).isOk

theorem Chained.two_le_length {i : Nat} {ts : List Token} (h : Chained i ts) (filled : ts ≠ []) :
    2 ≤ ts.length := by
  cases h with
  | nil => exact absurd rfl filled
  | cons => exact Nat.le_add_left _ _

theorem Refused.failsAtOnce {c after : Cursor} {f : Fault} (h : Refused c f after)
    (htoken : f.token = some c.index) : c.failsAtOnce = true := by
  cases h with
  | stray stray => simp [Cursor.failsAtOnce, stray]
  | @ended i ts wanted begun =>
    have hlast : i + ts.length - 1 = i := Option.some.inj htoken
    cases begun with
    | atomName keyword => simp [Cursor.failsAtOnce, keyword, Token.Kind.isKeyword]
    | macroName keyword => simp [Cursor.failsAtOnce, keyword, Token.Kind.isKeyword]
    | operand chain filled =>
      have hlength := chain.two_le_length filled
      omega
  | @other i ts wanted u rest begun unwanted =>
    have hpos : 0 < ts.length := List.length_pos_iff.mpr begun.ne_nil
    have hnext : i + ts.length = i := Option.some.inj htoken
    omega
  | @numeral i ts t rest _ chain operand node =>
    obtain ⟨cause, rfl⟩ := ofToken_eq_error operand node
    have hnext : i + ts.length = i := Option.some.inj htoken
    obtain rfl : ts = [] := List.length_eq_zero_iff.mp (by omega)
    have hnode : Node.ofToken t.kind t.text (some i) = .error ⟨.numeral, _, some cause⟩ := node
    simp [Cursor.failsAtOnce, operand, hnode, Except.isOk, Except.toBool]
  | @macroDefinition i t u rest keyword name =>
    have hnext : i + 1 = i := Option.some.inj htoken
    omega

/-- a step that fails at once blames the word that it starts from -/
theorem exists_refused_of_failsAtOnce {c : Cursor} (h : c.failsAtOnce = true) :
    ∃ f after, Refused c f after ∧ f.token = some c.index := by
  obtain ⟨i, ts⟩ := c
  cases ts with
  | nil => cases h
  | cons t ts =>
    simp only [Cursor.failsAtOnce, Bool.or_eq_true, Bool.and_eq_true] at h
    rcases h with (hstray | ⟨hkeyword, hend⟩) | ⟨hoperand, hnode⟩
    · exact ⟨_, _, .stray hstray, rfl⟩
    · obtain rfl : ts = [] := List.isEmpty_iff.mp hend
      cases hk : t.kind with
      | keywordAtom => exact ⟨_, _, .ended (.atomName hk), rfl⟩
      | keywordMacro => exact ⟨_, _, .ended (.macroName hk), rfl⟩
      | _ => rw [hk] at hkeyword; cases hkeyword
    · cases hn : Node.ofToken t.kind t.text (some i) with
      | ok n => rw [hn] at hnode; cases hnode
      | error f =>
        obtain ⟨cause, rfl⟩ := ofToken_eq_error hoperand hn
        exact ⟨_, _, .numeral .nil hoperand hn, rfl⟩

/-! ## how steps end -/

namespace Step

/-- the word that a step blames is unexpected, and is left for the next step -/
def Leaves (s : Step) (k : Nat) : Prop :=
  s.result = .error (.unexpected (some k)) ∧ s.after.index = k

/-- How a step ends: it reads a statement, or blames the last of its words, or the next one. -/
inductive Ends (s : Step) : Prop
  | reads {n : Node} (result : s.result = .ok n)
  | passes {f : Fault} {k : Nat} (result : s.result = .error f) (token : f.token = some k)
      (after : s.after.index = k + 1)
  | leaves {k : Nat} (left : s.Leaves k)

/-- the words that some steps blame -/
def blamed (ss : List Step) : List Nat := (faultsOf ss).filterMap Fault.token

variable {s : Step} {ss : List Step}

theorem blamed_cons_ok {n : Node} (h : s.result = .ok n) : blamed (s :: ss) = blamed ss := by
  obtain ⟨result, after⟩ := s
  cases h
  rfl

theorem blamed_cons_error {f : Fault} {k : Nat} (h : s.result = .error f)
    (htoken : f.token = some k) : blamed (s :: ss) = k :: blamed ss := by
  obtain ⟨result, after⟩ := s
  cases h
  rw [blamed, faultsOf_cons_error, List.filterMap_cons, htoken]
  rfl

theorem Leaves.unique {j k : Nat} (h : s.Leaves j) (h' : s.Leaves k) : j = k :=
  h.2.symm.trans h'.2

theorem not_leaves_of_ok {n : Node} {k : Nat} (h : s.result = .ok n) : ¬ s.Leaves k := by
  rintro ⟨herror, _⟩
  cases h.symm.trans herror

theorem not_leaves_of_passed {f : Fault} {j k : Nat} (h : s.result = .error f)
    (htoken : f.token = some j) (hafter : s.after.index = j + 1) : ¬ s.Leaves k := by
  rintro ⟨herror, hindex⟩
  cases h.symm.trans herror
  have hjk : k = j := Option.some.inj htoken
  omega

end Step

/-- **each step ends in one of these ways** -/
theorem ends_of_next? {c : Cursor} {s : Step} (h : c.next? = some s) : s.Ends := by
  obtain ⟨result, after⟩ := s
  cases result with
  | ok n => exact .reads rfl
  | error f =>
    cases next?_eq_error_iff.mp h with
    | stray => exact .passes rfl rfl rfl
    | @ended i ts wanted begun =>
      have hpos : 0 < ts.length := List.length_pos_iff.mpr begun.ne_nil
      exact .passes rfl rfl (by dsimp only; omega)
    | other begun unwanted => exact .leaves ⟨rfl, rfl⟩
    | numeral chain operand node =>
      obtain ⟨cause, rfl⟩ := ofToken_eq_error operand node
      exact .passes rfl rfl rfl
    | macroDefinition => exact .passes rfl rfl rfl

theorem index_lt_of_next? {c : Cursor} {s : Step} (h : c.next? = some s) :
    c.index < s.after.index := by
  obtain ⟨us, hus, _, hindex⟩ := next?_consumes h
  have hpos : 0 < us.length := List.length_pos_iff.mpr hus
  omega

/-! ## all steps -/

namespace Cursor

/-- the words that the steps from a cursor on blame -/
def blamed (c : Cursor) : List Nat := Step.blamed c.steps

variable {c : Cursor} {s : Step}

theorem blamed_of_none (h : c.next? = none) : c.blamed = [] := by
  rw [blamed, steps_of_none h]
  rfl

theorem blamed_of_ok {n : Node} (h : c.next? = some s) (result : s.result = .ok n) :
    c.blamed = s.after.blamed := by
  rw [blamed, steps_of_some h, Step.blamed_cons_ok result, blamed]

theorem blamed_of_error {f : Fault} {k : Nat} (h : c.next? = some s)
    (result : s.result = .error f) (token : f.token = some k) :
    c.blamed = k :: s.after.blamed := by
  rw [blamed, steps_of_some h, Step.blamed_cons_error result token, blamed]

end Cursor

theorem le_of_mem_blamed (c : Cursor) : ∀ k ∈ c.blamed, c.index ≤ k := by
  fun_induction Cursor.steps c with
  | case1 c hnext =>
    rw [Cursor.blamed_of_none hnext]
    exact fun k hk => absurd hk List.not_mem_nil
  | case2 c s hnext ih =>
    have hindex := index_lt_of_next? hnext
    have hrest : ∀ k ∈ s.after.blamed, c.index ≤ k := fun k hk => hindex.le.trans (ih k hk)
    cases ends_of_next? hnext with
    | reads result => rwa [Cursor.blamed_of_ok hnext result]
    | @passes f k result token after =>
      rw [Cursor.blamed_of_error hnext result token]
      exact List.forall_mem_cons.mpr ⟨by omega, hrest⟩
    | @leaves k left =>
      rw [Cursor.blamed_of_error hnext left.1 rfl]
      exact List.forall_mem_cons.mpr ⟨left.2 ▸ hindex.le, hrest⟩

/-- **words are blamed in order** -/
theorem pairwise_blamed (c : Cursor) : c.blamed.Pairwise (· ≤ ·) := by
  fun_induction Cursor.steps c with
  | case1 c hnext =>
    rw [Cursor.blamed_of_none hnext]
    exact .nil
  | case2 c s hnext ih =>
    have hrest := le_of_mem_blamed s.after
    cases ends_of_next? hnext with
    | reads result => rwa [Cursor.blamed_of_ok hnext result]
    | @passes f k result token after =>
      rw [Cursor.blamed_of_error hnext result token]
      have hlater : k ≤ s.after.index := after ▸ Nat.le_succ k
      exact .cons (fun j hj => hlater.trans (hrest j hj)) ih
    | @leaves k left =>
      rw [Cursor.blamed_of_error hnext left.1 rfl]
      exact .cons (fun j hj => left.2 ▸ hrest j hj) ih

/-- the words before a cursor are not blamed from there on -/
theorem count_blamed_of_lt {c : Cursor} {k : Nat} (h : k < c.index) : c.blamed.count k = 0 :=
  List.count_eq_zero.mpr fun hk => absurd (le_of_mem_blamed c k hk) (Nat.not_le.mpr h)

/-- the word at a cursor is blamed once if a step fails for it at once, and otherwise not at all -/
theorem count_index_blamed (c : Cursor) :
    c.blamed.count c.index = if c.failsAtOnce then 1 else 0 := by
  have hlater : ∀ s, c.next? = some s → s.after.blamed.count c.index = 0 := fun s hnext =>
    count_blamed_of_lt (index_lt_of_next? hnext)
  cases hfails : c.failsAtOnce with
  | true =>
    obtain ⟨f, after, hrefused, htoken⟩ := exists_refused_of_failsAtOnce hfails
    rw [Cursor.blamed_of_error hrefused.next? rfl htoken, List.count_cons_self,
      hlater _ hrefused.next?]
    rfl
  | false =>
    cases hnext : c.next? with
    | none =>
      rw [Cursor.blamed_of_none hnext]
      rfl
    | some s =>
      obtain ⟨result, after⟩ := s
      cases result with
      | ok n =>
        rw [Cursor.blamed_of_ok hnext rfl, hlater _ hnext]
        rfl
      | error f =>
        have hrefused := next?_eq_error_iff.mp hnext
        obtain ⟨k, htoken, _⟩ := hrefused.blame
        have hk : k ≠ c.index := by
          rintro rfl
          exact Bool.false_ne_true (hfails.symm.trans (hrefused.failsAtOnce htoken))
        rw [Cursor.blamed_of_error hnext rfl htoken, List.count_cons_of_ne hk, hlater _ hnext]
        rfl

/-- a step leaves a word that the next one fails for at once -/
def Step.Repeats (s : Step) (k : Nat) : Prop := s.Leaves k ∧ s.after.failsAtOnce = true

/-- **a word is blamed at most twice**, and twice just if a step leaves it and the next one fails
for it at once -/
theorem count_blamed (c : Cursor) (k : Nat) :
    c.blamed.count k ≤ 2 ∧ (c.blamed.count k = 2 ↔ ∃ s ∈ c.steps, s.Repeats k) := by
  fun_induction Cursor.steps c with
  | case1 c hnext =>
    rw [Cursor.blamed_of_none hnext]
    refine ⟨Nat.zero_le 2, iff_of_false (Nat.succ_ne_zero 1).symm ?_⟩
    rintro ⟨s, hs, _⟩
    exact absurd hs List.not_mem_nil
  | case2 c s hnext ih =>
    obtain ⟨hle, hiff⟩ := ih
    rw [List.exists_mem_cons_iff]
    cases ends_of_next? hnext with
    | reads result =>
      rw [Cursor.blamed_of_ok hnext result,
        or_iff_right fun h => Step.not_leaves_of_ok result h.1]
      exact ⟨hle, hiff⟩
    | @passes f j result token after =>
      rw [Cursor.blamed_of_error hnext result token,
        or_iff_right fun h => Step.not_leaves_of_passed result token after h.1, ← hiff]
      by_cases hj : j = k
      · -- the step went past the word, so it is not blamed again
        have hlater : s.after.blamed.count k = 0 := count_blamed_of_lt (by omega)
        rw [hj, List.count_cons_self]
        omega
      · rw [List.count_cons_of_ne hj]
        exact ⟨hle, Iff.rfl⟩
    | @leaves j left =>
      rw [Cursor.blamed_of_error hnext left.1 rfl]
      by_cases hj : j = k
      · -- the word was left, so the next step starts from it
        have hlater := count_index_blamed s.after
        rw [left.2, hj] at hlater
        rw [← hiff, hj, List.count_cons_self, hlater]
        cases hfails : s.after.failsAtOnce with
        | true => exact ⟨Nat.le_refl 2, iff_of_true rfl (.inl ⟨hj ▸ left, hfails⟩)⟩
        | false => simp [Step.Repeats, hfails]
      · rw [List.count_cons_of_ne hj, or_iff_right fun h => hj (left.unique h.1)]
        exact ⟨hle, hiff⟩

theorem token_faultsOf (c : Cursor) :
    (Step.faultsOf c.steps).map Fault.token = c.blamed.map some := by
  fun_induction Cursor.steps c with
  | case1 c hnext =>
    rw [Cursor.blamed_of_none hnext]
    rfl
  | case2 c s hnext ih =>
    obtain ⟨result, after⟩ := s
    cases result with
    | ok n => rw [Step.faultsOf_cons_ok, ih, Cursor.blamed_of_ok hnext rfl]
    | error f =>
      obtain ⟨k, htoken, _⟩ := (next?_eq_error_iff.mp hnext).blame
      rw [Step.faultsOf_cons_error, Cursor.blamed_of_error hnext rfl htoken, List.map_cons,
        List.map_cons, ih, htoken]

/-- words are blamed once each just if no step leaves one that the next step fails for at once -/
theorem pairwise_lt_blamed_iff (c : Cursor) :
    c.blamed.Pairwise (· < ·) ↔ ∀ s ∈ c.steps, ∀ k, ¬ s.Repeats k := by
  constructor
  · intro hpairwise s hs k hrepeats
    have honce : c.blamed.count k ≤ 1 :=
      List.nodup_iff_count_le_one.mp (hpairwise.imp Nat.ne_of_lt) k
    have htwice : c.blamed.count k = 2 := (count_blamed c k).2.mpr ⟨s, hs, hrepeats⟩
    omega
  · intro hnone
    have honce : c.blamed.Nodup := by
      refine List.nodup_iff_count_le_one.mpr fun k => ?_
      obtain ⟨hle, hiff⟩ := count_blamed c k
      have hne : c.blamed.count k ≠ 2 := fun htwice =>
        let ⟨s, hs, hrepeats⟩ := hiff.mp htwice
        hnone s hs k hrepeats
      omega
    exact ((pairwise_blamed c).and honce).imp fun h => Nat.lt_of_le_of_ne h.1 h.2

/-- **Words may be blamed twice.**  Steps that go on past all faults blame words in order, each at
most twice.  A word is blamed twice just if it does not go on what was begun, so that it is left
there, and begins no statement itself: it is an operator or no word at all, a numeral without a
value, or a keyword at the end.  So each word is blamed once if there is no such word. -/
theorem blamed_twice (tokens : List Token) :
    (Step.faultsOf (Cursor.start tokens).steps).map Fault.token
        = (Cursor.start tokens).blamed.map some ∧
      (Cursor.start tokens).blamed.Pairwise (· ≤ ·) ∧
      (∀ k, (Cursor.start tokens).blamed.count k ≤ 2 ∧
        ((Cursor.start tokens).blamed.count k = 2 ↔
          ∃ s ∈ (Cursor.start tokens).steps, s.Repeats k)) ∧
      ((Cursor.start tokens).blamed.Pairwise (· < ·) ↔
        ∀ s ∈ (Cursor.start tokens).steps, ∀ k, ¬ s.Repeats k) :=
  ⟨token_faultsOf _, pairwise_blamed _, count_blamed _, pairwise_lt_blamed_iff _⟩

/-- an operator in the place of a name is blamed for the name that did not come, and then for
beginning no statement -/
theorem blamed_operatorForName :
    (Cursor.start (tokenize "atom +")).blamed = [1, 1] ∧
      ¬ (Cursor.start (tokenize "atom +")).blamed.Pairwise (· < ·) := by
  have htokens : tokenize "atom +"
      = [⟨.keywordAtom, "atom", 0, 4, 1, 0⟩, ⟨.operator .add, "+", 5, 6, 1, 5⟩] := by
    decide +kernel
  have hname : Refused (.start (tokenize "atom +")) (.unexpected (some 1))
      ⟨1, [⟨.operator .add, "+", 5, 6, 1, 5⟩]⟩ := by
    rw [htokens]
    exact @Refused.other 0 [_] _ _ _ (.atomName rfl) rfl
  have hstray : Refused ⟨1, [⟨.operator .add, "+", 5, 6, 1, 5⟩]⟩ (.unexpected (some 1)) ⟨2, []⟩ :=
    .stray rfl
  have hblamed : (Cursor.start (tokenize "atom +")).blamed = [1, 1] := by
    rw [Cursor.blamed_of_error hname.next? rfl rfl, Cursor.blamed_of_error hstray.next? rfl rfl,
      Cursor.blamed_of_none rfl]
  rw [hblamed]
  exact ⟨rfl, by decide⟩

end TableAssembler

import TableAssembler.Program
import TableAssembler.Proofs.Statement.Progress

/-!
# Strict reading and surveying

Tokens are read strictly, up to the first fault, or surveyed past all faults.  Both come from the
same steps, and a survey says what is wrong in them in order, until its report is full.

* `Step.nodesOf`, `Step.faultsOf`   what some steps read, and what is wrong in them;
* `exists_next?_of_mem_steps`       where each of all steps starts;
* `exists_statement_of_mem_nodesOf`   the words of each statement that is read;
* `Cursor.parse_eq`                 strict reading by what is wrong in all steps;
* `Report.pushAll`                  a report with more issues;
* `Source.collect_of_lt`, `Source.collect_of_le`   what a survey says, below the limit and at it;
* `survey_agrees`                   all of it for the tokens of a source.
-/

namespace TableAssembler

/-! ## what some steps read -/

/-- the statements that some steps read -/
def Step.nodesOf (ss : List Step) : List Node := ss.filterMap fun s => s.result.toOption

/-- what is wrong in some steps -/
def Step.faultsOf (ss : List Step) : List Fault :=
  ss.filterMap fun s =>
    match s.result with
    | .ok _ => none
    | .error f => some f

namespace Step

variable (n : Node) (f : Fault) (c : Cursor) (ss : List Step)

theorem nodesOf_cons_ok : nodesOf (⟨.ok n, c⟩ :: ss) = n :: nodesOf ss := rfl

theorem faultsOf_nil : faultsOf [] = [] := rfl
theorem faultsOf_cons_ok : faultsOf (⟨.ok n, c⟩ :: ss) = faultsOf ss := rfl
theorem faultsOf_cons_error : faultsOf (⟨.error f, c⟩ :: ss) = f :: faultsOf ss := rfl

theorem mem_nodesOf {n : Node} {ss : List Step} : n ∈ nodesOf ss ↔ ∃ c, ⟨.ok n, c⟩ ∈ ss := by
  unfold nodesOf
  rw [List.mem_filterMap]
  constructor
  · rintro ⟨⟨_ | m, c⟩, hs, hn⟩
    · cases hn
    · cases hn
      exact ⟨c, hs⟩
  · rintro ⟨c, hs⟩
    exact ⟨_, hs, rfl⟩

theorem mem_faultsOf {f : Fault} {ss : List Step} :
    f ∈ faultsOf ss ↔ ∃ c, ⟨.error f, c⟩ ∈ ss := by
  unfold faultsOf
  rw [List.mem_filterMap]
  constructor
  · rintro ⟨⟨g | m, c⟩, hs, hf⟩
    · cases hf
      exact ⟨c, hs⟩
    · cases hf
  · rintro ⟨c, hs⟩
    exact ⟨_, hs, rfl⟩

end Step

/-- each of all steps is a step from some word on -/
theorem exists_next?_of_mem_steps {c : Cursor} {s : Step} (h : s ∈ c.steps) :
    ∃ i < c.rest.length, Cursor.next? ⟨c.index + i, c.rest.drop i⟩ = some s := by
  fun_induction Cursor.steps c with
  | case1 c hnext => cases h
  | case2 c first hnext ih =>
    obtain ⟨us, hus, htokens, hindex⟩ := next?_consumes hnext
    rcases List.mem_cons.mp h with rfl | h
    · refine ⟨0, ?_, hnext⟩
      rw [htokens]
      exact List.length_pos_iff.mpr (List.append_ne_nil_of_left_ne_nil hus _)
    · obtain ⟨i, hi, hstep⟩ := ih h
      refine ⟨us.length + i, ?_, ?_⟩
      · rw [htokens, List.length_append]
        omega
      · rw [← List.drop_drop, htokens, List.drop_left, ← Nat.add_assoc, ← hindex]
        exact hstep

/-- each statement that is read off a text, past whatever faults, is a phrase of its words -/
theorem exists_statement_of_mem_nodesOf {text : String} {n : Node}
    (h : n ∈ Step.nodesOf (Cursor.start (tokenize text)).steps) :
    ∃ before words after, tokenize text = before ++ (words ++ after) ∧
      Statement before.length words n := by
  obtain ⟨after, hstep⟩ := Step.mem_nodesOf.mp h
  obtain ⟨i, hi, hnext⟩ := exists_next?_of_mem_steps hstep
  rw [show (Cursor.start (tokenize text)).index = 0 from rfl, Nat.zero_add] at hnext
  have hspelled : ∀ t ∈ (tokenize text).drop i, t.Spelled := fun t ht =>
    spelled_of_mem_tokenize t (List.mem_of_mem_drop ht)
  obtain ⟨words, hreads⟩ := next?_sound hspelled hnext
  have hlength : ((tokenize text).take i).length = i := List.length_take_of_le (Nat.le_of_lt hi)
  refine ⟨(tokenize text).take i, words, after.rest, ?_, ?_⟩
  · rw [← hreads.tokens]
    exact (List.take_append_drop i _).symm
  · rw [hlength]
    exact hreads.statement

/-! ## strict reading -/

/-- what strict reading makes of what is wrong and of what was read -/
def strictly (faults : List Fault) (nodes : List Node) : Except Fault (List Node) :=
  match faults with
  | [] => .ok nodes
  | f :: _ => .error f

theorem map_strictly (n : Node) (fs : List Fault) (ns : List Node) :
    (n :: ·) <$> strictly fs ns = strictly fs (n :: ns) := by
  cases fs <;> rfl

theorem strictly_eq_ok {fs : List Fault} {ns nodes : List Node} :
    strictly fs ns = .ok nodes ↔ fs = [] ∧ nodes = ns := by
  cases fs with
  | nil => simp [strictly, eq_comm]
  | cons f fs => simp [strictly]

theorem strictly_eq_error {fs : List Fault} {ns : List Node} {f : Fault} :
    strictly fs ns = .error f ↔ fs.head? = some f := by
  cases fs with
  | nil => simp [strictly]
  | cons f fs => simp [strictly]

/-- strict reading gives what all steps read, unless something is wrong in them -/
theorem Cursor.parse_eq (c : Cursor) :
    c.parse = strictly (Step.faultsOf c.steps) (Step.nodesOf c.steps) := by
  fun_induction Cursor.steps c with
  | case1 c hnext => exact parse_of_none hnext
  | case2 c s hnext ih =>
    obtain ⟨result, after⟩ := s
    rw [parse_of_some hnext]
    cases result with
    | error f => rfl
    | ok n =>
      show (n :: ·) <$> after.parse = _
      rw [ih, map_strictly]
      rfl

/-! ## a report with more issues -/

/-- a report with some more issues, however full that makes it -/
def Report.pushAll (r : Report) (ps : List Picture) : Report := { r with issues := r.issues ++ ps }

namespace Report

variable (r : Report) (p : Picture) (ps : List Picture)

theorem issues_pushAll : (r.pushAll ps).issues = r.issues ++ ps := rfl

theorem pushAll_nil : r.pushAll [] = r := by
  unfold pushAll
  rw [List.append_nil]

theorem pushAll_push : (r.push p).pushAll ps = r.pushAll (p :: ps) := by
  unfold pushAll push
  rw [List.append_assoc, List.singleton_append]

end Report

/-! ## surveys -/

/-- the pictures of what is wrong in a source -/
def Source.picturesOf (s : Source) (fs : List Fault) : List Picture :=
  fs.map fun f => f.picture (some s)

namespace Source

variable {s : Source} {r : Report} {ss : List Step}

/-- with room for all that is wrong, a survey goes on to the end -/
theorem collect_of_lt (h : r.issues.length + (Step.faultsOf ss).length < r.limit) :
    s.collect r ss = .ok (r.pushAll (s.picturesOf (Step.faultsOf ss)), Step.nodesOf ss) := by
  induction ss generalizing r with
  | nil =>
    show _ = Except.ok (r.pushAll [], [])
    rw [collect_nil, r.pushAll_nil]
  | cons first ss ih =>
    obtain ⟨result, after⟩ := first
    cases result with
    | ok n =>
      rw [Step.faultsOf_cons_ok] at h
      rw [collect_cons_ok, ih h, Step.nodesOf_cons_ok, Step.faultsOf_cons_ok]
      rfl
    | error f =>
      rw [Step.faultsOf_cons_error, List.length_cons] at h
      have hroom : r.issues.length + 1 ≠ r.limit := by omega
      have hpush := r.length_issues_push (f.picture (some s))
      have hmore : (r.push (f.picture (some s))).issues.length + (Step.faultsOf ss).length
          < (r.push (f.picture (some s))).limit := by
        show _ < r.limit
        omega
      rw [collect_cons_error, Report.fault, Report.add_of_ne _ hroom]
      show s.collect (r.push (f.picture (some s))) ss = _
      rw [ih hmore, Report.pushAll_push]
      rfl

/-- without room for all that is wrong, a survey is over when the report is full -/
theorem collect_of_le (room : r.issues.length < r.limit)
    (h : r.limit ≤ r.issues.length + (Step.faultsOf ss).length) :
    s.collect r ss = .error ⟨.tooManyIssues,
      r.pushAll (s.picturesOf ((Step.faultsOf ss).take (r.limit - r.issues.length)))⟩ := by
  induction ss generalizing r with
  | nil =>
    rw [Step.faultsOf_nil, List.length_nil] at h
    omega
  | cons first ss ih =>
    obtain ⟨result, after⟩ := first
    cases result with
    | ok n =>
      rw [Step.faultsOf_cons_ok] at h
      rw [collect_cons_ok, ih room h, Step.faultsOf_cons_ok]
      rfl
    | error f =>
      rw [Step.faultsOf_cons_error, List.length_cons] at h
      have hpush := r.length_issues_push (f.picture (some s))
      have htake : r.limit - r.issues.length
          = r.limit - (r.push (f.picture (some s))).issues.length + 1 := by omega
      rw [collect_cons_error, Report.fault, Step.faultsOf_cons_error, htake, List.take_succ_cons]
      show _ = Except.error (Interruption.mk _ (r.pushAll (_ :: _)))
      by_cases hfull : r.issues.length + 1 = r.limit
      · -- this issue fills the report, so none of the others is said
        have hnone : r.limit - (r.push (f.picture (some s))).issues.length = 0 := by omega
        rw [Report.add_of_eq _ hfull, hnone, List.take_zero]
        rfl
      · have hroom : (r.push (f.picture (some s))).issues.length
            < (r.push (f.picture (some s))).limit := by
          show _ < r.limit
          omega
        have hmore : (r.push (f.picture (some s))).limit
            ≤ (r.push (f.picture (some s))).issues.length + (Step.faultsOf ss).length := by
          show r.limit ≤ _
          omega
        rw [Report.add_of_ne _ hfull, ← Report.pushAll_push]
        exact ih hroom hmore

end Source

/-- **Strict reading and surveying agree.**  Strict reading gives a list just when driving on past
all faults meets none, and then both read the same statements; otherwise it fails with the first
fault of that drive.  A survey with a report that has room is interrupted just when there are as
many faults as there is room for, and then the report is full of the first of them; otherwise it
gives all statements that could be read, and its report has all faults. -/
theorem survey_agrees :
    (∀ tokens : List Token,
      Driven (.start tokens) (Cursor.start tokens).steps ⟨tokens.length, []⟩ ∧
      (∀ nodes, parse tokens = .ok nodes ↔
        Step.faultsOf (Cursor.start tokens).steps = [] ∧
          nodes = Step.nodesOf (Cursor.start tokens).steps) ∧
      ∀ f, parse tokens = .error f ↔
        (Step.faultsOf (Cursor.start tokens).steps).head? = some f) ∧
    ∀ (s : Source) (r : Report), r.issues.length < r.limit →
      (∀ i, s.survey r = .error i ↔
        r.limit - r.issues.length ≤ (Step.faultsOf (Cursor.start s.tokens).steps).length ∧
        i = ⟨.tooManyIssues, r.pushAll (s.picturesOf
          ((Step.faultsOf (Cursor.start s.tokens).steps).take
            (r.limit - r.issues.length)))⟩) ∧
      (∀ i, s.survey r = .error i → i.report.issues.length = r.limit) ∧
      ∀ done, s.survey r = .ok done ↔
        (Step.faultsOf (Cursor.start s.tokens).steps).length < r.limit - r.issues.length ∧
        done = (r.pushAll (s.picturesOf (Step.faultsOf (Cursor.start s.tokens).steps)),
          Step.nodesOf (Cursor.start s.tokens).steps) := by
  refine ⟨fun tokens => ⟨?_, fun nodes => ?_, fun f => ?_⟩, fun s r room => ?_⟩
  · have h := driven_steps (.start tokens)
    rwa [show (Cursor.start tokens).index = 0 from rfl, Nat.zero_add] at h
  · rw [parse, Cursor.parse_eq, strictly_eq_ok]
  · rw [parse, Cursor.parse_eq, strictly_eq_error]
  · unfold Source.survey
    generalize (Cursor.start s.tokens).steps = ss
    by_cases hroom : r.issues.length + (Step.faultsOf ss).length < r.limit
    · have hlt : (Step.faultsOf ss).length < r.limit - r.issues.length := by omega
      rw [Source.collect_of_lt hroom]
      refine ⟨fun i => ?_, fun i hi => (nomatch hi), fun done => ?_⟩
      · exact ⟨fun hi => (nomatch hi), fun hi => absurd hi.1 (Nat.not_le.mpr hlt)⟩
      · rw [Except.ok.injEq, eq_comm]
        exact ⟨fun hdone => ⟨hlt, hdone⟩, And.right⟩
    · have hle : r.limit - r.issues.length ≤ (Step.faultsOf ss).length := by omega
      rw [Source.collect_of_le room (Nat.le_of_not_lt hroom)]
      have hlength : (r.pushAll (s.picturesOf ((Step.faultsOf ss).take
          (r.limit - r.issues.length)))).issues.length = r.limit := by
        rw [Report.issues_pushAll, List.length_append, Source.picturesOf, List.length_map,
          List.length_take, Nat.min_eq_left hle]
        omega
      refine ⟨fun i => ?_, fun i hi => ?_, fun done => ?_⟩
      · rw [Except.error.injEq, eq_comm]
        exact ⟨fun hi => ⟨hle, hi⟩, And.right⟩
      · cases hi
        exact hlength
      · exact ⟨fun hdone => (nomatch hdone), fun hdone => absurd hdone.1 (Nat.not_lt.mpr hle)⟩

end TableAssembler

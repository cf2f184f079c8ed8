import TableAssembler.Proofs.Report.Outcome
import TableAssembler.Proofs.Statement.Survey

/-!
# Lines at the prompt

A line at the prompt comes to the same as a program of that line.  The prompt surveys the line and a
program is read strictly, so they differ only past the first fault of its words.

* `Source.survey_of_read`, `Source.survey_of_unread`   a survey by what strict reading gives;
* `evaluateLine_of_made`, `evaluateLine_of_unmade`, `evaluateLine_of_unread`   what the prompt shows;
* `evaluateLine_agrees`                                the prompt and the program.
-/

namespace TableAssembler

variable {r : Report} {f : Fault} {nodes : List Node}

namespace Source

variable {s : Source} (fresh : r.issues = []) (room : 2 ≤ r.limit)

/-! ## surveys by strict reading -/

include fresh room

theorem survey_of_read (read : parse s.tokens = .ok nodes) : s.survey r = .ok (r, nodes) := by
  rw [parse, Cursor.parse_eq, strictly_eq_ok] at read
  obtain ⟨hfaults, rfl⟩ := read
  have hlength : r.issues.length = 0 := by rw [fresh, List.length_nil]
  have hroom : r.issues.length + (Step.faultsOf (Cursor.start s.tokens).steps).length
      < r.limit := by
    rw [hfaults, List.length_nil]
    omega
  rw [survey, collect_of_lt hroom, hfaults]
  show Except.ok (r.pushAll [], _) = _
  rw [Report.pushAll_nil]

/-- the first fault of a text is the first issue of a survey, which goes on if there is room -/
theorem survey_of_unread (unread : parse s.tokens = .error f) :
    ∃ r' : Report, r'.issues.head? = some (f.picture (some s)) ∧
      ((Step.faultsOf (Cursor.start s.tokens).steps).length < r.limit ∧
          s.survey r = .ok (r', Step.nodesOf (Cursor.start s.tokens).steps) ∨
        r.limit ≤ (Step.faultsOf (Cursor.start s.tokens).steps).length ∧
          s.survey r = .error ⟨.tooManyIssues, r'⟩) := by
  rw [parse, Cursor.parse_eq, strictly_eq_error] at unread
  have hlength : r.issues.length = 0 := by rw [fresh, List.length_nil]
  unfold survey
  generalize (Cursor.start s.tokens).steps = ss at unread
  by_cases hroom : (Step.faultsOf ss).length < r.limit
  · refine ⟨_, ?_, .inl ⟨hroom, collect_of_lt (by omega)⟩⟩
    rw [Report.issues_pushAll, fresh, List.nil_append, picturesOf, List.head?_map, unread,
      Option.map_some]
  · refine ⟨_, ?_, .inr ⟨Nat.le_of_not_lt hroom, collect_of_le (by omega) (by omega)⟩⟩
    rw [Report.issues_pushAll, fresh, List.nil_append, picturesOf, List.head?_map,
      List.head?_take, if_neg (by rw [List.length_nil]; omega), unread, Option.map_some]

end Source

/-! ## the prompt -/

section
variable {line : String} {r' : Report}

theorem evaluateLine_of_survey (h : (Source.ofText line none).survey r = .ok (r', nodes)) :
    evaluateLine line r = if r'.isOk && !nodes.isEmpty then
      ((Source.ofText line none).build .empty nodes r').map fun built =>
        (built.1, nodes.map Node.text ++ (built.2.map fun o => o.tables.map Table.text).getD [])
      else .ok (r', nodes.map Node.text) := by
  unfold evaluateLine
  dsimp only
  rw [h]
  rfl

theorem evaluateLine_of_interrupted {i : Interruption}
    (h : (Source.ofText line none).survey r = .error i) : evaluateLine line r = .error i := by
  unfold evaluateLine
  dsimp only
  rw [h]
  rfl

variable (fresh : r.issues = []) (room : 2 ≤ r.limit)

include fresh room

theorem evaluateLine_of_read (read : parse (tokenize line) = .ok nodes) (hne : nodes ≠ []) :
    evaluateLine line r = ((Source.ofText line none).build .empty nodes r).map fun built =>
      (built.1, nodes.map Node.text ++ (built.2.map fun o => o.tables.map Table.text).getD []) := by
  have hshown : (r.isOk && !nodes.isEmpty) = true := by
    simp [Report.isOk, fresh, hne]
  rw [evaluateLine_of_survey (Source.survey_of_read fresh room read), if_pos hshown]

/-- a line without words has nothing to show -/
theorem evaluateLine_of_empty (read : parse (tokenize line) = .ok []) :
    evaluateLine line r = .ok (r, []) := by
  rw [evaluateLine_of_survey (Source.survey_of_read fresh room read), List.isEmpty_nil,
    Bool.not_true, Bool.and_false, if_neg Bool.false_ne_true, List.map_nil]

/-- a line that makes an object is shown with its tables -/
theorem evaluateLine_of_made {o : Object} (read : parse (tokenize line) = .ok nodes)
    (made : TableAssembler.assemble .empty nodes = .ok o) :
    ∃ r' : Report, evaluateLine line r
        = .ok (r', nodes.map Node.text ++ o.tables.map Table.text) ∧ r'.issues = [] := by
  -- the prompt makes no object of a line without words, and a program makes the empty one
  by_cases hne : nodes = []
  · subst hne
    cases made
    exact ⟨r, evaluateLine_of_empty fresh room read, fresh⟩
  · refine ⟨r.info o.summary, ?_, (r.issues_info _).trans fresh⟩
    rw [evaluateLine_of_read fresh room read hne, Source.build_of_ok made]
    rfl

/-- a line that makes none is shown without tables -/
theorem evaluateLine_of_unmade (read : parse (tokenize line) = .ok nodes)
    (unmade : TableAssembler.assemble .empty nodes = .error (.fault f)) :
    ∃ r' : Report, evaluateLine line r = .ok (r', nodes.map Node.text) ∧
      r'.issues = [f.picture (some (.ofText line none))] := by
  have hne : nodes ≠ [] := by
    rintro rfl
    cases unmade
  have hwrong : (Source.ofText line none).Wrong .empty f := .statements read unmade
  obtain ⟨r', hbuild, hissues⟩ := Source.assemble_of_wrong_only fresh room hwrong
  rw [Source.assemble_of_read read] at hbuild
  refine ⟨r', ?_, hissues⟩
  rw [evaluateLine_of_read fresh room read hne, hbuild]
  show Except.ok (r', nodes.map Node.text ++ []) = _
  rw [List.append_nil]

/-- a line with a fault is shown as far as it could be read, unless there are too many -/
theorem evaluateLine_of_unread (unread : parse (tokenize line) = .error f) :
    ∃ r' : Report, r'.issues.head? = some (f.picture (some (.ofText line none))) ∧
      ((Step.faultsOf (Cursor.start (tokenize line)).steps).length < r.limit ∧
          evaluateLine line r
            = .ok (r', (Step.nodesOf (Cursor.start (tokenize line)).steps).map Node.text) ∨
        r.limit ≤ (Step.faultsOf (Cursor.start (tokenize line)).steps).length ∧
          evaluateLine line r = .error ⟨.tooManyIssues, r'⟩) := by
  obtain ⟨r', hhead, ⟨hlt, hsurvey⟩ | ⟨hle, hsurvey⟩⟩ :=
    Source.survey_of_unread (s := .ofText line none) fresh room unread
  · have hok : r'.isOk = false := by
      cases hissues : r'.issues with
      | nil =>
        rw [hissues] at hhead
        cases hhead
      | cons p ps => rw [Report.isOk, hissues, List.isEmpty_cons]
    refine ⟨r', hhead, .inl ⟨hlt, ?_⟩⟩
    rw [evaluateLine_of_survey hsurvey, hok, Bool.false_and, if_neg Bool.false_ne_true]
    rfl
  · exact ⟨r', hhead, .inr ⟨hle, evaluateLine_of_interrupted hsurvey⟩⟩

end

/-- **The prompt and the program agree.**  Both start with a report that has no issues and room for
two.  Either the line makes an object: then the prompt shows its statements and the tables of that
object, and there is no issue in either report.  Or it can be read and makes none: then the prompt
shows its statements, and the same picture is the only issue in both reports.  Or it cannot be read:
then the program has one issue, which is the first at the prompt, and the prompt shows the statements
that could be read, unless there are as many faults as its report has room for. -/
theorem evaluateLine_agrees (line : String) {r r' : Report} (fresh : r.issues = [])
    (fresh' : r'.issues = []) (room : 2 ≤ r.limit) (room' : 2 ≤ r'.limit) :
    let s := Source.ofText line none
    (∃ nodes o done done', parse s.tokens = .ok nodes ∧
      s.assemble .empty r = .ok (done, some o) ∧
      evaluateLine line r' = .ok (done', nodes.map Node.text ++ o.tables.map Table.text) ∧
      done.issues = [] ∧ done'.issues = []) ∨
    (∃ nodes p done done', parse s.tokens = .ok nodes ∧
      s.assemble .empty r = .ok (done, none) ∧
      evaluateLine line r' = .ok (done', nodes.map Node.text) ∧
      done.issues = [p] ∧ done'.issues = [p]) ∨
    ∃ f done done', parse s.tokens = .error f ∧ s.assemble .empty r = .ok (done, none) ∧
      done.issues = [f.picture (some s)] ∧
      done'.issues.head? = some (f.picture (some s)) ∧
      ((Step.faultsOf (Cursor.start s.tokens).steps).length < r'.limit ∧
          evaluateLine line r'
            = .ok (done', (Step.nodesOf (Cursor.start s.tokens).steps).map Node.text) ∨
        r'.limit ≤ (Step.faultsOf (Cursor.start s.tokens).steps).length ∧
          evaluateLine line r' = .error ⟨.tooManyIssues, done'⟩) := by
  intro s
  cases hread : parse s.tokens with
  | error f =>
    have hwrong : s.Wrong .empty f := .words hread
    obtain ⟨done, hassemble, hissues⟩ := Source.assemble_of_wrong_only fresh room hwrong
    obtain ⟨done', hhead, hline⟩ := evaluateLine_of_unread fresh' room' hread
    exact .inr (.inr ⟨f, done, done', rfl, hassemble, hissues, hhead, hline⟩)
  | ok nodes =>
    cases hmade : TableAssembler.assemble .empty nodes with
    | ok o =>
      obtain ⟨done', hline, hissues'⟩ := evaluateLine_of_made fresh' room' hread hmade
      exact .inl ⟨nodes, o, r.info o.summary, done', rfl,
        Source.assemble_of_makes ⟨nodes, hread, hmade⟩, hline, (r.issues_info _).trans fresh,
        hissues'⟩
    | error e =>
      obtain ⟨f, rfl, -⟩ := Source.fault_of_unmade hread hmade
      have hwrong : s.Wrong .empty f := .statements hread hmade
      obtain ⟨done, hassemble, hissues⟩ := Source.assemble_of_wrong_only fresh room hwrong
      obtain ⟨done', hline, hissues'⟩ := evaluateLine_of_unmade fresh' room' hread hmade
      exact .inr (.inl ⟨nodes, _, done, done', rfl, hassemble, hline, hissues, hissues'⟩)

/-- a number without a record type -/
theorem evaluateLine_agrees_loneNumber :
    2 ≤ ({} : Report).limit ∧ ∃ p done done',
      (Source.ofText "7" none).assemble .empty {} = .ok (done, none) ∧
      evaluateLine "7" {} = .ok (done', ["7"]) ∧ done.issues = [p] ∧ done'.issues = [p] := by
  have hfresh : ({} : Report).issues = [] := rfl
  have hroom : 2 ≤ ({} : Report).limit := by decide
  have hread : parse (tokenize "7") = .ok [.value (.integer 7) .int (some 0)] := by
    rw [show tokenize "7" = [⟨.int, "7", 0, 1, 1, 0⟩] by decide +kernel]
    exact parse_eq_cons rfl (Cursor.parse_of_none rfl)
  have hwrong : (Source.ofText "7" none).Wrong .empty ⟨.noRecord, some 0, none⟩ :=
    .statements hread rfl
  refine ⟨hroom, ?_⟩
  rcases evaluateLine_agrees "7" hfresh hfresh hroom hroom with
    ⟨nodes, o, done, -, hnodes, hassemble, -⟩ |
    ⟨nodes, p, done, done', hnodes, hassemble, hline, hissues, hissues'⟩ | ⟨f, -, -, hf, -⟩
  · obtain ⟨_, hfailed, _⟩ := Source.assemble_of_wrong_only hfresh hroom hwrong
    cases hassemble.symm.trans hfailed
  · cases hnodes.symm.trans hread
    exact ⟨p, done, done', hassemble, hline, hissues, hissues'⟩
  · cases hf.symm.trans hread

end TableAssembler

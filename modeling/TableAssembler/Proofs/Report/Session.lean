import TableAssembler.Prompt
import TableAssembler.Proofs.Report.Lines

/-!
# Sessions at the prompt

The lines of a session share one report.  Whatever a line does to it, also one that is cut short by
too many issues, the report that is left for the next line is as good as new.  So each line is
answered as if there were no other.

* `Report.settings`, `settingsAfter`   what was set for a report, and for the one that is left in the
  end;
* `settings_evaluateLine`       a line changes no setting;
* `reason_of_evaluateLine`      only too many issues cut a line short;
* `Prompt.step_report`, `Prompt.reportAfter`   the report after a line, and after several;
* `Prompt.reply`                the reply to a line alone;
* `Prompt.run_eq_map`           a session answers each line as it would alone;
* `Prompt.run_independent`      lines share nothing.
-/

namespace TableAssembler

/-! ## what was set for a report -/

/-- what was set for a report: whether it says more, and how many issues are too many -/
def Report.settings (r : Report) : Bool × Nat := (r.verbose, r.limit)

/-- what was set for the report that is left at the end of something, also by an interruption -/
def settingsAfter {α : Type} : Reporting α → Bool × Nat
  | .ok done => done.1.settings
  | .error i => i.report.settings

section
variable (r : Report) (s : Source)

theorem settings_info (lines : List String) : (r.info lines).settings = r.settings := by
  unfold Report.info
  split <;> rfl

/-- an issue is there in the end, whether or not it is one too many -/
theorem fault_cases (source : Option Source) (f : Fault) :
    r.fault source f = .ok (r.push (f.picture source)) ∨
      r.fault source f = .error ⟨.tooManyIssues, r.push (f.picture source)⟩ := by
  unfold Report.fault Report.add
  split
  · exact .inr rfl
  · exact .inl rfl

theorem settings_collect (ss : List Step) : settingsAfter (s.collect r ss) = r.settings := by
  induction ss generalizing r with
  | nil => rfl
  | cons first ss ih =>
    obtain ⟨result, after⟩ := first
    cases result with
    | ok n =>
      rw [Source.collect_cons_ok, ← ih r]
      cases s.collect r ss <;> rfl
    | error f =>
      rw [Source.collect_cons_error]
      rcases fault_cases r (some s) f with hadd | hadd
      · rw [hadd]
        exact ih _
      · rw [hadd]
        rfl

theorem settings_build (structs : Structs) (nodes : List Node) :
    settingsAfter (s.build structs nodes r) = r.settings := by
  unfold Source.build
  dsimp only
  have hinfo := settings_info r ((Assembler.start structs).run nodes).1.object.summary
  split
  · exact hinfo
  · next f _ =>
    rcases fault_cases (r.info ((Assembler.start structs).run nodes).1.object.summary) (some s) f
      with hadd | hadd
    · rw [hadd]
      exact hinfo
    · rw [hadd]
      exact hinfo
  · exact hinfo

end

/-- **a line changes no setting** of the report, however it ends -/
theorem settings_evaluateLine (line : String) (r : Report) :
    settingsAfter (evaluateLine line r) = r.settings := by
  have hsurvey : settingsAfter ((Source.ofText line none).survey r) = r.settings :=
    settings_collect r _ _
  cases h : (Source.ofText line none).survey r with
  | error i =>
    rw [evaluateLine_of_interrupted h, ← hsurvey, h]
    rfl
  | ok done =>
    obtain ⟨r', nodes⟩ := done
    rw [h] at hsurvey
    rw [evaluateLine_of_survey h]
    split
    · have hbuild : settingsAfter ((Source.ofText line none).build .empty nodes r') = r.settings :=
        (settings_build _ _ _ _).trans hsurvey
      rw [← hbuild]
      cases (Source.ofText line none).build .empty nodes r' <;> rfl
    · exact hsurvey

/-- **only too many issues** cut a line short -/
theorem reason_of_evaluateLine {line : String} {r : Report} (fresh : r.issues = [])
    (room : 2 ≤ r.limit) {i : Interruption} (h : evaluateLine line r = .error i) :
    i.reason = .tooManyIssues := by
  cases hread : parse (tokenize line) with
  | error f =>
    obtain ⟨r', _, ⟨_, hline⟩ | ⟨_, hline⟩⟩ := evaluateLine_of_unread fresh room hread
    · cases hline.symm.trans h
    · cases hline.symm.trans h
      rfl
  | ok nodes =>
    cases hmade : assemble .empty nodes with
    | ok o =>
      obtain ⟨_, hline, _⟩ := evaluateLine_of_made fresh room hread hmade
      cases hline.symm.trans h
    | error e =>
      obtain ⟨f, rfl, _⟩ := Source.fault_of_unmade (s := .ofText line none) hread hmade
      obtain ⟨_, hline, _⟩ := evaluateLine_of_unmade fresh room hread hmade
      cases hline.symm.trans h

/-! ## sessions -/

namespace Prompt

/-- the report after a line has the settings of the one before it, and nothing else -/
theorem step_report (r : Report) (line : String) (o : Outburst) :
    (step r line o).2 = { verbose := r.verbose, limit := r.limit } := by
  have h := settings_evaluateLine line r
  unfold step
  dsimp only
  cases hline : evaluateLine line r with
  | ok done =>
    rw [hline] at h
    obtain ⟨hverbose, hlimit⟩ := Prod.mk.inj h
    rw [← hverbose, ← hlimit]
    rfl
  | error i =>
    rw [hline] at h
    obtain ⟨hverbose, hlimit⟩ := Prod.mk.inj h
    rw [← hverbose, ← hlimit]
    rfl

/-- the report after some lines -/
def reportAfter (r : Report) : List (String × Outburst) → Report
  | [] => r
  | (line, o) :: lines => reportAfter (step r line o).2 lines

/-- the reply to a line alone, with the outburst that it would draw -/
def reply (verbose : Bool) (l : String × Outburst) : Reply := (step (start verbose) l.1 l.2).1

variable (verbose : Bool) (lines : List (String × Outburst))

/-- whatever a line does, the next one finds the report of a new session -/
theorem step_start (line : String) (o : Outburst) :
    (step (start verbose) line o).2 = start verbose := step_report _ line o

/-- after any lines the report is that of a new session -/
theorem reportAfter_start : reportAfter (start verbose) lines = start verbose := by
  induction lines with
  | nil => rfl
  | cons l lines ih => rw [reportAfter, step_start, ih]

/-- **a session answers each line as it would alone** -/
theorem run_eq_map : run (start verbose) lines = lines.map (reply verbose) := by
  induction lines with
  | nil => rfl
  | cons l lines ih => rw [run_cons, step_start, ih, List.map_cons, reply]

/-- the lines of a session with their replies -/
theorem zip_run : lines.zip (run (start verbose) lines)
    = lines.map fun l => (l, reply verbose l) := by
  rw [run_eq_map, List.map_prod_left_eq_zip]

/-- **Lines share nothing.**  A session at the prompt answers each line as a session of that line
alone, whatever comes before it and after it: the line finds the report of a new session, and the
same is shown and said for it.  So in any other order the lines have the same replies, and lines
that are left out take away their own replies and no others.  What the console shows of a session is
put together from what it shows of each line.  Nothing but too many issues cuts a line short. -/
theorem run_independent (verbose : Bool) :
    (∀ before l rest, reportAfter (start verbose) before = start verbose ∧
      run (start verbose) (before ++ l :: rest)
        = run (start verbose) before ++ run (start verbose) [l] ++ run (start verbose) rest ∧
      (run (start verbose) (before ++ l :: rest))[before.length]?
        = (run (start verbose) [l])[0]?) ∧
    (∀ lines lines' : List (String × Outburst), lines'.Perm lines →
      (lines'.zip (run (start verbose) lines')).Perm (lines.zip (run (start verbose) lines))) ∧
    (∀ lines lines' : List (String × Outburst), lines'.Sublist lines →
      (lines'.zip (run (start verbose) lines')).Sublist (lines.zip (run (start verbose) lines))) ∧
    (∀ lines, output (run (start verbose) lines)
        = String.join (lines.map fun l => mark ++ printed (reply verbose l).shown) ++ mark ++ "\n" ∧
      errors (run (start verbose) lines)
        = String.join (lines.map fun l => printed (reply verbose l).said)) ∧
    ∀ line i, evaluateLine line (start verbose) = .error i → i.reason = .tooManyIssues := by
  refine ⟨fun before l rest => ⟨reportAfter_start verbose before, ?_, ?_⟩, fun lines lines' h => ?_,
    fun lines lines' h => ?_, fun lines => ⟨?_, ?_⟩, fun line i hi => ?_⟩
  · rw [run_eq_map, run_eq_map, run_eq_map, run_eq_map, List.map_append, List.map_cons,
      List.map_singleton, List.append_assoc, List.singleton_append]
  · have hlength : (before.map (reply verbose)).length = before.length := List.length_map _
    rw [run_eq_map, run_eq_map, List.map_append,
      List.getElem?_append_right (Nat.le_of_eq hlength), hlength, Nat.sub_self]
    rfl
  · rw [zip_run, zip_run]
    exact h.map _
  · rw [zip_run, zip_run]
    exact h.map _
  · rw [run_eq_map, output, List.map_map]
    rfl
  · rw [run_eq_map, errors, List.map_map]
    rfl
  · exact reason_of_evaluateLine rfl (Nat.le_of_ble_eq_true rfl) hi

end Prompt

end TableAssembler

import TableAssembler.CommandLine.Run
import TableAssembler.Proofs.Report.Outcome
import TableAssembler.Proofs.Text.Encoding

/-!
# Program files

A program file is bytes.  If they are those of a text, then it makes an object or there is one thing
wrong with it, and the command line prints the tables or explains why there are none.  All other bytes
interrupt whatever is going on, and nothing is explained.

A text may nest as deeply as it likes.  An interpreter that limits its recursion stops at some depth
of nesting with an error of its own; that limit is left out of the definitions, and so of all that is
said here.

* `IsText`                     the bytes of a text;
* `Source.ofFile`              the source that a file is read as;
* `assembleFile_cases`, `assembleFile_of_not_isText`   what comes of a file;
* `assembleProgram_of_made`, `assembleProgram_of_unmade`   what the command line does with that;
* `assembleFile_outcome`       all of it for a report that has no issue yet.
-/

namespace TableAssembler

/-- the bytes of a text -/
def IsText (bytes : List UInt8) : Prop :=
  ∃ text : List Char, bytes = text.flatMap String.utf8EncodeChar

/-- the source that a file is read as -/
def Source.ofFile (path : String) (text : List Char) : Source :=
  .ofText (String.ofList (Text.unixBreaks text)) (some path)

variable {path : String} {bytes : List UInt8} {text : List Char} {r r' : Report}

/-! ## files -/

theorem assembleFile_of_text (h : bytes = text.flatMap String.utf8EncodeChar) :
    assembleFile path (.ok bytes) r
      = (Source.ofFile path text).assemble .empty (r.info ["Assembling " ++ path]) := by
  unfold assembleFile
  dsimp only
  rw [Text.Utf8.decode_eq_ok_iff.mpr h]
  rfl

/-- a text makes an object, or there is one thing wrong with it first -/
theorem assembleFile_cases (path : String) (fresh : r.issues = []) (room : 2 ≤ r.limit)
    (h : bytes = text.flatMap String.utf8EncodeChar) :
    (∃ o r', (Source.ofFile path text).Makes .empty o ∧
      assembleFile path (.ok bytes) r = .ok (r', some o) ∧ r'.issues = []) ∨
    ∃ f r', (Source.ofFile path text).Wrong .empty f ∧
      assembleFile path (.ok bytes) r = .ok (r', none) ∧
      r'.issues = [f.picture (some (Source.ofFile path text))] ∧
      (f.picture (some (Source.ofFile path text))).outOfRange? = none := by
  rw [← r.issues_info ["Assembling " ++ path]] at fresh
  rw [← r.limit_info ["Assembling " ++ path]] at room
  rw [assembleFile_of_text h]
  rcases (Source.ofFile path text).makes_or_wrong .empty with ⟨o, ho⟩ | ⟨f, hf⟩
  · exact .inl ⟨o, _, ho, Source.assemble_of_makes ho, (Report.issues_info _ _).trans fresh⟩
  · obtain ⟨r', hassemble, hissues⟩ := Source.assemble_of_wrong_only fresh room hf
    exact .inr ⟨f, r', hf, hassemble, hissues, Source.picture_inRange hf.among⟩

/-- bytes of no text interrupt -/
theorem assembleFile_of_not_isText (h : ¬ IsText bytes) : ∃ e, ∀ (path : String) (r : Report),
    assembleFile path (.ok bytes) r = .error ⟨.undecodable e, r.info ["Assembling " ++ path]⟩ := by
  cases hd : Text.Utf8.decode bytes with
  | error e =>
    refine ⟨e, fun path r => ?_⟩
    unfold assembleFile
    dsimp only
    rw [hd]
  | ok text => exact absurd ⟨text, Text.Utf8.decode_eq_ok_iff.mp hd⟩ h

/-! ## the command line -/

variable {contents : Contents} {check verbose : Bool} {outburst : Outburst}

/-- an object is printed, if that is what is asked for -/
theorem assembleProgram_of_made {o : Object}
    (h : assembleFile path contents { verbose } = .ok (r', some o)) :
    (assembleProgram path contents check verbose outburst).ending = .exit 0 ∧
    (assembleProgram path contents check verbose outburst).output
        = if check then "" else printed o.listing := by
  unfold assembleProgram
  dsimp only
  rw [h]
  cases check <;> exact ⟨rfl, rfl⟩

/-- an issue is explained -/
theorem assembleProgram_of_unmade {p : Picture}
    (h : assembleFile path contents { verbose } = .ok (r', none)) (hp : r'.issues = [p]) :
    assembleProgram path contents check verbose outburst
      = { ending := .exit 1, errors := printed (r'.said ++
          [Report.stars, outburst.text, Report.dashes, p.text]) } := by
  unfold assembleProgram
  dsimp only
  rw [h]
  simp [Report.complain, Report.complaint, Report.say, Report.isOk, hp]

/-- an interruption is not, unless there are too many issues -/
theorem assembleProgram_of_error {reason : Interruption.Reason} (hr : reason ≠ .tooManyIssues)
    (h : assembleFile path contents { verbose } = .error ⟨reason, r'⟩) :
    assembleProgram path contents check verbose outburst
      = { ending := .interrupted reason, errors := printed r'.said } := by
  unfold assembleProgram
  dsimp only
  rw [h]
  cases reason with
  | tooManyIssues => exact absurd rfl hr
  | unsupported => rfl
  | undecodable e => rfl

theorem run_of_plan {arguments : List String} {s : Surroundings} {program : String}
    (h : Plan.ofArguments arguments = .assemble program check verbose) :
    run arguments s = assembleProgram (programPath s.directory program)
      (s.files (programPath s.directory program)) check verbose (s.chance 0) := by
  unfold run
  rw [h]

/-- **What comes of a program file, whatever is in it.**  If its bytes are those of a text, then
that makes an object, and a report without issues stays so, or something is wrong with it first,
and that is the only issue, with a picture of a word of the source.  For all other bytes there is an
interruption.  On the command line the first ends with the tables and the exit code 0, the second
with nothing but an explanation and the exit code 1; the third has no exit code. -/
theorem assembleFile_outcome (bytes : List UInt8) :
    (∀ (path : String) (r : Report), r.issues = [] → 2 ≤ r.limit →
      (∀ text : List Char, bytes = text.flatMap String.utf8EncodeChar →
        (∃ o r', (Source.ofFile path text).Makes .empty o ∧
          assembleFile path (.ok bytes) r = .ok (r', some o) ∧ r'.issues = []) ∨
        ∃ f r', (Source.ofFile path text).Wrong .empty f ∧
          assembleFile path (.ok bytes) r = .ok (r', none) ∧
          r'.issues = [f.picture (some (Source.ofFile path text))] ∧
          (f.picture (some (Source.ofFile path text))).outOfRange? = none) ∧
      ((∃ i, assembleFile path (.ok bytes) r = .error i) ↔ ¬ IsText bytes)) ∧
    ∀ (arguments : List String) (s : Surroundings) (program : String) (check verbose : Bool),
      Plan.ofArguments arguments = .assemble program check verbose →
      s.files (programPath s.directory program) = .ok bytes →
      (∀ text : List Char, bytes = text.flatMap String.utf8EncodeChar →
        let source := Source.ofFile (programPath s.directory program) text
        (∃ o, source.Makes .empty o ∧ (run arguments s).ending = .exit 0 ∧
          (run arguments s).output = if check then "" else printed o.listing) ∨
        ∃ f said, source.Wrong .empty f ∧ run arguments s
          = { ending := .exit 1, errors := printed (said ++ [Report.stars, (s.chance 0).text,
              Report.dashes, (f.picture (some source)).text]) }) ∧
      (¬ IsText bytes → ∃ e said, run arguments s
          = { ending := .interrupted (.undecodable e), errors := printed said }) := by
  refine ⟨fun path r fresh room => ⟨fun text h => assembleFile_cases path fresh room h, ?_, ?_⟩,
    fun arguments s program check verbose hplan hfile => ?_⟩
  · rintro ⟨i, hi⟩ ⟨text, h⟩
    rcases assembleFile_cases path fresh room h with ⟨o, r', -, hok, -⟩ | ⟨f, r', -, hok, -⟩
    · cases hi.symm.trans hok
    · cases hi.symm.trans hok
  · intro h
    obtain ⟨e, he⟩ := assembleFile_of_not_isText h
    exact ⟨_, he path r⟩
  · rw [run_of_plan hplan, hfile]
    generalize programPath s.directory program = path
    refine ⟨fun text h => ?_, fun h => ?_⟩
    · have hroom : 2 ≤ ({ verbose } : Report).limit := by
        show 2 ≤ 10
        decide
      rcases assembleFile_cases path (r := { verbose }) rfl hroom h with
        ⟨o, r', ho, hassemble, -⟩ | ⟨f, r', hf, hassemble, hissues, -⟩
      · exact .inl ⟨o, ho, assembleProgram_of_made hassemble⟩
      · exact .inr ⟨f, r'.said, hf, assembleProgram_of_unmade hassemble hissues⟩
    · obtain ⟨e, he⟩ := assembleFile_of_not_isText h
      exact ⟨e, _, assembleProgram_of_error (by simp) (he path _)⟩

/-- the surroundings of a run, with the same bytes in every file -/
def Surroundings.ofBytes (bytes : List UInt8) : Surroundings :=
  { directory := "/", files := fun _ => .ok bytes, input := [], chance := fun _ => .draw 0 0 0 }

/-- a file with one row -/
theorem assembleFile_outcome_oneRow :
    (∃ o r', assembleFile "a" (.ok ("byte 7".toList.flatMap String.utf8EncodeChar)) {}
      = .ok (r', some o) ∧ r'.issues = []) ∧
    (run ["a"] (.ofBytes ("byte 7".toList.flatMap String.utf8EncodeChar))).ending = .exit 0 := by
  have htokens : tokenize "byte 7" =
      [⟨.primitive .byte, "byte", 0, 4, 1, 0⟩, ⟨.int, "7", 5, 6, 1, 5⟩] := by
    decide +kernel
  have hread : parse (tokenize "byte 7")
      = .ok [.record [.primitive "byte" 8 (some 0)], .value (.integer 7) .int (some 1)] := by
    rw [htokens]
    exact parse_eq_cons rfl (parse_eq_cons rfl (Cursor.parse_of_none rfl))
  have hmakes : ∀ path, ∃ o, (Source.ofFile path "byte 7".toList).Makes .empty o :=
    fun path => ⟨_, _, hread, rfl⟩
  have hplan : Plan.ofArguments ["a"] = .assemble "a" false false := by decide
  obtain ⟨hfiles, hruns⟩ :=
    assembleFile_outcome ("byte 7".toList.flatMap String.utf8EncodeChar)
  constructor
  · rcases (hfiles "a" {} rfl (by decide)).1 _ rfl with
      ⟨o, r', -, hassemble, hissues⟩ | ⟨f, r', hf, -⟩
    · exact ⟨o, r', hassemble, hissues⟩
    · obtain ⟨o, ho⟩ := hmakes "a"
      exact absurd ho hf.not_makes
  · rcases (hruns ["a"] (.ofBytes _) "a" false false hplan rfl).1 _ rfl with
      ⟨o, -, hending, -⟩ | ⟨f, said, hf, -⟩
    · exact hending
    · obtain ⟨o, ho⟩ := hmakes _
      exact absurd ho hf.not_makes

/-- a file of one byte, which is no text -/
theorem assembleFile_loneByte :
    (∃ r', assembleFile "a" (.ok [0xff]) {}
      = .error ⟨.undecodable ⟨0xff, 0, 1, .invalidStart⟩, r'⟩) ∧
    run ["a"] (.ofBytes [0xff])
      = { ending := .interrupted (.undecodable ⟨0xff, 0, 1, .invalidStart⟩) } :=
  ⟨⟨_, rfl⟩, by decide⟩

end TableAssembler

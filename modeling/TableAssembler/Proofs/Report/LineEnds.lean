import TableAssembler.Proofs.Report.Outcome
import TableAssembler.Proofs.Statement.Alike
import TableAssembler.Proofs.Token.Returns

/-!
# Line ends

Whether a line ends with a line feed or with a carriage return before it, the program is the same:
the same words in the same rows and columns, so the same statements and the same object, or the same
fault.  Files are read with one line feed for each line break, which therefore changes nothing.

* `Source.SameOutcome`          the same object, or the same fault in each of two sources;
* `Source.assemble_alike`       sources with the same statements have the same outcome;
* `Source.assemble_lineEnds`    the two ways to end a line.
-/

namespace TableAssembler.Source

/-- The same outcome for two sources: the same object after the same report, or one more issue of
the same report, which is the same fault in a picture of each source. -/
inductive SameOutcome (s s' : Source) :
    Reporting (Option Object) → Reporting (Option Object) → Prop
  | made (r : Report) (o : Object) : SameOutcome s s' (.ok (r, some o)) (.ok (r, some o))
  | failed (r : Report) (f : Fault) :
      SameOutcome s s' ((r.fault (some s) f).map fun r => (r, none))
        ((r.fault (some s') f).map fun r => (r, none))

variable {s s' : Source}

theorem makes_congr (h : parse s.tokens = parse s'.tokens) (structs : Structs) (o : Object) :
    s.Makes structs o ↔ s'.Makes structs o := by
  unfold Makes
  rw [h]

theorem wrong_congr (h : parse s.tokens = parse s'.tokens) (structs : Structs) (f : Fault) :
    s.Wrong structs f ↔ s'.Wrong structs f := by
  have key : ∀ {s s' : Source}, parse s.tokens = parse s'.tokens → s.Wrong structs f →
      s'.Wrong structs f := by
    intro s s' h hwrong
    cases hwrong with
    | words unread => exact .words (h ▸ unread)
    | statements read unmade => exact .statements (h ▸ read) unmade
  exact ⟨key h, key h.symm⟩

/-- **sources with the same statements** have the same outcome -/
theorem assemble_alike (h : parse s.tokens = parse s'.tokens) (structs : Structs) (r : Report) :
    SameOutcome s s' (s.assemble structs r) (s'.assemble structs r) := by
  rcases s.makes_or_wrong structs with ⟨o, ho⟩ | ⟨f, hf⟩
  · rw [assemble_of_makes ho, assemble_of_makes ((makes_congr h structs o).mp ho)]
    exact .made _ o
  · cases hf with
    | words unread =>
      rw [assemble_of_unread unread, assemble_of_unread (h ▸ unread)]
      exact .failed r f
    | statements read unmade =>
      obtain ⟨a, hrun⟩ := assemble_eq_error_iff_run.mp unmade
      rw [assemble_of_read read, assemble_of_read (h ▸ read), build_of_run hrun,
        build_of_run hrun]
      exact .failed _ f

/-- **Both ways to end a line mean the same program.**  A text in which every carriage return stands
right before a line feed has the same words in the same rows and columns as the text with a line feed
for the two.  So both are read as the same statements or with the same fault, make the same objects
and have the same faults, and the text itself has the same outcome as a file of it. -/
theorem assemble_lineEnds {text : String} (h : Text.Paired text.toList) :
    let unix := String.ofList (Text.joinBreaks text.toList)
    List.Forall₂ Token.Aligned (tokenize text) (tokenize unix) ∧
      parse (tokenize text) = parse (tokenize unix) ∧
      (∀ path path' structs,
        (∀ o, (ofText text path).Makes structs o ↔ (ofText unix path').Makes structs o) ∧
          ∀ f, (ofText text path).Wrong structs f ↔ (ofText unix path').Wrong structs f) ∧
      ∀ (path : String) (bytes : List UInt8) (r : Report),
        Text.Utf8.decode bytes = .ok text.toList →
          SameOutcome (ofText text (some path)) (ofText unix (some path))
            ((ofText text (some path)).assemble .empty (r.info ["Assembling " ++ path]))
            (assembleFile path (.ok bytes) r) := by
  have haligned := tokenize_joinBreaks h
  have hparse : parse (tokenize text)
      = parse (tokenize (String.ofList (Text.joinBreaks text.toList))) :=
    parse_alike (haligned.imp fun _ _ haligned => haligned.toAlike)
  refine ⟨haligned, hparse, fun path path' structs => ⟨makes_congr hparse structs,
    wrong_congr hparse structs⟩, fun path bytes r hbytes => ?_⟩
  unfold assembleFile
  dsimp only
  rw [hbytes]
  dsimp only
  rw [Text.unixBreaks_eq_joinBreaks h]
  exact assemble_alike hparse _ _

/-- a comment that ends with a carriage return -/
theorem assemble_lineEnds_comment :
    Text.Paired "byte ;a\r\n1\r\n".toList ∧
      Text.Utf8.decode [98, 121, 116, 101, 32, 59, 97, 13, 10, 49, 13, 10]
        = .ok "byte ;a\r\n1\r\n".toList ∧
      ∀ r : Report, SameOutcome (ofText "byte ;a\r\n1\r\n" (some "a"))
        (ofText "byte ;a\n1\n" (some "a"))
        ((ofText "byte ;a\r\n1\r\n" (some "a")).assemble .empty (r.info ["Assembling a"]))
        (assembleFile "a" (.ok [98, 121, 116, 101, 32, 59, 97, 13, 10, 49, 13, 10]) r) := by
  have hpaired : Text.Paired "byte ;a\r\n1\r\n".toList := by decide
  have hbytes : Text.Utf8.decode [98, 121, 116, 101, 32, 59, 97, 13, 10, 49, 13, 10]
      = .ok "byte ;a\r\n1\r\n".toList := by rfl
  exact ⟨hpaired, hbytes, fun r => (assemble_lineEnds hpaired).2.2.2 "a" _ r hbytes⟩

end TableAssembler.Source

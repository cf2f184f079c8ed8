import TableAssembler.Proofs.Object.Guilt

/-!
# What comes of a source

A source makes an object, or there is one thing wrong with it first.  That is an issue and nothing
else: no word is of a class that its spelling does not have, no statement is of a class that there
is no rule for, and no issue points outside of its source.

* `Token.Spelled.glyph`, `Token.Spelled.name`   the words of operators and of primitive types;
* `Source.Makes`, `Source.Wrong`                what comes of a source, apart from any report;
* `Source.makes_or_wrong`                       one of both does;
* `Source.assemble_of_makes`, `Source.assemble_of_wrong`, `Source.assemble_of_wrong_only`   what that
  does to a report;
* `Source.picture_inRange`                      an issue points at a word of the source;
* `Source.assemble_reported`                    all of it for a report that has room.
-/

namespace TableAssembler

/-! ## words of a class -/

/-- a name is that of a record type, an atom or a macro -/
theorem ofName_cases (w : List Char) :
    Token.Kind.ofName w = .struct ∨ Token.Kind.ofName w = .atom ∨
      Token.Kind.ofName w = .macroName := by
  cases w with
  | nil => exact .inr (.inr rfl)
  | cons c w =>
    unfold Token.Kind.ofName
    by_cases hupper : c.isUpper = true
    · by_cases hlower : (c :: w).any Char.isLower = true
      · simp [hupper, hlower]
      · simp [hupper, hlower]
    · simp [hupper]

/-- a word of letters and digits is a keyword or in a table, and all others are names -/
theorem ofWord_cases (w : List Char) :
    Token.Kind.ofWord w = .keywordAtom ∨ Token.Kind.ofWord w = .keywordMacro ∨
      (∃ type, Token.Kind.ofWord w = .primitive type ∧
        Primitive.ofName? (String.ofList w) = some type) ∨
      Token.Kind.ofWord w = .operator .replicate ∧
        String.ofList w = Operator.replicate.glyph ∨
      Token.Kind.ofWord w = .ofName w := by
  unfold Token.Kind.ofWord
  dsimp only
  by_cases hatom : String.ofList w = "atom"
  · exact .inl (if_pos hatom)
  by_cases hmacro : String.ofList w = "macro"
  · exact .inr (.inl (by rw [if_neg hatom, if_pos hmacro]))
  rw [if_neg hatom, if_neg hmacro]
  cases hname : Primitive.ofName? (String.ofList w) with
  | some type => exact .inr (.inr (.inl ⟨type, rfl, rfl⟩))
  | none =>
    by_cases hglyph : String.ofList w = Operator.replicate.glyph
    · exact .inr (.inr (.inr (.inl ⟨if_pos hglyph, hglyph⟩)))
    · exact .inr (.inr (.inr (.inr (if_neg hglyph))))

theorem Tagged.ofGlyph {r : Rule} {w : List Char} {kind : Token.Kind} (h : Tagged r w kind)
    {op : Operator} (hk : kind = .operator op) :
    Operator.ofGlyph? (String.ofList w) = some op := by
  cases h with
  | word =>
    rcases ofWord_cases w with hw | hw | ⟨type, hw, _⟩ | ⟨hw, hglyph⟩ | hw
    · cases hw.symm.trans hk
    · cases hw.symm.trans hk
    · cases hw.symm.trans hk
    · cases hw.symm.trans hk
      rw [hglyph, Operator.ofGlyph?_glyph]
    · rw [hw] at hk
      rcases ofName_cases w with hw | hw | hw <;> cases hw.symm.trans hk
  | operator =>
    cases hk
    rw [String.ofList_toList, Operator.ofGlyph?_glyph]
  | _ => cases hk

theorem Tagged.ofName {r : Rule} {w : List Char} {kind : Token.Kind} (h : Tagged r w kind)
    {type : Primitive} (hk : kind = .primitive type) :
    Primitive.ofName? (String.ofList w) = some type := by
  cases h with
  | word =>
    rcases ofWord_cases w with hw | hw | ⟨type', hw, hname⟩ | ⟨hw, _⟩ | hw
    · cases hw.symm.trans hk
    · cases hw.symm.trans hk
    · cases hw.symm.trans hk
      exact hname
    · cases hw.symm.trans hk
    · rw [hw] at hk
      rcases ofName_cases w with hw | hw | hw <;> cases hw.symm.trans hk
  | _ => cases hk

/-- the word of an operator is in the table of operators -/
theorem Token.Spelled.glyph {t : Token} (h : t.Spelled) {op : Operator}
    (hk : t.kind = .operator op) : Operator.ofGlyph? t.text = some op := by
  obtain ⟨r, _, htag⟩ := h
  have hglyph := htag.ofGlyph hk
  rwa [String.ofList_toList] at hglyph

/-- the word of a primitive type is in the table of primitive types -/
theorem Token.Spelled.name {t : Token} (h : t.Spelled) {type : Primitive}
    (hk : t.kind = .primitive type) : Primitive.ofName? t.text = some type := by
  obtain ⟨r, _, htag⟩ := h
  have hname := htag.ofName hk
  rwa [String.ofList_toList] at hname

/-! ## what comes of a source -/

namespace Source

/-- an object that a source makes -/
def Makes (s : Source) (structs : Structs) (o : Object) : Prop :=
  ∃ nodes, parse s.tokens = .ok nodes ∧ TableAssembler.assemble structs nodes = .ok o

/-- what is wrong first with a source: with its words, or else with its statements -/
inductive Wrong (s : Source) (structs : Structs) (f : Fault) : Prop
  | words (unread : parse s.tokens = .error f)
  | statements {nodes : List Node} (read : parse s.tokens = .ok nodes)
      (unmade : TableAssembler.assemble structs nodes = .error (.fault f))

variable {s : Source} {structs : Structs} {f : Fault} {o : Object}

theorem Wrong.not_makes (h : s.Wrong structs f) : ¬ s.Makes structs o := by
  rintro ⟨nodes, hread, hmade⟩
  cases h with
  | words unread => cases hread.symm.trans unread
  | statements read unmade =>
    cases hread.symm.trans read
    cases hmade.symm.trans unmade

/-- statements of a source that make no object are to blame on one of its words -/
theorem fault_of_unmade {nodes : List Node} {e : Failure} (read : parse s.tokens = .ok nodes)
    (unmade : TableAssembler.assemble structs nodes = .error e) :
    ∃ f : Fault, e = .fault f ∧ Among 0 s.tokens.length f.token := by
  rw [s.tokens_eq] at read ⊢
  exact assemble_guilt (located_of_parse read) unmade

/-- a source makes an object, or something is wrong with it first -/
theorem makes_or_wrong (s : Source) (structs : Structs) :
    (∃ o, s.Makes structs o) ∨ ∃ f, s.Wrong structs f := by
  cases hread : parse s.tokens with
  | error f => exact .inr ⟨f, .words hread⟩
  | ok nodes =>
    cases hmade : TableAssembler.assemble structs nodes with
    | ok o => exact .inl ⟨o, nodes, hread, hmade⟩
    | error e =>
      obtain ⟨f, rfl, _⟩ := fault_of_unmade hread hmade
      exact .inr ⟨f, .statements hread hmade⟩

/-- what is wrong with a source has a word of it -/
theorem Wrong.among (h : s.Wrong structs f) : Among 0 s.tokens.length f.token := by
  cases h with
  | words unread =>
    rw [s.tokens_eq] at unread ⊢
    exact among_of_parse unread
  | statements read unmade =>
    obtain ⟨g, hg, hamong⟩ := fault_of_unmade read unmade
    cases hg
    exact hamong

/-- the picture of a fault that has a word of the source does not point outside -/
theorem picture_inRange (h : Among 0 s.tokens.length f.token) :
    (f.picture (some s)).outOfRange? = none := by
  obtain ⟨k, htoken, _, hk⟩ := h
  have hget : s.tokens[k]? = some s.tokens[k] := List.getElem?_eq_getElem hk
  have hspan := span_natCast hget hget
  rw [← Extent.token] at hspan
  unfold Fault.picture
  rw [htoken]
  simp [Picture.outOfRange?, hspan]

/-! ## reports -/

variable {r : Report}

theorem build_of_ok {nodes : List Node} (h : TableAssembler.assemble structs nodes = .ok o) :
    s.build structs nodes r = .ok (r.info o.summary, some o) := by
  obtain ⟨a, hrun, rfl⟩ := assemble_eq_ok_iff_run.mp h
  unfold build
  rw [hrun]

/-- statements that make no object are one issue, after what is said about their tables -/
theorem build_of_run {nodes : List Node} {a : Assembler}
    (h : (Assembler.start structs).run nodes = (a, some (.fault f))) :
    s.build structs nodes r
      = ((r.info a.object.summary).fault (some s) f).map fun r => (r, none) := by
  unfold build
  rw [h]

/-- words that are no statement are one issue -/
theorem assemble_of_unread (h : parse s.tokens = .error f) :
    s.assemble structs r = (r.fault (some s) f).map fun r => (r, none) := by
  unfold assemble statements
  rw [h]
  dsimp only
  cases r.fault (some s) f <;> rfl

theorem assemble_of_read {nodes : List Node} (h : parse s.tokens = .ok nodes) :
    s.assemble structs r = s.build structs nodes r := by
  unfold assemble statements
  rw [h]
  rfl

theorem assemble_of_makes (h : s.Makes structs o) :
    s.assemble structs r = .ok (r.info o.summary, some o) := by
  obtain ⟨nodes, hread, hmade⟩ := h
  rw [assemble_of_read hread, build_of_ok hmade]

/-- what is wrong with a source is one issue -/
theorem assemble_of_wrong (h : s.Wrong structs f) :
    ∃ r' : Report, r'.issues = r.issues ∧ r'.limit = r.limit ∧
      s.assemble structs r = (r'.fault (some s) f).map fun r => (r, none) := by
  cases h with
  | words unread => exact ⟨r, rfl, rfl, assemble_of_unread unread⟩
  | statements read unmade =>
    obtain ⟨a, hrun⟩ := assemble_eq_error_iff_run.mp unmade
    refine ⟨r.info a.object.summary, r.issues_info _, r.limit_info _, ?_⟩
    rw [assemble_of_read read, build_of_run hrun]

/-- the issue that reaches the limit interrupts, and any before it does not -/
theorem assemble_of_wrong_cases (room : r.issues.length < r.limit) (h : s.Wrong structs f) :
    ∃ r' : Report, r'.issues = r.issues ++ [f.picture (some s)] ∧
      (r.issues.length + 1 < r.limit ∧ s.assemble structs r = .ok (r', none) ∨
        r.issues.length + 1 = r.limit ∧
          s.assemble structs r = .error ⟨.tooManyIssues, r'⟩) := by
  obtain ⟨r₀, hissues, hlimit, hassemble⟩ := assemble_of_wrong (r := r) h
  refine ⟨r₀.push (f.picture (some s)), by rw [← hissues]; rfl, ?_⟩
  rw [hassemble, Report.fault, ← hissues, ← hlimit]
  rw [← hissues, ← hlimit] at room
  by_cases hfull : r₀.issues.length + 1 = r₀.limit
  · rw [Report.add_of_eq _ hfull]
    exact .inr ⟨hfull, rfl⟩
  · rw [Report.add_of_ne _ hfull]
    exact .inl ⟨by omega, rfl⟩

/-- what is wrong with a source is the only issue of a report that had none and has room for two -/
theorem assemble_of_wrong_only (fresh : r.issues = []) (room : 2 ≤ r.limit)
    (h : s.Wrong structs f) :
    ∃ r' : Report, s.assemble structs r = .ok (r', none) ∧ r'.issues = [f.picture (some s)] := by
  have hlength : r.issues.length = 0 := by rw [fresh, List.length_nil]
  have hroom : r.issues.length < r.limit := by omega
  obtain ⟨r', hissues, ⟨_, hassemble⟩ | ⟨hfull, _⟩⟩ := assemble_of_wrong_cases hroom h
  · refine ⟨r', hassemble, ?_⟩
    rw [hissues, fresh, List.nil_append]
  · omega

/-- a source whose words are wrong is not without issue -/
theorem isOk_of_statements {r' : Report} (h : s.statements r = .ok (r', none)) :
    r'.isOk = false := by
  unfold statements at h
  cases hread : parse s.tokens with
  | ok nodes => rw [hread] at h; cases h
  | error f =>
    rw [hread] at h
    dsimp only at h
    unfold Report.fault Report.add at h
    split at h
    · cases h
    · cases h
      simp [Report.isOk, Report.push]

/-- **All that comes of a source is an object or an issue.**  With room in the report, either the
source makes an object and the issues stay as they are, or something is wrong with it first, which
is the one more issue and points at a word of the source.  Then there is no object, and there is an
interruption just when that issue has filled the report.  There is no other interruption: a class of
words that has a table is only given to words in the table, statements are only of classes that
there are rules for, and without statements there is an issue. -/
theorem assemble_reported (s : Source) (structs : Structs) {r : Report}
    (room : r.issues.length < r.limit) :
    ((∃ o r', s.Makes structs o ∧ s.assemble structs r = .ok (r', some o) ∧
        r'.issues = r.issues) ∨
      ∃ f r', (s.Wrong structs f ∧ ¬ ∃ o, s.Makes structs o) ∧
        r'.issues = r.issues ++ [f.picture (some s)] ∧
        (f.picture (some s)).outOfRange? = none ∧
        (r.issues.length + 1 < r.limit ∧ s.assemble structs r = .ok (r', none) ∨
          r.issues.length + 1 = r.limit ∧
            s.assemble structs r = .error ⟨.tooManyIssues, r'⟩)) ∧
    ((∃ i, s.assemble structs r = .error i) ↔
      r.issues.length + 1 = r.limit ∧ ¬ ∃ o, s.Makes structs o) ∧
    (∀ t ∈ s.tokens,
      (∀ op, t.kind = .operator op → Operator.ofGlyph? t.text = some op) ∧
      ∀ type, t.kind = .primitive type → Primitive.ofName? t.text = some type) ∧
    (∀ nodes, parse s.tokens = .ok nodes →
      (∀ n ∈ nodes, n.IsStatement) ∧
        TableAssembler.assemble structs nodes ≠ .error .unsupported) ∧
    ∀ r', s.statements r = .ok (r', none) → r'.isOk = false := by
  refine ⟨?_, ?_, fun t ht => ?_, fun nodes hnodes => ⟨?_, fun hunsupported => ?_⟩,
    fun r' hr' => isOk_of_statements hr'⟩
  · rcases s.makes_or_wrong structs with ⟨o, ho⟩ | ⟨f, hf⟩
    · exact .inl ⟨o, _, ho, assemble_of_makes ho, r.issues_info _⟩
    · obtain ⟨r', hissues, hcases⟩ := assemble_of_wrong_cases room hf
      exact .inr ⟨f, r', ⟨hf, fun ⟨o, ho⟩ => hf.not_makes ho⟩, hissues, picture_inRange hf.among,
        hcases⟩
  · rcases s.makes_or_wrong structs with ⟨o, ho⟩ | ⟨f, hf⟩
    · rw [assemble_of_makes ho]
      exact ⟨fun ⟨i, hi⟩ => (nomatch hi), fun h => absurd ⟨o, ho⟩ h.2⟩
    · obtain ⟨r', _, ⟨hmore, hok⟩ | ⟨hfull, herror⟩⟩ := assemble_of_wrong_cases room hf
      · rw [hok]
        exact ⟨fun ⟨i, hi⟩ => (nomatch hi), fun h => absurd h.1 (Nat.ne_of_lt hmore)⟩
      · rw [herror]
        exact ⟨fun _ => ⟨hfull, fun ⟨o, ho⟩ => hf.not_makes ho⟩, fun _ => ⟨_, rfl⟩⟩
  · rw [s.tokens_eq] at ht
    have hspelled := spelled_of_mem_tokenize t ht
    exact ⟨fun op hk => hspelled.glyph hk, fun type hk => hspelled.name hk⟩
  · exact parse_isStatement hnodes
  · obtain ⟨f, hf, _⟩ := fault_of_unmade hnodes hunsupported
    cases hf

/-- a row that is half filled, and a report with room for one issue -/
theorem assemble_halfRow :
    ({ limit := 1 } : Report).issues.length < ({ limit := 1 } : Report).limit ∧
      ∃ r' : Report, (ofText "byte byte 7" none).assemble .empty { limit := 1 }
          = .error ⟨.tooManyIssues, r'⟩ ∧ r'.issues.length = 1 := by
  have htokens : tokenize "byte byte 7" =
      [⟨.primitive .byte, "byte", 0, 4, 1, 0⟩, ⟨.primitive .byte, "byte", 5, 9, 1, 5⟩,
        ⟨.int, "7", 10, 11, 1, 10⟩] := by
    decide +kernel
  have hread : parse (ofText "byte byte 7" none).tokens
      = .ok [.record [.primitive "byte" 8 (some 0), .primitive "byte" 8 (some 1)],
          .value (.integer 7) .int (some 2)] := by
    show parse (tokenize "byte byte 7") = _
    rw [htokens]
    exact parse_eq_cons rfl (parse_eq_cons rfl (Cursor.parse_of_none rfl))
  have hwrong : (ofText "byte byte 7" none).Wrong .empty ⟨.unsatisfied, some 2, none⟩ :=
    .statements hread rfl
  have hroom : ({ limit := 1 } : Report).issues.length < ({ limit := 1 } : Report).limit :=
    Nat.zero_lt_one
  refine ⟨hroom, ?_⟩
  rcases (assemble_reported (ofText "byte byte 7" none) .empty hroom).1 with
    ⟨o, _, ho, _⟩ | ⟨f, r', _, hissues, _, ⟨hmore, _⟩ | ⟨_, herror⟩⟩
  · exact absurd ho hwrong.not_makes
  · exact absurd hmore (Nat.lt_irrefl 1)
  · exact ⟨r', herror, by rw [hissues]; rfl⟩

end Source

end TableAssembler

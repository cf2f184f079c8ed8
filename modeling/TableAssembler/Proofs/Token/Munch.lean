import TableAssembler.Proofs.Token.Language
import TableAssembler.Token.Scan

/-!
# Maximal munch

A text is cut into longest matches from the left to the right.  The pieces do not hang on the order
of the rules, and the tokens are the pieces that are neither blank nor a comment.

* `Munched`                    a text cut by maximal munch, with the rules in some order;
* `munched_iff`                every order of the rules gives the same pieces;
* `Worded`                     the tokens of some pieces;
* `tokenize_of_mem_language`   a text that is one word;
* `Gap`, `Spread`              what stands between tokens, and tokens spread over a text;
* `tokenize_maximal_munch`     all of it for the tokens of a text;
* `Token.Spelled`              a token whose class is that of a rule that matches its text, as it is
                               for every token of a text.
-/

namespace TableAssembler

/-! ## pieces -/

/-- `r` is the first of some rules that matches a text -/
def FirstMatch (rules : List Rule) (w : List Char) (r : Rule) : Prop :=
  ∃ before after, rules = before ++ r :: after ∧ w ∈ r.language ∧ ∀ r' ∈ before, w ∉ r'.language

/-- A text cut by maximal munch: each piece is as long as the longest match of any rule with what is
left of the text, and belongs to the first rule that matches it. -/
inductive Munched (rules : List Rule) : List Char → List Piece → Prop
  | nil : Munched rules [] []
  | cons {p : Piece} {rest : List Char} {ps : List Piece}
      (longest : ∀ r ∈ rules, ∀ w ∈ r.language, w <+: p.text ++ rest → w.length ≤ p.text.length)
      (first : FirstMatch rules p.text p.rule) (more : Munched rules rest ps) :
      Munched rules (p.text ++ rest) (p :: ps)

theorem mem_language_of_mem_pieces {s : List Char} {p : Piece} (hp : p ∈ pieces s) :
    p.text ∈ p.rule.language := by
  fun_induction pieces s with
  | case1 => cases hp
  | case2 c s best ih =>
    rcases List.mem_cons.mp hp with rfl | hp
    · exact Rule.take_longest_mem c s
    · exact ih hp

theorem firstMatch_of_mem {rules : List Rule} {w : List Char} {r : Rule} (hr : r ∈ rules)
    (hw : w ∈ r.language) : FirstMatch rules w r := by
  induction rules with
  | nil => cases hr
  | cons r' rules ih =>
    by_cases e : r = r'
    · exact ⟨[], rules, by rw [e]; rfl, hw, fun _ h => by cases h⟩
    · obtain ⟨before, after, hrules, _, hbefore⟩ := ih ((List.mem_cons.mp hr).resolve_left e)
      refine ⟨r' :: before, after, by rw [hrules]; rfl, hw, fun q hq hwq => ?_⟩
      rcases List.mem_cons.mp hq with rfl | hq
      · exact e (Rule.eq_of_mem_language hw hwq)
      · exact hbefore q hq hwq

theorem munched_pieces {rules : List Rule} (h : rules.Perm Rule.all) (s : List Char) :
    Munched rules s (pieces s) := by
  fun_induction pieces s with
  | case1 => exact .nil
  | case2 c s best ih =>
    have hcut : (c :: s).take best.2 ++ (c :: s).drop best.2 = c :: s := List.take_append_drop _ _
    have hmatch : FirstMatch rules ((c :: s).take best.2) best.1 :=
      firstMatch_of_mem (h.mem_iff.mpr (Rule.mem_all _)) (Rule.take_longest_mem c s)
    have hlongest : ∀ r ∈ rules, ∀ w ∈ r.language,
        w <+: (c :: s).take best.2 ++ (c :: s).drop best.2 →
          w.length ≤ ((c :: s).take best.2).length := by
      intro r _ w hw hws
      rw [hcut] at hws
      exact Rule.length_le_longest hw hws
    have hm : Munched rules _ (⟨best.1, (c :: s).take best.2⟩ :: pieces ((c :: s).drop best.2)) :=
      .cons hlongest hmatch ih
    rwa [hcut] at hm

/-- **every order of the rules gives the same pieces** -/
theorem munched_iff {rules : List Rule} (h : rules.Perm Rule.all) {s : List Char}
    {ps : List Piece} : Munched rules s ps ↔ ps = pieces s := by
  constructor
  · intro hm
    induction hm with
    | nil => exact pieces_nil.symm
    | @cons p rest ps longest first _ ih =>
      obtain ⟨_, _, _, hp, _⟩ := first
      have hne : p.text ++ rest ≠ [] := fun e =>
        Rule.nil_notMem_language p.rule ((List.append_eq_nil_iff.mp e).1 ▸ hp)
      obtain ⟨c, s, hs⟩ := List.exists_cons_of_ne_nil hne
      rw [hs, pieces_cons]
      rw [hs] at longest
      have hpre : p.text <+: c :: s := ⟨rest, hs⟩
      have htake := Rule.take_longest_mem c s
      -- both are longest matches of the same text, so they are equally long
      have hlen : p.text.length = ((c :: s).take (Rule.longest (c :: s)).2).length :=
        Nat.le_antisymm (Rule.length_le_longest hp hpre)
          (longest _ (h.mem_iff.mpr (Rule.mem_all _)) _ htake (List.take_prefix _ _))
      have htext : p.text = (c :: s).take (Rule.longest (c :: s)).2 :=
        (List.prefix_of_prefix_length_le hpre (List.take_prefix _ _) hlen.le).eq_of_length hlen
      have hrule : p.rule = (Rule.longest (c :: s)).1 :=
        Rule.eq_of_mem_language hp (htext ▸ htake)
      have hrest : rest = (c :: s).drop (Rule.longest (c :: s)).2 := by
        have e : p.text ++ rest = p.text ++ (c :: s).drop (Rule.longest (c :: s)).2 := by
          rw [hs, htext, List.take_append_drop]
        exact List.append_cancel_left e
      rw [← hrest, ← ih, ← htext, ← hrule]
  · rintro rfl
    exact munched_pieces h s

theorem munched_all (s : List Char) : Munched Rule.all s (pieces s) :=
  munched_pieces (List.Perm.refl _) s

theorem Munched.eq_pieces {s : List Char} {ps : List Piece} (h : Munched Rule.all s ps) :
    pieces s = ps :=
  ((munched_iff (List.Perm.refl _)).mp h).symm

/-- a text that a rule matches is one piece -/
theorem pieces_of_mem_language {r : Rule} {w : List Char} (h : w ∈ r.language) :
    pieces w = [⟨r, w⟩] := by
  have hfirst : FirstMatch Rule.all (Piece.mk r w).text (Piece.mk r w).rule :=
    firstMatch_of_mem (Rule.mem_all r) h
  have hm : Munched Rule.all (w ++ []) [⟨r, w⟩] := by
    refine .cons (fun r' _ v _ hv => ?_) hfirst .nil
    rw [List.append_nil] at hv
    exact hv.length_le
  rw [List.append_nil] at hm
  exact hm.eq_pieces

/-! ## tokens -/

/-- the class of a word that a rule matches -/
inductive Tagged : Rule → List Char → Token.Kind → Prop
  | word (w : List Char) : Tagged .word w (.ofWord w)
  | decimal (w : List Char) : Tagged .decimal w .int
  | hex (w : List Char) : Tagged .hex w .hex
  | binary (w : List Char) : Tagged .binary w .bin
  | string (w : List Char) : Tagged .string w .string
  | operator (op : Operator) : Tagged .operator op.glyph.toList (.operator op)
  | bogus (w : List Char) : Tagged .bogus w .bogus

/-- the tokens of some pieces, the first of which stands at an offset -/
inductive Worded : Nat → List Piece → List Token → Prop
  | nil {k : Nat} : Worded k [] []
  | skip {k : Nat} {p : Piece} {ps : List Piece} {ts : List Token}
      (ignored : p.rule = .blank ∨ p.rule = .comment) (more : Worded (k + p.text.length) ps ts) :
      Worded k (p :: ps) ts
  | word {k : Nat} {p : Piece} {ps : List Piece} {t : Token} {ts : List Token}
      (kind : Tagged p.rule p.text t.kind) (text : t.text.toList = p.text) (start : t.start = k)
      (stop : t.stop = k + p.text.length) (more : Worded t.stop ps ts) :
      Worded k (p :: ps) (t :: ts)

theorem exists_operator_of_isSymbol {w : List Char} (h : Rule.isSymbol w = true) :
    ∃ op : Operator, op.glyph.toList = w := by
  rw [Rule.isSymbol, Rule.symbols, List.contains_iff_mem] at h
  obtain ⟨op, _, e⟩ := List.mem_map.mp h
  exact ⟨op, e⟩

theorem kind?_of_mem_language {p : Piece} (h : p.text ∈ p.rule.language) :
    (p.rule = .blank ∨ p.rule = .comment) ∧ p.kind? = none ∨
      ∃ kind, p.kind? = some kind ∧ Tagged p.rule p.text kind := by
  obtain ⟨r, w⟩ := p
  cases r with
  | blank => exact .inl ⟨.inl rfl, rfl⟩
  | comment => exact .inl ⟨.inr rfl, rfl⟩
  | word => exact .inr ⟨_, rfl, .word w⟩
  | decimal => exact .inr ⟨_, rfl, .decimal w⟩
  | hex => exact .inr ⟨_, rfl, .hex w⟩
  | binary => exact .inr ⟨_, rfl, .binary w⟩
  | string => exact .inr ⟨_, rfl, .string w⟩
  | operator =>
    obtain ⟨op, rfl⟩ := exists_operator_of_isSymbol (Rule.isSymbol_iff.mpr h)
    refine .inr ⟨.operator op, ?_, .operator op⟩
    simp only [Piece.kind?, String.ofList_toList, Operator.ofGlyph?_glyph]
  | bogus => exact .inr ⟨_, rfl, .bogus w⟩

theorem worded_tokensFrom {ps : List Piece} (h : ∀ p ∈ ps, p.text ∈ p.rule.language)
    (place : Text.Place) : Worded place.offset ps (tokensFrom place ps) := by
  induction ps generalizing place with
  | nil => exact .nil
  | cons p ps ih =>
    have more := ih (fun q hq => h q (List.mem_cons_of_mem p hq)) (place.advance p.text)
    rw [tokensFrom]
    rcases kind?_of_mem_language (h p List.mem_cons_self) with ⟨hp, hk⟩ | ⟨kind, hk, htag⟩
    · rw [hk]
      rw [Text.Place.advance_offset] at more
      exact .skip hp more
    · rw [hk]
      exact .word htag String.toList_ofList rfl (Text.Place.advance_offset place p.text) more

/-- a text that a rule matches is one word, unless it is blank or a comment -/
theorem tokenize_of_mem_language {r : Rule} {w : List Char} {kind : Token.Kind}
    (h : w ∈ r.language) (hk : Piece.kind? ⟨r, w⟩ = some kind) :
    tokenize (String.ofList w) = [⟨kind, String.ofList w, 0, w.length, 1, 0⟩] := by
  rw [tokenize, String.toList_ofList, pieces_of_mem_language h, tokensFrom, hk]
  dsimp only
  rw [Text.Place.advance_offset, Text.Place.start, Nat.zero_add]
  rfl

/-! ## gaps -/

/-- White space and comments before the rest of a text: a comment goes on to a line feed or to the
end of the text. -/
inductive Gap : List Char → List Char → Prop
  | nil {rest : List Char} : Gap [] rest
  | blank {c : Char} {g rest : List Char} (blank : Text.isBlank c = true) (more : Gap g rest) :
      Gap (c :: g) rest
  | comment {u g rest : List Char} (line : '\n' ∉ u)
      (ends : ∀ c, (g ++ rest).head? = some c → c = '\n') (more : Gap g rest) :
      Gap (';' :: (u ++ g)) rest

/-- Tokens spread over a text that stands at an offset: only gaps are before, between and after
them, and each has a word of the text. -/
inductive Spread : Nat → List Char → List Token → Prop
  | last {k : Nat} {g : List Char} (gap : Gap g []) : Spread k g []
  | word {k : Nat} {g rest : List Char} {t : Token} {ts : List Token}
      (gap : Gap g (t.text.toList ++ rest)) (filled : t.text.toList ≠ [])
      (start : t.start = k + g.length) (stop : t.stop = t.start + t.text.toList.length)
      (more : Spread t.stop rest ts) : Spread k (g ++ (t.text.toList ++ rest)) (t :: ts)

theorem Gap.blanks {u g rest : List Char} (hu : ∀ c ∈ u, Text.isBlank c = true)
    (h : Gap g rest) : Gap (u ++ g) rest := by
  induction u with
  | nil => exact h
  | cons c u ih =>
    exact .blank (hu c List.mem_cons_self) (ih fun d hd => hu d (List.mem_cons_of_mem c hd))

/-- a gap may grow at the beginning of the text -/
theorem Spread.after {k : Nat} {u s : List Char} {ts : List Token}
    (hu : ∀ g rest, g ++ rest = s → Gap g rest → Gap (u ++ g) rest)
    (h : Spread (k + u.length) s ts) : Spread k (u ++ s) ts := by
  cases h with
  | last gap => exact .last (hu _ [] (List.append_nil _) gap)
  | @word _ g rest t ts gap filled start stop more =>
    rw [← List.append_assoc]
    refine .word (hu _ _ rfl gap) filled ?_ stop more
    rw [start, List.length_append, Nat.add_assoc]

/-- the text of a comment -/
theorem mem_comment {w : List Char} (h : w ∈ Rule.language .comment) :
    ∃ u, w = ';' :: u ∧ '\n' ∉ u := by
  obtain ⟨c, u, rfl, hc, hu⟩ := mem_one_mul.mp h
  refine ⟨u, by rw [eq_of_beq hc], fun hn => ?_⟩
  have := mem_one_kstar.mp hu '\n' hn
  simp at this

/-- the text of a string -/
theorem mem_string_iff {w : List Char} : w ∈ Rule.language .string ↔
    ∃ inside, w = '"' :: (inside ++ ['"']) ∧ ∀ c ∈ inside, (c ≠ '"' && c ≠ '\n') = true := by
  constructor
  · intro h
    obtain ⟨c, u, rfl, hc, hu⟩ := mem_one_mul.mp h
    obtain ⟨v, hv, _, ⟨d, hd, rfl⟩, rfl⟩ := Language.mem_mul.mp hu
    exact ⟨v, by rw [eq_of_beq hc, eq_of_beq hd], mem_one_kstar.mp hv⟩
  · rintro ⟨inside, rfl, hinside⟩
    refine mem_one_mul.mpr ⟨'"', _, rfl, rfl, ?_⟩
    exact Language.append_mem_mul (mem_one_kstar.mpr hinside) (singleton_mem_one.mpr rfl)

/-- a comment that is the longest match goes on to a line feed or to the end of the text -/
theorem head?_of_comment {w rest : List Char} (hw : w ∈ Rule.language .comment)
    (longest : ∀ v ∈ Rule.language .comment, v <+: w ++ rest → v.length ≤ w.length) :
    ∀ c, rest.head? = some c → c = '\n' := by
  intro c hc
  by_contra hne
  obtain ⟨t, rfl⟩ := List.head?_eq_some_iff.mp hc
  obtain ⟨d, u, rfl, hd, hu⟩ := mem_one_mul.mp hw
  have hlonger : d :: u ++ [c] ∈ Rule.language .comment := by
    refine mem_one_mul.mpr ⟨d, u ++ [c], rfl, hd, mem_one_kstar.mpr fun e he => ?_⟩
    rcases List.mem_append.mp he with he | he
    · exact mem_one_kstar.mp hu e he
    · rw [List.mem_singleton.mp he]
      simpa using hne
  have := longest _ hlonger ⟨t, by simp⟩
  rw [List.length_append, List.length_singleton] at this
  omega

theorem Munched.spread {rules : List Rule} (hall : ∀ r, r ∈ rules) {s : List Char}
    {ps : List Piece} (h : Munched rules s ps) {k : Nat} {ts : List Token}
    (hw : Worded k ps ts) : Spread k s ts := by
  induction h generalizing k ts with
  | nil =>
    cases hw
    exact .last .nil
  | @cons p rest ps longest first _ ih =>
    obtain ⟨_, _, _, hp, _⟩ := first
    cases hw with
    | skip ignored more =>
      refine (ih more).after fun g rest' hg gap => ?_
      rcases ignored with e | e
      · rw [e] at hp
        obtain ⟨c, u, hu, hc, hu'⟩ := mem_one_mul.mp hp
        rw [hu]
        exact .blank hc (.blanks (mem_one_kstar.mp hu') gap)
      · rw [e] at hp
        have hends := head?_of_comment hp (longest .comment (hall _))
        obtain ⟨u, hu, hline⟩ := mem_comment hp
        rw [hu]
        exact .comment hline (hg ▸ hends) gap
    | @word _ _ _ t ts kind text start stop more =>
      have h0 : t.text.toList ≠ [] := by
        rw [text]
        exact fun e => Rule.nil_notMem_language p.rule (e ▸ hp)
      rw [← text] at stop ⊢
      exact .word .nil h0 (by simpa using start) (by rw [stop, start]) (ih more)

/-! ## spans -/

/-- the text of a token is the part of the source between its offsets -/
structure Token.Covers (t : Token) (s : List Char) : Prop where
  filled : t.start < t.stop
  inside : t.stop ≤ s.length
  text : t.text.toList = (s.drop t.start).take (t.stop - t.start)

theorem Spread.le_start {k : Nat} {s : List Char} {ts : List Token} (h : Spread k s ts) :
    ∀ t ∈ ts, k ≤ t.start := by
  induction h with
  | last gap => intro t ht; cases ht
  | @word k g rest t ts gap filled start stop _ ih =>
    intro u hu
    rcases List.mem_cons.mp hu with rfl | hu
    · omega
    · have := ih u hu
      omega

theorem Spread.pairwise {k : Nat} {s : List Char} {ts : List Token} (h : Spread k s ts) :
    ts.Pairwise fun t u => t.stop ≤ u.start := by
  induction h with
  | last gap => exact .nil
  | word gap filled start stop more ih => exact .cons (more.le_start) ih

theorem Spread.covers {k : Nat} {s : List Char} {ts : List Token} (h : Spread k s ts)
    {before : List Char} (hk : before.length = k) : ∀ t ∈ ts, t.Covers (before ++ s) := by
  induction h generalizing before with
  | last gap => intro t ht; cases ht
  | @word k g rest t ts gap filled start stop _ ih =>
    intro u hu
    rcases List.mem_cons.mp hu with rfl | hu
    · have hstart : (before ++ g).length = u.start := by rw [List.length_append, hk, start]
      have hlen : 0 < u.text.toList.length := List.length_pos_iff.mpr filled
      refine ⟨by omega, ?_, ?_⟩
      · simp only [List.length_append]
        omega
      · rw [← List.append_assoc, ← hstart, List.drop_left, hstart, stop, Nat.add_sub_cancel_left,
          List.take_left]
    · have hlen : (before ++ g ++ t.text.toList).length = t.stop := by
        rw [List.length_append, List.length_append, hk, stop, start]
      have := ih hlen u hu
      simpa only [List.append_assoc] using this

/-- **Tokenizing is maximal munch.**  The pieces of a text are cut off as longest matches, in
whatever order the rules are tried, and the tokens are those that are neither blank nor a comment;
before, between and after the tokens there are only gaps, and each token covers its part of the
text. -/
theorem tokenize_maximal_munch (text : String) :
    (∃ ps : List Piece, Worded 0 ps (tokenize text) ∧
        ∀ rules : List Rule, rules.Perm Rule.all →
          ∀ qs : List Piece, Munched rules text.toList qs ↔ qs = ps) ∧
      (∀ (r r' : Rule) (w : List Char), w ∈ r.language → w ∈ r'.language → r = r') ∧
      Spread 0 text.toList (tokenize text) ∧
      (tokenize text).Pairwise (fun t u => t.stop ≤ u.start) ∧
      ∀ t ∈ tokenize text, t.Covers text.toList := by
  have hw : Worded 0 (pieces text.toList) (tokenize text) :=
    worded_tokensFrom (fun _ => mem_language_of_mem_pieces) .start
  have hs : Spread 0 text.toList (tokenize text) :=
    (munched_all text.toList).spread Rule.mem_all hw
  refine ⟨⟨pieces text.toList, hw, fun rules h qs => munched_iff h⟩, ?_, hs, hs.pairwise, ?_⟩
  · exact fun r r' w h h' => Rule.eq_of_mem_language h h'
  · exact hs.covers (show ([] : List Char).length = 0 from rfl)

/-! ## how tokens are spelled -/

/-- the class of a token is that of a rule that matches its text -/
def Token.Spelled (t : Token) : Prop :=
  ∃ r : Rule, t.text.toList ∈ r.language ∧ Tagged r t.text.toList t.kind

theorem Worded.spelled {k : Nat} {ps : List Piece} {ts : List Token} (h : Worded k ps ts)
    (hps : ∀ p ∈ ps, p.text ∈ p.rule.language) : ∀ t ∈ ts, t.Spelled := by
  induction h with
  | nil => intro t ht; cases ht
  | @skip _ p _ _ _ _ ih => exact ih fun q hq => hps q (List.mem_cons_of_mem p hq)
  | @word _ p _ t ts kind text _ _ _ ih =>
    intro u hu
    rcases List.mem_cons.mp hu with rfl | hu
    · rw [← text] at kind
      exact ⟨p.rule, text ▸ hps p List.mem_cons_self, kind⟩
    · exact ih (fun q hq => hps q (List.mem_cons_of_mem p hq)) u hu

theorem spelled_of_mem_tokenize {text : String} : ∀ t ∈ tokenize text, t.Spelled :=
  (worded_tokensFrom (fun _ => mem_language_of_mem_pieces) .start).spelled
    fun _ => mem_language_of_mem_pieces

/-- the classes of words of letters and digits -/
def Token.Kind.isWord : Token.Kind → Bool
  | .keywordAtom | .keywordMacro | .primitive _ | .struct | .atom | .macroName => true
  | .operator op => op = .replicate
  | _ => false

theorem isWord_ofName (w : List Char) : (Token.Kind.ofName w).isWord = true := by
  unfold Token.Kind.ofName
  split
  · rfl
  · split
    · split <;> rfl
    · rfl

theorem isWord_ofWord (w : List Char) : (Token.Kind.ofWord w).isWord = true := by
  unfold Token.Kind.ofWord
  dsimp only
  split
  · rfl
  · split
    · rfl
    · split
      · rfl
      · split
        · rfl
        · exact isWord_ofName w

/-- a numeral is spelled by the rule of its base -/
theorem Tagged.numeral {r : Rule} {w : List Char} {kind : Token.Kind} (h : Tagged r w kind)
    (hk : kind.isNumeral = true) :
    kind = .int ∧ r = .decimal ∨ kind = .hex ∧ r = .hex ∨ kind = .bin ∧ r = .binary := by
  cases h with
  | word =>
    have hw := isWord_ofWord w
    cases hof : Token.Kind.ofWord w <;> simp_all [Token.Kind.isNumeral, Token.Kind.isWord]
  | decimal => exact .inl ⟨rfl, rfl⟩
  | hex => exact .inr (.inl ⟨rfl, rfl⟩)
  | binary => exact .inr (.inr ⟨rfl, rfl⟩)
  | string => cases hk
  | operator => cases hk
  | bogus => cases hk

theorem Tagged.eq_string {r : Rule} {w : List Char} {kind : Token.Kind} (h : Tagged r w kind)
    (hk : kind = .string) : r = .string := by
  cases h with
  | word =>
    have hw := isWord_ofWord w
    rw [hk] at hw
    cases hw
  | string => rfl
  | _ => cases hk

/-- a string stands between quotes -/
theorem Token.Spelled.string {t : Token} (h : t.Spelled) (hk : t.kind = .string) :
    ∃ inside, t.text.toList = '"' :: (inside ++ ['"']) := by
  obtain ⟨r, hr, htag⟩ := h
  rw [htag.eq_string hk] at hr
  obtain ⟨inside, htext, _⟩ := mem_string_iff.mp hr
  exact ⟨inside, htext⟩

end TableAssembler

import TableAssembler.Proofs.Statement.Refusal
import TableAssembler.Proofs.Token.Continuation

/-!
# Which word is to blame

A fault is found as early as it can be.  The words before the one to blame may still begin a
program, since an atom completes every statement that is only begun; with the word to blame, no
words after it can help.

* `Accepted`               tokens that are read without a fault;
* `Open`                   the beginnings of statements that an atom completes;
* `Refused.earliest`       what stands before the word to blame is open, and nothing after it helps;
* `parse_blames_earliest`  the word to blame among the tokens of a text.

The definition of a macro is left out: its name comes as it should, and yet it is to blame.
-/

namespace TableAssembler

/-- tokens that are read without a fault -/
def Accepted (ts : List Token) : Prop := ∃ nodes, parse ts = .ok nodes

theorem Reading.accepted {ps : List Phrase} (h : Reading 0 ps)
    (hts : ∀ t ∈ Phrase.tokensOf ps, t.Spelled) : Accepted (Phrase.tokensOf ps) := by
  obtain ⟨qs, hqs, hgroup, htokens⟩ := exists_grouped h
  rw [← htokens] at hts ⊢
  exact ⟨_, parse_complete hqs hgroup hts⟩

theorem Reading.concat {i : Nat} {ps : List Phrase} {p : Phrase} (h : Reading i ps)
    (hp : Statement (i + (Phrase.tokensOf ps).length) p.tokens p.node) : Reading i (ps ++ [p]) := by
  induction h with
  | nil => exact .cons hp .nil
  | cons first more ih =>
    refine .cons first (ih ?_)
    rwa [Phrase.tokensOf_cons, List.length_append, ← Nat.add_assoc] at hp

theorem Phrase.tokensOf_concat (ps : List Phrase) (p : Phrase) :
    tokensOf (ps ++ [p]) = tokensOf ps ++ p.tokens := by
  rw [tokensOf, List.flatMap_append, List.flatMap_singleton]
  rfl

/-! ## beginnings that an atom completes -/

/-- tokens that an atom makes a statement -/
def Open (i : Nat) (ts : List Token) : Prop :=
  ∀ t : Token, t.kind = .atom → ∃ n, Statement i (ts ++ [t]) n

theorem Chained.exists_expression {i : Nat} {ts : List Token} (h : Chained i ts)
    (hts : ∀ t ∈ ts, t.Spelled) {a : Token} (ha : a.kind = .atom) :
    ∃ n, Expression i (ts ++ [a]) n := by
  induction h with
  | nil => exact ⟨_, .operand (.atom ha)⟩
  | @cons i t o ts n op operand node operator more ih =>
    obtain ⟨rhs, hrhs⟩ := ih fun u hu => hts u (List.mem_cons_of_mem t (List.mem_cons_of_mem o hu))
    have hn := (ofToken_eq_ok_iff (hts t List.mem_cons_self) operand i n).mp node
    exact ⟨_, .binary hn operator hrhs⟩

theorem Chained.opens {i : Nat} {ts : List Token} (h : Chained i ts)
    (hts : ∀ t ∈ ts, t.Spelled) : Open i ts := by
  intro a ha
  obtain ⟨n, hn⟩ := h.exists_expression hts ha
  exact ⟨n, .expression hn⟩

theorem Pending.opens {i : Nat} {ts : List Token} {wanted : Token.Kind → Bool}
    (h : Pending i ts wanted) (hts : ∀ t ∈ ts, t.Spelled)
    (hplain : ∀ t ∈ ts, t.kind ≠ .keywordMacro) : Open i ts := by
  cases h with
  | atomName keyword => exact fun a ha => ⟨_, .atomDef keyword ha⟩
  | macroName keyword => exact absurd keyword (hplain _ List.mem_cons_self)
  | operand chain filled => exact chain.opens hts

/-- a reading and an open beginning are the first tokens of a text that is read without a fault -/
theorem Open.exists_accepted {ps : List Phrase} (hps : Reading 0 ps) {ts : List Token}
    (h : Open (Phrase.tokensOf ps).length ts) {text : String}
    (hpre : Phrase.tokensOf ps ++ ts <+: tokenize text) :
    ∃ text' t, tokenize text' = Phrase.tokensOf ps ++ ts ++ [t] ∧ Accepted (tokenize text') := by
  obtain ⟨text', t, ht, htokens⟩ := exists_tokenize_concat hpre
  obtain ⟨n, hn⟩ := h t ht
  refine ⟨text', t, htokens, ?_⟩
  have hread : Reading 0 (ps ++ [⟨ts ++ [t], n⟩]) := hps.concat (by rwa [Nat.zero_add])
  have hconcat : tokenize text' = Phrase.tokensOf (ps ++ [⟨ts ++ [t], n⟩]) := by
    rw [htokens, Phrase.tokensOf_concat, List.append_assoc]
  rw [hconcat]
  exact hread.accepted (hconcat ▸ spelled_of_mem_tokenize)

/-! ## the earliest fault -/

/-- A fault with a word to blame comes after an open beginning, and comes whatever is after that
word; or else all that is left is an open beginning, and its last word is to blame. -/
theorem Refused.earliest {c after : Cursor} {f : Fault} (h : Refused c f after)
    (hts : ∀ t ∈ c.rest, t.Spelled) (hplain : ∀ t ∈ c.rest, t.kind ≠ .keywordMacro) :
    (∃ ts u us, c.rest = ts ++ u :: us ∧ Open c.index ts ∧
        (f.kind = .unexpected ∨ f.kind = .numeral) ∧ f.token = some (c.index + ts.length) ∧
        ∀ more, ∃ after', Refused ⟨c.index, ts ++ u :: more⟩ f after') ∨
      Open c.index c.rest ∧ c.rest ≠ [] ∧ f.kind = .endOfFile ∧
        f.token = some (c.index + c.rest.length - 1) := by
  cases h with
  | @stray i t rest stray =>
    exact .inl ⟨[], t, rest, rfl, Chained.nil.opens fun u hu => (nomatch hu), .inl rfl, rfl,
      fun more => ⟨_, .stray stray⟩⟩
  | ended begun => exact .inr ⟨begun.opens hts hplain, begun.ne_nil, rfl, rfl⟩
  | @other i ts wanted u rest begun unwanted =>
    have hopen : Open i ts := begun.opens (fun t ht => hts t (List.mem_append_left _ ht))
      fun t ht => hplain t (List.mem_append_left _ ht)
    exact .inl ⟨ts, u, rest, rfl, hopen, .inl rfl, rfl, fun more => ⟨_, .other begun unwanted⟩⟩
  | @numeral i ts t rest _ chain operand node =>
    obtain ⟨cause, rfl⟩ := ofToken_eq_error operand node
    have hopen : Open i ts := chain.opens fun t ht => hts t (List.mem_append_left _ ht)
    exact .inl ⟨ts, t, rest, rfl, hopen, .inr rfl, rfl,
      fun more => ⟨_, .numeral chain operand node⟩⟩
  | @macroDefinition i t u rest keyword name =>
    exact absurd keyword (hplain t List.mem_cons_self)

/-- The tokens before the word to blame begin an accepted text, and with it they begin none; or all
tokens begin an accepted text, and the last of them is to blame. -/
theorem parse_blames {text : String} (hplain : ∀ t ∈ tokenize text, t.kind ≠ .keywordMacro)
    {f : Fault} (h : parse (tokenize text) = .error f) :
    (∃ xs u us, tokenize text = xs ++ u :: us ∧ f.token = some xs.length ∧
        (f.kind = .unexpected ∨ f.kind = .numeral) ∧
        (∃ text' t, tokenize text' = xs ++ [t] ∧ Accepted (tokenize text')) ∧
        ∀ more, ¬ Accepted (xs ++ u :: more)) ∨
      tokenize text ≠ [] ∧ f.token = some ((tokenize text).length - 1) ∧ f.kind = .endOfFile ∧
        ∃ text' t, tokenize text' = tokenize text ++ [t] ∧ Accepted (tokenize text') := by
  have hspelled : ∀ t ∈ tokenize text, t.Spelled := spelled_of_mem_tokenize
  obtain ⟨ps, d, after, hps, htokens, hindex, hrefused, hexchange⟩ :=
    parse_error (c := .start (tokenize text)) hspelled h
  change tokenize text = Phrase.tokensOf ps ++ d.rest at htokens
  change d.index = 0 + (Phrase.tokensOf ps).length at hindex
  rw [Nat.zero_add] at hindex
  have hrest : ∀ t ∈ d.rest, t ∈ tokenize text := fun t ht => by
    rw [htokens]
    exact List.mem_append_right _ ht
  rcases hrefused.earliest (fun t ht => hspelled t (hrest t ht))
      (fun t ht => hplain t (hrest t ht)) with
    ⟨ts, u, us, hd, hopen, hkind, htoken, hsame⟩ | ⟨hopen, hne, hkind, htoken⟩
  · rw [hd, ← List.append_assoc] at htokens
    rw [hindex] at hopen htoken
    refine .inl ⟨Phrase.tokensOf ps ++ ts, u, us, htokens, ?_, hkind, ?_, ?_⟩
    · rw [htoken, List.length_append]
    · exact hopen.exists_accepted hps ⟨u :: us, htokens.symm⟩
    · rintro more ⟨nodes, hok⟩
      obtain ⟨after', hrefused'⟩ := hsame more
      have hfail : Cursor.parse ⟨d.index, ts ++ u :: more⟩ = .error f :=
        parse_error_of_next? (next?_eq_error_iff.mpr hrefused')
      have hhead : (ts ++ u :: more).head? = d.rest.head? := by
        rw [hd, List.head?_append, List.head?_append, List.head?_cons, List.head?_cons]
      rw [List.append_assoc] at hok
      cases hok.symm.trans (hexchange _ hhead f hfail)
  · rw [hindex] at hopen htoken
    rw [htokens]
    refine .inr ⟨fun e => hne (List.append_eq_nil_iff.mp e).2, ?_, hkind, ?_⟩
    · rw [htoken, List.length_append]
    · exact hopen.exists_accepted hps ⟨[], by rw [htokens, List.append_nil]⟩

/-- **A fault is found as early as it can be.**  Where the tokens of a text fail and no macro
definition is among them, either a word is unexpected or a numeral has no value: the tokens before
it are the first ones of an accepted text, and with it they begin nothing that is accepted.  Or the
text ends too early: the last word is to blame, and an accepted text goes on from there. -/
theorem parse_blames_earliest {text : String}
    (hplain : ∀ t ∈ tokenize text, t.kind ≠ .keywordMacro) {f : Fault}
    (h : parse (tokenize text) = .error f) :
    ∃ i, f.token = some i ∧ i < (tokenize text).length ∧
      ((f.kind = .unexpected ∨ f.kind = .numeral) ∧
          (∃ text', (tokenize text).take i <+: tokenize text' ∧ Accepted (tokenize text')) ∧
          (∀ ts, (tokenize text).take (i + 1) <+: ts → ¬ Accepted ts) ∨
        f.kind = .endOfFile ∧ i + 1 = (tokenize text).length ∧
          (∃ text', tokenize text <+: tokenize text' ∧ tokenize text' ≠ tokenize text ∧
            Accepted (tokenize text')) ∧
          ¬ Accepted (tokenize text)) := by
  rcases parse_blames hplain h with
    ⟨xs, u, us, hxs, htoken, hkind, ⟨text', t, htext', hok⟩, hnone⟩ |
      ⟨hne, htoken, hkind, text', t, htext', hok⟩
  · have htake : (tokenize text).take xs.length = xs := by
      rw [hxs, List.take_left]
    have htake' : (tokenize text).take (xs.length + 1) = xs ++ [u] := by
      rw [hxs, List.take_length_add_append, List.take_succ_cons, List.take_zero]
    refine ⟨xs.length, htoken, ?_, .inl ⟨hkind, ⟨text', ⟨[t], ?_⟩, hok⟩, ?_⟩⟩
    · rw [hxs, List.length_append, List.length_cons]
      omega
    · rw [htake, htext']
    · rintro _ ⟨more, rfl⟩
      rw [htake', List.append_assoc]
      exact hnone more
  · have hpos : 0 < (tokenize text).length := List.length_pos_iff.mpr hne
    refine ⟨(tokenize text).length - 1, htoken, by omega, .inr ⟨hkind, by omega, ?_, ?_⟩⟩
    · refine ⟨text', ⟨[t], htext'.symm⟩, fun e => ?_, hok⟩
      have hlength := congrArg List.length (htext'.symm.trans e)
      rw [List.length_append, List.length_singleton] at hlength
      omega
    · rintro ⟨nodes, hnodes⟩
      cases hnodes.symm.trans h

/-- the words of `atom A byte 1 + * 2` are right up to the second operator -/
theorem parse_blames_secondOperator :
    parse (tokenize "atom A byte 1 + * 2") = .error (.unexpected (some 5)) ∧
      (∃ text', (tokenize "atom A byte 1 + * 2").take 5 <+: tokenize text' ∧
        Accepted (tokenize text')) ∧
      ∀ ts, (tokenize "atom A byte 1 + * 2").take 6 <+: ts → ¬ Accepted ts := by
  have htokens : tokenize "atom A byte 1 + * 2" =
      [⟨.keywordAtom, "atom", 0, 4, 1, 0⟩, ⟨.atom, "A", 5, 6, 1, 5⟩,
        ⟨.primitive .byte, "byte", 7, 11, 1, 7⟩, ⟨.int, "1", 12, 13, 1, 12⟩,
        ⟨.operator .add, "+", 14, 15, 1, 14⟩, ⟨.operator .mul, "*", 16, 17, 1, 16⟩,
        ⟨.int, "2", 18, 19, 1, 18⟩] := by
    decide +kernel
  have hplain : ∀ t ∈ tokenize "atom A byte 1 + * 2", t.kind ≠ .keywordMacro := by
    rw [htokens]
    decide
  have hparse : parse (tokenize "atom A byte 1 + * 2") = .error (.unexpected (some 5)) := by
    rw [htokens]
    exact parse_error_of_more rfl (parse_error_of_more rfl (parse_error_of_next? rfl))
  obtain ⟨i, htoken, _, ⟨_, hbefore, hafter⟩ | ⟨hkind, _⟩⟩ := parse_blames_earliest hplain hparse
  · cases htoken
    exact ⟨hparse, hbefore, hafter⟩
  · cases hkind

end TableAssembler

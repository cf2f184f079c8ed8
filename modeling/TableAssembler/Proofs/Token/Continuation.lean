import TableAssembler.Proofs.Token.Munch

/-!
# Texts that begin with the same tokens

The tokens of a text up to any of them are also the first tokens of another text, which goes on in a
new row.  Only blanks go past the end of a row, and a token is not blank, so no piece changes.

* `Closed`, `pieces_cut`    the pieces before a cut stay if no match goes past it;
* `exists_crossing`         where one does, it is not blank if the last piece is not;
* `closed_newline`          none goes past the end of a row, unless there are blanks before it;
* `exists_tokenize_append`  the first tokens of a text and then what is in a new row;
* `exists_tokenize_concat`  the first tokens of a text and then an atom.
-/

namespace TableAssembler
open scoped Computability

/-! ## pieces before a cut -/

def Piece.textOf (ps : List Piece) : List Char := (ps.map Piece.text).flatten

theorem Piece.textOf_cons (p : Piece) (ps : List Piece) :
    textOf (p :: ps) = p.text ++ textOf ps := rfl

theorem Piece.textOf_append (ps qs : List Piece) : textOf (ps ++ qs) = textOf ps ++ textOf qs := by
  rw [textOf, List.map_append, List.flatten_append]
  rfl

theorem eq_textOf_of_pieces {s : List Char} {ps qs : List Piece} (h : pieces s = ps ++ qs) :
    s = Piece.textOf ps ++ Piece.textOf qs := by
  rw [← Piece.textOf_append, ← h]
  exact (pieces_flatten s).symm

theorem Munched.textOf {rules : List Rule} {s : List Char} {ps : List Piece}
    (h : Munched rules s ps) : s = Piece.textOf ps := by
  induction h with
  | nil => rfl
  | cons longest first more ih => rw [Piece.textOf_cons, ← ih]

/-- no match that begins in some pieces goes past them into a text -/
def Closed (ps : List Piece) (v : List Char) : Prop :=
  ∀ us p rs, ps = us ++ p :: rs → ∀ r : Rule, ∀ w ∈ r.language,
    w <+: Piece.textOf (p :: rs) ++ v → w.length ≤ (Piece.textOf (p :: rs)).length

theorem Closed.tail {p : Piece} {ps : List Piece} {v : List Char} (h : Closed (p :: ps) v) :
    Closed ps v := by
  intro us q rs hps
  exact h (p :: us) q rs (by rw [hps, List.cons_append])

theorem Munched.cut {rules : List Rule} {ps qs : List Piece} {s : List Char}
    (h : Munched rules s (ps ++ qs)) {v : List Char} {vs : List Piece} (hv : Munched rules v vs)
    (hclosed : Closed ps v) : Munched rules (Piece.textOf ps ++ v) (ps ++ vs) := by
  induction ps generalizing s with
  | nil => exact hv
  | cons p ps ih =>
    cases h with
    | @cons _ rest _ longest first more =>
      rw [Piece.textOf_cons, List.append_assoc]
      refine .cons (fun r hr w hw hpre => longest r hr w hw ?_) first (ih more hclosed.tail)
      -- the match ends before the cut, so that it is a match with the old text
      have hlen := hclosed [] p ps rfl r w hw (by rwa [Piece.textOf_cons, List.append_assoc])
      have hcut : p.text ++ Piece.textOf ps <+: p.text ++ (Piece.textOf ps ++ v) := by
        rw [← List.append_assoc]
        exact List.prefix_append _ _
      have hrest : p.text ++ Piece.textOf ps <+: p.text ++ rest := by
        have e : rest = Piece.textOf ps ++ Piece.textOf qs :=
          more.textOf.trans (Piece.textOf_append ps qs)
        rw [e, ← List.append_assoc]
        exact List.prefix_append _ _
      exact (List.prefix_of_prefix_length_le hpre hcut hlen).trans hrest

/-- the pieces before a cut stay if no match goes past it -/
theorem pieces_cut {s v : List Char} {ps qs : List Piece} (h : pieces s = ps ++ qs)
    (hclosed : Closed ps v) : pieces (Piece.textOf ps ++ v) = ps ++ pieces v := by
  have hs := munched_all s
  rw [h] at hs
  exact (hs.cut (munched_all v) hclosed).eq_pieces

/-! ## the end of a row -/

/-- no text of a language has a character in it -/
def Avoids (l : Language Char) (c : Char) : Prop := ∀ w ∈ l, c ∉ w

theorem Avoids.char {p : Char → Bool} {c : Char} (h : p c = false) : Avoids (one p) c := by
  rintro w ⟨d, hd, rfl⟩ hmem
  rw [← List.mem_singleton.mp hmem, h] at hd
  cases hd

theorem Avoids.star {p : Char → Bool} {c : Char} (h : p c = false) : Avoids ((one p)∗) c := by
  intro w hw hmem
  rw [mem_one_kstar.mp hw c hmem] at h
  cases h

theorem Avoids.mul {l m : Language Char} {c : Char} (hl : Avoids l c) (hm : Avoids m c) :
    Avoids (l * m) c := by
  intro w hw hmem
  obtain ⟨u, hu, v, hv, rfl⟩ := Language.mem_mul.mp hw
  exact (List.mem_append.mp hmem).elim (hl u hu) (hm v hv)

/-- only blanks go past the end of a row -/
theorem avoids_newline {r : Rule} (hr : r ≠ .blank) : Avoids r.language '\n' := by
  cases r with
  | blank => exact absurd rfl hr
  | comment => exact .mul (.char (by decide)) (.star (by decide))
  | word => exact .mul (.char (by decide)) (.star (by decide))
  | decimal => exact .mul (.char (by decide)) (.star (by decide))
  | hex => exact .mul (.char (by decide)) (.mul (.char (by decide)) (.star (by decide)))
  | binary => exact .mul (.char (by decide)) (.mul (.char (by decide)) (.star (by decide)))
  | string => exact .mul (.char (by decide)) (.mul (.star (by decide)) (.char (by decide)))
  | operator =>
    intro w hw
    rcases Rule.mem_operator.mp hw with rfl | rfl | rfl | rfl | ⟨c, hc, rfl⟩
    · decide
    · decide
    · decide
    · decide
    · exact Avoids.char (p := Rule.isSign) (by decide) [c] ⟨c, hc, rfl⟩
  | bogus => exact .char (by decide)

/-- what begins with a blank is blank -/
theorem eq_blank_of_cons {r : Rule} {c : Char} {w : List Char} (hw : c :: w ∈ r.language)
    (hc : Text.isBlank c = true) : r = .blank := by
  obtain ⟨_, _, e, hopening⟩ := Rule.opening_of_mem_language hw
  obtain ⟨rfl, rfl⟩ := List.cons.inj e
  rw [← hopening]
  simp [Rule.opening, isLetter_of_isBlank hc, isDigit_of_isBlank hc, hc]

theorem exists_not_isBlank {r : Rule} {w : List Char} (hw : w ∈ r.language) (hr : r ≠ .blank) :
    ∃ c ∈ w, Text.isBlank c = false := by
  obtain ⟨c, u, rfl, _⟩ := Rule.opening_of_mem_language hw
  exact ⟨c, List.mem_cons_self, Bool.eq_false_iff.mpr fun hc => hr (eq_blank_of_cons hw hc)⟩

theorem isBlank_of_mem_blank {w : List Char} (hw : w ∈ Rule.language .blank) :
    ∀ c ∈ w, Text.isBlank c = true := by
  obtain ⟨c, u, rfl, hc, hu⟩ := mem_one_mul.mp hw
  exact List.forall_mem_cons.mpr ⟨hc, mem_one_kstar.mp hu⟩

/-- a match that goes over a piece that is not blank is not blank -/
theorem ne_blank_of_prefix {ps : List Piece} {p : Piece} (hmem : p ∈ ps)
    (hp : p.text ∈ p.rule.language) (hr : p.rule ≠ .blank) {r : Rule} {w : List Char}
    (hw : w ∈ r.language) (hpre : Piece.textOf ps <+: w) : r ≠ .blank := by
  rintro rfl
  obtain ⟨c, hc, hblank⟩ := exists_not_isBlank hp hr
  have hmem : c ∈ Piece.textOf ps :=
    List.mem_flatten.mpr ⟨p.text, List.mem_map.mpr ⟨p, hmem, rfl⟩, hc⟩
  rw [isBlank_of_mem_blank hw c (hpre.subset hmem)] at hblank
  cases hblank

/-- where pieces of which the last is not blank are not closed, a match that is not blank goes past
them -/
theorem exists_crossing {ps : List Piece} {v : List Char}
    (hlast : ∀ q, ps.getLast? = some q → q.text ∈ q.rule.language ∧ q.rule ≠ .blank)
    (h : ¬ Closed ps v) : ∃ us p rs, ps = us ++ p :: rs ∧ ∃ (r : Rule) (e : List Char),
      r ≠ .blank ∧ e ≠ [] ∧ e <+: v ∧ Piece.textOf (p :: rs) ++ e ∈ r.language := by
  by_contra hnone
  refine h fun us p rs hps r w hw hpre => ?_
  by_contra hlong
  rw [Nat.not_le] at hlong
  obtain ⟨e, rfl⟩ : Piece.textOf (p :: rs) <+: w :=
    List.prefix_of_prefix_length_le (List.prefix_append _ v) hpre hlong.le
  have he : e ≠ [] := by
    rintro rfl
    rw [List.append_nil] at hlong
    exact Nat.lt_irrefl _ hlong
  obtain ⟨q, hq⟩ : ∃ q, (p :: rs).getLast? = some q :=
    ⟨_, List.getLast?_eq_some_getLast (List.cons_ne_nil p rs)⟩
  have hpslast : ps.getLast? = some q := by
    rw [hps, List.getLast?_append_of_ne_nil _ (List.cons_ne_nil p rs), hq]
  obtain ⟨hmatch, hblank⟩ := hlast q hpslast
  have hr : r ≠ .blank :=
    ne_blank_of_prefix (List.mem_of_getLast? hq) hmatch hblank hw (List.prefix_append _ e)
  exact hnone ⟨us, p, rs, hps, r, e, hr, he, (List.prefix_append_right_inj _).mp hpre, hw⟩

/-- pieces of which the last is not blank are closed at the end of a row -/
theorem closed_newline {ps : List Piece} {p : Piece} (hp : p.text ∈ p.rule.language)
    (hr : p.rule ≠ .blank) (v : List Char) : Closed (ps ++ [p]) ('\n' :: v) := by
  by_contra h
  have hlast : ∀ q, (ps ++ [p]).getLast? = some q → q.text ∈ q.rule.language ∧ q.rule ≠ .blank := by
    intro q hq
    rw [List.getLast?_concat] at hq
    cases hq
    exact ⟨hp, hr⟩
  obtain ⟨_, q, rs, _, r, e, hne, he, hpre, hw⟩ := exists_crossing hlast h
  obtain ⟨c, e, rfl⟩ := List.exists_cons_of_ne_nil he
  obtain rfl : c = '\n' := (List.cons_prefix_cons.mp hpre).1
  exact avoids_newline hne _ hw (List.mem_append_right _ List.mem_cons_self)

/-! ## tokens -/

theorem tokensFrom_append (place : Text.Place) (ps qs : List Piece) :
    tokensFrom place (ps ++ qs)
      = tokensFrom place ps ++ tokensFrom (place.advance (Piece.textOf ps)) qs := by
  induction ps generalizing place with
  | nil => rfl
  | cons p ps ih =>
    rw [List.cons_append, tokensFrom, tokensFrom, Piece.textOf_cons, Text.Place.advance_append, ih]
    cases p.kind? with
    | none => rfl
    | some kind => rfl

/-- the first tokens of some pieces are those of the pieces up to a word -/
theorem exists_pieces_of_prefix {place : Text.Place} {ps : List Piece} {t : Token}
    {ts : List Token} (h : t :: ts <+: tokensFrom place ps) :
    ∃ us p vs, ps = us ++ p :: vs ∧ p.kind? ≠ none ∧ tokensFrom place (us ++ [p]) = t :: ts := by
  induction ps generalizing place t ts with
  | nil => cases List.prefix_nil.mp h
  | cons p ps ih =>
    rw [tokensFrom] at h
    cases hk : p.kind? with
    | none =>
      rw [hk] at h
      obtain ⟨us, q, vs, rfl, hq, htokens⟩ := ih h
      refine ⟨p :: us, q, vs, rfl, hq, ?_⟩
      rw [List.cons_append, tokensFrom, hk]
      exact htokens
    | some kind =>
      rw [hk] at h
      obtain ⟨rfl, hts⟩ := List.cons_prefix_cons.mp h
      cases ts with
      | nil =>
        refine ⟨[], p, ps, rfl, by rw [hk]; exact Option.some_ne_none kind, ?_⟩
        rw [List.nil_append, tokensFrom, hk]
        rfl
      | cons u ts =>
        obtain ⟨us, q, vs, rfl, hq, htokens⟩ := ih hts
        refine ⟨p :: us, q, vs, rfl, hq, ?_⟩
        rw [List.cons_append, tokensFrom, hk, htokens]

/-- the first tokens of a text and then those of a new row -/
theorem exists_tokenize_append {text : String} {ts : List Token} (h : ts <+: tokenize text) :
    ∃ s place, ∀ v, tokenize (String.ofList (s ++ '\n' :: v))
      = ts ++ tokensFrom place (pieces ('\n' :: v)) := by
  cases ts with
  | nil => exact ⟨[], .start, fun v => by rw [tokenize, String.toList_ofList]; rfl⟩
  | cons t ts =>
    obtain ⟨us, p, vs, hps, hp, htokens⟩ := exists_pieces_of_prefix h
    rw [← List.singleton_append, ← List.append_assoc] at hps
    have hblank : p.rule ≠ .blank := fun hr => hp (by rw [Piece.kind?, hr])
    have hmatch : p.text ∈ p.rule.language := by
      refine mem_language_of_mem_pieces (s := text.toList) ?_
      rw [hps]
      exact List.mem_append_left vs List.mem_concat_self
    refine ⟨Piece.textOf (us ++ [p]), Text.Place.advance .start (Piece.textOf (us ++ [p])),
      fun v => ?_⟩
    rw [tokenize, String.toList_ofList, pieces_cut hps (closed_newline hmatch hblank v),
      tokensFrom_append, htokens]

theorem pieces_newRow : pieces ['\n', 'A'] = [⟨.blank, ['\n']⟩, ⟨.word, ['A']⟩] := by
  rw [pieces_cons, show Rule.longest ['\n', 'A'] = (.blank, 1) by decide, List.drop_succ_cons,
    List.drop_zero, pieces_cons, show Rule.longest ['A'] = (.word, 1) by decide]
  exact congrArg _ (congrArg _ pieces_nil)

/-- **the first tokens of a text and then an atom** -/
theorem exists_tokenize_concat {text : String} {ts : List Token} (h : ts <+: tokenize text) :
    ∃ text' t, t.kind = .atom ∧ tokenize text' = ts ++ [t] := by
  obtain ⟨s, place, hs⟩ := exists_tokenize_append h
  have htokens := hs ['A']
  rw [pieces_newRow] at htokens
  exact ⟨_, _, show Token.Kind.ofWord ['A'] = .atom by decide, htokens⟩

end TableAssembler

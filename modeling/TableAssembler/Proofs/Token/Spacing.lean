import TableAssembler.Proofs.Token.Excerpt

/-!
# Matches and blanks

Of what matches across a blank only strings and comments are not blank themselves.  A comment ends
with its row, and a string that goes across blanks between two pieces would also be there without
them, so no match grows when more blanks come between.

* `avoids_blank`               only blanks, comments and strings have blanks in them;
* `comment_or_mem_of_append`   what goes past some blanks is a comment, or is there without them too;
* `eq_nil_of_match`            what matches where a piece begins goes no further than the piece;
* `closed_line`                no match goes past the end of a row, if what is last is not blank;
* `closed_spaced`              none goes past more blanks than there were.
-/

namespace TableAssembler
open scoped Computability

/-! ## blanks among characters -/

/-- the blanks, one by one -/
def Text.blanks : List Char := [' ', '\t', '\n', '\x0b', '\x0c', '\r']

theorem mem_blanks {c : Char} (h : Text.isBlank c = true) : c ∈ Text.blanks := by
  have key : ∀ d : Char, c.toNat = d.toNat → c = d := fun d => Char.toNat_inj.mp
  rw [isBlank_iff] at h
  have hn : c.toNat = 32 ∨ c.toNat = 9 ∨ c.toNat = 10 ∨ c.toNat = 11 ∨ c.toNat = 12 ∨
      c.toNat = 13 := by omega
  simp only [Text.blanks, List.mem_cons, List.not_mem_nil, or_false]
  rcases hn with hn | hn | hn | hn | hn | hn
  · exact .inl (key ' ' hn)
  · exact .inr (.inl (key '\t' hn))
  · exact .inr (.inr (.inl (key '\n' hn)))
  · exact .inr (.inr (.inr (.inl (key '\x0b' hn))))
  · exact .inr (.inr (.inr (.inr (.inl (key '\x0c' hn)))))
  · exact .inr (.inr (.inr (.inr (.inr (key '\r' hn)))))

/-- only blanks, comments and strings have blanks in them -/
theorem avoids_blank {r : Rule} (hblank : r ≠ .blank) (hcomment : r ≠ .comment)
    (hstring : r ≠ .string) {c : Char} (hc : Text.isBlank c = true) : Avoids r.language c := by
  have none {p : Char → Bool} (hp : (Text.blanks.all fun d => !p d) = true) : p c = false :=
    Bool.not_eq_true' _ ▸ List.all_eq_true.mp hp c (mem_blanks hc)
  have char {p : Char → Bool} (hp : (Text.blanks.all fun d => !p d) = true) : Avoids (one p) c :=
    .char (none hp)
  have star {p : Char → Bool} (hp : (Text.blanks.all fun d => !p d) = true) :
      Avoids ((one p)∗) c := .star (none hp)
  cases r with
  | blank => exact absurd rfl hblank
  | comment => exact absurd rfl hcomment
  | string => exact absurd rfl hstring
  | word => exact .mul (char (by decide)) (star (by decide))
  | decimal => exact .mul (char (by decide)) (star (by decide))
  | hex => exact .mul (char (by decide)) (.mul (char (by decide)) (star (by decide)))
  | binary => exact .mul (char (by decide)) (.mul (char (by decide)) (star (by decide)))
  | operator =>
    intro w hw hmem
    have hne : ∀ d, Text.isBlank d = false → c ≠ d := by
      rintro d hd rfl
      exact Bool.false_ne_true (hd.symm.trans hc)
    rcases Rule.mem_operator.mp hw with rfl | rfl | rfl | rfl | ⟨d, hd, rfl⟩
    · simp [hne '*' (by decide)] at hmem
    · simp [hne '<' (by decide)] at hmem
    · simp [hne '>' (by decide)] at hmem
    · simp [hne '\\' (by decide)] at hmem
    · exact char (p := Rule.isSign) (by decide) [d] ⟨d, hd, rfl⟩ hmem
  | bogus => exact char (by decide)

/-! ## matches across blanks -/

/-- a string ends with its quote -/
theorem getLast?_of_mem_string {w : List Char} (h : w ∈ Rule.language .string) :
    w.getLast? = some '"' := by
  obtain ⟨inside, rfl, _⟩ := mem_string_iff.mp h
  rw [← List.cons_append, List.getLast?_concat]

/-- what a string has inside may be left out -/
theorem mem_string_of_append {x w g : List Char} (hx : x ≠ []) (hg : g ≠ [])
    (h : x ++ (w ++ g) ∈ Rule.language .string) : x ++ g ∈ Rule.language .string := by
  obtain ⟨inside, htext, hinside⟩ := mem_string_iff.mp h
  obtain ⟨c, x, rfl⟩ := List.exists_cons_of_ne_nil hx
  obtain ⟨g, d, rfl⟩ := (List.eq_nil_or_concat' g).resolve_left hg
  obtain ⟨rfl, hrest⟩ := List.cons.inj (List.cons_append.symm.trans htext)
  rw [← List.append_assoc, ← List.append_assoc] at hrest
  obtain ⟨rfl, hlast⟩ := List.append_inj' hrest rfl
  obtain rfl := (List.cons.inj hlast).1
  refine mem_string_iff.mpr ⟨x ++ g, ?_, fun e he => hinside e ?_⟩
  · rw [List.cons_append, List.append_assoc]
  · rw [List.append_assoc]
    rcases List.mem_append.mp he with he | he
    · exact List.mem_append_left _ he
    · exact List.mem_append_right _ (List.mem_append_right _ he)

/-- a comment may end anywhere -/
theorem mem_comment_of_append {x e : List Char} (hx : x ≠ [])
    (h : x ++ e ∈ Rule.language .comment) : x ∈ Rule.language .comment := by
  obtain ⟨c, u, htext, hc, hu⟩ := mem_one_mul.mp h
  obtain ⟨d, x, rfl⟩ := List.exists_cons_of_ne_nil hx
  obtain ⟨rfl, rfl⟩ := List.cons.inj (List.cons_append.symm.trans htext)
  refine mem_one_mul.mpr ⟨d, x, rfl, hc, mem_one_kstar.mpr fun b hb => ?_⟩
  exact mem_one_kstar.mp hu b (List.mem_append_left e hb)

/-- what goes past some blanks is a comment, or it is there without them too -/
theorem comment_or_mem_of_append {r : Rule} (hr : r ≠ .blank) {x e w v : List Char} (hx : x ≠ [])
    (he : e ≠ []) (hm : x ++ e ∈ r.language) (hpre : e <+: w ++ v)
    (hw : ∀ c ∈ w, Text.isBlank c = true) :
    r = .comment ∨ ∃ g, g ≠ [] ∧ g <+: v ∧ x ++ g ∈ r.language := by
  by_cases hcomment : r = .comment
  · exact .inl hcomment
  right
  cases w with
  | nil => exact ⟨e, he, hpre, hm⟩
  | cons b w =>
    obtain ⟨t, ht⟩ := hpre
    have hb : b ∈ e := by
      obtain ⟨c, e, rfl⟩ := List.exists_cons_of_ne_nil he
      rw [← (List.cons.inj ht).1]
      exact List.mem_cons_self
    obtain rfl : r = .string := by
      by_contra hstring
      exact avoids_blank hr hcomment hstring (hw b List.mem_cons_self) _ hm
        (List.mem_append_right x hb)
    -- the last of it is the quote, so that it cannot be all blank
    have hquote := getLast?_of_mem_string hm
    rw [List.getLast?_append_of_ne_nil _ he] at hquote
    have hinside : ¬ ∀ c ∈ e, Text.isBlank c = true := fun hall =>
      absurd (hall '"' (List.mem_of_getLast? hquote)) (by decide)
    rcases List.append_eq_append_iff.mp ht with ⟨as, has, _⟩ | ⟨g, rfl, rfl⟩
    · exact absurd (fun c hc => hw c (has ▸ List.mem_append_left as hc)) hinside
    · have hg : g ≠ [] := by
        rintro rfl
        rw [List.append_nil] at hinside
        exact hinside hw
      exact ⟨g, hg, List.prefix_append g t, mem_string_of_append hx hg hm⟩

/-! ## pieces before blanks -/

/-- what matches in a text where a piece begins is no longer than the piece -/
theorem pieces_longest {s : List Char} {us rs : List Piece} {p : Piece}
    (h : pieces s = us ++ p :: rs) {r : Rule} {w : List Char} (hw : w ∈ r.language)
    (hpre : w <+: Piece.textOf (p :: rs)) : w.length ≤ p.text.length := by
  have hs := munched_all s
  rw [h] at hs
  have hsuffix := hs.suffix
  generalize Piece.textOf (p :: rs) = v at hsuffix hpre
  cases hsuffix with
  | cons longest first more => exact longest r (Rule.mem_all r) w hw hpre

theorem text_ne_nil {s : List Char} {p : Piece} (hp : p ∈ pieces s) : p.text ≠ [] := fun hnil =>
  Rule.nil_notMem_language p.rule (hnil ▸ mem_language_of_mem_pieces hp)

theorem eq_nil_of_textOf {s : List Char} {bs : List Piece} (hbs : ∀ b ∈ bs, b ∈ pieces s)
    (h : Piece.textOf bs = []) : bs = [] := by
  cases bs with
  | nil => rfl
  | cons b bs =>
    rw [Piece.textOf_cons] at h
    exact absurd (List.append_eq_nil_iff.mp h).1 (text_ne_nil (hbs b List.mem_cons_self))

/-- a match that goes over several pieces, or past one, is not in the text -/
theorem eq_nil_of_match {s : List Char} {us rs qs : List Piece} {p : Piece}
    (h : pieces s = (us ++ p :: rs) ++ qs) {r : Rule} {g : List Char}
    (hg : Piece.textOf (p :: rs) ++ g ∈ r.language) (hpre : g <+: Piece.textOf qs) :
    rs = [] ∧ g = [] := by
  have hpieces : pieces s = us ++ p :: (rs ++ qs) := by
    rw [h, List.append_assoc, List.cons_append]
  have hlength := pieces_longest hpieces hg (by
    rw [← List.cons_append, Piece.textOf_append]
    exact (List.prefix_append_right_inj _).mpr hpre)
  rw [Piece.textOf_cons, List.append_assoc, List.length_append, List.length_append] at hlength
  have hrs : Piece.textOf rs = [] := List.eq_nil_of_length_eq_zero (by omega)
  refine ⟨eq_nil_of_textOf (s := s) (fun b hb => ?_) hrs, List.eq_nil_of_length_eq_zero (by omega)⟩
  rw [hpieces]
  exact List.mem_append_right us (List.mem_cons_of_mem p (List.mem_append_left qs hb))

section
variable {s : List Char} {ps qs : List Piece}

/-- pieces of which the last is not blank are closed before the rest of their row -/
theorem closed_line (h : pieces s = ps ++ qs) (hlast : ∀ q, ps.getLast? = some q → q.rule ≠ .blank)
    (v : List Char) : Closed ps (Piece.textOf qs ++ '\n' :: v) := by
  by_contra hopen
  have hmatch : ∀ q, ps.getLast? = some q → q.text ∈ q.rule.language ∧ q.rule ≠ .blank :=
    fun q hq => ⟨mem_language_of_mem_pieces (s := s)
      (h ▸ List.mem_append_left qs (List.mem_of_getLast? hq)), hlast q hq⟩
  obtain ⟨us, p, rs, rfl, r, e, hr, he, hpre, hw⟩ := exists_crossing hmatch hopen
  obtain ⟨t, ht⟩ := hpre
  -- the match ends before the end of the row, so that it is in the text before
  rcases List.append_eq_append_iff.mp ht with ⟨as, has, _⟩ | ⟨g, rfl, hg⟩
  · exact he (eq_nil_of_match h hw ⟨as, has.symm⟩).2
  · cases g with
    | nil =>
      rw [List.append_nil] at hw he
      exact he (eq_nil_of_match h hw (List.prefix_refl _)).2
    | cons c g =>
      obtain rfl : '\n' = c := (List.cons.inj hg).1
      exact avoids_newline hr _ hw (by simp)

/-- pieces of which the last is a word, or a comment before blanks, are closed before more blanks
than there were -/
theorem closed_spaced (h : pieces s = ps ++ qs) {b w v : List Char}
    (hqs : Piece.textOf qs = b ++ v) (hw : ∀ c ∈ w, Text.isBlank c = true)
    (hlast : ∀ q, ps.getLast? = some q → q.rule ≠ .blank ∧ (q.rule = .comment → b ≠ [])) :
    Closed ps (b ++ (w ++ v)) := by
  by_contra hopen
  have hmatch : ∀ q, ps.getLast? = some q → q.text ∈ q.rule.language ∧ q.rule ≠ .blank :=
    fun q hq => ⟨mem_language_of_mem_pieces (s := s)
      (h ▸ List.mem_append_left qs (List.mem_of_getLast? hq)), (hlast q hq).1⟩
  obtain ⟨us, p, rs, rfl, r, e, hr, he, hpre, hm⟩ := exists_crossing hmatch hopen
  have hin : ∀ {r' : Rule} {g : List Char}, Piece.textOf (p :: rs) ++ g ∈ r'.language →
      g <+: b ++ v → rs = [] ∧ g = [] := fun hg hgpre => eq_nil_of_match h hg (hqs ▸ hgpre)
  obtain ⟨t, ht⟩ := hpre
  rcases List.append_eq_append_iff.mp ht with ⟨as, rfl, _⟩ | ⟨f, rfl, hf⟩
  · exact he (hin hm ⟨as ++ v, by rw [List.append_assoc]⟩).2
  have hrow : Piece.textOf (p :: rs) ++ b ≠ [] := by
    rw [Piece.textOf_cons]
    have hp : p ∈ pieces s := by rw [h]; simp
    simp [text_ne_nil hp]
  have hf' : f ≠ [] := by
    rintro rfl
    rw [List.append_nil] at hm he
    exact he (hin hm (List.prefix_append b v)).2
  rw [← List.append_assoc] at hm
  rcases comment_or_mem_of_append hr hrow hf' hm ⟨t, hf.symm⟩ hw with rfl | ⟨g, hg, hgpre, hgmem⟩
  · -- the comment would be the last piece, without blanks after it
    have hcomment := mem_comment_of_append hrow hm
    obtain ⟨rfl, rfl⟩ := hin hcomment (List.prefix_append b v)
    rw [List.append_nil, Piece.textOf_cons, Piece.textOf, List.map_nil, List.flatten_nil,
      List.append_nil] at hcomment
    obtain ⟨hp, _⟩ := hmatch p List.getLast?_concat
    exact (hlast p List.getLast?_concat).2 (Rule.eq_of_mem_language hp hcomment) rfl
  · rw [List.append_assoc] at hgmem
    have hnil := (hin hgmem ((List.prefix_append_right_inj b).mpr hgpre)).2
    exact hg (List.append_eq_nil_iff.mp hnil).2

end

end TableAssembler

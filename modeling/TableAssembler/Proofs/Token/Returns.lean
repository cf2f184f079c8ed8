import TableAssembler.Proofs.Text.Breaks
import TableAssembler.Proofs.Token.Spacing

/-!
# Words without carriage returns

Where a carriage return only stands before a line feed it is blank, or the last of a comment or in
it.  So the pieces of such a text only lose their carriage returns with the text, words stay as they
are, and a word stands at the same row and column as before.

* `mem_language_dropReturns`   what matches a rule still does;
* `Piece.withoutReturns`       a piece without its carriage returns;
* `pieces_dropReturns`         the pieces of a text without carriage returns;
* `Token.Aligned`              tokens of the same word in the same row and column;
* `tokenize_joinBreaks`        the tokens of a text with one line feed for each line break.
-/

namespace TableAssembler
open scoped Computability
open Text (Paired dropReturns)

/-! ## matches -/

/-- only blanks, comments and strings have carriage returns in them -/
theorem dropReturns_of_mem_language {r : Rule} (hblank : r ≠ .blank) (hcomment : r ≠ .comment)
    (hstring : r ≠ .string) {w : List Char} (hw : w ∈ r.language) : dropReturns w = w :=
  Text.dropReturns_of_notMem (avoids_blank hblank hcomment hstring (by decide) w hw)

/-- what matches a rule still does without its carriage returns, if anything is left of it -/
theorem mem_language_dropReturns {r : Rule} {w : List Char} (hw : w ∈ r.language)
    (hne : dropReturns w ≠ []) : dropReturns w ∈ r.language := by
  by_cases hblank : r = .blank
  · subst hblank
    have hall : ∀ c ∈ dropReturns w, Text.isBlank c = true := fun c hc =>
      isBlank_of_mem_blank hw c (List.mem_of_mem_filter hc)
    obtain ⟨c, u, hu⟩ := List.exists_cons_of_ne_nil hne
    rw [hu] at hall ⊢
    obtain ⟨hc, hmore⟩ := List.forall_mem_cons.mp hall
    exact mem_one_mul.mpr ⟨c, u, rfl, hc, mem_one_kstar.mpr hmore⟩
  by_cases hcomment : r = .comment
  · subst hcomment
    obtain ⟨c, u, rfl, hc, hu⟩ := mem_one_mul.mp hw
    have hsemicolon : c ≠ '\r' := by
      rw [eq_of_beq hc]
      decide
    rw [Text.dropReturns_cons hsemicolon]
    refine mem_one_mul.mpr ⟨c, dropReturns u, rfl, hc, mem_one_kstar.mpr fun d hd => ?_⟩
    exact mem_one_kstar.mp hu d (List.mem_of_mem_filter hd)
  by_cases hstring : r = .string
  · subst hstring
    obtain ⟨inside, rfl, hinside⟩ := mem_string_iff.mp hw
    rw [Text.dropReturns_cons (by decide), Text.dropReturns_append]
    refine mem_string_iff.mpr ⟨dropReturns inside, rfl, fun d hd => ?_⟩
    exact hinside d (List.mem_of_mem_filter hd)
  · rwa [dropReturns_of_mem_language hblank hcomment hstring hw]

/-- what matches without carriage returns is there with them too -/
theorem exists_match_of_dropReturns {s : List Char} (hs : Paired s) {r : Rule} {w : List Char}
    (hw : w ∈ r.language) (hpre : w <+: dropReturns s) :
    ∃ u ∈ r.language, u <+: s ∧ dropReturns u = w := by
  obtain ⟨u, ⟨v, rfl⟩, rfl, hlast⟩ := Text.exists_prefix_of_dropReturns hpre
  refine ⟨u, ?_, List.prefix_append u v, rfl⟩
  by_cases hr : r = .blank
  · subst hr
    have hall : ∀ c ∈ u, Text.isBlank c = true := by
      intro c hc
      by_cases hreturn : c = '\r'
      · rw [hreturn]
        decide
      · exact isBlank_of_mem_blank hw c ((Text.mem_dropReturns hreturn).mpr hc)
    cases u with
    | nil => exact hw
    | cons c u =>
      obtain ⟨hc, hmore⟩ := List.forall_mem_cons.mp hall
      exact mem_one_mul.mpr ⟨c, u, rfl, hc, mem_one_kstar.mpr hmore⟩
  · -- it has no line feed, so that it has no carriage return
    have hnone : '\r' ∉ u := fun hmem =>
      avoids_newline hr _ hw ((Text.mem_dropReturns (by decide)).mpr (hs.feed_mem hlast hmem))
    rwa [Text.dropReturns_of_notMem hnone] at hw

/-! ## pieces -/

/-- a piece without its carriage returns -/
def Piece.withoutReturns (p : Piece) : Piece := ⟨p.rule, dropReturns p.text⟩

/-- a longest match is not all carriage returns: the line feed after them is of the match too -/
theorem dropReturns_ne_nil {r : Rule} {w rest : List Char} (hw : w ∈ r.language)
    (longest : ∀ r' : Rule, ∀ v ∈ r'.language, v <+: w ++ rest → v.length ≤ w.length)
    (hpaired : Paired (w ++ rest)) : dropReturns w ≠ [] := by
  obtain ⟨c, u, rfl, _⟩ := Rule.opening_of_mem_language hw
  by_cases hc : c = '\r'
  · subst hc
    obtain ⟨t, ht⟩ := List.head?_eq_some_iff.mp (hpaired.1 rfl)
    have hbreak : ['\r', '\n'] ∈ Rule.language .blank :=
      mem_one_mul.mpr ⟨'\r', ['\n'], rfl, rfl,
        mem_one_kstar.mpr (List.forall_mem_singleton.mpr rfl)⟩
    have hlength := longest .blank _ hbreak ⟨t, congrArg _ ht.symm⟩
    cases u with
    | nil => exact absurd hlength (by decide)
    | cons d u =>
      obtain rfl : d = '\n' := (List.cons.inj ht).1
      exact List.ne_nil_of_mem ((Text.mem_dropReturns (by decide)).mpr
        (List.mem_cons_of_mem '\r' List.mem_cons_self))
  · rw [Text.dropReturns_cons hc]
    exact List.cons_ne_nil _ _

theorem Munched.withoutReturns {s : List Char} {ps : List Piece} (h : Munched Rule.all s ps)
    (hpaired : Paired s) :
    Munched Rule.all (dropReturns s) (ps.map Piece.withoutReturns) := by
  induction h with
  | nil => exact .nil
  | @cons p rest ps longest first more ih =>
    obtain ⟨_, _, _, hp, _⟩ := first
    have hne := dropReturns_ne_nil hp (fun r => longest r (Rule.mem_all r)) hpaired
    have hlongest : ∀ r ∈ Rule.all, ∀ w ∈ r.language, w <+: dropReturns p.text ++ dropReturns rest →
        w.length ≤ (dropReturns p.text).length := by
      intro r hr w hw hpre
      rw [← Text.dropReturns_append] at hpre
      obtain ⟨u, hu, hupre, rfl⟩ := exists_match_of_dropReturns hpaired hw hpre
      have hshort : u <+: p.text := List.prefix_of_prefix_length_le hupre
        (List.prefix_append p.text rest) (longest r hr u hu hupre)
      exact (hshort.filter _).length_le
    rw [Text.dropReturns_append, List.map_cons]
    exact .cons (p := p.withoutReturns) hlongest
      (firstMatch_of_mem (Rule.mem_all _) (mem_language_dropReturns hp hne)) (ih hpaired.of_append)

/-- **the pieces of a text without carriage returns** -/
theorem pieces_dropReturns {s : List Char} (h : Paired s) :
    pieces (dropReturns s) = (pieces s).map Piece.withoutReturns :=
  ((munched_all s).withoutReturns h).eq_pieces

/-! ## words -/

/-- a word has no carriage return -/
theorem withoutReturns_of_word {p : Piece} (hp : p.text ∈ p.rule.language) (hk : p.kind? ≠ none)
    {rest : List Char} (hpaired : Paired (p.text ++ rest)) : p.withoutReturns = p := by
  have hblank : p.rule ≠ .blank := fun hr => hk (by rw [Piece.kind?, hr])
  have hcomment : p.rule ≠ .comment := fun hr => hk (by rw [Piece.kind?, hr])
  have hdrop : dropReturns p.text = p.text := by
    by_cases hstring : p.rule = .string
    · refine Text.dropReturns_of_notMem fun hmem => ?_
      have hquote : p.text.getLast? = some '"' := getLast?_of_mem_string (hstring ▸ hp)
      have hlast : p.text.getLast? ≠ some '\r' := by
        rw [hquote]
        decide
      exact avoids_newline hblank _ hp (hpaired.feed_mem hlast hmem)
    · exact dropReturns_of_mem_language hblank hcomment hstring hp
  rw [Piece.withoutReturns, hdrop]

theorem kind?_withoutReturns {p : Piece} (hp : p.text ∈ p.rule.language) (hk : p.kind? = none) :
    p.withoutReturns.kind? = none := by
  rcases kind?_of_mem_language hp with ⟨hr, _⟩ | ⟨kind, hkind, _⟩
  · rcases hr with hr | hr <;> rw [Piece.withoutReturns, Piece.kind?, hr]
  · cases hk.symm.trans hkind

/-- tokens of the same word in the same row and column -/
structure Token.Aligned (t u : Token) : Prop extends Token.Alike t u where
  row : t.row = u.row
  col : t.col = u.col

theorem tokensFrom_withoutReturns {ps : List Piece} (hps : ∀ p ∈ ps, p.text ∈ p.rule.language)
    (hpaired : Paired (Piece.textOf ps)) {place place' : Text.Place}
    (h : Text.InStep place place' (Piece.textOf ps)) :
    List.Forall₂ Token.Aligned (tokensFrom place ps)
      (tokensFrom place' (ps.map Piece.withoutReturns)) := by
  induction ps generalizing place place' with
  | nil => exact .nil
  | cons p ps ih =>
    obtain ⟨hp, hmore⟩ := List.forall_mem_cons.mp hps
    rw [Piece.textOf_cons] at hpaired h
    have hrest := ih hmore hpaired.of_append (h.advance hpaired)
    rw [List.map_cons, tokensFrom, tokensFrom]
    by_cases hk : p.kind? = none
    · rw [hk, kind?_withoutReturns hp hk]
      exact hrest
    · obtain ⟨kind, hkind⟩ := Option.ne_none_iff_exists'.mp hk
      have hsame := withoutReturns_of_word hp hk hpaired
      have hplace : place'.advance p.withoutReturns.text = place'.advance (dropReturns p.text) := rfl
      rw [hplace, hsame, hkind]
      cases h with
      | level row col fresh fresh' => exact .cons ⟨⟨rfl, rfl⟩, row, col⟩ hrest
      | halfway row after fresh' feed =>
        -- no word begins with a line feed
        obtain ⟨c, u, htext, _⟩ := Rule.opening_of_mem_language hp
        rw [htext] at feed hp
        obtain rfl : c = '\n' := Option.some.inj feed
        exact absurd (by rw [Piece.kind?, eq_blank_of_cons hp (by decide)]) hk

/-- **the tokens of a text with one line feed for each line break** -/
theorem tokenize_joinBreaks {text : String} (h : Paired text.toList) :
    List.Forall₂ Token.Aligned (tokenize text)
      (tokenize (String.ofList (Text.joinBreaks text.toList))) := by
  have htext : Piece.textOf (pieces text.toList) = text.toList := pieces_flatten _
  rw [tokenize, tokenize, String.toList_ofList, Text.joinBreaks_eq_dropReturns h,
    pieces_dropReturns h]
  refine tokensFrom_withoutReturns (fun p hp => mem_language_of_mem_pieces hp) ?_ ?_
  · rwa [htext]
  · exact .level rfl rfl rfl rfl

end TableAssembler

import TableAssembler.Proofs.Token.Continuation
import TableAssembler.Source

/-!
# Excerpts of a text

The part of a text from the start of one of its words to the end of another has just the words
between, blanks and comments included.  No longest match that begins there is cut off by the start
or goes past the end.

* `Span.cut`              the part of a text that a span covers;
* `Token.Alike`           tokens of the same word, wherever they stand;
* `tokensFrom_alike`      the words of some pieces are the same at any place;
* `pieces_excerpt`        some pieces in a row are the pieces of their text;
* `exists_pieces_between` the pieces from one word to another;
* `tokenize_excerpt`      the words of an excerpt.
-/

namespace TableAssembler

/-- the part of a text that a span covers -/
def Span.cut (span : Span) (text : String) : String :=
  String.ofList ((text.toList.drop span.start).take (span.stop - span.start))

/-! ## words at another place -/

/-- tokens of the same word, wherever they stand -/
structure Token.Alike (t u : Token) : Prop where
  kind : t.kind = u.kind
  text : t.text = u.text

/-- the words of some pieces are the same at any place -/
theorem tokensFrom_alike (place place' : Text.Place) (ps : List Piece) :
    List.Forall₂ Token.Alike (tokensFrom place ps) (tokensFrom place' ps) := by
  induction ps generalizing place place' with
  | nil => exact .nil
  | cons p ps ih =>
    unfold tokensFrom
    cases p.kind? with
    | none => exact ih _ _
    | some kind => exact .cons ⟨rfl, rfl⟩ (ih _ _)

/-! ## pieces in a row -/

theorem Munched.suffix {rules : List Rule} {s : List Char} {ps qs : List Piece}
    (h : Munched rules s (ps ++ qs)) : Munched rules (Piece.textOf qs) qs := by
  induction ps generalizing s with
  | nil =>
    have hs : s = Piece.textOf qs := h.textOf
    subst hs
    exact h
  | cons p ps ih =>
    cases h with
    | cons longest first more => exact ih more

/-- at the end of a text nothing goes past it -/
theorem closed_nil (ps : List Piece) : Closed ps [] := by
  intro us p rs _ r w _ hpre
  rw [List.append_nil] at hpre
  exact hpre.length_le

/-- some pieces in a row are the pieces of their text -/
theorem pieces_excerpt {s : List Char} {ps qs rs : List Piece} (h : pieces s = ps ++ (qs ++ rs)) :
    pieces (Piece.textOf qs) = qs := by
  have hs := munched_all s
  rw [h] at hs
  have hcut := pieces_cut hs.suffix.eq_pieces (closed_nil qs)
  rwa [List.append_nil, pieces_nil, List.append_nil] at hcut

/-! ## from one word to another -/

/-- a word begins where the pieces before it end, and stops where its own piece does -/
theorem exists_pieces_from {place : Text.Place} {ps : List Piece} {t : Token} {ts us : List Token}
    (h : tokensFrom place ps = ts ++ t :: us) :
    ∃ as p bs, ps = as ++ p :: bs ∧ p.kind? ≠ none ∧
      t.start = place.offset + (Piece.textOf as).length ∧ t.stop = t.start + p.text.length ∧
      tokensFrom (place.advance (Piece.textOf as)) (p :: bs) = t :: us := by
  induction ps generalizing place ts with
  | nil =>
    unfold tokensFrom at h
    cases List.append_ne_nil_of_right_ne_nil ts (List.cons_ne_nil t us) h.symm
  | cons p ps ih =>
    have hfirst : (place.advance p.text).offset = place.offset + p.text.length :=
      Text.Place.advance_offset place p.text
    -- whatever the first piece is, the others begin after it
    have key : ∀ ts', tokensFrom (place.advance p.text) ps = ts' ++ t :: us →
        ∃ as q bs, p :: ps = as ++ q :: bs ∧ q.kind? ≠ none ∧
          t.start = place.offset + (Piece.textOf as).length ∧ t.stop = t.start + q.text.length ∧
          tokensFrom (place.advance (Piece.textOf as)) (q :: bs) = t :: us := by
      intro ts' hmore
      obtain ⟨as, q, bs, hps, hq, hstart, hstop, htokens⟩ := ih hmore
      refine ⟨p :: as, q, bs, by rw [hps, List.cons_append], hq, ?_, hstop, ?_⟩
      · rw [Piece.textOf_cons, List.length_append]
        omega
      · rw [Piece.textOf_cons, Text.Place.advance_append]
        exact htokens
    have hwhole := h
    unfold tokensFrom at h
    cases hk : p.kind? with
    | none =>
      rw [hk] at h
      exact key ts h
    | some kind =>
      rw [hk] at h
      cases ts with
      | nil =>
        cases h
        exact ⟨[], p, ps, rfl, by rw [hk]; exact Option.some_ne_none kind, rfl, hfirst, hwhole⟩
      | cons u ts => exact key ts (List.cons.inj h).2

/-- a word ends where the pieces up to it end -/
theorem stop_of_getLast? {place : Text.Place} {ps : List Piece} {p : Piece} {t : Token}
    (hp : p.kind? ≠ none) (h : (tokensFrom place (ps ++ [p])).getLast? = some t) :
    t.stop = place.offset + (Piece.textOf (ps ++ [p])).length := by
  obtain ⟨kind, hkind⟩ := Option.ne_none_iff_exists'.mp hp
  have hword : tokensFrom (place.advance (Piece.textOf ps)) [p] =
      [⟨kind, String.ofList p.text, (place.advance (Piece.textOf ps)).offset,
        ((place.advance (Piece.textOf ps)).advance p.text).offset,
        (place.advance (Piece.textOf ps)).row, (place.advance (Piece.textOf ps)).col⟩] := by
    unfold tokensFrom
    rw [hkind]
    rfl
  rw [tokensFrom_append, hword, List.getLast?_concat] at h
  have hstop : t.stop = ((place.advance (Piece.textOf ps)).advance p.text).offset := by
    rw [← Option.some.inj h]
  have hlast : Piece.textOf [p] = p.text := List.append_nil _
  rw [hstop, Text.Place.advance_offset, Text.Place.advance_offset, Piece.textOf_append,
    List.length_append, hlast, Nat.add_assoc]

/-- **some words in a row are words of pieces in a row**, from the start of the first to the end of
the last -/
theorem exists_pieces_between {place : Text.Place} {ps : List Piece} {before after : List Token}
    {t u : Token} {words : List Token}
    (h : tokensFrom place ps = before ++ (words ++ after)) (first : words.head? = some t)
    (last : words.getLast? = some u) :
    ∃ as bs cs, ps = as ++ (bs ++ cs) ∧ t.start = place.offset + (Piece.textOf as).length ∧
      u.stop = t.start + (Piece.textOf bs).length ∧
      tokensFrom (place.advance (Piece.textOf as)) bs = words := by
  obtain ⟨more, rfl⟩ := List.head?_eq_some_iff.mp first
  obtain ⟨as, q, qs, hps, _, hstart, _, htokens⟩ := exists_pieces_from h
  have hpre : t :: more <+: tokensFrom (place.advance (Piece.textOf as)) (q :: qs) :=
    ⟨after, htokens.symm⟩
  obtain ⟨bs, p, cs, hqs, hp, hwords⟩ := exists_pieces_of_prefix hpre
  refine ⟨as, bs ++ [p], cs, ?_, hstart, ?_, hwords⟩
  · rw [hps, hqs, List.append_assoc, List.singleton_append]
  · rw [← hwords] at last
    rw [stop_of_getLast? hp last, Text.Place.advance_offset, hstart]

/-- **The words of an excerpt** from the start of one word of a text to the end of another are just
the words between. -/
theorem tokenize_excerpt {text : String} {before words after : List Token} {t u : Token}
    (h : tokenize text = before ++ (words ++ after)) (first : words.head? = some t)
    (last : words.getLast? = some u) :
    t.start ≤ u.stop ∧ u.stop ≤ text.toList.length ∧
      List.Forall₂ Token.Alike (tokenize (Span.cut ⟨t.start, u.stop⟩ text)) words := by
  obtain ⟨as, bs, cs, hps, hstart, hstop, hwords⟩ := exists_pieces_between h first last
  have htext : text.toList = Piece.textOf as ++ (Piece.textOf bs ++ Piece.textOf cs) := by
    rw [← Piece.textOf_append]
    exact eq_textOf_of_pieces hps
  have hoffset : t.start = (Piece.textOf as).length := by
    rw [hstart]
    exact Nat.zero_add _
  have hcut : Span.cut ⟨t.start, u.stop⟩ text = String.ofList (Piece.textOf bs) := by
    unfold Span.cut
    dsimp only
    rw [hstop, Nat.add_sub_cancel_left, hoffset, htext, List.drop_left, List.take_left]
  refine ⟨by omega, ?_, ?_⟩
  · rw [htext, List.length_append, List.length_append]
    omega
  · rw [hcut, tokenize, String.toList_ofList, pieces_excerpt hps, ← hwords]
    exact tokensFrom_alike _ _ bs

end TableAssembler

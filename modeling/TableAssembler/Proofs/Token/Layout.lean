import TableAssembler.Proofs.Text.Breaks
import TableAssembler.Proofs.Token.Spacing

/-!
# Layout

The words of a text do not hang on how it is laid out: rows are read by themselves, and there may be
more blanks wherever there is an end of a word.

* `exists_trimmed`       pieces without the blanks at their end;
* `tokensFrom_blanks`    blanks before a text only move its words;
* `tokensFrom_line`      the words of a text, and then those of a text in a new row;
* `Token.moved`          a word further on in a text;
* `tokenize_newline`     the same with the places of the words;
* `tokenize_between`     more blanks between two words;
* `Text.insert`          a text with some more characters at an offset;
* `tokenize_layout`      more blanks beside a word, and a row for each word.
-/

namespace TableAssembler

/-! ## blanks at the end -/

/-- pieces without the blanks at their end -/
theorem exists_trimmed (ps : List Piece) : ∃ qs bs, ps = qs ++ bs ∧
    (∀ q, qs.getLast? = some q → q.rule ≠ .blank) ∧ ∀ b ∈ bs, b.rule = .blank := by
  induction ps using List.reverseRecOn with
  | nil => exact ⟨[], [], rfl, fun q hq => (nomatch hq), fun b hb => (nomatch hb)⟩
  | append_singleton ps p ih =>
    by_cases hp : p.rule = .blank
    · obtain ⟨qs, bs, rfl, hqs, hbs⟩ := ih
      refine ⟨qs, bs ++ [p], List.append_assoc qs bs [p], hqs, ?_⟩
      exact List.forall_mem_append.mpr ⟨hbs, List.forall_mem_singleton.mpr hp⟩
    · refine ⟨ps ++ [p], [], (List.append_nil _).symm, fun q hq => ?_, fun b hb => (nomatch hb)⟩
      rw [List.getLast?_concat] at hq
      cases hq
      exact hp

/-- blank pieces have a blank text -/
theorem isBlank_of_mem_textOf {s : List Char} {bs : List Piece}
    (hpieces : ∀ b ∈ bs, b ∈ pieces s) (hblank : ∀ b ∈ bs, b.rule = .blank) :
    ∀ c ∈ Piece.textOf bs, Text.isBlank c = true := by
  intro c hc
  obtain ⟨t, ht, hct⟩ := List.mem_flatten.mp hc
  obtain ⟨b, hb, rfl⟩ := List.mem_map.mp ht
  have hmatch := mem_language_of_mem_pieces (hpieces b hb)
  rw [hblank b hb] at hmatch
  exact isBlank_of_mem_blank hmatch c hct

/-- blank pieces are no words -/
theorem tokensFrom_append_blank (place : Text.Place) {bs : List Piece}
    (hblank : ∀ b ∈ bs, b.rule = .blank) (qs : List Piece) :
    tokensFrom place (bs ++ qs) = tokensFrom (place.advance (Piece.textOf bs)) qs := by
  induction bs generalizing place with
  | nil => rfl
  | cons b bs ih =>
    obtain ⟨hb, hmore⟩ := List.forall_mem_cons.mp hblank
    have hkind : b.kind? = none := by rw [Piece.kind?, hb]
    rw [List.cons_append, tokensFrom, hkind, Piece.textOf_cons, Text.Place.advance_append]
    exact ih _ hmore

/-! ## blanks at the beginning -/

/-- all blanks at the beginning are one piece -/
theorem pieces_blank {c : Char} {w v : List Char} (hw : ∀ d ∈ c :: w, Text.isBlank d = true)
    (hv : ∀ d, v.head? = some d → Text.isBlank d = false) :
    pieces (c :: w ++ v) = ⟨.blank, c :: w⟩ :: pieces v := by
  have hmatch : c :: w ∈ Rule.language .blank :=
    mem_one_mul.mpr ⟨c, w, rfl, hw c List.mem_cons_self,
      mem_one_kstar.mpr fun d hd => hw d (List.mem_cons_of_mem c hd)⟩
  have hlongest : ∀ r ∈ Rule.all, ∀ m ∈ r.language, m <+: c :: w ++ v →
      m.length ≤ (c :: w).length := by
    intro r _ m hm hpre
    cases m with
    | nil => exact Nat.zero_le _
    | cons d m =>
      obtain rfl : d = c := (List.cons_prefix_cons.mp hpre).1
      obtain rfl : r = .blank := eq_blank_of_cons hm (hw d List.mem_cons_self)
      rw [← Rule.runLength_append hw hv]
      exact Rule.length_le_runLength (isBlank_of_mem_blank hm) hpre
  have hmunched : Munched Rule.all (c :: w ++ v) (⟨.blank, c :: w⟩ :: pieces v) :=
    .cons (p := ⟨.blank, c :: w⟩) hlongest (firstMatch_of_mem (Rule.mem_all _) hmatch)
      (munched_all v)
  exact hmunched.eq_pieces

/-- blanks before a text only move its words -/
theorem tokensFrom_blanks (place : Text.Place) {w : List Char}
    (hw : ∀ c ∈ w, Text.isBlank c = true) (v : List Char) :
    tokensFrom place (pieces (w ++ v)) = tokensFrom (place.advance w) (pieces v) := by
  -- with all blanks at the beginning of a text taken together
  have key : ∀ (place : Text.Place) (u t : List Char), (∀ c ∈ u, Text.isBlank c = true) →
      (∀ c, t.head? = some c → Text.isBlank c = false) →
      tokensFrom place (pieces (u ++ t)) = tokensFrom (place.advance u) (pieces t) := by
    intro place u t hu ht
    cases u with
    | nil => rfl
    | cons c u => rw [pieces_blank hu ht, tokensFrom]; rfl
  have hu : ∀ c ∈ v.takeWhile Text.isBlank, Text.isBlank c = true := fun c hc =>
    List.mem_takeWhile_imp hc
  have ht : ∀ c, (v.dropWhile Text.isBlank).head? = some c → Text.isBlank c = false := by
    intro c hc
    have := List.head?_dropWhile_not Text.isBlank v
    rw [hc] at this
    simpa using this
  have hv : v = v.takeWhile Text.isBlank ++ v.dropWhile Text.isBlank :=
    List.takeWhile_append_dropWhile.symm
  have hwu : ∀ c ∈ w ++ v.takeWhile Text.isBlank, Text.isBlank c = true :=
    List.forall_mem_append.mpr ⟨hw, hu⟩
  rw [hv, ← List.append_assoc, key place _ _ hwu ht, key (place.advance w) _ _ hu ht,
    Text.Place.advance_append]

/-! ## rows by themselves -/

/-- **the words of a text, and then those of a text in a new row** -/
theorem tokensFrom_line (place : Text.Place) (a b : List Char) :
    tokensFrom place (pieces (a ++ '\n' :: b))
      = tokensFrom place (pieces a) ++ tokensFrom (place.advance (a ++ ['\n'])) (pieces b) := by
  obtain ⟨ps, bs, hpieces, hlast, hblank⟩ := exists_trimmed (pieces a)
  have htext : a = Piece.textOf ps ++ Piece.textOf bs := eq_textOf_of_pieces hpieces
  have hblanks : ∀ c ∈ Piece.textOf bs ++ ['\n'], Text.isBlank c = true := by
    refine List.forall_mem_append.mpr ⟨isBlank_of_mem_textOf (s := a) (fun b hb => ?_) hblank,
      List.forall_mem_singleton.mpr rfl⟩
    rw [hpieces]
    exact List.mem_append_right ps hb
  have hnew : pieces (a ++ '\n' :: b) = ps ++ pieces (Piece.textOf bs ++ ['\n'] ++ b) := by
    have hcut := pieces_cut hpieces (closed_line hpieces hlast b)
    rw [← List.append_assoc, ← htext] at hcut
    rw [hcut, List.append_assoc]
    rfl
  have hold : tokensFrom place (pieces a) = tokensFrom place ps := by
    have hnone := tokensFrom_append_blank (place.advance (Piece.textOf ps)) hblank []
    rw [List.append_nil] at hnone
    rw [hpieces, tokensFrom_append, hnone, tokensFrom, List.append_nil]
  rw [hnew, tokensFrom_append, tokensFrom_blanks _ hblanks, hold, ← Text.Place.advance_append,
    ← List.append_assoc, ← htext]

/-- a word so many characters and rows further on -/
def Token.moved (k r : Nat) (t : Token) : Token :=
  { t with start := t.start + k, stop := t.stop + k, row := t.row + r }

theorem tokensFrom_moved (k r : Nat) (place : Text.Place) (ps : List Piece) :
    tokensFrom (place.moved k r) ps = (tokensFrom place ps).map (Token.moved k r) := by
  induction ps generalizing place with
  | nil => rfl
  | cons p ps ih =>
    rw [tokensFrom, tokensFrom, Text.Place.advance_moved]
    cases p.kind? with
    | none => exact ih _
    | some kind =>
      rw [List.map_cons, ← ih]
      rfl

/-- words in a new row are moved by all that is before it -/
theorem tokensFrom_newline (s : List Char) (ps : List Piece) :
    tokensFrom (Text.Place.start.advance (s ++ ['\n'])) ps
      = (tokensFrom .start ps).map
          (Token.moved (s.length + 1) (Text.rowEnds (s ++ ['\n']))) := by
  have hplace : Text.Place.start.advance (s ++ ['\n'])
      = Text.Place.start.moved (s.length + 1) (Text.rowEnds (s ++ ['\n'])) := by
    rw [Text.Place.advance_newline, Text.Place.moved]
    simp [Text.Place.start]
  rw [hplace, tokensFrom_moved]

/-- **Rows are read by themselves.**  The words of two texts with a line feed between are those of
the first, and then those of the second, which stand so many characters and rows further on as
there are before it; their columns stay.  So nothing but blank goes past a line feed. -/
theorem tokenize_newline (a b : String) :
    tokenize (a ++ "\n" ++ b) = tokenize a ++ (tokenize b).map
        (Token.moved (a.length + 1) (Text.rowEnds (a ++ "\n").toList)) ∧
      ∀ p ∈ pieces (a ++ "\n" ++ b).toList, '\n' ∈ p.text → p.rule = .blank := by
  constructor
  · have htext : (a ++ "\n" ++ b).toList = a.toList ++ '\n' :: b.toList := by simp
    have hrow : (a ++ "\n").toList = a.toList ++ ['\n'] := by simp
    rw [tokenize, htext, tokensFrom_line, tokensFrom_newline, hrow, String.length_toList]
    rfl
  · intro p hp hmem
    by_contra hr
    exact avoids_newline hr p.text (mem_language_of_mem_pieces hp) hmem

/-! ## more blanks -/

/-- after a comment there is a new row, and not a word -/
theorem kind?_after_comment {s : List Char} {us rs : List Piece} {p q : Piece}
    (h : pieces s = us ++ p :: q :: rs) (hp : p.rule = .comment) : q.kind? = none := by
  have hmem : p ∈ pieces s := by rw [h]; simp
  have hcomment : p.text ∈ Rule.language .comment := hp ▸ mem_language_of_mem_pieces hmem
  have hq : q ∈ pieces s := by rw [h]; simp
  obtain ⟨c, w, hw⟩ := List.exists_cons_of_ne_nil (text_ne_nil hq)
  have hends : ∀ d, (Piece.textOf (q :: rs)).head? = some d → d = '\n' :=
    head?_of_comment hcomment fun v hv hpre => pieces_longest h hv hpre
  have hnewline : c = '\n' := hends c (by rw [Piece.textOf_cons, hw]; rfl)
  have hblank : q.rule = .blank := by
    by_contra hr
    refine avoids_newline hr q.text (mem_language_of_mem_pieces hq) ?_
    rw [hw, hnewline]
    exact List.mem_cons_self
  rw [Piece.kind?, hblank]

theorem Token.Alike.refl (ts : List Token) : List.Forall₂ Token.Alike ts ts :=
  List.forall₂_same.mpr fun _ _ => ⟨rfl, rfl⟩

/-- **more blanks beside a word** leave all words as they are -/
theorem tokenize_between {s : List Char} {ps qs : List Piece} (h : pieces s = ps ++ qs)
    (hword : (∃ p, ps.getLast? = some p ∧ p.kind? ≠ none) ∨
      ∃ q, qs.head? = some q ∧ q.kind? ≠ none)
    {w : List Char} (hw : ∀ c ∈ w, Text.isBlank c = true) (place : Text.Place) :
    List.Forall₂ Token.Alike
      (tokensFrom place (pieces (Piece.textOf ps ++ (w ++ Piece.textOf qs))))
      (tokensFrom place (pieces s)) := by
  obtain ⟨ps, bs, rfl, hlast, hblank⟩ := exists_trimmed ps
  have h' : pieces s = ps ++ (bs ++ qs) := by rw [h, List.append_assoc]
  have hbs : ∀ b ∈ bs, b ∈ pieces s := by
    intro b hb
    rw [h']
    exact List.mem_append_right ps (List.mem_append_left qs hb)
  have hb : ∀ c ∈ Piece.textOf bs, Text.isBlank c = true := isBlank_of_mem_textOf hbs hblank
  have hcomment : ∀ p, ps.getLast? = some p → p.rule = .comment → Piece.textOf bs ≠ [] := by
    intro p hp hr hnil
    obtain rfl := eq_nil_of_textOf hbs hnil
    rcases hword with ⟨q, hq, hk⟩ | ⟨q, hq, hk⟩
    · rw [List.append_nil, hp] at hq
      cases hq
      exact hk (by rw [Piece.kind?, hr])
    · obtain ⟨ps, rfl⟩ := List.getLast?_eq_some_iff.mp hp
      obtain ⟨qs, rfl⟩ := List.head?_eq_some_iff.mp hq
      rw [List.append_assoc] at h'
      exact hk (kind?_after_comment h' hr)
  have hclosed := closed_spaced h' (Piece.textOf_append bs qs) hw fun p hp =>
    ⟨hlast p hp, hcomment p hp⟩
  have hqs : pieces (Piece.textOf qs) = qs := by
    have hex : pieces s = (ps ++ bs) ++ (qs ++ []) := by rw [h, List.append_nil]
    exact pieces_excerpt hex
  have hwb : ∀ c ∈ Piece.textOf bs ++ w, Text.isBlank c = true :=
    List.forall_mem_append.mpr ⟨hb, hw⟩
  rw [Piece.textOf_append, List.append_assoc, pieces_cut h' hclosed, ← List.append_assoc _ w, h',
    tokensFrom_append, tokensFrom_append, tokensFrom_blanks _ hwb, hqs,
    tokensFrom_append_blank _ hblank]
  exact List.rel_append (Token.Alike.refl _) (tokensFrom_alike _ _ qs)

/-- a text with some more characters at an offset -/
def Text.insert (text : String) (k : Nat) (w : List Char) : String :=
  String.ofList (text.toList.take k ++ (w ++ text.toList.drop k))

/-- a word alone is the same word -/
theorem tokenize_word {text : String} {t : Token} (ht : t ∈ tokenize text) :
    List.Forall₂ Token.Alike (tokenize t.text) [t] := by
  obtain ⟨before, after, htokens⟩ := List.append_of_mem ht
  obtain ⟨as, p, bs, hpieces, hp, _, _, hfirst⟩ := exists_pieces_from htokens
  obtain ⟨kind, hkind⟩ := Option.ne_none_iff_exists'.mp hp
  rw [tokensFrom, hkind] at hfirst
  obtain rfl := (List.cons.inj hfirst).1
  have halone : pieces p.text = [p] := by
    have hex : pieces text.toList = as ++ ([p] ++ bs) := hpieces
    have hone : Piece.textOf [p] = p.text := List.append_nil _
    rw [← hone]
    exact pieces_excerpt hex
  rw [tokenize, String.toList_ofList, halone, tokensFrom, hkind]
  exact .cons ⟨rfl, rfl⟩ .nil

/-- words that are each read alone, a row for each -/
theorem tokenize_intercalate {ts : List Token}
    (h : ∀ t ∈ ts, List.Forall₂ Token.Alike (tokenize t.text) [t]) :
    List.Forall₂ Token.Alike (tokenize (String.intercalate "\n" (ts.map Token.text))) ts := by
  induction ts with
  | nil =>
    rw [List.map_nil, String.intercalate_nil, tokenize, String.toList_empty, pieces_nil]
    exact .nil
  | cons t ts ih =>
    obtain ⟨hfirst, hmore⟩ := List.forall_mem_cons.mp h
    cases ts with
    | nil => exact hfirst
    | cons u ts =>
      have htext : (String.intercalate "\n" ((t :: u :: ts).map Token.text)).toList
          = t.text.toList ++ '\n' :: (String.intercalate "\n" ((u :: ts).map Token.text)).toList := by
        rw [List.map_cons, List.map_cons, String.intercalate_cons_cons, String.toList_append,
          String.toList_append, List.append_assoc]
        rfl
      rw [tokenize, htext, tokensFrom_line, tokensFrom_newline]
      refine List.rel_append hfirst (List.forall₂_map_left_iff.mpr ?_)
      exact (ih hmore).imp fun _ _ halike => ⟨halike.kind, halike.text⟩

/-- **Layout does not matter between words.**  More blanks at the start or at the stop of a word
leave all words as they are, and so does a row for each word. -/
theorem tokenize_layout (text : String) :
    (∀ k, (∃ t ∈ tokenize text, k = t.start ∨ k = t.stop) →
      ∀ w : List Char, (∀ c ∈ w, Text.isBlank c = true) →
        List.Forall₂ Token.Alike (tokenize (Text.insert text k w)) (tokenize text)) ∧
      List.Forall₂ Token.Alike
        (tokenize (String.intercalate "\n" ((tokenize text).map Token.text))) (tokenize text) := by
  refine ⟨?_, tokenize_intercalate fun t ht => tokenize_word ht⟩
  rintro k ⟨t, ht, hk⟩ w hw
  obtain ⟨before, after, htokens⟩ := List.append_of_mem ht
  obtain ⟨as, p, bs, hpieces, hp, hstart, hstop, _⟩ := exists_pieces_from htokens
  have hoffset : t.start = (Piece.textOf as).length := hstart.trans (Nat.zero_add _)
  -- at the end of some pieces, of which the last is a word or the next
  have hsplit : ∃ ps qs, pieces text.toList = ps ++ qs ∧ k = (Piece.textOf ps).length ∧
      ((∃ p, ps.getLast? = some p ∧ p.kind? ≠ none) ∨ ∃ q, qs.head? = some q ∧ q.kind? ≠ none) := by
    rcases hk with rfl | rfl
    · exact ⟨as, p :: bs, hpieces, hoffset, .inr ⟨p, rfl, hp⟩⟩
    · refine ⟨as ++ [p], bs, ?_, ?_, .inl ⟨p, List.getLast?_concat, hp⟩⟩
      · rw [hpieces, List.append_assoc]
        rfl
      · rw [hstop, hoffset, Piece.textOf_append, List.length_append, Piece.textOf_cons,
          List.length_append]
        rfl
  obtain ⟨ps, qs, hps, rfl, hword⟩ := hsplit
  have htext : text.toList = Piece.textOf ps ++ Piece.textOf qs := eq_textOf_of_pieces hps
  have hinsert : (Text.insert text (Piece.textOf ps).length w).toList
      = Piece.textOf ps ++ (w ++ Piece.textOf qs) := by
    rw [Text.insert, String.toList_ofList, htext, List.take_left, List.drop_left]
  rw [tokenize, hinsert]
  exact tokenize_between hps hword hw .start

/-- blanks and a row after a quote that no other quote follows -/
theorem tokenize_layout_loneQuote :
    (∃ t ∈ tokenize "\"A $;1", 1 = t.start ∨ 1 = t.stop) ∧
      (∀ c ∈ [' ', '\n'], Text.isBlank c = true) ∧
      List.Forall₂ Token.Alike (tokenize "\" \nA $;1") (tokenize "\"A $;1") := by
  have htokens : tokenize "\"A $;1" =
      [⟨.bogus, "\"", 0, 1, 1, 0⟩, ⟨.atom, "A", 1, 2, 1, 1⟩, ⟨.bogus, "$", 3, 4, 1, 3⟩] := by
    decide +kernel
  have hk : ∃ t ∈ tokenize "\"A $;1", 1 = t.start ∨ 1 = t.stop := by
    rw [htokens]
    exact ⟨_, List.mem_cons_self, .inr rfl⟩
  have hw : ∀ c ∈ [' ', '\n'], Text.isBlank c = true :=
    List.forall_mem_cons.mpr ⟨rfl, List.forall_mem_singleton.mpr rfl⟩
  exact ⟨hk, hw, (tokenize_layout "\"A $;1").1 1 hk [' ', '\n'] hw⟩

end TableAssembler

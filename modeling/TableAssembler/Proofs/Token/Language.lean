import Mathlib.Computability.Language
import Mathlib.Data.List.TakeWhile
import TableAssembler.Token.Rule

/-!
# The languages of the lexical rules

`Rule.reach` computes how far a rule goes.  Here each rule has the pattern that it stands for, as a
language over the characters, and the two are compared.

* `Rule.language`             the texts that a rule matches, as a regular expression;
* `Reaches`                   the length of the longest match of a language at the beginning of a
                              text, and `Rule.reaches_reach`: a rule's reach is just that;
* `Rule.eq_of_mem_language`   no text belongs to two rules;
* `Rule.take_longest_mem`, `Rule.length_le_longest`   the piece that is cut off belongs to the
                              winner, and no rule has a longer match.
-/

namespace TableAssembler
open scoped Computability

/-! ## characters by number -/

theorem isDigit_iff (c : Char) : c.isDigit = true ↔ 48 ≤ c.toNat ∧ c.toNat ≤ 57 := by
  simp only [Char.isDigit, Bool.and_eq_true, decide_eq_true_eq]
  exact Iff.rfl

theorem isUpper_iff (c : Char) : c.isUpper = true ↔ 65 ≤ c.toNat ∧ c.toNat ≤ 90 := by
  show decide (_ ∧ _) = true ↔ _
  rw [decide_eq_true_eq]
  exact Iff.rfl

theorem isLower_iff (c : Char) : c.isLower = true ↔ 97 ≤ c.toNat ∧ c.toNat ≤ 122 := by
  show (decide _ && decide _) = true ↔ _
  rw [Bool.and_eq_true, decide_eq_true_eq, decide_eq_true_eq]
  exact Iff.rfl

theorem isLetter_iff (c : Char) : isLetter c = true ↔
    65 ≤ c.toNat ∧ c.toNat ≤ 90 ∨ 97 ≤ c.toNat ∧ c.toNat ≤ 122 := by
  show (c.isUpper || c.isLower) = true ↔ _
  rw [Bool.or_eq_true, isUpper_iff, isLower_iff]

theorem isBlank_iff (c : Char) : Text.isBlank c = true ↔
    c.toNat = 32 ∨ 9 ≤ c.toNat ∧ c.toNat ≤ 13 := by
  simp only [Text.isBlank, Bool.or_eq_true, Bool.and_eq_true, decide_eq_true_eq, beq_iff_eq,
    ← Char.toNat_inj]
  exact Iff.rfl

theorem isLetter_of_isDigit {c : Char} (h : c.isDigit = true) : isLetter c = false := by
  rw [isDigit_iff] at h
  rw [Bool.eq_false_iff, ne_eq, isLetter_iff]
  omega

theorem isLetter_of_isBlank {c : Char} (h : Text.isBlank c = true) : isLetter c = false := by
  rw [isBlank_iff] at h
  rw [Bool.eq_false_iff, ne_eq, isLetter_iff]
  omega

theorem isDigit_of_isBlank {c : Char} (h : Text.isBlank c = true) : c.isDigit = false := by
  rw [isBlank_iff] at h
  rw [Bool.eq_false_iff, ne_eq, isDigit_iff]
  omega

/-! ## patterns -/

/-- the texts of one character with a property -/
def one (p : Char → Bool) : Language Char := {w | ∃ c, p c = true ∧ w = [c]}

theorem mem_one {p : Char → Bool} {w : List Char} : w ∈ one p ↔ ∃ c, p c = true ∧ w = [c] := Iff.rfl

theorem singleton_mem_one {p : Char → Bool} {c : Char} : [c] ∈ one p ↔ p c = true := by
  rw [mem_one]
  constructor
  · rintro ⟨d, hd, h⟩
    rw [List.singleton_inj.mp h]
    exact hd
  · exact fun h => ⟨c, h, rfl⟩

theorem mem_one_kstar {p : Char → Bool} {w : List Char} : w ∈ (one p)∗ ↔ ∀ c ∈ w, p c = true := by
  rw [Language.mem_kstar]
  constructor
  · rintro ⟨us, rfl, h⟩ c hc
    obtain ⟨u, hu, hcu⟩ := List.mem_flatten.mp hc
    obtain ⟨d, hd, rfl⟩ := h u hu
    rw [List.mem_singleton.mp hcu]
    exact hd
  · intro h
    refine ⟨w.map fun c => [c], ?_, ?_⟩
    · induction w with
      | nil => rfl
      | cons c w ih =>
        have hw : ∀ d ∈ w, p d = true := fun d hd => h d (List.mem_cons_of_mem c hd)
        rw [List.map_cons, List.flatten_cons, ← ih hw]
        rfl
    · intro u hu
      obtain ⟨c, hc, rfl⟩ := List.mem_map.mp hu
      exact singleton_mem_one.mpr (h c hc)

theorem mem_one_mul {p : Char → Bool} {l : Language Char} {w : List Char} :
    w ∈ one p * l ↔ ∃ c u, w = c :: u ∧ p c = true ∧ u ∈ l := by
  rw [Language.mem_mul]
  constructor
  · rintro ⟨_, ⟨c, hc, rfl⟩, u, hu, rfl⟩
    exact ⟨c, u, rfl, hc, hu⟩
  · rintro ⟨c, u, rfl, hc, hu⟩
    exact ⟨[c], ⟨c, hc, rfl⟩, u, hu, rfl⟩

namespace Rule

/-- the signs that are an operator by themselves -/
def isSign (c : Char) : Bool := ['+', '-', '*', '/', '^', '&', '|'].contains c

/-- the texts that a rule matches -/
def language : Rule → Language Char
  | .blank => one Text.isBlank * (one Text.isBlank)∗
  | .comment => one (· == ';') * (one (· ≠ '\n'))∗
  | .word => one isLetter * (one isWordChar)∗
  | .decimal => one Char.isDigit * (one Char.isDigit)∗
  | .hex => one (· == '$') * (one isHexDigit * (one isHexDigit)∗)
  | .binary => one (· == '%') * (one isBinaryDigit * (one isBinaryDigit)∗)
  | .string => one (· == '"') * ((one fun c => c ≠ '"' && c ≠ '\n')∗ * one (· == '"'))
  | .operator => {['*', '*']} + {['<', '<']} + {['>', '>']} + {['\\', '\\']} + one isSign
  | .bogus => one fun c =>
      !(isLetter c || c.isDigit || Text.isBlank c || c == ';' || isSign c)

/-! ## the reach of a pattern -/

/-- the longest match of a language at the beginning of a text has length `n`, where zero says that
nothing matches -/
structure Reaches (l : Language Char) (s : List Char) (n : Nat) : Prop where
  mem : n ≠ 0 → s.take n ∈ l
  longest : ∀ w ∈ l, w <+: s → w.length ≤ n

theorem Reaches.nil (l : Language Char) : Reaches l [] 0 :=
  ⟨fun h => absurd rfl h, fun w _ hw => by rw [List.prefix_nil.mp hw]; exact Nat.le_refl _⟩

theorem all_take_runLength (p : Char → Bool) (s : List Char) :
    ∀ c ∈ s.take (runLength p s), p c = true := by
  intro c hc
  have h : s.takeWhile p = s.take (runLength p s) :=
    List.prefix_iff_eq_take.mp (List.takeWhile_prefix p)
  rw [← h] at hc
  exact List.mem_takeWhile_imp hc

theorem length_le_runLength {p : Char → Bool} {u s : List Char} (hu : ∀ c ∈ u, p c = true)
    (h : u <+: s) : u.length ≤ runLength p s := by
  induction u generalizing s with
  | nil => exact Nat.zero_le _
  | cons c u ih =>
    obtain ⟨t, rfl⟩ := h
    rw [List.cons_append, runLength_cons_pos _ (hu c List.mem_cons_self), List.length_cons]
    exact Nat.succ_le_succ (ih (fun d hd => hu d (List.mem_cons_of_mem c hd)) ⟨t, rfl⟩)

theorem runLength_append {p : Char → Bool} {u t : List Char} (hu : ∀ c ∈ u, p c = true)
    (ht : ∀ c, t.head? = some c → p c = false) : runLength p (u ++ t) = u.length := by
  induction u with
  | nil =>
    cases t with
    | nil => rfl
    | cons c t => exact runLength_cons_neg t (ht c rfl)
  | cons c u ih =>
    rw [List.cons_append, runLength_cons_pos _ (hu c List.mem_cons_self),
      ih fun d hd => hu d (List.mem_cons_of_mem c hd), List.length_cons]

/-- one character, and then as many of another sort as there are -/
theorem reaches_opened (p q : Char → Bool) (c : Char) (s : List Char) :
    Reaches (one p * (one q)∗) (c :: s) (if p c then runLength q s + 1 else 0) := by
  constructor
  · intro hn
    split at hn
    · next hc =>
      rw [if_pos hc, List.take_succ_cons, mem_one_mul]
      exact ⟨c, _, rfl, hc, mem_one_kstar.mpr (all_take_runLength q s)⟩
    · exact absurd rfl hn
  · intro w hw hws
    obtain ⟨d, u, rfl, hd, hu⟩ := mem_one_mul.mp hw
    obtain ⟨rfl, hus⟩ := List.cons_prefix_cons.mp hws
    rw [if_pos hd, List.length_cons]
    exact Nat.succ_le_succ (length_le_runLength (mem_one_kstar.mp hu) hus)

theorem reaches_run (p : Char → Bool) (s : List Char) :
    Reaches (one p * (one p)∗) s (runLength p s) := by
  cases s with
  | nil => exact Reaches.nil _
  | cons c s =>
    have h := reaches_opened p p c s
    cases hc : p c with
    | true => rw [hc, if_pos rfl] at h; rw [runLength_cons_pos s hc]; exact h
    | false => rw [hc, if_neg Bool.false_ne_true] at h; rw [runLength_cons_neg s hc]; exact h

/-- one character before another pattern -/
theorem Reaches.after {l : Language Char} {s : List Char} {n : Nat} (h : Reaches l s n)
    (hl : [] ∉ l) (mark c : Char) :
    Reaches (one (· == mark) * l) (c :: s) (if c = mark ∧ n ≠ 0 then n + 1 else 0) := by
  constructor
  · intro hn
    split at hn
    · next hc =>
      rw [if_pos hc, List.take_succ_cons, mem_one_mul]
      exact ⟨c, _, rfl, by simp [hc.1], h.mem hc.2⟩
    · exact absurd rfl hn
  · intro w hw hws
    obtain ⟨d, u, rfl, hd, hu⟩ := mem_one_mul.mp hw
    obtain ⟨rfl, hus⟩ := List.cons_prefix_cons.mp hws
    have hlen := h.longest u hu hus
    have hne : n ≠ 0 := by
      rintro rfl
      rw [List.eq_nil_of_length_eq_zero (Nat.le_zero.mp hlen)] at hu
      exact hl hu
    rw [if_pos ⟨by simpa using hd, hne⟩, List.length_cons]
    exact Nat.succ_le_succ hlen

theorem reaches_marked (mark : Char) (p : Char → Bool) (s : List Char) :
    Reaches (one (· == mark) * (one p * (one p)∗)) s (markedReach mark p s) := by
  cases s with
  | nil => exact Reaches.nil _
  | cons c s =>
    refine (reaches_run p s).after ?_ mark c
    intro h
    obtain ⟨d, u, hu, _⟩ := mem_one_mul.mp h
    cases hu

/-- a run up to a quote -/
theorem reaches_closed (p : Char → Bool) (hp : p '"' = false) (s : List Char) :
    Reaches ((one p)∗ * one (· == '"')) s
      (if (s.drop (runLength p s)).head? = some '"' then runLength p s + 1 else 0) := by
  constructor
  · intro hn
    split at hn
    · next hq =>
      rw [List.head?_drop] at hq
      rw [if_pos (by rw [List.head?_drop]; exact hq), List.take_add_one, hq]
      exact Language.append_mem_mul (mem_one_kstar.mpr (all_take_runLength p s))
        (singleton_mem_one.mpr rfl)
    · exact absurd rfl hn
  · intro w hw hws
    obtain ⟨u, hu, v, ⟨c, hc, rfl⟩, rfl⟩ := Language.mem_mul.mp hw
    obtain ⟨t, rfl⟩ := hws
    have hrun : runLength p (u ++ ([c] ++ t)) = u.length := by
      refine runLength_append (mem_one_kstar.mp hu) fun d hd => ?_
      rw [← Option.some.inj hd, eq_of_beq hc]
      exact hp
    rw [List.append_assoc, hrun, List.drop_left, if_pos (by rw [eq_of_beq hc]; rfl)]
    simp

theorem reaches_string (s : List Char) : Reaches (language .string) s (stringReach s) := by
  cases s with
  | nil => exact Reaches.nil _
  | cons c s =>
    have h := (reaches_closed (fun c => c ≠ '"' && c ≠ '\n') rfl s).after ?_ '"' c
    · have e : ∀ (n : Nat) (b : Prop) [Decidable b],
          (if c = '"' ∧ (if b then n + 1 else 0) ≠ 0 then (if b then n + 1 else 0) + 1 else 0)
            = if c = '"' ∧ b then n + 2 else 0 := by
        intro n b _
        by_cases hb : b <;> simp [hb]
      rw [e] at h
      exact h
    · intro h
      obtain ⟨u, _, v, ⟨d, _, rfl⟩, he⟩ := Language.mem_mul.mp h
      simp at he

/-! ## operators -/

theorem mem_operator {w : List Char} : w ∈ language .operator ↔
    w = ['*', '*'] ∨ w = ['<', '<'] ∨ w = ['>', '>'] ∨ w = ['\\', '\\'] ∨
      ∃ c, isSign c = true ∧ w = [c] := by
  simp only [language, Language.mem_add, mem_one, or_assoc]
  rfl

theorem isSymbol_iff {w : List Char} : isSymbol w = true ↔ w ∈ language .operator := by
  have e : symbols = [['+'], ['-'], ['*'], ['/'], ['\\', '\\'], ['*', '*'], ['^'], ['&'], ['|'],
      ['<', '<'], ['>', '>']] := by
    decide
  rw [isSymbol, e, mem_operator, List.contains_iff_mem]
  constructor
  · intro h
    simp only [List.mem_cons, List.not_mem_nil, or_false] at h
    rcases h with rfl | rfl | rfl | rfl | rfl | rfl | rfl | rfl | rfl | rfl | rfl <;> simp [isSign]
  · rintro (rfl | rfl | rfl | rfl | ⟨c, hc, rfl⟩)
    · decide
    · decide
    · decide
    · decide
    · rw [isSign, List.contains_iff_mem] at hc
      simp only [List.mem_cons, List.not_mem_nil, or_false] at hc
      rcases hc with rfl | rfl | rfl | rfl | rfl | rfl | rfl <;> decide

/-- an operator has one sign or two -/
theorem length_of_mem_operator {w : List Char} (h : w ∈ language .operator) :
    w.length = 1 ∨ w.length = 2 := by
  rcases mem_operator.mp h with rfl | rfl | rfl | rfl | ⟨c, _, rfl⟩
  · exact .inr rfl
  · exact .inr rfl
  · exact .inr rfl
  · exact .inr rfl
  · exact .inl rfl

theorem reaches_symbol (s : List Char) : Reaches (language .operator) s (symbolReach s) := by
  unfold symbolReach
  constructor
  · intro hn
    split at hn
    · next h2 =>
      rw [if_pos h2, List.length_take, ← List.take_eq_take_min]
      exact isSymbol_iff.mp h2
    · next h2 =>
      rw [if_neg h2]
      split at hn
      · next h1 => rw [if_pos h1]; exact isSymbol_iff.mp h1
      · exact absurd rfl hn
  · intro w hw hws
    have hs : isSymbol w = true := isSymbol_iff.mpr hw
    have e : w = s.take w.length := List.prefix_iff_eq_take.mp hws
    have hle : w.length ≤ s.length := hws.length_le
    rcases length_of_mem_operator hw with h | h
    · rw [h] at e
      rw [e] at hs
      split
      · rw [h, List.length_take]
        omega
      · exact h.le
    · rw [h] at e
      rw [← e, if_pos hs]

/-! ## all rules -/

theorem isSymbol_singleton (c : Char) : isSymbol [c] = isSign c := by
  rw [Bool.eq_iff_iff, isSymbol_iff, mem_operator]
  simp

theorem reaches_one (p : Char → Bool) (c : Char) (s : List Char) :
    Reaches (one p) (c :: s) (if p c then 1 else 0) := by
  constructor
  · intro hn
    split at hn
    · next hc => rw [if_pos hc]; exact ⟨c, hc, rfl⟩
    · exact absurd rfl hn
  · rintro _ ⟨d, hd, rfl⟩ hws
    rw [← (List.cons_prefix_cons.mp hws).1, if_pos hd]
    exact Nat.le_refl 1

/-- **the reach of a rule is the length of its longest match** -/
theorem reaches_reach (r : Rule) (s : List Char) : Reaches r.language s (r.reach s) := by
  cases s with
  | nil =>
    have h0 : r.reach [] = 0 := by cases r <;> rfl
    rw [h0]
    exact Reaches.nil _
  | cons c s =>
    cases r with
    | blank => exact reaches_run Text.isBlank (c :: s)
    | comment =>
      have h := reaches_opened (· == ';') (· ≠ '\n') c s
      simp only [beq_iff_eq] at h
      exact h
    | word => exact reaches_opened isLetter isWordChar c s
    | decimal => exact reaches_run Char.isDigit (c :: s)
    | hex => exact reaches_marked '$' isHexDigit (c :: s)
    | binary => exact reaches_marked '%' isBinaryDigit (c :: s)
    | string => exact reaches_string (c :: s)
    | operator => exact reaches_symbol (c :: s)
    | bogus =>
      show Reaches _ _ (if isBogus c then 1 else 0)
      rw [isBogus, isSymbol_singleton]
      exact reaches_one _ c s

/-! ## no text belongs to two rules -/

/-- the rule of a text by its first character, and by whether that stands alone -/
def opening (c : Char) (alone : Bool) : Rule :=
  if isLetter c then .word
  else if c.isDigit then .decimal
  else if Text.isBlank c then .blank
  else if c = ';' then .comment
  else if alone then if isSign c then .operator else .bogus
  else if c = '$' then .hex
  else if c = '%' then .binary
  else if c = '"' then .string
  else .operator

theorem opening_sign {c : Char} (h : isSign c = true) : opening c true = .operator := by
  rw [isSign, List.contains_iff_mem] at h
  simp only [List.mem_cons, List.not_mem_nil, or_false] at h
  rcases h with rfl | rfl | rfl | rfl | rfl | rfl | rfl <;> decide

theorem opening_of_mem_language {r : Rule} {w : List Char} (h : w ∈ r.language) :
    ∃ c u, w = c :: u ∧ opening c u.isEmpty = r := by
  cases r with
  | blank =>
    obtain ⟨c, u, rfl, hc, _⟩ := mem_one_mul.mp h
    refine ⟨c, u, rfl, ?_⟩
    simp [opening, isLetter_of_isBlank hc, isDigit_of_isBlank hc, hc]
  | comment =>
    obtain ⟨c, u, rfl, hc, _⟩ := mem_one_mul.mp h
    rw [eq_of_beq hc]
    exact ⟨';', u, rfl, rfl⟩
  | word =>
    obtain ⟨c, u, rfl, hc, _⟩ := mem_one_mul.mp h
    exact ⟨c, u, rfl, if_pos hc⟩
  | decimal =>
    obtain ⟨c, u, rfl, hc, _⟩ := mem_one_mul.mp h
    refine ⟨c, u, rfl, ?_⟩
    simp [opening, isLetter_of_isDigit hc, hc]
  | hex =>
    obtain ⟨c, u, rfl, hc, hu⟩ := mem_one_mul.mp h
    obtain ⟨d, v, rfl, _, _⟩ := mem_one_mul.mp hu
    rw [eq_of_beq hc]
    exact ⟨'$', d :: v, rfl, rfl⟩
  | binary =>
    obtain ⟨c, u, rfl, hc, hu⟩ := mem_one_mul.mp h
    obtain ⟨d, v, rfl, _, _⟩ := mem_one_mul.mp hu
    rw [eq_of_beq hc]
    exact ⟨'%', d :: v, rfl, rfl⟩
  | string =>
    obtain ⟨c, u, rfl, hc, hu⟩ := mem_one_mul.mp h
    obtain ⟨v, _, _, ⟨d, _, rfl⟩, rfl⟩ := Language.mem_mul.mp hu
    rw [eq_of_beq hc]
    refine ⟨'"', v ++ [d], rfl, ?_⟩
    have hv : (v ++ [d]).isEmpty = false := by simp
    rw [hv]
    rfl
  | operator =>
    rcases mem_operator.mp h with rfl | rfl | rfl | rfl | ⟨c, hc, rfl⟩
    · exact ⟨'*', ['*'], rfl, rfl⟩
    · exact ⟨'<', ['<'], rfl, rfl⟩
    · exact ⟨'>', ['>'], rfl, rfl⟩
    · exact ⟨'\\', ['\\'], rfl, rfl⟩
    · exact ⟨c, [], rfl, opening_sign hc⟩
  | bogus =>
    obtain ⟨c, hc, rfl⟩ := h
    refine ⟨c, [], rfl, ?_⟩
    simp only [Bool.not_eq_true', Bool.or_eq_false_iff, beq_eq_false_iff_ne] at hc
    obtain ⟨⟨⟨⟨hl, hd⟩, hb⟩, hs⟩, ho⟩ := hc
    simp [opening, hl, hd, hb, hs, ho]

/-- **no text belongs to two rules** -/
theorem eq_of_mem_language {r r' : Rule} {w : List Char} (h : w ∈ r.language)
    (h' : w ∈ r'.language) : r = r' := by
  obtain ⟨c, u, rfl, hr⟩ := opening_of_mem_language h
  obtain ⟨c', u', e, hr'⟩ := opening_of_mem_language h'
  obtain ⟨rfl, rfl⟩ := List.cons.inj e
  rw [← hr, ← hr']

theorem nil_notMem_language (r : Rule) : [] ∉ r.language := by
  intro h
  obtain ⟨c, u, e, _⟩ := opening_of_mem_language h
  cases e

/-! ## the winner -/

theorem foldl_farther_mem (best : Rule × Nat) (others : List (Rule × Nat)) :
    others.foldl farther best = best ∨ others.foldl farther best ∈ others := by
  induction others generalizing best with
  | nil => exact .inl rfl
  | cons other others ih =>
    rw [List.foldl_cons]
    rcases ih (farther best other) with h | h
    · rw [h]
      unfold farther
      split
      · exact .inr List.mem_cons_self
      · exact .inl rfl
    · exact .inr (List.mem_cons_of_mem other h)

/-- the piece that is cut off a text belongs to the rule that wins -/
theorem take_longest_mem (c : Char) (s : List Char) :
    (c :: s).take (longest (c :: s)).2 ∈ (longest (c :: s)).1.language := by
  have hpos := longest_pos c s
  rcases foldl_farther_mem (.bogus, 0) (all.map fun r => (r, r.reach (c :: s))) with h | h
  · have h0 : (longest (c :: s)).2 = 0 := congrArg Prod.snd h
    omega
  · obtain ⟨r, _, hr⟩ := List.mem_map.mp h
    have e : longest (c :: s) = (r, r.reach (c :: s)) := hr.symm
    rw [e] at hpos ⊢
    exact (reaches_reach r (c :: s)).mem hpos.ne'

/-- no match is longer than the piece that is cut off -/
theorem length_le_longest {r : Rule} {w s : List Char} (hw : w ∈ r.language) (hws : w <+: s) :
    w.length ≤ (s.take (longest s).2).length := by
  have h := Nat.le_trans ((reaches_reach r s).longest w hw hws) (reach_le_longest r s)
  have hlen := hws.length_le
  rw [List.length_take]
  omega

end Rule

end TableAssembler

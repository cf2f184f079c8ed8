import TableAssembler.Operator
import TableAssembler.Text.Blank

/-!
# Lexical rules

A text is cut into pieces, each of which belongs to one of nine rules.  A rule reaches as far into a
text as the longest piece of its own that the text begins with.

The rules are those of the language.  That the rule is followed which reaches farthest, and the first
of several that reach equally far, is how the scanning library chooses among its patterns, and so is
what a pattern means: its classes of characters, and as many of them as there are.

* `Rule`         the rules;
* `Rule.reach`   how far a rule reaches, zero if the text begins with no piece of the rule;
* `Rule.longest` the rule that reaches farthest, with `longest_pos`: one always does.
-/

namespace TableAssembler

/-! ## characters -/

def isLetter (c : Char) : Bool := c.isAlpha

/-- The characters of a word after its first one. -/
def isWordChar (c : Char) : Bool := c.isAlphanum || c == '_'

def isHexDigit (c : Char) : Bool :=
  c.isDigit || ('a' ≤ c && c ≤ 'f') || ('A' ≤ c && c ≤ 'F')

def isBinaryDigit (c : Char) : Bool := c == '0' || c == '1'

/-- How many characters at the beginning of a text have a property. -/
def runLength (p : Char → Bool) (s : List Char) : Nat := (s.takeWhile p).length

theorem runLength_cons_pos {p : Char → Bool} {c : Char} (s : List Char) (h : p c = true) :
    runLength p (c :: s) = runLength p s + 1 := by
  simp [runLength, h]

theorem runLength_cons_neg {p : Char → Bool} {c : Char} (s : List Char) (h : p c = false) :
    runLength p (c :: s) = 0 := by
  simp [runLength, h]

/-! ## rules -/

/-- The rules: blanks, comments, words, numerals in three bases, strings, operators, and single
characters that begin nothing else. -/
inductive Rule where
  | blank
  | comment
  | word
  | decimal
  | hex
  | binary
  | string
  | operator
  | bogus
deriving DecidableEq, Repr, Inhabited

namespace Rule

def all : List Rule :=
  [.blank, .comment, .word, .decimal, .hex, .binary, .string, .operator, .bogus]

theorem mem_all (r : Rule) : r ∈ all := by cases r <;> decide

/-- The operators that are spelled with signs. -/
def symbols : List (List Char) :=
  (Operator.all.filter (· ≠ .replicate)).map fun op => op.glyph.toList

/-- Whether some signs are an operator. -/
def isSymbol (signs : List Char) : Bool := symbols.contains signs

/-- Whether a character cannot be the first of a piece of another rule unless more follows. -/
def isBogus (c : Char) : Bool :=
  !(isLetter c || c.isDigit || Text.isBlank c || c == ';' || isSymbol [c])

/-- The reach of a numeral that opens with a mark and needs a digit. -/
def markedReach (mark : Char) (isDigit : Char → Bool) : List Char → Nat
  | [] => 0
  | c :: s => if c = mark ∧ runLength isDigit s ≠ 0 then runLength isDigit s + 1 else 0

/-- The reach of a string: from a quote to the next one on the same line. -/
def stringReach : List Char → Nat
  | [] => 0
  | c :: s =>
    let inside := runLength (fun c => c ≠ '"' && c ≠ '\n') s
    if c = '"' ∧ (s.drop inside).head? = some '"' then inside + 2 else 0

/-- The reach of an operator: two signs if they are one together, or else one. -/
def symbolReach (s : List Char) : Nat :=
  if isSymbol (s.take 2) then (s.take 2).length
  else if isSymbol (s.take 1) then 1
  else 0

/-- How far a rule reaches into a text. -/
def reach : Rule → List Char → Nat
  | .blank, s => runLength Text.isBlank s
  | .comment, s =>
    match s with
    | [] => 0
    | c :: s => if c = ';' then runLength (· ≠ '\n') s + 1 else 0
  | .word, s =>
    match s with
    | [] => 0
    | c :: s => if isLetter c then runLength isWordChar s + 1 else 0
  | .decimal, s => runLength Char.isDigit s
  | .hex, s => markedReach '$' isHexDigit s
  | .binary, s => markedReach '%' isBinaryDigit s
  | .string, s => stringReach s
  | .operator, s => symbolReach s
  | .bogus, s =>
    match s with
    | [] => 0
    | c :: _ => if isBogus c then 1 else 0

/-- The farther of two rules, given with their reaches; the first if they reach equally far. -/
def farther (best : Rule × Nat) (other : Rule × Nat) : Rule × Nat :=
  if best.2 < other.2 then other else best

/-- The rule that reaches farthest into a text, with its reach. -/
def longest (s : List Char) : Rule × Nat :=
  (all.map fun r => (r, r.reach s)).foldl farther (.bogus, 0)

theorem le_foldl_farther (best : Rule × Nat) (others : List (Rule × Nat)) :
    best.2 ≤ (others.foldl farther best).2 := by
  induction others generalizing best with
  | nil => exact Nat.le_refl _
  | cons other others ih =>
    refine Nat.le_trans ?_ (ih (farther best other))
    unfold farther
    split <;> omega

theorem mem_le_foldl_farther (best : Rule × Nat) {others : List (Rule × Nat)}
    {other : Rule × Nat} (h : other ∈ others) : other.2 ≤ (others.foldl farther best).2 := by
  induction others generalizing best with
  | nil => cases h
  | cons first others ih =>
    rcases List.mem_cons.mp h with rfl | h'
    · refine Nat.le_trans ?_ (le_foldl_farther (farther best other) others)
      unfold farther
      split <;> omega
    · exact ih (farther best first) h'

/-- No rule reaches farther than the longest one. -/
theorem reach_le_longest (r : Rule) (s : List Char) : r.reach s ≤ (longest s).2 := by
  have h : (r, r.reach s) ∈ all.map fun r => (r, r.reach s) :=
    List.mem_map.mpr ⟨r, mem_all r, rfl⟩
  exact mem_le_foldl_farther _ h

/-- Some rule reaches into every text that is not empty. -/
theorem longest_pos (c : Char) (s : List Char) : 0 < (longest (c :: s)).2 := by
  have key : ∃ r : Rule, 0 < r.reach (c :: s) := by
    by_cases hl : isLetter c = true
    · exact ⟨.word, by simp [reach, hl]⟩
    by_cases hd : c.isDigit = true
    · exact ⟨.decimal, by simp [reach, runLength_cons_pos s hd]⟩
    by_cases hb : Text.isBlank c = true
    · exact ⟨.blank, by simp [reach, runLength_cons_pos s hb]⟩
    by_cases hc : c = ';'
    · exact ⟨.comment, by simp [reach, hc]⟩
    by_cases hs : isSymbol [c] = true
    · refine ⟨.operator, ?_⟩
      simp only [reach, symbolReach, List.take_succ_cons, List.take_zero, hs, if_true]
      split <;> simp
    · exact ⟨.bogus, by simp_all [reach, isBogus]⟩
  obtain ⟨r, hr⟩ := key
  exact Nat.lt_of_lt_of_le hr (reach_le_longest r _)

end Rule

end TableAssembler

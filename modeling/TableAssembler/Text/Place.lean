/-!
# Rows and columns

A row ends at a line feed, at a carriage return, or at the two in this order, which count once.
Rows are numbered from one and columns from zero; both and the offset count characters.  All of this
is how the source-text library counts, and no rule of the language.

* `Place`        where the next character stands;
* `Place.next`   the place after one character, `Place.advance` after several;
* `rows`         the rows of a text, each with its line break;
* `row`          one of them by number.
-/

namespace TableAssembler.Text

/-! ## places -/

/-- Where the next character stands.  `afterReturn` says that the character before it is a
carriage return, so that a line feed here belongs to the same line break. -/
structure Place where
  offset : Nat
  row : Nat
  col : Nat
  afterReturn : Bool
deriving DecidableEq, Repr, Inhabited

def Place.start : Place := ⟨0, 1, 0, false⟩

def Place.next (p : Place) (c : Char) : Place :=
  if c = '\n' then ⟨p.offset + 1, if p.afterReturn then p.row else p.row + 1, 0, false⟩
  else if c = '\r' then ⟨p.offset + 1, p.row + 1, 0, true⟩
  else ⟨p.offset + 1, p.row, p.col + 1, false⟩

def Place.advance (p : Place) (s : List Char) : Place := s.foldl Place.next p

theorem Place.advance_cons (p : Place) (c : Char) (s : List Char) :
    p.advance (c :: s) = (p.next c).advance s := rfl

theorem Place.advance_append (p : Place) (s t : List Char) :
    p.advance (s ++ t) = (p.advance s).advance t := by
  simp [advance]

theorem Place.next_offset (p : Place) (c : Char) : (p.next c).offset = p.offset + 1 := by
  unfold next
  split
  · rfl
  · split <;> rfl

theorem Place.advance_offset (p : Place) (s : List Char) :
    (p.advance s).offset = p.offset + s.length := by
  induction s generalizing p with
  | nil => rfl
  | cons c s ih => rw [advance_cons, ih, next_offset, List.length_cons]; omega

/-! ## rows -/

/-- The rows of a text, each with the line break that ends it.  There is always a last row without
one, which may be empty. -/
def rows : List Char → List (List Char)
  | [] => [[]]
  | '\r' :: '\n' :: s => ['\r', '\n'] :: rows s
  | c :: s =>
    if c = '\n' ∨ c = '\r' then [c] :: rows s
    else
      match rows s with
      | [] => [[c]]
      | r :: rs => (c :: r) :: rs

/-- The row of a number, counted from one; past the last row there is nothing. -/
def row (s : List Char) (number : Nat) : List Char := (rows s)[number - 1]?.getD []

/-- A text with a line feed for every line break. -/
def unixBreaks : List Char → List Char
  | [] => []
  | '\r' :: '\n' :: s => '\n' :: unixBreaks s
  | c :: s => (if c = '\r' then '\n' else c) :: unixBreaks s

end TableAssembler.Text

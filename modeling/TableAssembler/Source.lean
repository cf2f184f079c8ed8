import TableAssembler.Node.Basic
import TableAssembler.Text.Blank
import TableAssembler.Text.Place
import TableAssembler.Token.Scan

/-!
# Sources

A source is a text with its tokens and, if it is a file, its path.  Everything else refers to a
token by its index, and the source turns an index into a place again.

* `Extent`             the first and the last token of something that is to be pointed at;
* `Source.span`        the part of the text that an extent covers;
* `Source.illustrate`  a picture of it: the row, and a second line that underlines the part.

An index counts from the first token, a negative one from the end.  Rows and columns are those of the
source-text library, and so is the look of a picture: the row without the white space at its end, and
under it the marks (`underline`).  How wide the part is and what stands before the row (`rowLabel`) is
decided here.
-/

namespace TableAssembler

/-! ## extents -/

/-- The indices of a first and a last token; without both of them there is nothing to point at. -/
structure Extent where
  first : Option Int
  last : Option Int
deriving DecidableEq, Repr, Inhabited

def Extent.token (i : Int) : Extent := ⟨some i, some i⟩

def Node.extent (n : Node) : Extent := ⟨n.left, n.right⟩

/-- The offsets where a part of a text starts and stops. -/
structure Span where
  start : Nat
  stop : Nat
deriving DecidableEq, Repr, Inhabited

/-- An index without a token. -/
structure OutOfRange where
  index : Int
deriving DecidableEq, Repr

/-! ## sources -/

/-- A text with its tokens, and the path of the file that it is from. -/
structure Source where
  path : Option String
  text : String
  tokens : List Token := tokenize text
  tokens_eq : tokens = tokenize text := by rfl

namespace Source

instance : Inhabited Source := ⟨{ path := none, text := "" }⟩

def ofText (text : String) (path : Option String) : Source := { path, text }

def name (s : Source) : String := s.path.getD "<source>"

def token? (s : Source) (i : Int) : Option Token :=
  if 0 ≤ i then s.tokens[i.toNat]? else s.tokens.reverse[(-i - 1).toNat]?

/-- The token of an index, or that there is none. -/
def token (s : Source) (i : Int) : Except OutOfRange Token :=
  match s.token? i with
  | some t => .ok t
  | none => .error ⟨i⟩

theorem token?_natCast (s : Source) (i : Nat) : s.token? i = s.tokens[i]? := by
  simp [token?]

/-- The part of the text that an extent covers, if there is one. -/
def span (s : Source) (e : Extent) : Except OutOfRange (Option Span) :=
  match e.first, e.last with
  | some i, some j => do
    let first ← s.token i
    let last ← s.token j
    return some ⟨first.start, last.stop⟩
  | _, _ => .ok none

theorem span_natCast {s : Source} {i j : Nat} {t u : Token} (hi : s.tokens[i]? = some t)
    (hj : s.tokens[j]? = some u) :
    s.span ⟨some (i : Int), some (j : Int)⟩ = .ok (some ⟨t.start, u.stop⟩) := by
  have hfirst : s.token i = .ok t := by rw [token, token?_natCast, hi]
  have hlast : s.token j = .ok u := by rw [token, token?_natCast, hj]
  unfold span
  dsimp only
  rw [hfirst, hlast]
  rfl

/-! ## pictures -/

/-- A number in six columns or more, with a blank before it. -/
def rowLabel (row : Nat) : List Char :=
  let digits := ' ' :: Nat.toDigits 10 row
  List.replicate (6 - digits.length) ' ' ++ digits ++ [' ', '|']

/-- As much blank space as some text takes. -/
def blankOut (s : List Char) : List Char := s.map fun c => if c = '\t' then c else ' '

/-- A row of a text, and below it a line that underlines some of its characters and says something.
The line underlines one character at least, and none beyond the row and its line break. -/
def underline (row : Nat) (line : List Char) (col width : Nat) (caption : String) : String :=
  let label := rowLabel row
  let mark := List.replicate (max 1 (min width (line.length - col))) '^'
  String.ofList (label ++ Text.trimRight line ++ '\n' :: blankOut (label ++ line.take col)
    ++ mark ++ [' ']) ++ caption

/-- A picture of an extent: the row where it starts, underlined.  Without anything to point at the
caption stands alone. -/
def illustrate (s : Source) (e : Extent) (caption : String) : Except OutOfRange String := do
  match ← s.span e with
  | none => return caption
  | some span =>
    let text := s.text.toList
    let place := Text.Place.start.advance (text.take span.start)
    return underline place.row (Text.row text place.row) place.col
      (max 1 (span.stop - span.start)) caption

end Source

end TableAssembler

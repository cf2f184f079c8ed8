import TableAssembler.Text.Place
import TableAssembler.Token.Basic
import TableAssembler.Token.Rule

/-!
# Scanning

A text is cut from the left into pieces, each as long as any rule allows.  The pieces that are
neither blank nor a comment become tokens.

* `Piece`, `pieces`   the pieces of a text, with `pieces_flatten`: they make up the text;
* `Piece.kind?`       the class of the word that a piece is;
* `tokenize`          the tokens of a text.
-/

namespace TableAssembler

/-- A piece of a text with the rule that it belongs to. -/
structure Piece where
  rule : Rule
  text : List Char
deriving DecidableEq, Repr, Inhabited

/-! ## cutting -/

def pieces : List Char → List Piece
  | [] => []
  | c :: s =>
    let best := Rule.longest (c :: s)
    ⟨best.1, (c :: s).take best.2⟩ :: pieces ((c :: s).drop best.2)
termination_by s => s.length
decreasing_by
  have := Rule.longest_pos c s
  simp only [List.length_drop, List.length_cons]
  omega

theorem pieces_nil : pieces [] = [] := by rw [pieces]

theorem pieces_cons (c : Char) (s : List Char) :
    pieces (c :: s) =
      ⟨(Rule.longest (c :: s)).1, (c :: s).take (Rule.longest (c :: s)).2⟩
        :: pieces ((c :: s).drop (Rule.longest (c :: s)).2) := by
  rw [pieces]

/-- The pieces of a text make up the text. -/
theorem pieces_flatten (s : List Char) : ((pieces s).map Piece.text).flatten = s := by
  fun_induction pieces s with
  | case1 => rfl
  | case2 c s best ih => rw [List.map_cons, List.flatten_cons, ih, List.take_append_drop]

/-! ## words -/

/-- The class of the word that a piece is; blanks and comments are no words. -/
def Piece.kind? (p : Piece) : Option Token.Kind :=
  match p.rule with
  | .blank => none
  | .comment => none
  | .word => some (.ofWord p.text)
  | .decimal => some .int
  | .hex => some .hex
  | .binary => some .bin
  | .string => some .string
  | .operator =>
    match Operator.ofGlyph? (String.ofList p.text) with
    | some op => some (.operator op)
    | none => some .bogus
  | .bogus => some .bogus

/-- The tokens of some pieces, where the first piece stands at a place. -/
def tokensFrom (place : Text.Place) : List Piece → List Token
  | [] => []
  | p :: ps =>
    let after := place.advance p.text
    match p.kind? with
    | none => tokensFrom after ps
    | some kind =>
      ⟨kind, String.ofList p.text, place.offset, after.offset, place.row, place.col⟩
        :: tokensFrom after ps

def tokenize (text : String) : List Token := tokensFrom .start (pieces text.toList)

end TableAssembler

/-!
# Paths

A path is a root and some parts.  Empty parts and single points say nothing and are left out; two
points are kept, since what they mean depends on the files.

* `Path.read`, `Path.text`   a path from a text and back;
* `Path.below`               a path as it is seen from a directory.
-/

namespace TableAssembler

/-- The text before the first part, and the parts. -/
structure Path where
  root : String
  parts : List String
deriving DecidableEq, Repr, Inhabited

namespace Path

/-- The pieces of a text between slashes. -/
def pieces : List Char → List (List Char)
  | [] => [[]]
  | c :: s =>
    if c = '/' then [] :: pieces s
    else
      match pieces s with
      | [] => [[c]]
      | p :: ps => (c :: p) :: ps

/-- The root of a text that opens with a number of slashes.  Exactly two are a root of their own. -/
def rootOf : Nat → String
  | 0 => ""
  | 2 => "//"
  | _ => "/"

/-- Whether a piece is a part of a path. -/
def isPart (piece : List Char) : Bool := piece ≠ [] && piece ≠ ['.']

/-- The path that a text stands for. -/
def read (text : String) : Path :=
  let slashes := (text.toList.takeWhile (· = '/')).length
  ⟨rootOf slashes, ((pieces text.toList).filter isPart).map String.ofList⟩

/-- A path as a text; without a root and any part it is a single point. -/
def text (p : Path) : String :=
  if p.root = "" ∧ p.parts = [] then "." else p.root ++ String.intercalate "/" p.parts

/-- A path as it is seen from a directory: one with a root does not depend on it. -/
def below (directory p : Path) : Path :=
  if p.root = "" then ⟨directory.root, directory.parts ++ p.parts⟩ else p

end Path

end TableAssembler

import TableAssembler.Node.Basic

/-!
# Sites

What is said about a program points at a site of it: at one of its words, or at a node.  The word to
blame is the first one of the site.

* `Site`                a word by its index, or a node;
* `Site.left`           the first word of a site;
* `Site.blame`          the word to blame at a place, with `Site.blame_eq`;
* `Site.structName`     the name of a record type, with `Site.blame_structName`.
-/

namespace TableAssembler

/-- Something that can be pointed at.  A node must not start before the first word of the source, as
the definition of an atom does whose name is the first word. -/
inductive Site where
  | spot (index : Nat)
  | node (n : Node) (inside : ∀ i, n.left = some i → 0 ≤ i)
deriving Inhabited

namespace Site

def left : Site → Option Nat
  | .spot i => some i
  | .node n _ => n.left.map Int.toNat

/-- Whether a site is a list without nodes, which is taken for no site at all. -/
def isEmpty : Site → Bool
  | .node (.list []) _ => true
  | _ => false

/-- The word to blame at a place, where there may be a site.  An empty list is blamed itself, and
that is no word. -/
def blame : Option Site → Option Nat
  | none => none
  | some p => if p.isEmpty then none else p.left

/-- An empty list has no first word anyway. -/
theorem blame_eq (place : Option Site) : blame place = place.bind left := by
  cases place with
  | none => rfl
  | some p =>
    rw [blame, Option.bind_some]
    split
    · next hempty =>
      unfold isEmpty at hempty
      split at hempty
      · rfl
      · cases hempty
    · rfl

/-- The name of a record type, where it is used. -/
def structName (name : String) (token : Option Nat) : Site :=
  .node (.structName name token) fun i h => by
    cases token with
    | none => cases h
    | some j =>
      cases h
      exact Int.natCast_nonneg j

theorem blame_structName (name : String) (token : Option Nat) :
    blame (some (structName name token)) = token := by
  cases token <;> rfl

end Site

end TableAssembler

import TableAssembler.Fault
import TableAssembler.Node.Basic

/-!
# Evaluating and folding

An expression of literals is a number.  Names have no value here: their values are known only to
a linker.

* `Node.evaluate`    the number that a node stands for;
* `Node.isUnsigned`  whether it holds nothing but unsigned literals;
* `Node.fold`        a static expression replaced by its value, any other node as it is.
-/

namespace TableAssembler.Node

/-- The number that a node stands for.  Both sides of an operator are evaluated before it is
looked at, the left one first. -/
def evaluate : Node → Except Fault Number
  | .value number _ _ => .ok number
  | .binary lhs op rhs t => do
    let a ← lhs.evaluate
    let b ← rhs.evaluate
    (Number.apply op a b).mapError (Fault.ofArithmetic t)
  | .atomRef _ t => .error ⟨.unresolved, t, none⟩
  | .macroRef _ t => .error ⟨.unresolved, t, none⟩
  | .structName _ t => .error ⟨.unresolved, t, none⟩
  | n => .error (.unimplemented n.token)

/-- Whether a node holds nothing but unsigned literals. -/
def isUnsigned : Node → Bool
  | .value _ kind _ => kind == .uint
  | .binary lhs _ rhs _ => lhs.isUnsigned && rhs.isUnsigned
  | _ => false

/-- Whether folding computes a node: it is a static expression. -/
def isFoldable : Node → Bool
  | .binary lhs _ rhs _ => lhs.isStatic && rhs.isStatic
  | _ => false

/-- The kind of the value that a node folds to.  Unsigned operands give an unsigned result, unless
it came out negative. -/
def foldedKind (n : Node) : Number → ValueKind
  | .real _ => .float
  | .integer v => if 0 ≤ v ∧ n.isUnsigned then .uint else .int

/-- A static expression replaced by its value, which keeps the token of the operator; any other
node as it is. -/
def fold (n : Node) : Except Fault Node :=
  if n.isFoldable then do
    let v ← n.evaluate
    return .value v (n.foldedKind v) n.token
  else .ok n

theorem fold_of_not_isFoldable {n : Node} (h : n.isFoldable = false) : n.fold = .ok n := by
  simp [fold, h]

theorem isStatic_of_isFoldable {n : Node} (h : n.isFoldable = true) : n.isStatic = true := by
  cases n <;> simp_all [isFoldable, isStatic]

end TableAssembler.Node

import TableAssembler.Proofs.Node.Staticness
import TableAssembler.Proofs.Number.Exact

/-!
# Folding

A static expression may be replaced by what it folds to, wherever it stands: nothing else comes out
of an evaluation, neither another number nor another fault.

* `Node.isExpression`         an operator between two nodes;
* `fold_cases`                what folding does to a node;
* `Context`, `Context.fill`   an expression with one place in it left open;
* `evaluate_fill`, `isStatic_fill`   what is filled in counts by its value and its staticness only;
* `of_isUnsigned`             nodes of nothing but unsigned literals;
* `inWord_of_evaluate`        integers that are computed fit in a word;
* `fold_preserves`            all of it.
-/

namespace TableAssembler

namespace Node

/-- whether a node is an operator between two nodes -/
def isExpression : Node → Bool
  | .binary .. => true
  | _ => false

theorem isFoldable_eq (n : Node) : n.isFoldable = (n.isExpression && n.isStatic) := by
  cases n <;> rfl

/-! ## folding -/

theorem fold_of_isFoldable {n : Node} (h : n.isFoldable = true) :
    n.fold = n.evaluate >>= fun v => .ok (.value v (n.foldedKind v) n.token) := by
  rw [fold, if_pos h]
  rfl

/-- a node that is folded is an expression replaced by its value, or it is as it was -/
theorem fold_cases {n d : Node} (h : n.fold = .ok d) :
    (n.isFoldable = true ∧ ∃ v, n.evaluate = .ok v ∧ d = .value v (n.foldedKind v) n.token) ∨
      n.isFoldable = false ∧ d = n := by
  cases hfoldable : n.isFoldable with
  | true =>
    rw [fold_of_isFoldable hfoldable] at h
    obtain ⟨v, hv, hd⟩ := bind_eq_ok_iff.mp h
    cases hd
    exact .inl ⟨rfl, v, hv, rfl⟩
  | false =>
    rw [fold_of_not_isFoldable hfoldable] at h
    cases h
    exact .inr ⟨rfl, rfl⟩

theorem evaluate_fold {n d : Node} (h : n.fold = .ok d) : d.evaluate = n.evaluate := by
  rcases fold_cases h with ⟨_, v, hv, rfl⟩ | ⟨_, rfl⟩
  · rw [hv]
    rfl
  · rfl

theorem isStatic_fold {n d : Node} (h : n.fold = .ok d) : d.isStatic = n.isStatic := by
  rcases fold_cases h with ⟨hfoldable, v, _, rfl⟩ | ⟨_, rfl⟩
  · rw [isStatic_of_isFoldable hfoldable]
    rfl
  · rfl

/-- what is folded is not folded again -/
theorem isFoldable_fold {n d : Node} (h : n.fold = .ok d) : d.isFoldable = false := by
  rcases fold_cases h with ⟨_, v, _, rfl⟩ | ⟨hfoldable, rfl⟩
  · rfl
  · exact hfoldable

theorem fold_eq_error_iff {n : Node} {f : Fault} :
    n.fold = .error f ↔ n.isFoldable = true ∧ n.evaluate = .error f := by
  cases hfoldable : n.isFoldable with
  | true =>
    rw [fold_of_isFoldable hfoldable, bind_eq_error_iff]
    constructor
    · rintro (h | ⟨v, _, hv⟩)
      · exact ⟨rfl, h⟩
      · cases hv
    · exact fun h => .inl h.2
  | false =>
    rw [fold_of_not_isFoldable hfoldable]
    exact ⟨fun h => (nomatch h), fun h => (nomatch h.1)⟩

/-! ## contexts -/

/-- an expression with one place in it left open -/
inductive Context where
  | hole
  | left (c : Context) (op : Operator) (rhs : Node) (token : Option Nat)
  | right (lhs : Node) (op : Operator) (c : Context) (token : Option Nat)

/-- the expression with a node in the place that was left open -/
def Context.fill : Context → Node → Node
  | .hole, n => n
  | .left c op rhs t, n => .binary (c.fill n) op rhs t
  | .right lhs op c t, n => .binary lhs op (c.fill n) t

/-- nodes of the same value or fault may stand for each other in any place -/
theorem evaluate_fill {m n : Node} (h : m.evaluate = n.evaluate) (c : Context) :
    (c.fill m).evaluate = (c.fill n).evaluate := by
  induction c with
  | hole => exact h
  | left c op rhs t ih => rw [Context.fill, Context.fill, evaluate, evaluate, ih]
  | right lhs op c t ih => rw [Context.fill, Context.fill, evaluate, evaluate, ih]

theorem isStatic_fill {m n : Node} (h : m.isStatic = n.isStatic) (c : Context) :
    (c.fill m).isStatic = (c.fill n).isStatic := by
  induction c with
  | hole => exact h
  | left c op rhs t ih => rw [Context.fill, Context.fill, isStatic, isStatic, ih]
  | right lhs op c t ih => rw [Context.fill, Context.fill, isStatic, isStatic, ih]

/-! ## unsigned results -/

/-- a node of unsigned literals only has them for all that is no operator in it -/
theorem of_isUnsigned {n : Node} (h : n.isUnsigned = true) :
    ∀ p ∈ n.parts, p.isExpression = true ∨ ∃ number t, p = .value number .uint t := by
  cases n with
  | value number kind t =>
    rw [isUnsigned, beq_iff_eq] at h
    rw [h]
    exact List.forall_mem_singleton.mpr (.inr ⟨number, t, rfl⟩)
  | binary lhs op rhs t =>
    rw [isUnsigned, Bool.and_eq_true] at h
    rw [parts, List.forall_mem_append, List.forall_mem_append, List.forall_mem_singleton]
    exact ⟨⟨of_isUnsigned h.1, of_isUnsigned h.2⟩, .inl rfl⟩
  | _ => cases h

/-- an integer that an operator gives fits in a word -/
theorem inWord_of_apply {op : Operator} {a b : Number} {v : Int}
    (h : Number.apply op a b = .ok (.integer v)) : InWord v := by
  rw [Number.apply_eq] at h
  obtain ⟨c, _, hcheck⟩ := bind_eq_ok_iff.mp h
  -- only integers are checked for their range, and none is changed by it
  cases c with
  | real x => cases hcheck
  | integer w =>
    rw [Number.checkRange] at hcheck
    split at hcheck
    · next hfits =>
      cases hcheck
      exact (fits_iff _).mp hfits
    · cases hcheck

theorem inWord_of_evaluate {n : Node} {v : Int} (hn : n.isExpression = true)
    (h : n.evaluate = .ok (.integer v)) : InWord v := by
  cases n with
  | binary lhs op rhs t =>
    obtain ⟨a, _, b, _, happly⟩ := evaluate_binary_eq_ok_iff.mp h
    exact inWord_of_apply happly
  | _ => cases hn

theorem foldedKind_eq_uint {n : Node} {v : Number} (h : n.foldedKind v = .uint) :
    ∃ w : Int, v = .integer w ∧ 0 ≤ w ∧ n.isUnsigned = true := by
  cases v with
  | real x => cases h
  | integer w =>
    rw [foldedKind] at h
    split at h
    · next hw => exact ⟨w, rfl, hw⟩
    · cases h

end Node

open Node

/-- **Folding preserves the meaning of every expression.**  What a node folds to has its value or
its fault, is static if the node is, and folds no further; only a static expression fails to fold,
with the fault of its evaluation.  In any place of an expression, what a node folds to may stand for
it.  An unsigned result comes from unsigned literals only, is no negative integer and fits in a
word. -/
theorem fold_preserves (n : Node) :
    (∀ d, n.fold = .ok d → d.evaluate = n.evaluate ∧ d.isStatic = n.isStatic ∧
      d.isFoldable = false ∧ d.fold = .ok d) ∧
    (∀ f, n.fold = .error f ↔
      n.isExpression = true ∧ n.isStatic = true ∧ n.evaluate = .error f) ∧
    (∀ (c : Context) (d : Node), n.fold = .ok d →
      (c.fill d).evaluate = (c.fill n).evaluate ∧ (c.fill d).isStatic = (c.fill n).isStatic) ∧
    (∀ number t, n.isExpression = true → n.isStatic = true →
      n.fold = .ok (.value number .uint t) →
        (∀ p ∈ n.parts, p.isExpression = true ∨ ∃ m u, p = .value m .uint u) ∧
        ∃ v : Int, number = .integer v ∧ 0 ≤ v ∧ v ≤ 2 ^ 63 - 1) := by
  refine ⟨fun d h => ?_, fun f => ?_, fun c d h => ?_, fun number t hexpression hstatic h => ?_⟩
  · have hfoldable := isFoldable_fold h
    exact ⟨evaluate_fold h, isStatic_fold h, hfoldable, fold_of_not_isFoldable hfoldable⟩
  · rw [fold_eq_error_iff, isFoldable_eq, Bool.and_eq_true, and_assoc]
  · exact ⟨evaluate_fill (evaluate_fold h) c, isStatic_fill (isStatic_fold h) c⟩
  · have hfoldable : n.isFoldable = true := by
      rw [isFoldable_eq, hexpression, hstatic]
      rfl
    rcases fold_cases h with ⟨_, v, hv, hd⟩ | ⟨hnot, _⟩
    · obtain ⟨rfl, hkind, _⟩ := Node.value.inj hd
      obtain ⟨w, rfl, hpos, hunsigned⟩ := foldedKind_eq_uint hkind.symm
      exact ⟨of_isUnsigned hunsigned, w, rfl, hpos, (inWord_of_evaluate hexpression hv).2⟩
    · rw [hfoldable] at hnot
      cases hnot

/-- `$F + %11`, of unsigned literals only -/
def unsignedSum : Node :=
  .binary (.value (.integer 15) .uint (some 2)) .add (.value (.integer 3) .uint (some 4)) (some 3)

/-- `A + (_ / 0)`, which fails at the atom before it could fail at the quotient -/
def besideAtom : Context :=
  .right (.atomRef "A" (some 0)) .add
    (.left .hole .div (.value (.integer 0) .int (some 6)) (some 5)) (some 1)

/-- an unsigned result, in a place where the faults around it stay in their order; and a division
by zero -/
theorem fold_preserves_unsignedSum :
    unsignedSum.fold = .ok (.value (.integer 18) .uint (some 3)) ∧
      (besideAtom.fill (.value (.integer 18) .uint (some 3))).evaluate
        = (besideAtom.fill unsignedSum).evaluate ∧
      (besideAtom.fill unsignedSum).evaluate = .error ⟨.unresolved, some 0, none⟩ ∧
      (∃ v : Int, Number.integer 18 = .integer v ∧ 0 ≤ v ∧ v ≤ 2 ^ 63 - 1) ∧
      (Node.binary unsignedSum .div (.value (.integer 0) .int (some 6)) (some 5)).fold
        = .error ⟨.arithmetic, some 5, some (.arithmetic .divisionByZero)⟩ := by
  have hfold : unsignedSum.fold = .ok (.value (.integer 18) .uint (some 3)) := rfl
  obtain ⟨_, _, hplace, hunsigned⟩ := fold_preserves unsignedSum
  exact ⟨hfold, (hplace besideAtom _ hfold).1, rfl, (hunsigned _ _ rfl rfl hfold).2,
    ((fold_preserves _).2.1 _).mpr ⟨rfl, rfl, rfl⟩⟩

end TableAssembler

/-!
# Workings

A result does not show how large the integers were that were formed on the way to it, and a refusal
does not show whether there were any.  Workings do: they hold the integers that a computation forms,
in order, beside what it comes to.

* `Workings`              the integers that are formed, and what it comes to;
* `Workings.form`         an integer that is formed;
* `Workings.given`, `Workings.refuse`   a result, and a refusal, for which none is formed;
* `result_bind`, `mem_formed_bind`      one computation after another.
-/

namespace TableAssembler

/-- The integers that a computation forms, in order, and what it comes to. -/
structure Workings (ε α : Type) where
  formed : List Int
  result : Except ε α

namespace Workings

variable {ε ε' α β : Type}

/-- A result for which no integer is formed. -/
def given (r : Except ε α) : Workings ε α := ⟨[], r⟩

def refuse (e : ε) : Workings ε α := given (.error e)

def form (v : Int) : Workings ε Int := ⟨[v], .ok v⟩

instance : Monad (Workings ε) where
  pure a := given (.ok a)
  bind w next := match w.result with
    | .ok a =>
      let more := next a
      ⟨w.formed ++ more.formed, more.result⟩
    | .error e => ⟨w.formed, .error e⟩

def mapError (f : ε → ε') (w : Workings ε α) : Workings ε' α := ⟨w.formed, w.result.mapError f⟩

section
variable (w : Workings ε α)

/-- What computations come to one after another is what their results come to. -/
theorem result_bind (next : α → Workings ε β) :
    (w >>= next).result = w.result >>= fun a => (next a).result := by
  obtain ⟨formed, _ | a⟩ := w <;> rfl

theorem mem_formed_bind (next : α → Workings ε β) {v : Int} :
    v ∈ (w >>= next).formed ↔
      v ∈ w.formed ∨ ∃ a, w.result = .ok a ∧ v ∈ (next a).formed := by
  obtain ⟨formed, e | a⟩ := w
  · show v ∈ formed ↔ _
    simp
  · show v ∈ formed ++ (next a).formed ↔ _
    simp

theorem result_map (f : α → β) : (f <$> w).result = f <$> w.result := by
  obtain ⟨formed, _ | a⟩ := w <;> rfl

/-- A function of the result forms no integer. -/
theorem formed_map (f : α → β) : (f <$> w).formed = w.formed := by
  obtain ⟨formed, _ | a⟩ := w
  · rfl
  · exact List.append_nil formed

end

end Workings

end TableAssembler

import Mathlib.Order.Defs.Unbundled

/-!
# Steps that may fail

A step changes a state and may fail; what it did before it failed stays done. What every part of a
step does to the state, the whole does.
-/

namespace GoContracts

/-- A step that changes a state of type `σ`. -/
abbrev Step (ε σ α : Type) := ExceptT ε (StateM σ) α

namespace Step

variable {ε σ α β : Type} {s : σ}

/-- The state is read and kept. -/
theorem get_apply : (get : Step ε σ σ) s = (.ok s, s) := rfl

/-- A result is returned and the state kept. -/
theorem ofExcept_apply {r : Except ε α} : (MonadExcept.ofExcept r : Step ε σ α) s = (r, s) := by
  cases r <;> rfl

/-- The second step starts in the state that the first leaves, if this succeeds. -/
theorem bind_apply {x : Step ε σ α} {f : α → Step ε σ β} :
    (x >>= f) s = match x s with
      | (.ok a, t) => f a t
      | (.error e, t) => (.error e, t) := by
  change ExceptT.bindCont f (x s).1 (x s).2 = _
  rcases x s with ⟨e | a, t⟩ <;> rfl

/-- The result is dropped, the failure and the state are kept. -/
theorem discard_apply {x : Step ε σ α} : (discard x : Step ε σ PUnit) s = match x s with
      | (.ok _, t) => (.ok (), t)
      | (.error e, t) => (.error e, t) := by
  have h : (discard x : Step ε σ PUnit) s = (match (x s).1 with
      | .ok _ => (pure (.ok ()) : StateM σ (Except ε PUnit))
      | .error e => pure (.error e)) (x s).2 := rfl
  rw [h]
  rcases x s with ⟨e | a, t⟩ <;> rfl

/-- The handler starts in the state that the failure leaves. -/
theorem tryCatch_apply {x : Step ε σ α} {f : ε → Step ε σ α} :
    (tryCatch x f : Step ε σ α) s = match x s with
      | (.ok a, t) => (.ok a, t)
      | (.error e, t) => f e t := by
  have h : (tryCatch x f : Step ε σ α) s = (match (x s).1 with
      | .ok a => (pure (.ok a) : StateM σ (Except ε α))
      | .error e => f e) (x s).2 := rfl
  rw [h]
  rcases x s with ⟨e | a, t⟩ <;> rfl

/-! ### What a step does to the state -/

/-- Whatever the step gives, the state before it and the state after it are related. -/
def Moves (R : σ → σ → Prop) (x : Step ε σ α) : Prop := ∀ s, R s (x s).2

variable {R : σ → σ → Prop} [IsPreorder σ R]

namespace Moves

/-- A result alone moves nothing. -/
theorem pure (a : α) : Moves R (pure a : Step ε σ α) := fun s => refl_of R s

/-- A failure alone moves nothing. -/
theorem throw (e : ε) : Moves R (throw e : Step ε σ α) := fun s => refl_of R s

/-- A look at the state moves nothing. -/
theorem get : Moves R (get : Step ε σ σ) := fun s => refl_of R s

/-- Two steps in a row move as both do. -/
theorem bind {x : Step ε σ α} {f : α → Step ε σ β} (hx : Moves R x) (hf : ∀ a, Moves R (f a)) :
    Moves R (x >>= f) := fun s => by
  have h := hx s
  rw [bind_apply]
  revert h
  rcases x s with ⟨e | a, t⟩ <;> intro h
  · exact h
  · exact trans_of R h (hf a t)

/-- A step and its handler move as both do. -/
theorem tryCatch {x : Step ε σ α} {f : ε → Step ε σ α} (hx : Moves R x)
    (hf : ∀ e, Moves R (f e)) : Moves R (tryCatch x f : Step ε σ α) := fun s => by
  have h := hx s
  rw [tryCatch_apply]
  revert h
  rcases x s with ⟨e | a, t⟩ <;> intro h
  · exact trans_of R h (hf e t)
  · exact h

end Moves

end Step

end GoContracts

import GoContracts.Package.Loading
import GoContracts.Proofs.Steps
import GoContracts.Proofs.Weaving.Injection

/-!
# Reports are only added

What a computation gives does not depend on what was reported before it. So a package has one shadow
for each of its files.
-/

namespace GoContracts

namespace Reporting

variable {ε δ α β : Type} {x : Reporting ε α} {a : α} {before after : List Diagnostic}

/-- The computation gives the same and adds the same reports, whatever was reported before. -/
def Uniform (x : Reporting ε α) : Prop :=
  ∃ (r : Except ε α) (added : List Diagnostic), ∀ before, x before = (r, before ++ added)

namespace Uniform

/-- A result alone is uniform. -/
theorem pure (a : α) : Uniform (pure a : Reporting ε α) :=
  ⟨.ok a, [], fun _ => by rw [List.append_nil]; rfl⟩

private theorem throw (e : ε) : Uniform (throw e : Reporting ε α) :=
  ⟨.error e, [], fun _ => by rw [List.append_nil]; rfl⟩

/-- A note is uniform. -/
theorem note (d : Diagnostic) : Uniform (note d : Reporting ε Unit) := ⟨.ok (), [d], fun _ => rfl⟩

/-- A result or a failure is uniform. -/
theorem ofExcept (r : Except ε α) : Uniform (MonadExcept.ofExcept r : Reporting ε α) :=
  ⟨r, [], fun _ => by rw [List.append_nil]; exact Step.ofExcept_apply⟩

/-- Two uniform computations in a row are uniform. -/
theorem bind {f : α → Reporting ε β} (hx : Uniform x) (hf : ∀ a, Uniform (f a)) :
    Uniform (x >>= f) := by
  obtain ⟨r, added, hx⟩ := hx
  cases r with
  | error e => exact ⟨.error e, added, fun before => by rw [Step.bind_apply, hx]⟩
  | ok a =>
    obtain ⟨r, more, hf⟩ := hf a
    refine ⟨r, added ++ more, fun before => ?_⟩
    rw [Step.bind_apply, hx]
    exact (hf _).trans (by rw [List.append_assoc])

private theorem map {f : α → β} (hx : Uniform x) : Uniform (f <$> x) := by
  rw [← bind_pure_comp]
  exact hx.bind fun a => .pure (f a)

/-- A uniform computation stays uniform with another failure. -/
theorem adapt {f : ε → δ} (hx : Uniform x) : Uniform (ExceptT.adapt f x : Reporting δ α) := by
  obtain ⟨r, added, hx⟩ := hx
  refine ⟨r.mapError f, added, fun before => ?_⟩
  change ((x before).1.mapError f, (x before).2) = _
  rw [hx]

/-- Uniform computations over a list are uniform. -/
theorem mapM {f : α → Reporting ε β} (hf : ∀ a, Uniform (f a)) (as : List α) :
    Uniform (as.mapM f) := by
  induction as with
  | nil => exact .pure []
  | cons a as ih =>
    rw [List.mapM_cons]
    exact (hf a).bind fun b => ih.bind fun bs => .pure (b :: bs)

/-- Uniform computations over a list are uniform without their results. -/
theorem forM {f : α → Reporting ε Unit} (hf : ∀ a, Uniform (f a)) (as : List α) :
    Uniform (as.forM f) := by
  induction as with
  | nil => exact .pure ()
  | cons a as ih => exact (hf a).bind fun _ => ih

/-- What is given after some reports is given before any. -/
theorem value?_eq (hx : Uniform x) (h : Gives x before a after) : value? x [] = some a := by
  obtain ⟨r, added, hx⟩ := hx
  have hgives : x before = (.ok a, after) := h
  rw [hx] at hgives
  obtain ⟨rfl, -⟩ := Prod.mk.inj hgives
  have hrun : x.run.run [] = _ := hx []
  rw [value?, hrun]

/-- What is given before any reports is given after some. -/
theorem result_eq (hx : Uniform x) (h : value? x [] = some a) (before : List Diagnostic) :
    (x before).1 = .ok a := by
  obtain ⟨after, hgives⟩ := gives_of_value? h
  obtain ⟨r, added, hx⟩ := hx
  have hnone : x [] = (.ok a, after) := hgives
  rw [hx] at hnone
  rw [hx]
  exact (Prod.mk.inj hnone).1

end Uniform

end Reporting

open Reporting (Uniform value?)

/-! ### Guards -/

namespace Guard

variable (p : Package) (anchor : Anchor) (scope : Scope)

private theorem uniform_ensureExpression (use : ExpressionUse) (text : String) :
    Uniform (ensureExpression anchor use text) := by
  rw [ensureExpression]
  split
  · exact .pure ()
  · exact .throw _

private theorem uniform_returnValues (errorName? : Option String) :
    Uniform (returnValues p anchor scope errorName?) := by
  rw [returnValues]
  split
  · exact .pure _
  · exact (Uniform.forM (uniform_ensureExpression anchor .return) _).bind fun _ => .pure _

private theorem uniform_nonZero (values : List String) (variableName : String) :
    Uniform (nonZero p anchor scope values variableName) :=
  (uniform_ensureExpression anchor .variable variableName).bind fun _ => .pure _

private theorem uniform_holds (values : List String) (condition : String)
    (message? : Option String) :
    Uniform (holds anchor values condition message?) := by
  rw [holds]
  split
  · exact .throw _
  · split
    · exact (Uniform.note _).bind fun _ => .pure _
    · exact .pure _

private theorem uniform_precondition : Uniform (precondition p anchor scope) := by
  rw [precondition]
  split <;> refine Uniform.bind ?_ fun values => ?_
  case isTrue.refine_1 => exact uniform_returnValues p anchor scope none
  case isFalse.refine_1 => exact .pure _
  all_goals
    split
    · exact .mapM (uniform_nonZero p anchor scope values) _
    · exact (uniform_holds anchor values _ _).bind fun _ => .pure _
    · exact .pure _

private theorem uniform_errorCheck (errorName : String) :
    Uniform (errorCheck p anchor scope errorName) := by
  rw [errorCheck]
  split
  · exact (uniform_returnValues p anchor scope (some errorName)).bind fun _ => .pure _
  · exact (Uniform.pure _).bind fun _ => .pure _

end Guard

/-! ### Shadows -/

variable {p : Package} {file : SourceFile} {path : String} {before after : List Diagnostic}

private theorem Injection.uniform_demand (namings : List (Syntax.Tree × ErrorTarget))
    (placed : Placed) :
    Uniform (demand p file namings placed) := by
  rw [demand]
  split
  · exact (Guard.uniform_precondition p _ _).map
  · exact (Guard.uniform_errorCheck p _ _ _).map
  · exact (Uniform.note _).bind fun _ => .pure _

private theorem SourceFile.uniform_inject? : Uniform (file.inject? p) := by
  rw [inject?]
  split
  · exact .pure none
  · exact (Uniform.mapM (Injection.uniform_demand _) _).bind fun demands => .pure _

namespace Package

/-- To load a directory reports the same whatever was reported before. -/
theorem uniform_load {disk : Disk} {directory : String} : Uniform (load disk directory) := by
  rw [load]
  refine (Uniform.ofExcept _).bind fun paths => (Uniform.ofExcept _).bind fun files => ?_
  simp only
  split
  · exact .pure _
  · exact (Uniform.note _).bind fun _ => .pure _

private theorem uniform_shadowOf? : Uniform (p.shadowOf? file) :=
  Uniform.adapt (SourceFile.uniform_inject?.map)

/-- To make a shadow reports the same whatever was reported before. -/
theorem uniform_shadowAt? : Uniform (p.shadowAt? path) := by
  rw [shadowAt?]
  split
  · exact uniform_shadowOf?
  · exact .throw _

end Package

end GoContracts

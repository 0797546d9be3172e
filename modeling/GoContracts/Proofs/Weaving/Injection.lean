import GoContracts.Diagnostic
import GoContracts.Weaving.Injection
import Mathlib.Data.List.Forall2

/-!
# What weaving gives

A computation that reports succeeds with a value and has added reports to those made before. What
the parts of a computation give makes up what the whole gives. So weaving succeeds exactly when the
guards of all placed directives can be generated, and the result is made of them.
-/

namespace GoContracts.Reporting

variable {ε α β : Type} {x : Reporting ε α} {a : α} {b : β} {before after : List Diagnostic}

/-- The computation succeeds with a value; the reports `before` have become `after`. -/
def Gives (x : Reporting ε α) (before : List Diagnostic) (a : α) (after : List Diagnostic) : Prop :=
  x.run.run before = (.ok a, after)

/-- A result alone is given without a report. -/
theorem gives_pure {a' : α} :
    Gives (pure a : Reporting ε α) before a' after ↔ a = a' ∧ before = after := by
  change ((.ok a, before) : Except ε α × List Diagnostic) = (.ok a', after) ↔ _
  simp

/-- Two computations in a row report one after the other. -/
theorem gives_bind {f : α → Reporting ε β} :
    Gives (x >>= f) before b after ↔ ∃ a mid, Gives x before a mid ∧ Gives (f a) mid b after := by
  have hrun : (x >>= f).run.run before = match x.run.run before with
      | (.ok a, mid) => (f a).run.run mid
      | (.error e, mid) => (.error e, mid) := by
    rw [ExceptT.run_bind, StateT.run_bind]
    rcases x.run.run before with ⟨a | a, mid⟩ <;> rfl
  unfold Gives
  rw [hrun]
  rcases x.run.run before with ⟨e | a, mid⟩
  · constructor
    · intro h
      cases (Prod.mk.inj h).1
    · rintro ⟨a, mid, h, _⟩
      cases (Prod.mk.inj h).1
  · constructor
    · exact fun h => ⟨a, mid, rfl, h⟩
    · rintro ⟨a', mid', h, hf⟩
      obtain ⟨ha, rfl⟩ := Prod.mk.inj h
      obtain rfl := Except.ok.inj ha
      exact hf

/-- A note is the report that it adds. -/
theorem gives_note {d : Diagnostic} {u : Unit} :
    Gives (note d : Reporting ε Unit) before u after ↔ after = before ++ [d] := by
  change ((.ok (), before ++ [d]) : Except ε Unit × List Diagnostic) = (.ok u, after) ↔ _
  simp [eq_comm]

/-- A failure gives nothing. -/
theorem gives_throw {e : ε} : ¬Gives (throw e : Reporting ε α) before a after := by
  change ¬((.error e, before) : Except ε α × List Diagnostic) = (.ok a, after)
  simp

/-- A list of results is given item by item. -/
theorem gives_mapM_cons {f : α → Reporting ε β} {as : List α} {bs : List β} :
    Gives ((a :: as).mapM f) before bs after ↔ ∃ b more mid, bs = b :: more ∧
      Gives (f a) before b mid ∧ Gives (as.mapM f) mid more after := by
  rw [List.mapM_cons, gives_bind]
  simp only [gives_bind, gives_pure]
  constructor
  · rintro ⟨b, mid, hb, more, stop, hmore, rfl, rfl⟩
    exact ⟨b, more, mid, rfl, hb, hmore⟩
  · rintro ⟨b, more, mid, rfl, hb, hmore⟩
    exact ⟨b, mid, hb, more, after, hmore, rfl, rfl⟩

/-- Nothing is given for no items. -/
theorem gives_mapM_nil {f : α → Reporting ε β} {bs : List β} :
    Gives (([] : List α).mapM f) before bs after ↔ [] = bs ∧ before = after := by
  rw [List.mapM_nil, gives_pure]

/-- A list of results has one for each item. -/
theorem forall₂_of_mapM {f : α → Reporting ε β} {as : List α} {bs : List β}
    (h : Gives (as.mapM f) before bs after) :
    List.Forall₂ (fun a b => ∃ start stop, Gives (f a) start b stop) as bs := by
  induction as generalizing bs before with
  | nil =>
    obtain ⟨rfl, _⟩ := gives_mapM_nil.mp h
    exact .nil
  | cons a as ih =>
    obtain ⟨b, more, mid, rfl, hb, hmore⟩ := gives_mapM_cons.mp h
    exact .cons ⟨before, mid, hb⟩ (ih hmore)

/-- The value of a computation, or nothing if it fails. -/
def value? (x : Reporting ε α) (before : List Diagnostic) : Option α :=
  match x.run.run before with
  | (.ok a, _) => some a
  | (.error _, _) => none

/-- A value is given with some reports. -/
theorem gives_of_value? (h : value? x before = some a) : ∃ after, Gives x before a after := by
  unfold value? at h
  split at h
  · next a' after hx =>
    obtain rfl := Option.some.inj h
    exact ⟨after, hx⟩
  · simp at h

/-- What is given is the value. -/
theorem value?_of_gives (h : Gives x before a after) : value? x before = some a := by
  unfold value?
  rw [show x.run.run before = (.ok a, after) from h]

end GoContracts.Reporting

namespace GoContracts

open Reporting (Gives)

/-- A parsed file has its text. -/
theorem SourceFile.text_parse (path text : String) : (parse path text).text = text := rfl

/-- A file that is read has its path. -/
theorem SourceFile.path_read (path text : String) : (read path text).path = path := by
  rw [read]
  split <;> rfl

/-- A file without errors is read as it stands. -/
theorem SourceFile.read_eq_parse {path text : String} (h : (read path text).hasErrors = false) :
    read path text = parse path text := by
  rw [read] at h ⊢
  split at h
  · next herrors => exact absurd (herrors.symm.trans h) (by simp)
  · next hvalid => rw [if_neg hvalid]

/-- The names that the blank targets of a file take. -/
def SourceFile.namings (p : Package) (file : SourceFile) : List (Syntax.Tree × ErrorTarget) :=
  Injection.namings (file.placements p)

/-- The placed directives of a file with their guards, if they can be generated. -/
def SourceFile.demands (p : Package) (file : SourceFile) :
    Reporting InvalidExpression (List Demand) :=
  (file.placements p).mapM (Injection.demand p file (file.namings p))

/-- A file with guards is made of one demand for each placed directive. -/
theorem gives_inject? {p : Package} {file : SourceFile} {injection : Injection}
    {before after : List Diagnostic} :
    Gives (file.inject? p) before (some injection) after ↔
      file.anchors ≠ [] ∧ ∃ demands, Gives (file.demands p) before demands after ∧
        injection = Injection.ofDemands file (file.namings p) demands := by
  unfold SourceFile.inject?
  cases hanchors : file.anchors.isEmpty with
  | true =>
    rw [if_pos rfl, Reporting.gives_pure, List.isEmpty_iff.mp hanchors]
    simp
  | false =>
    have hne : file.anchors ≠ [] := by simpa using hanchors
    rw [if_neg Bool.false_ne_true, Reporting.gives_bind]
    simp only [Reporting.gives_pure]
    constructor
    · rintro ⟨demands, _, hdemands, hsome, rfl⟩
      exact ⟨hne, demands, hdemands, (Option.some.inj hsome).symm⟩
    · rintro ⟨_, demands, hdemands, rfl⟩
      exact ⟨demands, after, hdemands, rfl, rfl⟩

/-- A package of one file. -/
def Injection.alone (file : SourceFile) : Package := .ofFiles [file]

end GoContracts

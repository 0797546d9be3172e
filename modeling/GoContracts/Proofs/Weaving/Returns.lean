import GoContracts.Proofs.Lists
import GoContracts.Proofs.Scope.Enclosing
import GoContracts.Proofs.Typing.LexicalTypes
import GoContracts.Proofs.Weaving.Naming
import GoContracts.Proofs.Weaving.Outcome
import Mathlib.Algebra.Ring.Nat

/-!
# Early returns

A guard that returns without values of its own returns what fits the innermost function around the
statement. A statement that begins with a function literal is the exception: its guards return what
fits the literal, though they stand outside of it.
-/

namespace GoContracts

open Syntax (Tree)
open Syntax.Tree (preorderAll)
open Reporting (Gives gives_bind gives_pure value? gives_of_value?)
open Static (ReadOutside reference resultBy resultValue_eq signatureDeclarations)

namespace Reporting

/-- Each result of a list is given for one of the items. -/
theorem exists_of_mem_mapM {ε α β : Type} {f : α → Reporting ε β} {as : List α} {bs : List β}
    {b : β} {before after : List Diagnostic} (h : Gives (as.mapM f) before bs after)
    (hb : b ∈ bs) : ∃ a ∈ as, ∃ start stop, Gives (f a) start b stop :=
  Paired.exists_mem (forall₂_of_mapM h).flip hb

end Reporting

/-! ### Results of a function -/

/-- Number of the parameters that a declaration stands for: one for each name, or one without
names. -/
def paramCount (declaration : Tree) : Nat :=
  if (declaration.is .parameterDeclaration || declaration.is .variadicParameterDeclaration) &&
      (declaration.child? .type).isSome then
    max 1 (declaration.childrenIn .name).length
  else 0

/-- Number of the results of a function. -/
def resultCount (function : Tree) : Nat :=
  match function.child? .result with
  | none => 0
  | some result =>
    if result.is .parameterList then (result.namedChildren.map paramCount).sum else 1

namespace Signature

private theorem length_paramsNamed (names : List String) (type : TypeExpr) :
    (paramsNamed names type).length = max 1 names.length := by
  cases names with
  | nil => rfl
  | cons name names => simp [paramsNamed]

private theorem length_paramsOf (file : SourceFile) (list : Tree) :
    (paramsOf file list).length = (list.namedChildren.map paramCount).sum := by
  rw [paramsOf, List.length_flatMap]
  refine congrArg List.sum (List.map_congr_left fun declaration _ => ?_)
  rw [paramCount, Bool.or_comm]
  cases htype : declaration.child? .type with
  | none => simp
  | some type =>
    cases hparameter : declaration.is .parameterDeclaration ||
      declaration.is .variadicParameterDeclaration <;>
    simp [length_paramsNamed, Bool.or_comm, hparameter]

private theorem length_resultsOf (file : SourceFile) (function : Tree) :
    (resultsOf file function).length = resultCount function := by
  rw [resultsOf, resultCount]
  cases function.child? .result with
  | none => rfl
  | some result =>
    dsimp only
    split
    · exact length_paramsOf file result
    · rfl

end Signature

/-! ### Values that fit -/

/-- The values of an early return fit a function: there is one for each result, which its type
demands. Without an error to return, none are listed if all results have names. -/
structure Fits (p : Package) (file : SourceFile) (function : Tree) (errorName? : Option String)
    (values : List String) : Prop where
  count : values.length = resultCount function ∨
    values = [] ∧ errorName? = none ∧ (Signature.ofFunction file function).resultsAllNamed = true
  each : ∀ result value,
    (result, value) ∈ (Signature.ofFunction file function).results.zip values →
      ReadOutside p (signatureDeclarations file function) result.type →
      ∀ admits, value =
        resultBy p file (reference (signatureDeclarations file function)) admits errorName? result

namespace Guard

variable {p : Package} {scope : Scope} {anchor : Anchor} {before after : List Diagnostic}

/-- The values that an action returns. -/
def Action.values? : Action → Option (List String)
  | .abort _ => none
  | .return values | .logAndReturn _ values => some values

private theorem Action.values?_ofResponse {response : Response} (h : response.returns = true)
    (message : Message) (values : List String) :
    (Action.ofResponse response message values).values? = some values := by
  rw [Action.ofResponse, if_pos h]
  split <;> rfl

/-- The values that follow from a signature fit its function. -/
theorem fits_resultValues {function : Tree}
    (h : scope.signature? = some (.ofFunction scope.file function)) (errorName? : Option String) :
    Fits p scope.file function errorName? (resultValues p scope errorName?) := by
  rw [resultValues, h]
  dsimp only
  split
  · next hnamed =>
    rw [Bool.and_eq_true, Option.isNone_iff_eq_none] at hnamed
    exact ⟨.inr ⟨rfl, hnamed⟩, fun result value hmem => by simp at hmem⟩
  · refine ⟨.inl ?_, fun result value hmem hread admits => ?_⟩
    · rw [List.length_map]
      exact Signature.length_resultsOf scope.file function
    · obtain ⟨i, hi, hpair⟩ := List.mem_iff_getElem.mp hmem
      rw [List.getElem_zip, List.getElem_map, Prod.mk.injEq] at hpair
      obtain ⟨rfl, rfl⟩ := hpair
      exact resultValue_eq hread errorName?

/-- The values of a directive that has none of its own follow from the signature. -/
theorem gives_values {errorName? : Option String} {values : List String}
    (h : Gives (Guard.values p anchor scope errorName?) before values after)
    (hreturns : anchor.directive.response.returns = true)
    (hvalues : anchor.directive.response.values = []) :
    values = resultValues p scope errorName? := by
  rw [Guard.values, if_pos hreturns, returnValues, hvalues] at h
  exact (gives_pure.mp h).1.symm

/-- The guards of a precondition without values of its own return those of the signature. -/
theorem values?_of_precondition {guards : List Guard}
    (h : Gives (precondition p anchor scope) before guards after)
    (hreturns : anchor.directive.response.returns = true)
    (hvalues : anchor.directive.response.values = []) :
    ∀ guard ∈ guards, guard.action.values? = some (resultValues p scope none) := by
  rw [precondition_eq] at h
  obtain ⟨values, mid, hown, h⟩ := gives_bind.mp h
  obtain rfl := gives_values hown hreturns hvalues
  intro guard hguard
  split at h
  · obtain ⟨name, _, start, stop, hname⟩ := Reporting.exists_of_mem_mapM h hguard
    obtain ⟨_, rfl⟩ := eq_of_nonZero hname
    exact Action.values?_ofResponse hreturns _ _
  · obtain ⟨one, _, hone, h⟩ := gives_bind.mp h
    obtain ⟨rfl, _⟩ := gives_pure.mp h
    obtain rfl := List.mem_singleton.mp hguard
    obtain ⟨_, rfl⟩ := eq_of_holds hone
    exact Action.values?_ofResponse hreturns _ _
  · obtain ⟨rfl, _⟩ := gives_pure.mp h
    exact absurd hguard List.not_mem_nil

/-- The guard on an error compares its name, and without values of its own it returns those of the
signature. -/
theorem values?_of_errorCheck {guard : Guard} {name : String}
    (h : Gives (errorCheck p anchor scope name) before guard after)
    (hreturns : anchor.directive.response.returns = true)
    (hvalues : anchor.directive.response.values = []) :
    guard.condition = name ++ " != nil" ∧
      guard.action.values? = some (resultValues p scope (some name)) := by
  rw [errorCheck_eq] at h
  obtain ⟨values, mid, hown, h⟩ := gives_bind.mp h
  obtain rfl := gives_values hown hreturns hvalues
  obtain ⟨rfl, _⟩ := gives_pure.mp h
  exact ⟨rfl, Action.values?_ofResponse hreturns _ _⟩

end Guard

/-! ### Guards of a file -/

/-- The statement that a placed directive applies to. -/
def Placement.statement? : Placement → Option Tree
  | .before statement | .after statement _ => some statement
  | .ignored _ => none

namespace Injection

variable {p : Package} {file : SourceFile} {demands : List Demand} {reports : List Diagnostic}
  {demand : Demand} {statement : Tree}

/-- The name of the error that a placed directive checks. -/
def checked? (p : Package) (file : SourceFile) (placed : Placed) : Option String :=
  (errorTarget? placed).map (errorName (file.namings p))

/-- A guard returns values that fit a function, and one on an error compares the name that it
returns for the error. -/
def ReturnsFrom (p : Package) (file : SourceFile) (placed : Placed) (function : Tree)
    (guard : Guard) : Prop :=
  (∀ name, checked? p file placed = some name → guard.condition = name ++ " != nil") ∧
    ∃ values, guard.action.values? = some values ∧
      Fits p file function (checked? p file placed) values

/-- A directive is placed at a node of the file. -/
theorem mem_of_statement? (h : file.InOrder) {placed : Placed}
    (hplaced : placed ∈ file.placements p)
    (hstatement : placed.placement.statement? = some statement) :
    statement ∈ preorderAll file.tree.children := by
  have hjustified := Placement.justified_placements h placed hplaced
  rw [Placement.Justified] at hjustified
  have hmem : statement ∈ (Body.all file.tree).flatMap (·.statements) := by
    cases hplacement : placed.placement with
    | before other =>
      rw [hplacement] at hjustified hstatement
      obtain rfl := Option.some.inj hstatement
      exact hjustified.2.mem
    | after other error =>
      rw [hplacement] at hstatement
      obtain rfl := Option.some.inj hstatement
      exact (Placement.mem_statements_of_after h hplaced hplacement).2
    | ignored cause =>
      rw [hplacement] at hstatement
      cases hstatement
  obtain ⟨body, hbody, hmem⟩ := List.mem_flatMap.mp hmem
  exact (SourceFile.OnTokens.mem_of_mem_statements h hbody hmem).1

namespace Woven

variable (h : Woven p file demands reports) (hdemand : demand ∈ demands)
  (hstatement : demand.placed.placement.statement? = some statement)
include h hdemand hstatement

/-- Guards without values of their own return what fits the function whose signature is found at
the statement. -/
theorem returnsFrom {function : Tree}
    (hreturns : demand.placed.anchor.directive.response.returns = true)
    (hvalues : demand.placed.anchor.directive.response.values = [])
    (hsignature : (Scope.visibleAt file statement.start).signature? =
      some (.ofFunction file function)) :
    ∀ guard ∈ demand.guards, ReturnsFrom p file demand.placed function guard := by
  intro guard hguard
  have hguards := h.guards demand hdemand
  have hfits := Guard.fits_resultValues (p := p) hsignature
  unfold ReturnsFrom checked? errorTarget?
  rw [Demanded] at hguards
  cases hplacement : demand.placed.placement with
  | before other =>
    rw [hplacement] at hguards hstatement
    obtain rfl := Option.some.inj hstatement
    obtain ⟨before, after, hgives⟩ := hguards
    exact ⟨fun name hname => by simp at hname, _,
      Guard.values?_of_precondition hgives hreturns hvalues guard hguard, hfits none⟩
  | after other error =>
    rw [hplacement] at hguards hstatement
    obtain rfl := Option.some.inj hstatement
    obtain ⟨one, before, after, hone, hgives⟩ := hguards
    obtain rfl := List.mem_singleton.mp (hone ▸ hguard)
    obtain ⟨hcondition, hown⟩ := Guard.values?_of_errorCheck hgives hreturns hvalues
    exact ⟨fun name hname => by rw [hcondition, ← Option.some.inj hname], _, hown, hfits _⟩
  | ignored cause =>
    rw [hplacement] at hstatement
    cases hstatement

end Woven

/-- Guards without values of their own return what fits the innermost function around the statement,
or if a function begins where the statement does, what fits the innermost one of these. -/
theorem returns_fit {path text : String} {injection : Injection} {before after : List Diagnostic}
    (h : Gives ((SourceFile.parse path text).inject? p) before (some injection) after) :
    ∃ demands reports, injection = ofDemands (.parse path text)
        ((SourceFile.parse path text).namings p) demands ∧ after = before ++ reports ∧
      demands.map (·.placed) = (SourceFile.parse path text).placements p ∧
      ∀ demand ∈ demands, ∀ statement, demand.placed.placement.statement? = some statement →
        demand.placed.anchor.directive.response.returns = true →
        demand.placed.anchor.directive.response.values = [] →
        (∀ function, Encloses (.parse path text) statement function →
          (∀ other ∈ statement.preorder, other.isFunction = true →
            other.start ≠ statement.start) →
          ∀ guard ∈ demand.guards, ReturnsFrom p (.parse path text) demand.placed function guard) ∧
        ∀ literal, Leads statement literal →
          ∀ guard ∈ demand.guards, ReturnsFrom p (.parse path text) demand.placed
            literal guard := by
  obtain ⟨demands, reports, rfl, rfl, hwoven⟩ := exists_woven h
  refine ⟨demands, reports, rfl, rfl, hwoven.placed, ?_⟩
  intro demand hdemand statement hstatement hreturns hvalues
  have hnode := mem_of_statement? hwoven.inOrder
    (hwoven.placed ▸ List.mem_map_of_mem (f := fun d : Demand => d.placed) hdemand) hstatement
  exact ⟨fun function hfunction hplain => hwoven.returnsFrom hdemand hstatement hreturns hvalues
      (Scope.signature?_of_encloses hwoven.inOrder hnode hfunction hplain),
    fun literal hliteral => hwoven.returnsFrom hdemand hstatement hreturns hvalues
      (Scope.signature?_of_leads hwoven.inOrder hnode hliteral)⟩

/-- A function with a literal of three results, in which an error is checked. -/
def nestedLiteral : SourceFile :=
  .parse "/f.go" "package p\n\nfunc h(y int) error\n\nfunc f(x int) int \x7b
\tg := func(y int) (n, m int, e error) \x7b\n\t\t// @must -ret\n\t\terr := h(y)
\t\treturn y, y, err\n\t\x7d\n\tn, _, _ := g(x)\n\treturn n\n\x7d\n"

/-- Whether a placed directive returns without values of its own, and the innermost function around
its statement has so many results. -/
def returnsIn (file : SourceFile) (results : Nat) (placed : Placed) : Bool :=
  placed.anchor.directive.response.returns && placed.anchor.directive.response.values.isEmpty &&
    placed.placement.statement?.any fun statement =>
      (functionsOver file statement).getLast?.any fun function =>
        function.start < statement.start && resultCount function = results

private theorem nestedLiteral_run :
    (value? (nestedLiteral.inject? (alone nestedLiteral)) []).join.isSome = true ∧
      (nestedLiteral.placements (alone nestedLiteral)).any (returnsIn nestedLiteral 3) = true ∧
      ∀ placed ∈ nestedLiteral.placements (alone nestedLiteral),
        placed.placement.statement?.all fun statement =>
          statement.preorder.all fun other => !other.isFunction := by
  decide +kernel

/-- Where such a directive is placed. -/
theorem exists_of_returnsIn {results : Nat} {placed : Placed} (h : file.InOrder)
    (hplaced : placed ∈ file.placements p) (hreturns : returnsIn file results placed = true) :
    placed.anchor.directive.response.returns = true ∧
      placed.anchor.directive.response.values = [] ∧
      ∃ statement function, placed.placement.statement? = some statement ∧
        Encloses file statement function ∧ resultCount function = results := by
  rw [returnsIn, Bool.and_eq_true, Bool.and_eq_true, List.isEmpty_iff] at hreturns
  obtain ⟨⟨hreturns, hvalues⟩, hany⟩ := hreturns
  obtain ⟨statement, hstatement, hany⟩ := (Option.any_eq_true ..).mp hany
  obtain ⟨function, hlast, hfunction⟩ := (Option.any_eq_true ..).mp hany
  rw [Bool.and_eq_true, decide_eq_true_eq, decide_eq_true_eq] at hfunction
  exact ⟨hreturns, hvalues, statement, function, hstatement,
    encloses_of_functionsOver h (mem_of_statement? h hplaced hstatement) hlast hfunction.1,
    hfunction.2⟩

/-- A guard in a literal returns as many values as the literal has results. -/
theorem returns_fit_nestedLiteral :
    ∃ injection after demands demand statement function,
      Gives (nestedLiteral.inject? (alone nestedLiteral)) [] (some injection) after ∧
      injection = ofDemands nestedLiteral (nestedLiteral.namings (alone nestedLiteral)) demands ∧
      demand ∈ demands ∧ demand.placed.placement.statement? = some statement ∧
      Encloses nestedLiteral statement function ∧ resultCount function = 3 ∧
      ∀ guard ∈ demand.guards,
        ReturnsFrom (alone nestedLiteral) nestedLiteral demand.placed function guard := by
  obtain ⟨hvalue, hplacement, hplain⟩ := nestedLiteral_run
  obtain ⟨injection, hinjection⟩ := Option.isSome_iff_exists.mp hvalue
  obtain ⟨after, hgives⟩ := gives_of_value? (Option.join_eq_some_iff.mp hinjection)
  obtain ⟨demands, _, heq, _, hplaced, hall⟩ := returns_fit hgives
  obtain ⟨placed, hmem, hreturnsIn⟩ := List.any_eq_true.mp hplacement
  obtain ⟨hreturns, hvalues, statement, function, hstatement, hfunction, hcount⟩ :=
    exists_of_returnsIn (SourceFile.inOrder_parse _ _) hmem hreturnsIn
  have hno := hplain placed hmem
  simp only [hstatement, Option.all_some, List.all_eq_true, Bool.not_eq_true'] at hno
  obtain ⟨demand, hdemand, rfl⟩ := List.mem_map.mp (hplaced ▸ hmem)
  refine ⟨injection, after, demands, demand, statement, function, hgives, heq, hdemand, hstatement,
    hfunction, hcount, ?_⟩
  exact (hall demand hdemand statement hstatement hreturns hvalues).1 function hfunction
    fun other hother hkind => absurd ((hno other hother).symm.trans hkind) Bool.false_ne_true

/-- A function with two results and a statement that begins with a literal. -/
def leadingLiteral : SourceFile :=
  .parse "/f.go" "package p\n\nfunc f(x int) (int, error) \x7b\n\t// @require -ret x > 0
\tfunc() \x7b\n\t\tprintln(x)\n\t\x7d()\n\treturn 0, nil\n\x7d\n"

/-- The run on that function: its one guard returns nothing. -/
theorem leadingLiteral_run : leadingLiteral.hasErrors = false ∧
    (match (leadingLiteral.demands (alone leadingLiteral)).run.run [] with
      | (.ok demands, _) => demands.any fun demand =>
        returnsIn leadingLiteral 2 demand.placed &&
          demand.guards.any (·.action.values? = some [])
      | _ => false) = true ∧
    ∀ t ∈ preorderAll leadingLiteral.tree.children, t.isFunction = true →
      (Signature.ofFunction leadingLiteral t).resultsAllNamed = false := by
  decide +kernel

/-- The guard returns as the literal would, but in the function around it. -/
theorem leadingLiteral_misfits :
    ¬∀ p path text demands demand statement function before after,
      (SourceFile.parse path text).hasErrors = false →
      Gives ((SourceFile.parse path text).demands p) before demands after → demand ∈ demands →
      demand.placed.placement.statement? = some statement →
      demand.placed.anchor.directive.response.returns = true →
      demand.placed.anchor.directive.response.values = [] →
      Encloses (.parse path text) statement function →
      ∀ guard ∈ demand.guards, ∃ values, guard.action.values? = some values ∧
        (values.length = resultCount function ∨ values = [] ∧
          (Signature.ofFunction (.parse path text) function).resultsAllNamed = true) := by
  intro h
  obtain ⟨hvalid, hrun, hnamed⟩ := leadingLiteral_run
  split at hrun
  swap
  · cases hrun
  next demands reports hgives =>
  obtain ⟨demand, hdemand, hrun⟩ := List.any_eq_true.mp hrun
  rw [Bool.and_eq_true] at hrun
  obtain ⟨hreturnsIn, hguards⟩ := hrun
  obtain ⟨guard, hguard, hnone⟩ := List.any_eq_true.mp hguards
  rw [decide_eq_true_eq] at hnone
  have hplaced : demand.placed ∈ leadingLiteral.placements (alone leadingLiteral) :=
    (demands_spec hgives).1 ▸ List.mem_map_of_mem hdemand
  obtain ⟨hreturns, hvalues, statement, function, hstatement, hfunction, hcount⟩ :=
    exists_of_returnsIn (SourceFile.inOrder_parse _ _) hplaced hreturnsIn
  obtain ⟨values, hown, hfit⟩ := h _ _ _ demands demand statement function [] reports hvalid hgives
    hdemand hstatement hreturns hvalues hfunction guard hguard
  obtain rfl : [] = values := Option.some.inj (hnone.symm.trans hown)
  rcases hfit with hlength | ⟨_, hall⟩
  · rw [hcount] at hlength
    cases hlength
  · have hnot : (Signature.ofFunction leadingLiteral function).resultsAllNamed = false :=
      hnamed function hfunction.mem hfunction.isFunction
    exact absurd (hnot.symm.trans hall) Bool.false_ne_true

end Injection

end GoContracts

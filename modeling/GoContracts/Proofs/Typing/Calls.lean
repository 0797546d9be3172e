import GoContracts.Proofs.Typing.Operations

/-!
# Answers for calls

The results of conversions, of functions of the package, of methods, of functions of well-known
packages and of predeclared functions.
-/

namespace GoContracts.Static

open Syntax (Tree)
open Typing (answersTo)

variable {o : Others} {p : Package} {P : List String} {n : Nat} {l : Place}
  {t f operand field : Tree} {ω : Operand} {info : TypeInfo} {e : TypeExpr} {es : List TypeExpr}
  {τ : Ty} {τs args : List Ty}
  {name base : String} {file : SourceFile} {s : Signature} {answers : Typing.Answers}

/-! ### Called functions -/

/-- A call of a name has the results of the name. -/
theorem callResults_of_name {scope : Scope} (hname : calledName? scope.file t = some name) :
    Typing.callResults p answers scope t =
      Typing.namedResults p answers scope name (argumentsOf t) := by
  obtain ⟨f, hf, rfl⟩ := Option.map_eq_some_iff.mp hname
  obtain ⟨hf, hident⟩ := Option.filter_eq_some_iff.mp hf
  simp only [Typing.callResults, hf, hident, if_true, argumentsOf]

private theorem callResults_named (hname : calledName? l.file t = some name) :
    Typing.callResults p answers l.scope t =
      Typing.namedResults p answers l.scope name (argumentsOf t) :=
  callResults_of_name (by rwa [Place.file_scope])

private theorem callResults_selected (hf : t.child? .function = some f)
    (hselector : f.is .selectorExpression) (hoperand : f.child? .operand = some operand)
    (hfield : f.child? .field = some field) :
    Typing.callResults p answers l.scope t =
      Typing.selectedResults p answers l.scope operand field := by
  have hident : f.is .identifier = false := Syntax.Tree.is_eq_false hselector (by decide)
  simp only [Typing.callResults, hf, hident, hselector, hoperand, hfield, Bool.false_eq_true,
    if_false, if_true]

/-- Some functions get the answer for their first argument. -/
theorem callResults_first (hname : calledName? l.file t = some name)
    (huniversal : l.IsUniversal p name) (hfirst : name ∈ ["append", "min", "max"]) :
    Typing.callResults p answers l.scope t =
      [(argumentsOf t).head?.bind (answers.single? l.scope)] := by
  simp only [List.mem_cons, List.not_mem_nil, or_false] at hfirst
  rw [callResults_named hname]
  unfold Typing.namedResults
  rw [Place.lookup?_of_isGlobal huniversal.1]
  rcases hfirst with rfl | rfl | rfl <;> rfl

private theorem predeclaredKind?_of_mem :
    ∀ name ∈ predeclaredFunctions, predeclaredKind? name = none := by
  decide

/-- A name that is not predeclared is that of a type or of a function of the package. -/
theorem namedResults_eq {scope : Scope} {ts : List Tree} (hlookup : scope.lookup? name = none)
    (hname : name ∉ predeclaredFunctions) : Typing.namedResults p answers scope name ts =
      if Library.isBuiltinType name || (p.typeDecl? name).isSome ||
          (scope.typeParam? name).isSome then [some (Typing.basic p answers scope name)]
      else match p.func? name with
        | some s => s.results.map fun r => some (Typing.classified p answers scope r.type)
        | none => [] := by
  unfold Typing.namedResults
  rw [hlookup, if_neg (by decide)]
  split <;> first | rfl | exact absurd (by decide) hname

/-- A conversion may spell its type arguments, of which the answer does not tell. -/
theorem denotes_conversionType {c : Context} (hc : Proper o p P c)
    (h : Resolves p c (conversionType l.file t name) τ) : Denotes o p P (.named name) τ := by
  cases h with
  | bound hshape hn hbound => cases hshape; exact .resolved hc (.bound rfl hn hbound)
  | declared hshape hn _ _ hdeclared halias =>
    cases hshape
    exact .named rfl hn (Option.isSome_iff_exists.mpr ⟨_, hdeclared.1⟩) halias
  | renamed hshape hn hbound hown hdeclared halias hparams h =>
    cases hshape
    exact .resolved hc (.renamed rfl hn hbound hown hdeclared halias hparams h)
  | predeclared hshape hbound hfree hn =>
    cases hshape
    exact .resolved hc (.predeclared rfl hbound hfree hn)
  | _ hshape => cases hshape

/-! ### Receivers -/

/-- The name of a type with methods denotes instances of that type. -/
theorem Denotes.of_localName? (hp : Plain p) (h : Denotes o p P e τ)
    (hbase : e.localName? = some base) {m : String} (hmethod : p.method? base m = some s) :
    (∃ args, τ = .named base args) ∨ (∃ x, τ = .inner x) ∨ ∃ σ, τ = .slice σ := by
  obtain ⟨hdeclared, halias⟩ := hp.methods hmethod
  obtain ⟨_, hshape⟩ := localName?_eq_some hbase
  have hpredeclared {k} (hn : predeclaredKind? base = some k) : False := by
    rw [hp.predeclared hn] at hdeclared
    cases hdeclared
  cases h with
  | unread h => rw [hshape] at h; cases h
  | named h => rw [hshape] at h; cases h; exact .inl ⟨_, rfl⟩
  | constant hn => cases hshape; exact (hpredeclared hn).elim
  | pointer h => rw [hshape] at h; cases h
  | sliced => exact .inr (.inr ⟨_, rfl⟩)
  | resolved hc h =>
    cases h with
    | bound h hn hbound =>
      rw [hshape] at h
      cases h
      rcases hc.bound hn hbound with ⟨m, rfl⟩ | ⟨hapart, -⟩
      · exact .inr (.inl ⟨m, rfl⟩)
      · rw [(hapart hn).1] at hdeclared
        cases hdeclared
    | declared h => rw [hshape] at h; cases h; exact .inl ⟨_, rfl⟩
    | renamed h _ _ _ _ halias' =>
      rw [hshape] at h
      cases h
      rw [halias] at halias'
      cases halias'
    | predeclared h _ _ hn =>
      rw [hshape] at h
      cases h
      obtain ⟨k, hn⟩ := Option.isSome_iff_exists.mp hn
      exact (hpredeclared hn).elim
    | _ h => rw [hshape] at h; cases h

/-- The type of a receiver is found by the name behind at most one pointer. -/
theorem Denotes.deref_localName?_eq (hp : Plain p) (h : Denotes o p P e τ)
    (hτ : τ = .named name args ∨ τ = .pointer (.named name args))
    (hbase : e.deref.localName? = some base) {m : String} (hmethod : p.method? base m = some s) :
    base = name := by
  have hnamed {e} (h : Denotes o p P e (.named name args)) (hbase : e.localName? = some base) :
      base = name := by
    rcases h.of_localName? hp hbase hmethod with ⟨_, hsame⟩ | ⟨_, hsame⟩ | ⟨_, hsame⟩ <;>
      cases hsame
    rfl
  by_cases hpointer : ∃ target, e.shape = .pointer target
  · obtain ⟨target, hshape⟩ := hpointer
    rw [TypeExpr.deref, hshape] at hbase
    rcases hτ with rfl | rfl
    · cases h with
      | unread h => rw [hshape] at h; cases h
      | named h => rw [hshape] at h; cases h
      | constant => cases hshape
      | resolved hc h => cases h with | _ h => rw [hshape] at h; cases h
    · have hagrees := h.agrees hp (.here rfl)
      rw [hshape] at hagrees
      rcases hagrees with ⟨_, hsame, hd⟩ | ⟨_, _, hsame, -⟩
      · cases hsame
        exact hnamed hd hbase
      · cases hsame
  · rw [deref_of_shape_ne fun target hshape => hpointer ⟨target, hshape⟩] at hbase
    rcases hτ with rfl | rfl
    · exact hnamed h hbase
    · rcases h.of_localName? hp hbase hmethod with ⟨_, hsame⟩ | ⟨_, hsame⟩ | ⟨_, hsame⟩ <;>
        cases hsame

/-! ### Results -/

namespace Step

variable (step : Step o p P n l t)

include step

/-- Results of declared types get the right answers wherever the function is declared. -/
theorem results {c : Context} {scope : Scope} {s : Signature} (hscope : Fits P scope)
    (hc : Proper o p P c) (h : ResolvesAll p c (s.results.map (·.type)) τs) :
    SoundAll o p P (s.results.map fun r => some (Typing.classified p (answersTo p n) scope r.type))
      (τs.map .typed) := by
  have hall := h.soundAll (f := Typing.classified p (answersTo p n) scope) fun e τ h =>
    step.denotes hscope (.resolved hc h)
  rwa [List.map_map] at hall

/-- The answer for a conversion is right. -/
theorem conversion (hname : calledName? l.file t = some name)
    (hfree : p.func? name = none) (h : Resolves p l.context (conversionType l.file t name) τ) :
    SoundAll o p P (Typing.callResults p (answersTo p n) l.scope t) [.typed τ] := by
  rw [callResults_named hname]
  cases hlookup : l.scope.lookup? name with
  | some b =>
    unfold Typing.namedResults
    rw [hlookup]
    exact .inl rfl
  | none =>
    have hpredeclared : name ∉ predeclaredFunctions := fun hpredeclared => by
      cases h with
      | bound hshape _ hbound =>
        cases hshape
        obtain ⟨d, hd, -⟩ := Option.map_eq_some_iff.mp hbound
        exact step.notMisled (.conversion hname hpredeclared (.inl (by rw [hd]; rfl)))
      | declared hshape _ _ _ hdeclared =>
        cases hshape
        exact step.notMisled (.conversion hname hpredeclared (.inr (by rw [hdeclared.1]; rfl)))
      | renamed hshape _ _ _ hdeclared =>
        cases hshape
        exact step.notMisled (.conversion hname hpredeclared (.inr (by rw [hdeclared.1]; rfl)))
      | predeclared hshape _ _ hn =>
        cases hshape
        rw [predeclaredKind?_of_mem _ hpredeclared] at hn
        cases hn
      | _ hshape => cases hshape
    rw [namedResults_eq hlookup hpredeclared, hfree]
    split
    · refine soundAll_single fun info hinfo => ?_
      cases hinfo
      exact step.denotes step.within.fits (denotes_conversionType step.proper h)
    · exact .inl rfl

/-- The answers for a call of a declared function are right. -/
theorem function (hname : calledName? l.file t = some name) (hglobal : l.IsGlobal name)
    (hdeclared : DeclaresFunction p file name s) {bound : String → Option Ty}
    (hbound : ∀ n σ, bound n = some σ → ∃ q ∈ s.typeParams, q.name = n)
    (h : ResolvesAll p ⟨file.importPath?, bound, true⟩ (s.results.map (·.type)) τs) :
    SoundAll o p P (Typing.callResults p (answersTo p n) l.scope t) (τs.map .typed) := by
  have hpredeclared : ¬IsPredeclared name := fun hpredeclared =>
    step.notMisled (.call hname hpredeclared (by rw [hdeclared.1]; rfl))
  have htype : p.typeDecl? name = none :=
    step.plain.single hglobal.1 (Option.isSome_iff_exists.mpr ⟨s, hdeclared.1⟩)
  have hbuiltin : Library.isBuiltinType name = false := by
    refine Bool.eq_false_iff.mpr fun hbuiltin => hpredeclared (.inl ?_)
    obtain ⟨cat, hcat⟩ := Option.isSome_iff_exists.mp hbuiltin
    obtain ⟨k, hk, -⟩ := predeclaredKind?_of_builtinCategory? hcat
    exact Option.isSome_iff_exists.mpr ⟨k, hk⟩
  have hparam : l.scope.typeParam? name = none := by
    refine Option.eq_none_iff_forall_ne_some.mpr fun q hq => ?_
    exact Place.not_isGlobal (Place.mem_params hq hglobal.1) hglobal
  rw [callResults_named hname, namedResults_eq (Place.lookup?_of_isGlobal hglobal)
    (fun h => hpredeclared (.inr h)), hbuiltin, htype, hparam, hdeclared.1]
  refine step.results step.within.fits (.of_file step.plain step.known hdeclared.2.1 ?_) h
  intro m σ _ hσ
  obtain ⟨q, hq, rfl⟩ := hbound m σ hσ
  exact .inr ⟨step.plain.functions hdeclared.1 hq,
    fun hP => (step.notMisled (.function hname hdeclared.1 hq hP)).elim⟩

/-- The answers for a call of a declared method are right. -/
theorem method (hf : t.child? .function = some f) (hselector : f.is .selectorExpression)
    (hoperand : f.child? .operand = some operand) (hfield : f.child? .field = some field)
    (hreceiver : Gives o p l operand (.typed τ))
    (hτ : τ = .named name args ∨ τ = .pointer (.named name args))
    (hdeclared : DeclaresMethod p file name (l.file.textOf field) s)
    (h : ResolvesAll p ⟨file.importPath?, bindReceiver s args, true⟩ (s.results.map (·.type)) τs) :
    SoundAll o p P (Typing.callResults p (answersTo p n) l.scope t) (τs.map .typed) := by
  have huses : Uses l.file t operand := .receiver hf hselector hoperand
  rw [callResults_selected hf hselector hoperand hfield, Typing.selectedResults]
  simp only [Place.file_scope, isPackageName_eq_false (step.not_misled huses) hreceiver,
    Bool.false_eq_true, if_false]
  split
  swap
  · exact .inl rfl
  next s' hs' =>
  obtain ⟨info, hinfo, hs'⟩ := Option.bind_eq_some_iff.mp hs'
  obtain ⟨base, hbase, hs'⟩ := Option.bind_eq_some_iff.mp hs'
  obtain rfl := (step.part huses hreceiver hinfo).1.deref_localName?_eq step.plain hτ hbase hs'
  obtain rfl := Option.some.inj (hdeclared.1.symm.trans hs')
  refine step.results fits_packageLevel (.of_file step.plain step.known hdeclared.2.1 ?_) h
  intro m σ _ hσ
  refine .inr ⟨step.plain.receivers hdeclared.1 hσ, fun hm => by_contra fun hparam => ?_⟩
  exact step.notMisled (.receiver hf hoperand hfield hreceiver hτ hdeclared.1 hm hσ
    fun x hx => hparam ⟨x, hx⟩)

/-- A function of another package has the results in the table of well-known ones. -/
theorem importedFunction {path : String} (hf : t.child? .function = some f)
    (hselector : f.is .selectorExpression) (hoperand : f.child? .operand = some operand)
    (hfield : f.child? .field = some field) (hident : operand.is .identifier)
    (hglobal : l.IsGlobal (l.file.textOf operand))
    (hvalue : p.value? (l.file.textOf operand) = none)
    (himport : l.file.importPath? (l.file.textOf operand) = some path)
    (hes : o.resultsOf? path (l.file.textOf field) = some es) (h : ResolvesAll p o.context es τs) :
    SoundAll o p P (Typing.callResults p (answersTo p n) l.scope t) (τs.map .typed) := by
  have hpath := step.plain.imports step.within.file himport
  rw [callResults_selected hf hselector hoperand hfield, Typing.selectedResults]
  simp only [Place.file_scope, hident, isPackageName_eq_true step.plain step.within.file hglobal
    hvalue himport, Bool.and_self, if_true]
  rw [Typing.qualifiedKey, hpath, Option.getD_some]
  cases hspelled : Library.functionResults? (path ++ "." ++ l.file.textOf field) with
  | none => exact .inl rfl
  | some spelled =>
    obtain rfl := step.known.results hspelled hes
    have hall := h.soundAll (f := Typing.classified p (answersTo p n) l.scope) fun e τ h =>
      step.denotes step.within.fits (.resolved (proper_library step.known) h)
    rwa [List.map_map] at hall

/-! ### Predeclared functions -/

/-- The answer for an allocation is right. -/
theorem new (hname : calledName? l.file t = some "new") (huniversal : l.IsUniversal p "new")
    {s : Tree} (hs : (argumentsOf t).head? = some s)
    (h : Resolves p l.context (.ofTree l.file s) τ) :
    SoundAll o p P (Typing.callResults p (answersTo p n) l.scope t) [.typed (.pointer τ)] := by
  have hresults : Typing.callResults p (answersTo p n) l.scope t =
      [some (Typing.classified p (answersTo p n) l.scope (.pointerTo (.ofTree l.file s)))] := by
    rw [callResults_named hname, Typing.namedResults, Place.lookup?_of_isGlobal huniversal.1, hs,
      Place.file_scope]
    rfl
  rw [hresults]
  refine soundAll_single fun info hinfo => ?_
  cases hinfo
  exact step.denotes step.within.fits (.pointer rfl (.resolved step.proper h))

/-- The answer for a value that is made is right. -/
theorem make (hname : calledName? l.file t = some "make") (huniversal : l.IsUniversal p "make")
    {s : Tree} (hs : (argumentsOf t).head? = some s)
    (h : Resolves p l.context (.ofTree l.file s) τ) :
    SoundAll o p P (Typing.callResults p (answersTo p n) l.scope t) [.typed τ] := by
  have hresults : Typing.callResults p (answersTo p n) l.scope t =
      [some (Typing.classified p (answersTo p n) l.scope (.ofTree l.file s))] := by
    rw [callResults_named hname, Typing.namedResults, Place.lookup?_of_isGlobal huniversal.1, hs,
      Place.file_scope]
    rfl
  rw [hresults]
  refine soundAll_single fun info hinfo => ?_
  cases hinfo
  exact step.resolved h

/-- The functions whose results are of one predeclared type. -/
theorem fixed {result : String} {k : ZeroKind} (hname : calledName? l.file t = some name)
    (huniversal : l.IsUniversal p name) (hk : predeclaredKind? result = some k)
    (hfixed : name ∈ ["len", "cap", "copy"] ∧ result = "int" ∨ name = "recover" ∧ result = "any") :
    SoundAll o p P (Typing.callResults p (answersTo p n) l.scope t) [.typed (.basic result)] := by
  have hresults : Typing.callResults p (answersTo p n) l.scope t =
      [some (Typing.basic p (answersTo p n) l.scope result)] := by
    simp only [List.mem_cons, List.not_mem_nil, or_false] at hfixed
    rw [callResults_named hname]
    unfold Typing.namedResults
    rw [Place.lookup?_of_isGlobal huniversal.1]
    rcases hfixed with ⟨rfl | rfl | rfl, rfl⟩ | ⟨rfl, rfl⟩ <;> rfl
  rw [hresults]
  refine soundAll_single fun info hinfo => ?_
  cases hinfo
  refine step.basic step.within.fits hk fun k' hk' => ?_
  cases hk' with
  | basic hk' => exact Option.some.inj (hk'.symm.trans hk)

/-- The answer for a slice with more elements is right. -/
theorem append (hname : calledName? l.file t = some "append")
    (huniversal : l.IsUniversal p "append") {s : Tree} (hs : (argumentsOf t).head? = some s)
    (h : Gives o p l s (.typed τ)) :
    SoundAll o p P (Typing.callResults p (answersTo p n) l.scope t) [.typed τ] := by
  rw [callResults_first hname huniversal (by decide), hs, Option.bind_some]
  exact soundAll_single fun info hinfo =>
    step.part (.argument hname (by decide) hs) h hinfo

/-- The answer for a least or a greatest operand is right. -/
theorem extremum {ωs : List Operand} (hname : calledName? l.file t = some name)
    (hextremum : name ∈ ["min", "max"]) (huniversal : l.IsUniversal p name)
    (hωs : GivesAll o p l (argumentsOf t) ωs) (h : CombineAll ωs ω) :
    SoundAll o p P (Typing.callResults p (answersTo p n) l.scope t) [ω] := by
  rw [callResults_first hname huniversal (List.mem_cons_of_mem _ hextremum)]
  refine soundAll_single fun info hinfo => ?_
  obtain ⟨s, hs, hinfo⟩ := Option.bind_eq_some_iff.mp hinfo
  have huses : Uses l.file t s := .argument hname (List.mem_cons_of_mem _ hextremum) hs
  have hω := Calls.extremum hname hextremum huniversal hωs h
  generalize hts : argumentsOf t = ts at hs hωs
  cases hωs with
  | nil => cases hs
  | cons hfirst hrest =>
    cases hs
    have hsound := step.part huses hfirst hinfo
    rcases h.of_head with rfl | ⟨c, rfl⟩
    · exact hsound
    · exact hsound.of_untyped fun k hk => by_contra fun hne =>
        step.notMisled (.argument hname hextremum (by rw [hts]; rfl) hfirst hω hk hne)

end Step

end GoContracts.Static

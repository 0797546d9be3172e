import GoContracts.Proofs.Typing.Origins

/-!
# Comparable types

The language defines `==` on a type whose values hold no slice, map or function. What values hold is
found by steps from a type to its elements and fields, from a type name to its declaration, and from
a type parameter to the argument for it. Classification takes all of these steps but the last one,
to the depth that is left.
-/

namespace GoContracts.Typing

/-- A type expression with the types that stand for the type parameters around it. There are none if
it is written in the scope at hand. -/
inductive TypeClosure where
  | mk (type : TypeExpr) (arguments? : Option (List (String × TypeClosure)))

/-- A step to what the values of a type hold. -/
inductive TypeStep where
  | element
  | field (index : Nat)
  /-- From the name of a type to its declaration. -/
  | declaration
  /-- From a type parameter to its argument. -/
  | argument
  deriving DecidableEq, Repr

namespace TypeClosure

/-- The type expression. -/
def type : TypeClosure → TypeExpr
  | mk type _ => type

/-- The types that stand for type parameters. -/
def arguments? : TypeClosure → Option (List (String × TypeClosure))
  | mk _ arguments? => arguments?

/-- Another expression at the same place. -/
def withType (c : TypeClosure) (type : TypeExpr) : TypeClosure := mk type c.arguments?

/-- What a type parameter stands for. -/
def argument? (c : TypeClosure) (name : String) : Option TypeClosure :=
  c.arguments?.bind fun bound => bound.lookup name

/-- The types of this kind have no `==`. -/
def isIncomparable (c : TypeClosure) : Bool :=
  match c.type.shape with
  | .slice _ | .map _ _ | .func => true
  | _ => false

section

variable (p : Package) (s : Scope)

/-- The scope of the names in the expression. -/
def scope (c : TypeClosure) : Scope := if c.arguments?.isSome then .packageLevel s.file else s

/-- Whether the name is that of a type parameter. -/
def isParameter (c : TypeClosure) (name : String) : Bool :=
  (c.argument? name).isSome || ((c.scope s).typeParam? name).isSome

/-- The declared type with the given arguments. -/
def instantiated (c : TypeClosure) (d : TypeDecl) (arguments : List TypeExpr) : TypeClosure :=
  mk d.underlying (some ((d.typeParams.map (·.name)).zip (arguments.map c.withType)))

/-- Take a step. -/
def step? (c : TypeClosure) : TypeStep → Option TypeClosure
  | .element =>
    match c.type.shape with
    | .array element => some (c.withType element)
    | _ => none
  | .field index =>
    match c.type.shape with
    | .struct fields => fields[index]?.map fun field => c.withType field.2
    | _ => none
  | .declaration =>
    match c.type.shape with
    | .named none name arguments =>
      if c.isParameter s name then none
      else (p.typeDecl? name).map fun d => c.instantiated d arguments
    | _ => none
  | .argument =>
    match c.type.shape with
    | .named none name _ => c.argument? name
    | _ => none

/-- Take steps one after the other. -/
def follow? (c : TypeClosure) (steps : List TypeStep) : Option TypeClosure :=
  steps.foldlM (step? p s) c

/-- The language defines `==` on the type. -/
def HasEquality (c : TypeClosure) : Prop :=
  ∀ steps held, c.follow? p s steps = some held → held.isIncomparable = false

end

variable {p : Package} {s : Scope} {c held : TypeClosure} {steps : List TypeStep} {n : Nat}

private theorem file_scope : (c.scope s).file = s.file := by
  unfold scope
  split <;> rfl

private theorem typeParamConstraint?_of_not_isParameter {name : String}
    (h : c.isParameter s name = false) : typeParamConstraint? p (c.scope s) name = none := by
  rw [isParameter, Bool.or_eq_false_iff] at h
  rw [typeParamConstraint?, Option.map_eq_none_iff]
  exact Option.isNone_iff_eq_none.mp (Option.isSome_eq_false_iff.mp h.2)

/-- A step other than to an argument goes from a type to one of which the comparison asks. -/
theorem step?_cases {step : TypeStep} (h : c.step? p s step = some held) :
    step = .argument ∨
      (∃ element, c.type.shape = .array element ∧ held = c.withType element) ∨
      (∃ fields field, c.type.shape = .struct fields ∧ field ∈ fields ∧
        held = c.withType field.2) ∨
      ∃ name arguments d, c.type.shape = .named none name arguments ∧
        c.isParameter s name = false ∧ p.typeDecl? name = some d ∧
        held = c.instantiated d arguments := by
  cases step with
  | argument => exact .inl rfl
  | element =>
    simp only [step?] at h
    split at h
    · next element hshape =>
      cases h
      exact .inr (.inl ⟨element, hshape, rfl⟩)
    · cases h
  | field index =>
    simp only [step?] at h
    split at h
    · next fields hshape =>
      obtain ⟨field, hfield, rfl⟩ := Option.map_eq_some_iff.mp h
      exact .inr (.inr (.inl ⟨fields, field, hshape, List.mem_of_getElem? hfield, rfl⟩))
    · cases h
  | declaration =>
    simp only [step?] at h
    split at h
    · next name arguments hshape =>
      split at h
      · cases h
      · next hparameter =>
        obtain ⟨d, hd, rfl⟩ := Option.map_eq_some_iff.mp h
        exact .inr (.inr (.inr ⟨name, arguments, d, hshape, by simpa using hparameter, hd, rfl⟩))
    · cases h

/-- A comparison within reach that needs no argument is found. -/
theorem isComparable_eq_false (h : c.follow? p s steps = some held) (hheld : held.isIncomparable)
    (hsteps : .argument ∉ steps) (hdepth : steps.length < n) :
    isComparable p n (c.scope s) c.type = false := by
  induction steps generalizing c n with
  | nil =>
    obtain ⟨n, rfl⟩ := Nat.exists_eq_succ_of_ne_zero (Nat.ne_of_gt hdepth)
    cases h
    unfold isIncomparable at hheld
    rw [isComparable]
    split at hheld
    · next hshape => rw [hshape]
    · next hshape => rw [hshape]
    · next hshape => rw [hshape]
    · cases hheld
  | cons step steps ih =>
    obtain ⟨n, rfl⟩ := Nat.exists_eq_succ_of_ne_zero (Nat.ne_of_gt (Nat.zero_lt_of_lt hdepth))
    obtain ⟨next, hstep, h⟩ := Option.bind_eq_some_iff.mp h
    have hnext := ih h (fun hmem => hsteps (List.mem_cons_of_mem _ hmem))
      (Nat.lt_of_succ_lt_succ hdepth)
    rw [isComparable]
    rcases step?_cases hstep with
      rfl | ⟨element, hshape, rfl⟩ | ⟨fields, field, hshape, hmem, rfl⟩ |
        ⟨name, arguments, d, hshape, hparameter, hd, rfl⟩
    · exact absurd List.mem_cons_self hsteps
    · rw [hshape]
      exact hnext
    · rw [hshape]
      exact List.all_eq_false.mpr ⟨field, hmem, Bool.eq_false_iff.mp hnext⟩
    · rw [hshape]
      simp only [typeParamConstraint?_of_not_isParameter hparameter, hd, file_scope]
      exact hnext

private theorem builtinCategory?_ne_aggregate (name : String) (b : Bool) :
    Library.builtinCategory? name ≠ some (.aggregate b) := by
  unfold Library.builtinCategory?
  split <;> simp

/-- Where such a comparison is found, no type is classified as comparable. -/
theorem category_ne_aggregate (h : c.follow? p s steps = some held) (hheld : held.isIncomparable)
    (hsteps : .argument ∉ steps) (hdepth : steps.length < n) :
    category p n (c.scope s) c.type ≠ .aggregate true := by
  induction steps generalizing c n with
  | nil =>
    obtain ⟨n, rfl⟩ := Nat.exists_eq_succ_of_ne_zero (Nat.ne_of_gt hdepth)
    cases h
    unfold isIncomparable at hheld
    rw [category]
    split at hheld
    · next hshape => simp [hshape]
    · next hshape => simp [hshape]
    · next hshape => simp [hshape]
    · cases hheld
  | cons step steps ih =>
    obtain ⟨n, rfl⟩ := Nat.exists_eq_succ_of_ne_zero (Nat.ne_of_gt (Nat.zero_lt_of_lt hdepth))
    obtain ⟨next, hstep, h⟩ := Option.bind_eq_some_iff.mp h
    have hrest : .argument ∉ steps := fun hmem => hsteps (List.mem_cons_of_mem _ hmem)
    have hcomparable := isComparable_eq_false h hheld hrest (Nat.lt_of_succ_lt_succ hdepth)
    rw [category]
    rcases step?_cases hstep with
      rfl | ⟨element, hshape, rfl⟩ | ⟨fields, field, hshape, hmem, rfl⟩ |
        ⟨name, arguments, d, hshape, hparameter, hd, rfl⟩
    · exact absurd List.mem_cons_self hsteps
    · rw [hshape]
      exact fun h => Bool.eq_false_iff.mp hcomparable (Category.aggregate.inj h)
    · rw [hshape]
      intro h
      have hall := List.all_eq_true.mp (Category.aggregate.inj h) field hmem
      exact Bool.eq_false_iff.mp hcomparable hall
    · rw [hshape]
      simp only [typeParamConstraint?_of_not_isParameter hparameter, hd, file_scope]
      cases hknown : Library.builtinCategory? name with
      | some known => exact fun h => builtinCategory?_ne_aggregate name true (h ▸ hknown)
      | none => exact ih h hrest (Nat.lt_of_succ_lt_succ hdepth)

end TypeClosure

section

variable {p : Package} {scope : Scope} {name : String} {info : TypeInfo}

/-- The declaration of a variable, in a function or at the top level, spells its type. -/
def IsDeclared (p : Package) (scope : Scope) (name : String) (type : TypeExpr) : Prop :=
  (∃ b, scope.lookup? name = some b ∧ b.origin = .declared type) ∨
    scope.lookup? name = none ∧ p.value? name = some (.declared type)

/-- The type of such a variable is classified at the greatest depth but one. -/
theorem IsDeclared.classified {type : TypeExpr} (hdeclared : IsDeclared p scope name type)
    (h : p.variableType? scope name = some info) :
    ∃ s, info = classifyAt p (maxDepth - 1) s type ∧ ((scope.lookup? name).isSome → s = scope) := by
  change nameType? p (answersTo p (maxDepth - 1)) scope name = some info at h
  rw [nameType?] at h
  rcases hdeclared with ⟨b, hb, horigin⟩ | ⟨hnone, hvalue⟩
  · rw [hb] at h
    simp only [bindingType?, horigin] at h
    cases h
    exact ⟨scope, rfl, fun _ => rfl⟩
  · rw [hnone] at h
    simp only [packageValueType?, hvalue, Option.bind_eq_bind, Option.bind_some] at h
    obtain ⟨file, -, h⟩ := Option.bind_eq_some_iff.mp h
    cases h
    exact ⟨.packageLevel file, rfl, fun hsome => by rw [hnone] at hsome; cases hsome⟩

/-- A variable that is compared with a composite literal has a type with `==`, up to the depth at
which its type was classified and but for what type arguments bring in. -/
theorem equality_of_aggregate (h : p.variableType? scope name = some info)
    (hc : info.category = .aggregate true) :
    ∃ s depth, depth < maxDepth ∧ info = classifyAt p depth s info.type ∧
      (∀ type, IsDeclared p scope name type → info.type = type ∧ depth + 1 = maxDepth ∧
        ((scope.lookup? name).isSome → s = scope)) ∧
      ∀ steps held, (TypeClosure.mk info.type none).follow? p s steps = some held →
        held.isIncomparable → .argument ∈ steps ∨ depth ≤ steps.length := by
  have hcompared {s depth} (hinfo : info = classifyAt p depth s info.type) (steps held)
      (hfollow : (TypeClosure.mk info.type none).follow? p s steps = some held)
      (hheld : held.isIncomparable) : .argument ∈ steps ∨ depth ≤ steps.length := by
    by_cases hargument : .argument ∈ steps
    · exact .inl hargument
    · refine .inr (Nat.le_of_not_lt fun hdepth => ?_)
      have hne := TypeClosure.category_ne_aggregate hfollow hheld hargument hdepth
      exact hne ((congrArg TypeInfo.category hinfo).symm.trans hc)
  by_cases hdeclared : ∃ type, IsDeclared p scope name type
  · obtain ⟨type, htype⟩ := hdeclared
    obtain ⟨s, rfl, hs⟩ := htype.classified h
    refine ⟨s, maxDepth - 1, by decide, rfl, fun type' htype' => ?_, hcompared rfl⟩
    obtain ⟨s', hinfo', -⟩ := htype'.classified h
    exact ⟨congrArg TypeInfo.type hinfo', rfl, hs⟩
  · rcases variableType?_classified (closed_true p) trivial h with
      hnilable | ⟨s, depth, -, hdepth, hinfo⟩
    · rw [hc] at hnilable
      cases hnilable
    · exact ⟨s, depth, hdepth, hinfo, fun type htype => (hdeclared ⟨type, htype⟩).elim,
        hcompared hinfo⟩

end

/-- A file with a variable that holds a slice by way of a type argument. -/
def pairFile : SourceFile :=
  .parse "/f.go" "package p\n\ntype Pair[T any] struct \x7b\n\tv T\n\x7d\n
func f(p Pair[[]int]) \x7b\n\tprintln(p)\n\x7d\n"

/-- The scope inside the function. -/
def pairScope : Scope := .visibleAt pairFile 70

private theorem pair_run : pairFile.hasErrors = false ∧
    (match (pairScope.lookup? "p").map (·.origin) with
      | some (.declared _) => true
      | _ => false) = true ∧
    ((Package.ofFiles [pairFile]).variableType? pairScope "p").any (fun info =>
      info.category = .aggregate true &&
        ((TypeClosure.mk info.type none).follow? (.ofFiles [pairFile]) pairScope
          [.declaration, .field 0, .argument]).any (·.isIncomparable)) = true := by
  decide +kernel

/-- Its type is classified as it is declared. -/
theorem exists_pair : ∃ b info, pairScope.lookup? "p" = some b ∧ b.origin = .declared info.type ∧
    (Package.ofFiles [pairFile]).variableType? pairScope "p" = some info ∧
    info.category = .aggregate true ∧
    ∃ held, (TypeClosure.mk info.type none).follow? (.ofFiles [pairFile]) pairScope
      [.declaration, .field 0, .argument] = some held ∧ held.isIncomparable := by
  obtain ⟨-, hdeclared, hinfo⟩ := pair_run
  obtain ⟨info, hinfo, hcomparison⟩ := (Option.any_eq_true ..).mp hinfo
  rw [Bool.and_eq_true, decide_eq_true_eq] at hcomparison
  split at hdeclared
  · next type horigin =>
    obtain ⟨b, hb, horigin⟩ := Option.map_eq_some_iff.mp horigin
    obtain ⟨s, rfl, -⟩ := IsDeclared.classified (.inl ⟨b, hb, horigin⟩) hinfo
    exact ⟨b, _, hb, horigin, hinfo, hcomparison.1, (Option.any_eq_true ..).mp hcomparison.2⟩
  · cases hdeclared

/-- A pair that holds a slice by way of a type argument. -/
theorem equality_of_aggregate_pair :
    ∃ info, (Package.ofFiles [pairFile]).variableType? pairScope "p" = some info ∧
      info.category = .aggregate true ∧
      ∃ s depth, depth < maxDepth ∧ info = classifyAt (.ofFiles [pairFile]) depth s info.type ∧
        (∀ type, IsDeclared (.ofFiles [pairFile]) pairScope "p" type → info.type = type ∧
          depth + 1 = maxDepth ∧ ((pairScope.lookup? "p").isSome → s = pairScope)) ∧
        ∀ steps held, (TypeClosure.mk info.type none).follow? (.ofFiles [pairFile]) s steps =
          some held → held.isIncomparable → .argument ∈ steps ∨ depth ≤ steps.length := by
  obtain ⟨-, info, -, -, hinfo, hcategory, -⟩ := exists_pair
  exact ⟨info, hinfo, hcategory, equality_of_aggregate hinfo hcategory⟩

/-- What a type argument brings in is overlooked. -/
theorem pair_hasNoEquality :
    ¬∀ (files : List SourceFile) (file : SourceFile) (pos : Nat) (name : String) (b : Binding)
      (info : TypeInfo), (∀ f ∈ files, f.hasErrors = false) → file ∈ files →
      (Scope.visibleAt file pos).lookup? name = some b → b.origin = .declared info.type →
      (Package.ofFiles files).variableType? (.visibleAt file pos) name = some info →
      info.category = .aggregate true →
      TypeClosure.HasEquality (.ofFiles files) (.visibleAt file pos) (.mk info.type none) := by
  intro h
  obtain ⟨b, info, hb, horigin, hinfo, hcategory, held, hheld, hincomparable⟩ := exists_pair
  have hequality := h [pairFile] pairFile 70 "p" b info (by simpa using pair_run.1)
    (List.mem_singleton_self _) hb horigin hinfo hcategory
  exact Bool.eq_false_iff.mp (hequality _ held hheld) hincomparable

end GoContracts.Typing

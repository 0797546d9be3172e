import GoContracts.Guard.Contract
import GoContracts.Proofs.Typing.TypeNames

/-!
# The types of results

The value that is returned for a result follows from its type, which is classified outside all
functions first and in the scope at hand only if its category is unknown there. That is the right
value, unless a name that is declared inside a function is also that of a type or of an error
outside.
-/

namespace GoContracts.Static

open Lexical (Declaration)
open Typing (maxDepth)

/-- The unqualified name behind all pointers. -/
def pointedName? : TypeExpr → Option String
  | .mk _ (.named none n _) => some n
  | .mk _ (.pointer target) => pointedName? target
  | _ => none

section

variable (p : Package) (file : SourceFile) (refer : String → Reference)
  (admits : Nat → String → Bool)

/-- Whether values of a type are errors. Types that are declared inside functions are none. -/
def isErrorBy (type : TypeExpr) : Bool :=
  (pointedName? type).all (refer · = .outer) && (type.text = "error" || p.isErrorLike type)

/-- The value to return for a result. -/
def resultBy (errorName? : Option String) (result : Param) : String :=
  let info : TypeInfo :=
    { type := result.type, category := categoryBy p file refer admits maxDepth result.type }
  match errorName? with
  | some name => if isErrorBy p refer result.type then name else info.zeroLiteral
  | none => info.zeroLiteral

end

/-- The name of a type is not taken for that of another type or of an error outside. -/
structure ReadOutside (p : Package) (ds : List Declaration) (type : TypeExpr) : Prop where
  names : ∀ n, pointedName? type = some n → reference ds n ≠ .outer →
    ¬IsOuterType p n ∧ p.hasErrorMethod n = false ∧ type.text ≠ "error"
  whole : Unambiguous p ds type

instance (p : Package) (ds : List Declaration) (type : TypeExpr) :
    Decidable (ReadOutside p ds type) :=
  decidable_of_iff ((∀ n, pointedName? type = some n → reference ds n ≠ .outer →
      ¬IsOuterType p n ∧ p.hasErrorMethod n = false ∧ type.text ≠ "error") ∧ Unambiguous p ds type)
    ⟨fun h => ⟨h.1, h.2⟩, fun h => ⟨h.names, h.whole⟩⟩

section

variable {p : Package} {ds : List Declaration} {type : TypeExpr} {n : String} {depth : Nat}
  {scope : Scope} {admits : Nat → String → Bool}

private theorem pointedName?_of_named {args : List TypeExpr} (h : type.shape = .named none n args) :
    pointedName? type = some n := by
  obtain ⟨text, shape⟩ := type
  cases h
  rfl

private theorem ne_error_of_not_isOuterType (h : ¬IsOuterType p n) : n ≠ "error" := by
  rintro rfl
  exact h (.inr rfl)

/-- A type is no error if its name is not one of a type outside all functions. -/
theorem isErrorLike_eq_false (hname : pointedName? type = some n) (h : ¬IsOuterType p n)
    (hmethod : p.hasErrorMethod n = false) : Typing.isErrorLike p depth type = false := by
  induction depth generalizing type with
  | zero => rfl
  | succ depth ih =>
    obtain ⟨text, shape⟩ := type
    cases shape with
    | pointer target =>
      rw [pointedName?] at hname
      simp only [Typing.isErrorLike, TypeExpr.shape, ih hname, Bool.and_false]
    | named qualifier name args =>
      cases qualifier with
      | some qualifier => cases hname
      | none =>
        cases hname
        simp [Typing.isErrorLike, TypeExpr.shape, ne_error_of_not_isOuterType h, hmethod,
          (eq_none_of_not_isOuterType h).1]
    | _ => cases hname

/-- A category for which a value of the type is made at run time. -/
def IsPlaceholder : Category → Prop
  | .typeParam _ | .unknown => True
  | _ => False

private theorem zeroLiteral_of_isPlaceholder {c c' : Category} (h : IsPlaceholder c)
    (h' : IsPlaceholder c') : TypeInfo.zeroLiteral ⟨type, c⟩ = TypeInfo.zeroLiteral ⟨type, c'⟩ := by
  cases c <;> cases h <;> cases c' <;> cases h' <;> rfl

/-- The category of a type outside all functions or, if that is unknown, in a scope. -/
def outsideFirst (p : Package) (depth : Nat) (scope : Scope) (type : TypeExpr) : Category :=
  let outside := Typing.category p depth (.packageLevel scope.file) type
  if outside = .unknown then Typing.category p depth scope type else outside

/-- A type name has a category of its own only as a type of the package or a predeclared one. -/
theorem category_in_scope (p : Package) (depth : Nat) (scope : Scope) {args : List TypeExpr}
    (hshape : type.shape = .named none n args) :
    IsPlaceholder (Typing.category p (depth + 1) scope type) ∨
      Typing.category p (depth + 1) scope type =
        Typing.category p (depth + 1) (.packageLevel scope.file) type := by
  simp only [Typing.category, hshape, typeParamConstraint?_packageLevel]
  cases Typing.typeParamConstraint? p scope n with
  | none => exact .inr rfl
  | some constraint? => exact .inl trivial

private theorem category_of_not_isOuterType (file : SourceFile) (depth : Nat) {args : List TypeExpr}
    (hshape : type.shape = .named none n args) (h : ¬IsOuterType p n) :
    Typing.category p (depth + 1) (.packageLevel file) type = .unknown := by
  obtain ⟨hdeclared, hknown⟩ := eq_none_of_not_isOuterType h
  simp only [Typing.category, hshape, typeParamConstraint?_packageLevel, hdeclared, hknown]

private theorem isPlaceholder_of_not_isOuterType (scope : Scope) (depth : Nat)
    {args : List TypeExpr}
    (hshape : type.shape = .named none n args) (h : ¬IsOuterType p n) :
    IsPlaceholder (Typing.category p (depth + 1) scope type) := by
  rcases category_in_scope p depth scope hshape with hcategory | hcategory
  · exact hcategory
  · rw [hcategory, category_of_not_isOuterType scope.file depth hshape h]
    trivial

/-- Where a name is looked for first is of no account if it is declared in one place only. -/
theorem zeroLiteral_outsideFirst (depth : Nat) (h : ReadOutside p ds type) :
    TypeInfo.zeroLiteral ⟨type, outsideFirst p (depth + 1) scope type⟩ =
      TypeInfo.zeroLiteral
        ⟨type, categoryBy p scope.file (reference ds) admits (depth + 1) type⟩ := by
  rw [outsideFirst, categoryBy]
  cases hshape : type.shape with
  | named qualifier n args =>
    cases qualifier with
    | some qualifier => simp only [Typing.category, hshape, ite_self]
    | none =>
      by_cases href : reference ds n = .outer
      · have houter := category_of_typeParam?_eq_none (.packageLevel scope.file) depth hshape
          rfl h.whole href
        simp only [href]
        -- A type parameter of the same name comes into play only where both are placeholders.
        refine Eq.trans ?_ (congrArg (fun c => TypeInfo.zeroLiteral ⟨type, c⟩) houter)
        split
        · next hunknown =>
          rcases category_in_scope p depth scope hshape with h | h
          · exact zeroLiteral_of_isPlaceholder h (hunknown ▸ trivial)
          · rw [h]
        · rfl
      · have hn := (h.names n (pointedName?_of_named hshape) href).1
        have hunknown := category_of_not_isOuterType scope.file depth hshape hn
        have hscope := isPlaceholder_of_not_isOuterType scope depth hshape hn
        simp only [hunknown, if_true]
        cases hrefer : reference ds n with
        | parameter => exact zeroLiteral_of_isPlaceholder hscope trivial
        | inner => exact zeroLiteral_of_isPlaceholder hscope trivial
        | outer => exact (href hrefer).elim
  | _ => simp only [Typing.category, hshape, reduceCtorEq, if_false, ite_self] <;> rfl

private theorem isErrorBy_eq (h : ReadOutside p ds type) :
    isErrorBy p (reference ds) type = (decide (type.text = "error") || p.isErrorLike type) := by
  rw [isErrorBy]
  cases hname : pointedName? type with
  | none => rw [Option.all_none, Bool.true_and]
  | some n =>
    by_cases href : reference ds n = .outer
    · rw [Option.all_some, href, decide_eq_true rfl, Bool.true_and]
    · obtain ⟨houter, hmethod, htext⟩ := h.names n hname href
      have herror : p.isErrorLike type = false := isErrorLike_eq_false hname houter hmethod
      rw [Option.all_some, decide_eq_false href, Bool.false_and, herror, decide_eq_false htext]
      rfl

/-- The value for a result is the one that its type demands. -/
theorem resultValue_eq {result : Param} (h : ReadOutside p ds result.type)
    (errorName? : Option String) :
    Guard.resultValue p scope errorName? result =
      resultBy p scope.file (reference ds) admits errorName? result := by
  have hinfo : (if (p.classify (.packageLevel scope.file) result.type).category = .unknown then
        p.classify scope result.type
      else p.classify (.packageLevel scope.file) result.type) =
      ⟨result.type, outsideFirst p maxDepth scope result.type⟩ := by
    unfold Package.classify Typing.classifyAt outsideFirst
    split
    · next hunknown => exact congrArg _ (if_pos hunknown).symm
    · next hknown => exact congrArg _ (if_neg hknown).symm
  have hzero : TypeInfo.zeroLiteral ⟨result.type, outsideFirst p maxDepth scope result.type⟩ =
      TypeInfo.zeroLiteral
        ⟨result.type, categoryBy p scope.file (reference ds) admits maxDepth result.type⟩ :=
    zeroLiteral_outsideFirst (maxDepth - 1) h
  cases errorName? with
  | none => simp only [Guard.resultValue, resultBy, hinfo, hzero]
  | some name =>
    simp only [Guard.resultValue, resultBy, hinfo, hzero, isErrorBy_eq h, Bool.or_eq_true,
      decide_eq_true_eq]

/-- The values of an early return are those that the types of the results demand. -/
theorem resultValues_eq {signature : Signature} (hsignature : scope.signature? = some signature)
    (h : ∀ result ∈ signature.results, ReadOutside p ds result.type)
    (errorName? : Option String) :
    Guard.resultValues p scope errorName? =
      if errorName?.isNone && signature.resultsAllNamed then []
      else signature.results.map (resultBy p scope.file (reference ds) admits errorName?) := by
  simp only [Guard.resultValues, hsignature]
  split
  · rfl
  · exact List.map_congr_left fun result hresult => resultValue_eq (h result hresult) errorName?

end

end GoContracts.Static

import GoContracts.Proofs.Typing.Denotation

/-!
# The names of types

What the names in a type expression refer to by the declarations around it: a type parameter,
another declaration inside a function, or a type outside all functions. Classification asks a scope
instead, which has the type parameters of a single function and no other types. Where the two agree
about the names that a classification looks at, it is the one that the declarations demand.
-/

namespace GoContracts.Static

open Lexical (Declaration)

/-- What the name of a type refers to. -/
inductive Reference where
  | parameter
  /-- A declaration inside a function that is not one of a type parameter. -/
  | inner
  /-- A type of the package or a predeclared one. -/
  | outer
  deriving DecidableEq, Repr

/-- What a name refers to after the given declarations, the innermost first. -/
def reference (ds : List Declaration) (n : String) : Reference :=
  match ds.find? (·.name = n) with
  | some d => if d.form = .typeParameter then .parameter else .inner
  | none => .outer

/-! ### Classification by reference -/

section

variable (p : Package) (file : SourceFile) (refer : String → Reference)
  (admits : Nat → String → Bool)

/-- Whether values of a type can be compared. A type parameter is compared if it is admitted. -/
def comparableBy : Nat → TypeExpr → Bool
  | 0, _ => true
  | depth + 1, type =>
    match type.shape with
    | .array element => comparableBy depth element
    | .struct fields => fields.all fun field => comparableBy depth field.2
    | .named none n _ =>
      match refer n with
      | .parameter => admits depth n
      | .inner => true
      | .outer => Typing.isComparable p (depth + 1) (.packageLevel file) type
    | _ => Typing.isComparable p (depth + 1) (.packageLevel file) type

/-- The category of a type. That of a type declared inside a function is left open, and a type of
the package hides a predeclared one. -/
def categoryBy : Nat → TypeExpr → Category
  | 0, _ => .unknown
  | depth + 1, type =>
    match type.shape with
    | .array element => .aggregate (comparableBy p file refer admits depth element)
    | .struct fields =>
      .aggregate (fields.all fun field => comparableBy p file refer admits depth field.2)
    | .named none n _ =>
      match refer n with
      | .parameter => .typeParam (admits depth n)
      | .inner => .unknown
      | .outer =>
        match p.typeDecl? n with
        | some d => Typing.category p depth (.packageLevel file) d.underlying
        | none => (Library.builtinCategory? n).getD .unknown
    | _ => Typing.category p (depth + 1) (.packageLevel file) type

end

/-- Whether the constraint of a type parameter of the scope admits equality. -/
def admitsIn (p : Package) (scope : Scope) (depth : Nat) (n : String) : Bool :=
  ((Typing.typeParamConstraint? p scope n).getD none).any (Typing.admitsComparable p depth scope)

/-! ### Misread names -/

/-- The package or the language declares a type of the name. -/
def IsOuterType (p : Package) (n : String) : Prop :=
  (p.typeDecl? n).isSome ∨ (Library.builtinCategory? n).isSome

instance (p : Package) (n : String) : Decidable (IsOuterType p n) :=
  inferInstanceAs (Decidable (_ ∨ _))

/-- A scope takes a name for something else than what it refers to: a type parameter is not one of
the scope, or the name of another declaration is. Of types that are declared inside functions a
scope sees none, so their names are taken for those of types outside. -/
def Misread (p : Package) (scope : Scope) (ds : List Declaration) (n : String) : Prop :=
  match reference ds n with
  | .parameter => scope.typeParam? n = none
  | .inner => (scope.typeParam? n).isSome ∨ IsOuterType p n
  | .outer => (scope.typeParam? n).isSome

/-- The names of types that matter for the zero value of a type or for its comparison. -/
inductive Mentions : TypeExpr → String → Prop
  | named {type : TypeExpr} {n : String} {args : List TypeExpr}
    (hshape : type.shape = .named none n args) : Mentions type n
  | element {type element : TypeExpr} {n : String} (hshape : type.shape = .array element)
    (h : Mentions element n) : Mentions type n
  | field {type : TypeExpr} {fields : List (String × TypeExpr)} {field : String × TypeExpr}
    {n : String} (hshape : type.shape = .struct fields) (hfield : field ∈ fields)
    (h : Mentions field.2 n) : Mentions type n

/-- The type is not one of the package with a predeclared name. -/
def Unambiguous (p : Package) (ds : List Declaration) (type : TypeExpr) : Prop :=
  ∀ n, type.localName? = some n → reference ds n = .outer →
    (p.typeDecl? n).isNone ∨ (Library.builtinCategory? n).isNone

instance (p : Package) (ds : List Declaration) (type : TypeExpr) :
    Decidable (Unambiguous p ds type) :=
  inferInstanceAs (Decidable (∀ n, _ = some n → _))

/-- A scope takes the names in a type for what they refer to. -/
structure ReadRight (p : Package) (scope : Scope) (ds : List Declaration) (type : TypeExpr) :
    Prop where
  names : ∀ n, Mentions type n → ¬Misread p scope ds n
  whole : Unambiguous p ds type

section

variable {p : Package} {scope : Scope} {ds : List Declaration} {type : TypeExpr} {n : String}
  {depth : Nat}

/-- A name without a constraint is that of no type parameter. -/
theorem typeParamConstraint?_eq_none : Typing.typeParamConstraint? p scope n = none ↔
    scope.typeParam? n = none := by
  rw [Typing.typeParamConstraint?, Option.map_eq_none_iff]

/-- Outside of all functions no name has a constraint. -/
theorem typeParamConstraint?_packageLevel (file : SourceFile) :
    Typing.typeParamConstraint? p (.packageLevel file) n = none := rfl

private theorem typeParam?_eq_none (h : ¬Misread p scope ds n) (hn : reference ds n ≠ .parameter) :
    scope.typeParam? n = none := by
  rw [Misread] at h
  refine Option.not_isSome_iff_eq_none.mp fun hsome => ?_
  cases href : reference ds n with
  | parameter => exact hn href
  | inner => simp [href, hsome] at h
  | outer => simp [href, hsome] at h

/-- A name that is no type outside is neither declared nor known. -/
theorem eq_none_of_not_isOuterType (h : ¬IsOuterType p n) :
    p.typeDecl? n = none ∧ Library.builtinCategory? n = none :=
  ⟨Option.not_isSome_iff_eq_none.mp fun hsome => h (.inl hsome),
    Option.not_isSome_iff_eq_none.mp fun hsome => h (.inr hsome)⟩

private theorem not_isOuterType (h : ¬Misread p scope ds n) (hn : reference ds n = .inner) :
    ¬IsOuterType p n := by
  rw [Misread, hn] at h
  exact fun houter => h (.inr houter)

/-- A type parameter that is not misread has a constraint in the scope, known or not. -/
theorem exists_typeParamConstraint? (h : ¬Misread p scope ds n)
    (hn : reference ds n = .parameter) :
    ∃ constraint?, Typing.typeParamConstraint? p scope n = some constraint? := by
  rw [Misread, hn] at h
  exact Option.ne_none_iff_exists'.mp fun hnone => h (typeParamConstraint?_eq_none.mp hnone)

/-- The name of a type parameter of the scope is read right. -/
theorem ReadRight.of_parameter (hn : type.localName? = some n) (href : reference ds n = .parameter)
    (hscope : (scope.typeParam? n).isSome) : ReadRight p scope ds type where
  names m hm := by
    obtain ⟨args, hshape⟩ := localName?_eq_some hn
    cases hm with
    | named h =>
      cases hshape.symm.trans h
      rw [Misread, href]
      exact fun hnone => Option.isSome_iff_ne_none.mp hscope hnone
    | element h => cases hshape.symm.trans h
    | field h => cases hshape.symm.trans h
  whole m hm hm' := by
    rw [hn] at hm
    cases hm
    rw [href] at hm'
    cases hm'

private theorem all_congr_of_mem {α : Type} {l : List α} {f g : α → Bool} (h : ∀ a ∈ l, f a = g a) :
    l.all f = l.all g := by
  rw [Bool.eq_iff_iff, List.all_eq_true, List.all_eq_true]
  exact forall₂_congr fun a ha => by rw [h a ha]

/-- Comparison reads a type through the names that it mentions. -/
theorem isComparable_eq (h : ∀ n, Mentions type n → ¬Misread p scope ds n) :
    Typing.isComparable p depth scope type =
      comparableBy p scope.file (reference ds) (admitsIn p scope) depth type := by
  induction depth generalizing type with
  | zero => rw [Typing.isComparable, comparableBy]
  | succ depth ih =>
    rw [comparableBy]
    cases hshape : type.shape with
    | array element =>
      rw [Typing.isComparable]
      simp only [hshape]
      exact ih fun n hn => h n (.element hshape hn)
    | struct fields =>
      rw [Typing.isComparable]
      simp only [hshape]
      refine all_congr_of_mem fun field hfield => ?_
      exact ih fun n hn => h n (.field hshape hfield hn)
    | named qualifier n args =>
      -- Nothing but an unqualified name is looked up in the scope.
      cases qualifier with
      | some qualifier => simp only [Typing.isComparable, hshape]
      | none =>
        have hn := h n (.named hshape)
        cases href : reference ds n with
        | parameter =>
          obtain ⟨constraint?, hconstraint⟩ := exists_typeParamConstraint? hn href
          simp only [Typing.isComparable, hshape, href, hconstraint, admitsIn, Option.getD_some]
        | inner =>
          have hscope := typeParam?_eq_none hn (by rw [href]; decide)
          simp only [Typing.isComparable, hshape, href, typeParamConstraint?_eq_none.mpr hscope,
            (eq_none_of_not_isOuterType (not_isOuterType hn href)).1]
        | outer =>
          have hscope := typeParam?_eq_none hn (by rw [href]; decide)
          simp only [Typing.isComparable, hshape, href, typeParamConstraint?_eq_none.mpr hscope,
            typeParamConstraint?_packageLevel]
          rfl
    | _ => simp only [Typing.isComparable, hshape]

/-- The category of a type that is declared outside all functions. -/
theorem category_of_typeParam?_eq_none (scope : Scope) (depth : Nat) {args : List TypeExpr}
    (hshape : type.shape = .named none n args) (hscope : scope.typeParam? n = none)
    (h : Unambiguous p ds type) (href : reference ds n = .outer) :
    Typing.category p (depth + 1) scope type =
      match p.typeDecl? n with
      | some d => Typing.category p depth (.packageLevel scope.file) d.underlying
      | none => (Library.builtinCategory? n).getD .unknown := by
  simp only [Typing.category, hshape, typeParamConstraint?_eq_none.mpr hscope]
  rcases h n (by rw [TypeExpr.localName?, hshape]) href with hdeclared | hknown
  · rw [Option.isNone_iff_eq_none.mp hdeclared]
    cases Library.builtinCategory? n <;> rfl
  · rw [Option.isNone_iff_eq_none.mp hknown]
    rfl

/-- Classification reads a type through the names that it mentions. -/
theorem category_eq (h : ReadRight p scope ds type) :
    Typing.category p depth scope type =
      categoryBy p scope.file (reference ds) (admitsIn p scope) depth type := by
  cases depth with
  | zero => rw [Typing.category, categoryBy]
  | succ depth =>
    rw [categoryBy]
    cases hshape : type.shape with
    | array element =>
      simp only [Typing.category, hshape]
      exact congrArg _ (isComparable_eq fun n hn => h.names n (.element hshape hn))
    | struct fields =>
      simp only [Typing.category, hshape]
      refine congrArg _ (all_congr_of_mem fun field hfield => ?_)
      exact isComparable_eq fun n hn => h.names n (.field hshape hfield hn)
    | named qualifier n args =>
      cases qualifier with
      | some qualifier => simp only [Typing.category, hshape]
      | none =>
        have hn := h.names n (.named hshape)
        cases href : reference ds n with
        | parameter =>
          obtain ⟨constraint?, hconstraint⟩ := exists_typeParamConstraint? hn href
          simp only [Typing.category, hshape, href, hconstraint, admitsIn, Option.getD_some]
        | inner =>
          have hscope := typeParam?_eq_none hn (by rw [href]; decide)
          obtain ⟨hdeclared, hknown⟩ := eq_none_of_not_isOuterType (not_isOuterType hn href)
          simp only [Typing.category, hshape, href, typeParamConstraint?_eq_none.mpr hscope,
            hdeclared, hknown]
        | outer =>
          have hscope := typeParam?_eq_none hn (by rw [href]; decide)
          rw [category_of_typeParam?_eq_none scope depth hshape hscope h.whole href]
          simp only [href]
    | _ => simp only [Typing.category, hshape]

end

end GoContracts.Static

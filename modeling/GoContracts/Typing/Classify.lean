import GoContracts.Package.Basic
import GoContracts.Scope.Basic
import GoContracts.Typing.Library

/-!
# Classifying types

A type is classified by its shape and, if it is a name, by the declaration of that name: a type
parameter of the function at hand, a predeclared type, or a type of the package. Declarations may
be cyclic, so every question is asked with a bound on its depth and has a cautious answer when the
bound is reached.
-/

namespace GoContracts.Typing

/-- The greatest depth of a question. -/
def maxDepth : Nat := 24

/-- The key of a qualified name in the tables of well-known packages. -/
def qualifiedKey (p : Package) (qualifier name : String) : String :=
  (p.importPath? qualifier).getD qualifier ++ "." ++ name

/-- The constraint of a type parameter of the innermost function, if the name is one. A parameter
that the receiver introduces has the constraint that the receiver's type declares at its place;
the inner value is missing if that is unknown. -/
def typeParamConstraint? (p : Package) (scope : Scope) (name : String) :
    Option (Option TypeExpr) :=
  (scope.typeParam? name).map fun param =>
    match param.constraint? with
    | some constraint => some constraint
    | none => do
      let receiver ← (← scope.signature?).receiver?
      let base ← receiver.type.baseName?
      let place ← receiver.type.baseArgs.findIdx? (·.localName? = some name)
      let declared ← (← p.typeDecl? base).typeParams[place]?
      declared.constraint?

mutual

/-- The category of a type. -/
def category (p : Package) : Nat → Scope → TypeExpr → Category
  | 0, _, _ => .unknown
  | n + 1, scope, type =>
    match type.shape with
    | .pointer _ | .slice _ | .map _ _ | .chan _ | .func | .interface _ _ => .nilable
    | .array element => .aggregate (isComparable p n scope element)
    | .struct fields => .aggregate (fields.all fun field => isComparable p n scope field.2)
    | .named none name _ =>
      match typeParamConstraint? p scope name with
      | some constraint? => .typeParam (constraint?.any (admitsComparable p n scope))
      | none =>
        match Library.builtinCategory? name with
        | some known => known
        | none =>
          match p.typeDecl? name with
          | some declared => category p n (.packageLevel scope.file) declared.underlying
          | none => .unknown
    | .named (some qualifier) name _ =>
      (Library.category? (qualifiedKey p qualifier name)).getD .unknown
    | .union _ | .approx _ | .unknown => .unknown

/-- Whether values of a type can be compared with `==`. -/
def isComparable (p : Package) : Nat → Scope → TypeExpr → Bool
  | 0, _, _ => true
  | n + 1, scope, type =>
    match type.shape with
    | .slice _ | .map _ _ | .func => false
    | .array element => isComparable p n scope element
    | .struct fields => fields.all fun field => isComparable p n scope field.2
    | .named none name _ =>
      match typeParamConstraint? p scope name with
      | some constraint? => constraint?.any (admitsComparable p n scope)
      | none =>
        match p.typeDecl? name with
        | some declared => isComparable p n (.packageLevel scope.file) declared.underlying
        | none => true
    | .named (some qualifier) name _ =>
      Library.category? (qualifiedKey p qualifier name) ≠ some (.aggregate false)
    | _ => true

/-- Whether all types that satisfy a constraint can be compared with `==`. -/
def admitsComparable (p : Package) : Nat → Scope → TypeExpr → Bool
  | 0, _, _ => false
  | n + 1, scope, constraint =>
    match constraint.shape with
    | .named none name _ =>
      if name = "comparable" then true
      else if name = "any" then false
      else
        match Library.builtinCategory? name with
        | some known => known ≠ .nilable
        | none =>
          (p.typeDecl? name).any fun declared =>
            admitsComparable p n (.packageLevel scope.file) declared.underlying
    | .named (some qualifier) name _ =>
      Library.isComparableConstraint (qualifiedKey p qualifier name)
    | .approx inner => isComparable p n scope inner
    | .union terms => !terms.isEmpty && terms.all (admitsComparable p n scope)
    | .interface _ elements => elements.any (admitsComparable p n scope)
    | .array _ | .struct _ | .pointer _ | .chan _ => isComparable p n scope constraint
    | _ => false

end

/-- Whether the type is an interface. -/
def isInterface (type : TypeExpr) : Bool :=
  match type.shape with
  | .interface _ _ => true
  | _ => false

/-- Whether values of a type are errors. -/
def isErrorLike (p : Package) : Nat → TypeExpr → Bool
  | 0, _ => false
  | n + 1, type =>
    match type.shape with
    | .named none name _ =>
      name = "error" || p.hasErrorMethod name ||
        (p.typeDecl? name).any fun declared =>
          isInterface declared.underlying && isErrorLike p n declared.underlying
    | .named (some qualifier) name _ => Library.isErrorType (qualifiedKey p qualifier name)
    | .pointer target => target.localName? ≠ some "error" && isErrorLike p n target
    | .interface methods _ => methods.any (· = ("Error", "() string"))
    | _ => false

/-- The type that a declared name stands for, through at most eight declarations. -/
def underlying (p : Package) (type : TypeExpr) : TypeExpr := go 8 type
where
  /-- Unfold at most the given number of declarations. -/
  go : Nat → TypeExpr → TypeExpr
    | 0, type => type
    | n + 1, type =>
      match type.localName?.bind p.typeDecl? with
      | some declared => go n declared.underlying
      | none => type

/-- A type with its category, at the given depth. -/
def classifyAt (p : Package) (depth : Nat) (scope : Scope) (type : TypeExpr) : TypeInfo :=
  { type, category := category p depth scope type }

end GoContracts.Typing

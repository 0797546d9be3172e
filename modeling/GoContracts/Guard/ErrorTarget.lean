import GoContracts.Guard.Basic
import GoContracts.Typing.Expression

/-!
# The error of an assignment

Among the targets of an assignment one holds the error that a `@must` checks. The types of the
assigned values decide which; without them the spelling of the targets does.
-/

namespace GoContracts

open Syntax (Tree Kind)

/-- The target of an assignment that a guard checks. -/
structure ErrorTarget where
  /-- The name that the guard compares with `nil`. -/
  errorName : String
  /-- The blank target that takes this name. -/
  blank? : Option Tree := none
  /-- The operator `=` that has to become `:=` to declare the name. -/
  operator? : Option Tree := none
  deriving Repr

namespace ErrorTarget

/-- The targets of an assignment. -/
def targets (assignment : Tree) : List Tree :=
  match assignment.child? .left with
  | none => []
  | some left => if left.is .expressionList then left.items else [left]

/-- The last identifier that is assigned an error according to the types of the values. -/
def typed? (p : Package) (scope : Scope) (assignment : Tree) : Option Tree := do
  let right ← assignment.child? .right
  let left := targets assignment
  let types := p.expressionTypes scope right
  if types.length = left.length then
    let pairs := left.zip types
    let (target, _) ← pairs.reverse.find? fun (target, info?) =>
      target.is .identifier && info?.any fun info => p.isErrorLike info.type
    return target
  else none

/-- The last blank target or else the first one named `err`. -/
def spelled? (file : SourceFile) (assignment : Tree) : Option Tree :=
  let names := (targets assignment).filter (·.is .identifier)
  (names.reverse.find? fun t => file.textOf t = "_").or
    (names.find? fun t => file.textOf t = "err")

/-- The target that holds the error, if there is one. -/
def select? (p : Package) (scope : Scope) (assignment : Tree) : Option Tree :=
  (typed? p scope assignment).or (spelled? scope.file assignment)

/-- The operator of an assignment that declares nothing. -/
def plainOperator? (file : SourceFile) (assignment : Tree) : Option Tree :=
  if assignment.is .assignmentStatement then
    (assignment.child? .operator).filter fun t => file.textOf t = "="
  else none

/-- What a `@must` on the given line checks, if a target holds an error. A blank target is given a
name after the line. -/
def of? (p : Package) (scope : Scope) (assignment : Tree) (line : Nat) : Option ErrorTarget :=
  (select? p scope assignment).map fun target =>
    let name := scope.file.textOf target
    if name = "_" then
      { errorName := Guard.placeholderName line
        blank? := some target
        operator? := plainOperator? scope.file assignment }
    else { errorName := name }

end ErrorTarget

end GoContracts

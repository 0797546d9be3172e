import GoContracts.Syntax.SourceFile

/-!
# Expressions on their own

The text of a directive is read by placing it between parentheses in a file of its own. It is one
expression exactly if that file fits the grammar, holds no comment, and its value is a single
parenthesized expression.
-/

namespace GoContracts

open Syntax (Tree)

/-- A text that is one expression. -/
structure Expression where
  /-- The file around the expression. -/
  file : SourceFile
  /-- The expression itself. -/
  node : Tree
  deriving Repr

namespace Expression

/-- What stands before the expression in its file. -/
def opening : String := "package p\nvar _ = (\n"

/-- What stands after the expression in its file. -/
def closing : String := "\n)\n"

/-- The expression between the parentheses of the first variable. -/
def valueNode? (root : Tree) : Option Tree := do
  let declaration ← root.namedChildren.find? (·.is .varDeclaration)
  let spec ← (Syntax.valueSpecs declaration).head?
  let values ← spec.child? .value
  match values.namedChildren with
  | [wrapped] => if wrapped.is .parenthesizedExpression then wrapped.items.head? else none
  | _ => none

/-- The expression that a text is, if it is one. -/
def parse? (text : String) : Option Expression := do
  if Text.isAllBlank text then none
  else
    let file := SourceFile.parse "expr.go" (opening ++ text ++ closing)
    if file.hasErrors || !file.comments.isEmpty then none
    else return { file, node := ← valueNode? file.tree }

/-- Whether a text is one expression. -/
def isValid (text : String) : Bool := (parse? text).isSome

/-- The text of a part of the expression. -/
def textOf (e : Expression) (t : Tree) : String := e.file.textOf t

end Expression

end GoContracts

import GoContracts.Typing.Classify
import GoContracts.TypeExpr.Spelling

/-!
# Types of expressions

The types of names and expressions follow from the declarations of the package and the tables of
well-known packages. What does not follow from them has no answer.
-/

namespace GoContracts.Typing

open Syntax (Tree Kind)

/-- The questions about names and expressions, to a certain depth. -/
structure Answers where
  /-- How much deeper a question may go. -/
  depth : Nat
  /-- The type of an expression with a single value. -/
  single? : Scope → Tree → Option TypeInfo
  /-- The type of a name. -/
  name? : Scope → String → Option TypeInfo
  /-- The types of the results of a call. -/
  results : Scope → Tree → List (Option TypeInfo)

/-- The first item among the children of a tree. -/
def firstItem? (t : Tree) : Option Tree := t.items.head?

section

variable (p : Package) (a : Answers)

/-- A type with its category, as deep as questions may go. -/
def classified (scope : Scope) (type : TypeExpr) : TypeInfo := classifyAt p a.depth scope type

/-- The predeclared type of the given name. -/
def basic (scope : Scope) (name : String) : TypeInfo := classified p a scope (.named name)

/-- Whether a name refers to an imported package. -/
def isPackageName (scope : Scope) (name : String) : Bool :=
  (scope.lookup? name).isNone && (p.value? name).isNone && (p.importPath? name).isSome

/-- The types of the values of an expression or a list of expressions. The list is empty if not
even the number of values is known. -/
def valueTypes (scope : Scope) (t : Tree) : List (Option TypeInfo) :=
  match (if t.is .expressionList then t.items else [t]) with
  | [only] => if only.is .callExpression then a.results scope only else [a.single? scope only]
  | items => items.map (a.single? scope)

/-- Whether the form of an expression allows a second value that tells of success. -/
def hasCommaOk (t : Tree) : Bool :=
  t.is .indexExpression || t.is .typeAssertionExpression || t.is .unaryExpression

/-- The type at place `index` of `count` names that are bound to values of the given types. -/
def pick (scope : Scope) (types : List (Option TypeInfo)) (values : Tree) (index count : Nat) :
    Option TypeInfo :=
  if types.length = count then (types[index]?).join
  else if types.length = 1 && count = 2 && (firstItem? values).any hasCommaOk then
    if index = 0 then (types[0]?).join else some (basic p a scope "bool")
  else none

/-- The type of the keys or values of a range over a type. -/
def rangeElement? (isKey : Bool) (ranged : TypeExpr) : Option TypeExpr :=
  match (underlying p ranged.deref).shape with
  | .slice element | .array element => some (if isKey then .named "int" else element)
  | .map key value => some (if isKey then key else value)
  | .chan element => if isKey then some element else none
  | .named _ "string" _ => some (.named (if isKey then "int" else "rune"))
  | _ => none

/-- The type of a name in a range clause. -/
def rangeType? (file : SourceFile) (isKey : Bool) (ranged : Tree) : Option TypeInfo := do
  let scope := Scope.visibleAt file ranged.start
  let info ← a.single? scope ranged
  return classified p a scope (← rangeElement? p isKey info.type)

/-- The type of a visible name. -/
def bindingType? (scope : Scope) (binding : Binding) : Option TypeInfo :=
  match binding.origin with
  | .declared type => some (classified p a scope type)
  | .value values index count =>
    let scope := Scope.visibleAt scope.file values.start
    pick p a scope (valueTypes a scope values) values index count
  | .rangeKey ranged => rangeType? p a scope.file true ranged
  | .rangeValue ranged => rangeType? p a scope.file false ranged

/-- The type of a value that is declared at the top level. -/
def packageValueType? (name : String) : Option TypeInfo := do
  match ← p.value? name with
  | .declared type => return classified p a (.packageLevel (← p.files.head?)) type
  | .inferred number values index count =>
    let file ← p.files[number]?
    let scope := Scope.packageLevel file
    let values := values.smallestAt values.start values.stop
    let types := valueTypes a scope values
    if values.is .expressionList then pick p a scope types values index count
    else if count = types.length then (types[index]?).join
    else none

/-- The type of a name: that of its visible binding or of a declaration at the top level. -/
def nameType? (scope : Scope) (name : String) : Option TypeInfo :=
  match scope.lookup? name with
  | some binding => bindingType? p a scope binding
  | none => packageValueType? p a name

/-- The type of a unary expression. -/
def unaryType? (scope : Scope) (t : Tree) : Option TypeInfo := do
  let operator := ((t.child? .operator).map scope.file.textOf).getD ""
  let operand ← t.child? .operand
  match operator with
  | "!" => return basic p a scope "bool"
  | "&" => return classified p a scope (.pointerTo (← a.single? scope operand).type)
  | "*" =>
    match (← a.single? scope operand).type.shape with
    | .pointer target => return classified p a scope target
    | _ => none
  | "<-" =>
    match (underlying p (← a.single? scope operand).type).shape with
    | .chan element => return classified p a scope element
    | _ => none
  | _ => a.single? scope operand

/-- Whether an operator yields a boolean. -/
def isComparison (operator : String) : Bool :=
  ["==", "!=", "<", "<=", ">", ">=", "&&", "||"].contains operator

/-- The type of a binary expression. -/
def binaryType? (scope : Scope) (t : Tree) : Option TypeInfo := do
  let operator := ((t.child? .operator).map scope.file.textOf).getD ""
  if isComparison operator then return basic p a scope "bool"
  match a.single? scope (← t.child? .left) with
  | some info => return info
  | none => a.single? scope (← t.child? .right)

/-- The type of a selection: a variable of a well-known package, or a field. -/
def selectionType? (scope : Scope) (t : Tree) : Option TypeInfo := do
  let operand ← t.child? .operand
  let field := scope.file.textOf (← t.child? .field)
  let qualifier := scope.file.textOf operand
  if operand.is .identifier && isPackageName p scope qualifier then
    let spelled ← Library.variableType? (qualifiedKey p qualifier field)
    return classified p a scope (.ofText spelled)
  let info ← a.single? scope operand
  match (underlying p info.type.deref).shape with
  | .struct fields =>
    let (_, type) ← fields.find? (·.1 = field)
    return classified p a (.packageLevel scope.file) type
  | _ => none

/-- The type of an element of an indexed value. -/
def indexType? (scope : Scope) (t : Tree) : Option TypeInfo := do
  let info ← a.single? scope (← t.child? .operand)
  match (underlying p info.type.deref).shape with
  | .slice element | .array element => return classified p a scope element
  | .map _ value => return classified p a scope value
  | .named _ "string" _ => return basic p a scope "byte"
  | _ => none

/-- The type that a tree spells out among its parts. -/
def spelledType? (scope : Scope) (t : Tree) : Option TypeInfo :=
  (t.child? .type).map fun type => classified p a scope (.ofTree scope.file type)

/-- The results of a call of the function with the given name. -/
def namedResults (scope : Scope) (name : String) (args : List Tree) : List (Option TypeInfo) :=
  if (scope.lookup? name).isSome then []
  else
    match name with
    | "new" =>
      (args.head?.map fun t =>
        some (classified p a scope (.pointerTo (.ofTree scope.file t)))).toList
    | "make" => (args.head?.map fun t => some (classified p a scope (.ofTree scope.file t))).toList
    | "len" | "cap" | "copy" => [some (basic p a scope "int")]
    | "append" | "min" | "max" => [args.head?.bind (a.single? scope)]
    | "recover" => [some (basic p a scope "any")]
    | _ =>
      if Library.isBuiltinType name || (p.typeDecl? name).isSome ||
          (scope.typeParam? name).isSome then
        [some (basic p a scope name)]
      else
        match p.func? name with
        | some signature => signature.results.map fun r => some (classified p a scope r.type)
        | none => []

/-- The results of a call of a selection: a function of a well-known package, or a method. -/
def selectedResults (scope : Scope) (operand field : Tree) : List (Option TypeInfo) :=
  let field := scope.file.textOf field
  let qualifier := scope.file.textOf operand
  if operand.is .identifier && isPackageName p scope qualifier then
    ((Library.functionResults? (qualifiedKey p qualifier field)).getD []).map fun spelled =>
      some (classified p a scope (.ofText spelled))
  else
    let method? : Option Signature := do
      let info ← a.single? scope operand
      p.method? (← info.type.deref.localName?) field
    match method? with
    | some signature =>
      signature.results.map fun r => some (classified p a (.packageLevel scope.file) r.type)
    | none => []

/-- The types of the results of a call; empty if not even their number is known. -/
def callResults (scope : Scope) (call : Tree) : List (Option TypeInfo) :=
  let args := ((call.child? .arguments).map (·.items)).getD []
  match call.child? .function with
  | none => []
  | some function =>
    if function.is .identifier then namedResults p a scope (scope.file.textOf function) args
    else if function.is .selectorExpression then
      match function.child? .operand, function.child? .field with
      | some operand, some field => selectedResults p a scope operand field
      | _, _ => []
    else []

/-- The type of a call with one result. -/
def callType? (scope : Scope) (call : Tree) : Option TypeInfo :=
  match callResults p a scope call with
  | [result] => result
  | _ => none

/-- The type of an identifier. -/
def identifierType? (scope : Scope) (name : String) : Option TypeInfo :=
  match name with
  | "true" | "false" => some (basic p a scope "bool")
  | "nil" => none
  | _ => a.name? scope name

/-- The type of an expression with a single value. -/
def singleType? (scope : Scope) (t : Tree) : Option TypeInfo :=
  match t.kind? with
  | none => none
  | some kind =>
    match kind with
    | .trueLiteral | .falseLiteral => some (basic p a scope "bool")
    | .iota | .intLiteral => some (basic p a scope "int")
    | .floatLiteral => some (basic p a scope "float64")
    | .imaginaryLiteral => some (basic p a scope "complex128")
    | .runeLiteral => some (basic p a scope "rune")
    | .interpretedStringLiteral | .rawStringLiteral => some (basic p a scope "string")
    | .identifier => identifierType? p a scope (scope.file.textOf t)
    | .parenthesizedExpression => (firstItem? t).bind (a.single? scope)
    | .funcLiteral => some { type := .unknown "func()", category := .nilable }
    | .unaryExpression => unaryType? p a scope t
    | .binaryExpression => binaryType? p a scope t
    | .callExpression => callType? p a scope t
    | .selectorExpression => selectionType? p a scope t
    | .indexExpression => indexType? p a scope t
    | .sliceExpression => (t.child? .operand).bind (a.single? scope)
    | .compositeLiteral | .typeAssertionExpression | .typeConversionExpression =>
      spelledType? p a scope t
    | _ => none

end

/-- The answers to questions of the given depth. -/
def answersTo (p : Package) : Nat → Answers
  | 0 => { depth := 0, single? := fun _ _ => none, name? := fun _ _ => none,
           results := fun _ _ => [] }
  | n + 1 =>
    let a := answersTo p n
    { depth := n + 1, single? := singleType? p a, name? := nameType? p a,
      results := callResults p a }

end GoContracts.Typing

namespace GoContracts.Package

open Syntax (Tree)

/-- The answers about names and expressions of a package. -/
def answers (p : Package) : Typing.Answers := Typing.answersTo p Typing.maxDepth

/-- The type of a name as seen from a scope. -/
def variableType? (p : Package) (scope : Scope) (name : String) : Option TypeInfo :=
  p.answers.name? scope name

/-- The types of the values of an expression or a list of expressions. -/
def expressionTypes (p : Package) (scope : Scope) (t : Tree) : List (Option TypeInfo) :=
  Typing.valueTypes p.answers scope t

/-- A type, as written in a scope, with its category. -/
def classify (p : Package) (scope : Scope) (type : TypeExpr) : TypeInfo :=
  Typing.classifyAt p Typing.maxDepth scope type

/-- Whether values of a type are errors. -/
def isErrorLike (p : Package) (type : TypeExpr) : Bool :=
  Typing.isErrorLike p Typing.maxDepth type

end GoContracts.Package

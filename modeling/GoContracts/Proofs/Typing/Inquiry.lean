import GoContracts.Typing.Expression

/-!
# Inquiries

How questions about types lead to other questions. An inquiry asks them one after the other, each in
view of the answers so far. A counter tells how many questions are being answered: a question raises
it for its own inquiry and sets it back behind it, and where the greatest depth is reached a
question has a cautious answer without an inquiry. Nothing else bounds the questions, so
declarations that refer to each other may lead back to the same one.
-/

namespace GoContracts.Typing

open Syntax (Tree)

/-- A question that counts towards the depth. -/
inductive Question where
  /-- The category of a type. -/
  | category (scope : Scope) (type : TypeExpr)
  /-- Whether values of a type can be compared. -/
  | isComparable (scope : Scope) (type : TypeExpr)
  /-- Whether all types that satisfy a constraint can be compared. -/
  | admitsComparable (scope : Scope) (constraint : TypeExpr)
  /-- Whether values of a type are errors. -/
  | isErrorLike (type : TypeExpr)
  /-- The type of an expression with a single value. -/
  | single (scope : Scope) (t : Tree)
  /-- The type of a name. -/
  | name (scope : Scope) (name : String)
  /-- The types of the results of a call. -/
  | results (scope : Scope) (call : Tree)

/-- What a question is answered with. -/
abbrev Question.Answer : Question → Type
  | category .. => Category
  | isComparable .. | admitsComparable .. | isErrorLike .. => Bool
  | single .. | name .. => Option TypeInfo
  | results .. => List (Option TypeInfo)

/-- The answer where the greatest depth is reached. -/
def Question.fallback : (q : Question) → q.Answer
  | category .. => .unknown
  | isComparable .. => true
  | admitsComparable .. | isErrorLike .. => false
  | single .. | name .. => none
  | results .. => []

/-- A computation that asks questions. -/
inductive Inquiry (α : Type) where
  | done (a : α)
  | ask (q : Question) (next : q.Answer → Inquiry α)

namespace Inquiry

/-- Go on with another inquiry. -/
def andThen {α β : Type} : Inquiry α → (α → Inquiry β) → Inquiry β
  | done a, f => f a
  | ask q next, f => ask q fun answer => (next answer).andThen f

instance : Monad Inquiry where
  pure := done
  bind := andThen

private theorem andThen_done {α : Type} (i : Inquiry α) : i.andThen done = i := by
  induction i with
  | done a => rfl
  | ask q next ih => exact congrArg (ask q) (funext ih)

private theorem andThen_assoc {α β γ : Type} (i : Inquiry α) (f : α → Inquiry β)
    (g : β → Inquiry γ) :
    (i.andThen f).andThen g = i.andThen fun a => (f a).andThen g := by
  induction i with
  | done a => rfl
  | ask q next ih => exact congrArg (ask q) (funext ih)

instance : LawfulMonad Inquiry :=
  LawfulMonad.mk' Inquiry andThen_done (fun _ _ => rfl) andThen_assoc

/-- An inquiry that may have no result. -/
abbrev Partial := OptionT Inquiry

end Inquiry

open Inquiry (Partial)

/-- Ask a single question. -/
@[simp] def asked (q : Question) : Inquiry q.Answer := .ask q .done

/-- A value that need not be there. -/
def given {α : Type} (value? : Option α) : Partial α := OptionT.mk (pure value?)

/-- Ask for the type of an expression. -/
def askedSingle (scope : Scope) (t : Tree) : Partial TypeInfo :=
  OptionT.mk (asked (.single scope t))

section

variable (p : Package)

/-! ### Types -/

/-- The inquiry about the category of a type. -/
def categoryInquiry (scope : Scope) (type : TypeExpr) : Inquiry Category :=
  match type.shape with
  | .pointer _ | .slice _ | .map _ _ | .chan _ | .func | .interface _ _ => pure .nilable
  | .array element => return .aggregate (← asked (.isComparable scope element))
  | .struct fields =>
    return .aggregate (← fields.allM fun field => asked (.isComparable scope field.2))
  | .named none name _ =>
    match typeParamConstraint? p scope name with
    | some (some constraint) => return .typeParam (← asked (.admitsComparable scope constraint))
    | some none => pure (.typeParam false)
    | none =>
      match Library.builtinCategory? name with
      | some known => pure known
      | none =>
        match p.typeDecl? name with
        | some declared => asked (.category (.packageLevel scope.file) declared.underlying)
        | none => pure .unknown
  | .named (some qualifier) name _ =>
    pure ((Library.category? (qualifiedKey p qualifier name)).getD .unknown)
  | .union _ | .approx _ | .unknown => pure .unknown

/-- The inquiry whether values of a type can be compared. -/
def comparableInquiry (scope : Scope) (type : TypeExpr) : Inquiry Bool :=
  match type.shape with
  | .slice _ | .map _ _ | .func => pure false
  | .array element => asked (.isComparable scope element)
  | .struct fields => fields.allM fun field => asked (.isComparable scope field.2)
  | .named none name _ =>
    match typeParamConstraint? p scope name with
    | some (some constraint) => asked (.admitsComparable scope constraint)
    | some none => pure false
    | none =>
      match p.typeDecl? name with
      | some declared => asked (.isComparable (.packageLevel scope.file) declared.underlying)
      | none => pure true
  | .named (some qualifier) name _ =>
    pure (Library.category? (qualifiedKey p qualifier name) ≠ some (.aggregate false))
  | _ => pure true

/-- The inquiry whether all types that satisfy a constraint can be compared. -/
def constraintInquiry (scope : Scope) (constraint : TypeExpr) : Inquiry Bool :=
  match constraint.shape with
  | .named none name _ =>
    if name = "comparable" then pure true
    else if name = "any" then pure false
    else
      match Library.builtinCategory? name with
      | some known => pure (known ≠ .nilable)
      | none =>
        match p.typeDecl? name with
        | some declared => asked (.admitsComparable (.packageLevel scope.file) declared.underlying)
        | none => pure false
  | .named (some qualifier) name _ =>
    pure (Library.isComparableConstraint (qualifiedKey p qualifier name))
  | .approx inner => asked (.isComparable scope inner)
  | .union terms =>
    if terms.isEmpty then pure false
    else terms.allM fun term => asked (.admitsComparable scope term)
  | .interface _ elements => elements.anyM fun element => asked (.admitsComparable scope element)
  | .array _ | .struct _ | .pointer _ | .chan _ => asked (.isComparable scope constraint)
  | _ => pure false

/-- The inquiry whether values of a type are errors. -/
def errorInquiry (type : TypeExpr) : Inquiry Bool :=
  match type.shape with
  | .named none name _ =>
    if name = "error" || p.hasErrorMethod name then pure true
    else
      match p.typeDecl? name with
      | some declared =>
        if isInterface declared.underlying then asked (.isErrorLike declared.underlying)
        else pure false
      | none => pure false
  | .named (some qualifier) name _ => pure (Library.isErrorType (qualifiedKey p qualifier name))
  | .pointer target =>
    if target.localName? = some "error" then pure false else asked (.isErrorLike target)
  | .interface methods _ => pure (methods.any (· = ("Error", "() string")))
  | _ => pure false

/-- A type with its category. -/
def classifying (scope : Scope) (type : TypeExpr) : Inquiry TypeInfo :=
  return { type, category := ← asked (.category scope type) }

/-- The predeclared type of the given name. -/
def classifyingName (scope : Scope) (name : String) : Inquiry TypeInfo :=
  classifying scope (.named name)

/-- Types with their categories. -/
def classifyingAll (scope : Scope) (types : List TypeExpr) : Inquiry (List (Option TypeInfo)) :=
  types.mapM fun type => some <$> classifying scope type

/-! ### Names -/

/-- The types of the values of an expression or a list of expressions. -/
def valuesInquiry (scope : Scope) (t : Tree) : Inquiry (List (Option TypeInfo)) :=
  match (if t.is .expressionList then t.items else [t]) with
  | [only] =>
    if only.is .callExpression then asked (.results scope only)
    else return [← asked (.single scope only)]
  | items => items.mapM fun item => asked (.single scope item)

/-- The type at place `index` of `count` names that are bound to values of the given types. -/
def picking (scope : Scope) (types : List (Option TypeInfo)) (values : Tree) (index count : Nat) :
    Partial TypeInfo :=
  if types.length = count then given (types[index]?).join
  else if types.length = 1 && count = 2 && (firstItem? values).any hasCommaOk then
    if index = 0 then given (types[0]?).join else classifyingName scope "bool"
  else given none

/-- The type of a name in a range clause. -/
def rangeInquiry (file : SourceFile) (isKey : Bool) (ranged : Tree) : Partial TypeInfo := do
  let scope := Scope.visibleAt file ranged.start
  let info ← askedSingle scope ranged
  classifying scope (← given (rangeElement? p isKey info.type))

/-- The type of a visible name. -/
def bindingInquiry (scope : Scope) (binding : Binding) : Partial TypeInfo :=
  match binding.origin with
  | .declared type => classifying scope type
  | .value values index count => do
    let scope := Scope.visibleAt scope.file values.start
    picking scope (← valuesInquiry scope values) values index count
  | .rangeKey ranged => rangeInquiry p scope.file true ranged
  | .rangeValue ranged => rangeInquiry p scope.file false ranged

/-- The type of a value that is declared at the top level. -/
def packageValueInquiry (name : String) : Partial TypeInfo := do
  match ← given (p.value? name) with
  | .declared type => classifying (.packageLevel (← given p.files.head?)) type
  | .inferred number values index count =>
    let file ← given p.files[number]?
    let scope := Scope.packageLevel file
    let values := values.smallestAt values.start values.stop
    let types ← valuesInquiry scope values
    if values.is .expressionList then picking scope types values index count
    else if count = types.length then given (types[index]?).join
    else given none

/-- The inquiry about the type of a name. -/
def nameInquiry (scope : Scope) (name : String) : Partial TypeInfo :=
  match scope.lookup? name with
  | some binding => bindingInquiry p scope binding
  | none => packageValueInquiry p name

/-! ### Expressions -/

/-- The type of a unary expression. -/
def unaryInquiry (scope : Scope) (t : Tree) : Partial TypeInfo := do
  let operator := ((t.child? .operator).map scope.file.textOf).getD ""
  let operand ← given (t.child? .operand)
  match operator with
  | "!" => classifyingName scope "bool"
  | "&" => classifying scope (.pointerTo (← askedSingle scope operand).type)
  | "*" =>
    match (← askedSingle scope operand).type.shape with
    | .pointer target => classifying scope target
    | _ => given none
  | "<-" =>
    match (underlying p (← askedSingle scope operand).type).shape with
    | .chan element => classifying scope element
    | _ => given none
  | _ => askedSingle scope operand

/-- The type of a binary expression. The right operand is asked for if the left one has none. -/
def binaryInquiry (scope : Scope) (t : Tree) : Partial TypeInfo := do
  let operator := ((t.child? .operator).map scope.file.textOf).getD ""
  if isComparison operator then classifyingName scope "bool"
  else
    let left ← given (t.child? .left)
    askedSingle scope left <|> do askedSingle scope (← given (t.child? .right))

/-- The type of a selection. -/
def selectionInquiry (scope : Scope) (t : Tree) : Partial TypeInfo := do
  let operand ← given (t.child? .operand)
  let field := scope.file.textOf (← given (t.child? .field))
  let qualifier := scope.file.textOf operand
  if operand.is .identifier && isPackageName p scope qualifier then
    let spelled ← given (Library.variableType? (qualifiedKey p qualifier field))
    classifying scope (.ofText spelled)
  else
    let info ← askedSingle scope operand
    match (underlying p info.type.deref).shape with
    | .struct fields =>
      let (_, type) ← given (fields.find? (·.1 = field))
      classifying (.packageLevel scope.file) type
    | _ => given none

/-- The type of an element of an indexed value. -/
def indexInquiry (scope : Scope) (t : Tree) : Partial TypeInfo := do
  let info ← askedSingle scope (← given (t.child? .operand))
  match (underlying p info.type.deref).shape with
  | .slice element | .array element => classifying scope element
  | .map _ value => classifying scope value
  | .named _ "string" _ => classifyingName scope "byte"
  | _ => given none

/-- The type that a tree spells out among its parts. -/
def spelledInquiry (scope : Scope) (t : Tree) : Partial TypeInfo := do
  classifying scope (.ofTree scope.file (← given (t.child? .type)))

/-- The results of a call of the function with the given name. -/
def namedResultsInquiry (scope : Scope) (name : String) (args : List Tree) :
    Inquiry (List (Option TypeInfo)) :=
  if (scope.lookup? name).isSome then pure []
  else
    match name with
    | "new" => classifyingAll scope
      (args.head?.map fun t => .pointerTo (.ofTree scope.file t)).toList
    | "make" => classifyingAll scope (args.head?.map (.ofTree scope.file)).toList
    | "len" | "cap" | "copy" => return [some (← classifyingName scope "int")]
    | "append" | "min" | "max" =>
      match args.head? with
      | some first => return [← asked (.single scope first)]
      | none => pure [none]
    | "recover" => return [some (← classifyingName scope "any")]
    | _ =>
      if Library.isBuiltinType name || (p.typeDecl? name).isSome ||
          (scope.typeParam? name).isSome then
        return [some (← classifyingName scope name)]
      else
        match p.func? name with
        | some signature => classifyingAll scope (signature.results.map (·.type))
        | none => pure []

/-- The results of a call of a selection. -/
def selectedResultsInquiry (scope : Scope) (operand field : Tree) :
    Inquiry (List (Option TypeInfo)) :=
  let field := scope.file.textOf field
  let qualifier := scope.file.textOf operand
  if operand.is .identifier && isPackageName p scope qualifier then
    classifyingAll scope
      (((Library.functionResults? (qualifiedKey p qualifier field)).getD []).map .ofText)
  else do
    match ← asked (.single scope operand) with
    | none => pure []
    | some info =>
      match info.type.deref.localName?.bind fun receiver => p.method? receiver field with
      | some signature =>
        classifyingAll (.packageLevel scope.file) (signature.results.map (·.type))
      | none => pure []

/-- The inquiry about the results of a call. -/
def resultsInquiry (scope : Scope) (call : Tree) : Inquiry (List (Option TypeInfo)) :=
  let args := ((call.child? .arguments).map (·.items)).getD []
  match call.child? .function with
  | none => pure []
  | some function =>
    if function.is .identifier then namedResultsInquiry p scope (scope.file.textOf function) args
    else if function.is .selectorExpression then
      match function.child? .operand, function.child? .field with
      | some operand, some field => selectedResultsInquiry p scope operand field
      | _, _ => pure []
    else pure []

/-- The type of a call with one result. -/
def callInquiry (scope : Scope) (call : Tree) : Partial TypeInfo := do
  match ← resultsInquiry p scope call with
  | [result] => given result
  | _ => given none

/-- The type of an identifier. -/
def identifierInquiry (scope : Scope) (name : String) : Partial TypeInfo :=
  match name with
  | "true" | "false" => classifyingName scope "bool"
  | "nil" => given none
  | _ => OptionT.mk (asked (.name scope name))

/-- The inquiry about the type of an expression with a single value. -/
def singleInquiry (scope : Scope) (t : Tree) : Partial TypeInfo :=
  match t.kind? with
  | none => given none
  | some kind =>
    match kind with
    | .trueLiteral | .falseLiteral => classifyingName scope "bool"
    | .iota | .intLiteral => classifyingName scope "int"
    | .floatLiteral => classifyingName scope "float64"
    | .imaginaryLiteral => classifyingName scope "complex128"
    | .runeLiteral => classifyingName scope "rune"
    | .interpretedStringLiteral | .rawStringLiteral => classifyingName scope "string"
    | .identifier => identifierInquiry scope (scope.file.textOf t)
    | .parenthesizedExpression => do askedSingle scope (← given (firstItem? t))
    | .funcLiteral => pure { type := .unknown "func()", category := .nilable }
    | .unaryExpression => unaryInquiry p scope t
    | .binaryExpression => binaryInquiry scope t
    | .callExpression => callInquiry p scope t
    | .selectorExpression => selectionInquiry p scope t
    | .indexExpression => indexInquiry p scope t
    | .sliceExpression => do askedSingle scope (← given (t.child? .operand))
    | .compositeLiteral | .typeAssertionExpression | .typeConversionExpression =>
      spelledInquiry scope t
    | _ => given none

/-- The inquiry that answers a question. -/
def inquiry : (q : Question) → Inquiry q.Answer
  | .category scope type => categoryInquiry p scope type
  | .isComparable scope type => comparableInquiry p scope type
  | .admitsComparable scope constraint => constraintInquiry p scope constraint
  | .isErrorLike type => errorInquiry p type
  | .single scope t => (singleInquiry p scope t).run
  | .name scope name => (nameInquiry p scope name).run
  | .results scope call => resultsInquiry p scope call

end

/-! ### Running inquiries -/

/-- An inquiry runs to its end from one state of the counter to another one with the given result,
and at most the given number of questions are being answered at a time. -/
inductive Runs (p : Package) : {α : Type} → Inquiry α → (counter : Nat) → α → (after : Nat) →
    (nesting : Nat) → Prop
  | done {α : Type} {a : α} {counter : Nat} : Runs p (.done a) counter a counter 0
  /-- At the greatest depth a question is not inquired into. -/
  | refused {α : Type} {q : Question} {next : q.Answer → Inquiry α} {a : α}
    {counter after nesting : Nat} (hdepth : maxDepth ≤ counter)
    (h : Runs p (next q.fallback) counter a after nesting) :
    Runs p (.ask q next) counter a after nesting
  /-- Whatever the inquiry into a question leaves in the counter, it is set back. -/
  | granted {α : Type} {q : Question} {next : q.Answer → Inquiry α} {answer : q.Answer} {a : α}
    {counter left after nesting rest : Nat} (hdepth : counter < maxDepth)
    (hinquiry : Runs p (inquiry p q) (counter + 1) answer left nesting)
    (h : Runs p (next answer) counter a after rest) :
    Runs p (.ask q next) counter a after (max (nesting + 1) rest)

end GoContracts.Typing

import GoContracts.Diagnostic
import GoContracts.Guard.Constant
import GoContracts.Guard.Zero
import GoContracts.Guard.ErrorTarget

/-!
# Guards of a contract

The guards that a directive demands at a place in a package. The texts of the directive end up in
the guards as they are written, so each of them has to be one expression.
-/

namespace GoContracts

/-- What a directive uses an expression for. -/
inductive ExpressionUse where
  | variable
  | guard
  | return
  deriving DecidableEq, Repr

/-- What a use is called in messages. -/
def ExpressionUse.word : ExpressionUse → String
  | .variable => "variable"
  | .guard => "guard"
  | .return => "return"

/-- A text of a directive that is not one expression. -/
structure InvalidExpression where
  use : ExpressionUse
  text : String
  /-- The place of the directive. -/
  location : String
  deriving DecidableEq, Repr

namespace Guard

variable (p : Package)

/-- Fail if the text is not one expression. -/
def ensureExpression (anchor : Anchor) (use : ExpressionUse) (text : String) :
    Reporting InvalidExpression Unit :=
  if Expression.isValid text then pure ()
  else throw { use, text, location := anchor.location }

/-- The value to return for a result: the checked error for an error, else a zero value. -/
def resultValue (scope : Scope) (errorName? : Option String) (result : Param) : String :=
  let outside := p.classify (.packageLevel scope.file) result.type
  let info := if outside.category = .unknown then p.classify scope result.type else outside
  match errorName? with
  | some name =>
    if result.type.text = "error" || p.isErrorLike info.type then name else info.zeroLiteral
  | none => info.zeroLiteral

/-- The values that follow from the results of the enclosing function. A precondition returns none
if all results have names. -/
def resultValues (scope : Scope) (errorName? : Option String) : List String :=
  match scope.signature? with
  | none => []
  | some signature =>
    if errorName?.isNone && signature.resultsAllNamed then []
    else signature.results.map (resultValue p scope errorName?)

/-- The values of an early return: those of the directive, else those that follow from the
results. -/
def returnValues (anchor : Anchor) (scope : Scope) (errorName? : Option String) :
    Reporting InvalidExpression (List String) := do
  let values := anchor.directive.response.values
  if values.isEmpty then return resultValues p scope errorName?
  else
    values.forM (ensureExpression anchor .return)
    return values

/-- The action of a guard that reports the message and returns the values, as the response says. -/
def Action.ofResponse (response : Response) (message : Message) (values : List String) : Action :=
  if response.logs then .logAndReturn message values
  else if response.returns then .return values
  else .abort message

/-- The keyword of a directive with the mode that messages name. -/
def protocol (directive : Directive) : String :=
  "require" ++ (if directive.response.returns then " -ret" else "") ++
    (if directive.isNonZero then " -nd" else "")

/-- The guard that a variable is not zero. -/
def nonZero (anchor : Anchor) (scope : Scope) (values : List String) (variableName : String) :
    Reporting InvalidExpression Guard := do
  ensureExpression anchor .variable variableName
  let check := ZeroCheck.of variableName (p.variableType? scope variableName)
  let message := "inco // " ++ protocol anchor.directive ++ " violation: [" ++ variableName ++
    "] is defaulted (" ++ check.description ++ ") at " ++ anchor.location
  return { condition := check.condition
           action := .ofResponse anchor.directive.response (.text message) values
           conditionImports := check.importPath?.toList }

/-- The guard that a condition is true. -/
def holds (anchor : Anchor) (values : List String) (condition : String)
    (message? : Option String) : Reporting InvalidExpression Guard := do
  match Expression.parse? condition with
  | none => throw { use := .guard, text := condition, location := anchor.location }
  | some e =>
    if e.isConstantFalse then Reporting.note (.alwaysFalse anchor condition)
    let standard := "inco // " ++ protocol anchor.directive ++ " violation: " ++ condition
    let message := message?.getD standard ++ " at " ++ anchor.location
    return { condition := "!(" ++ condition ++ ")"
             action := .ofResponse anchor.directive.response (.text message) values }

/-- The guards of a `@require`. -/
def precondition (anchor : Anchor) (scope : Scope) : Reporting InvalidExpression (List Guard) := do
  let response := anchor.directive.response
  let values ← if response.returns then returnValues p anchor scope none else pure []
  match anchor.directive with
  | .nonZero _ names => names.mapM (nonZero p anchor scope values)
  | .holds _ condition message? => return [← holds anchor values condition message?]
  | .noError _ => return []

/-- The guard of a `@must` on the error of the given name. -/
def errorCheck (anchor : Anchor) (scope : Scope) (errorName : String) :
    Reporting InvalidExpression Guard := do
  let response := anchor.directive.response
  let values ← if response.returns then returnValues p anchor scope (some errorName) else pure []
  let opening := "inco // must" ++ (if response.logs then " -log" else "") ++ " violation at " ++
    anchor.location ++ ": "
  return { condition := errorName ++ " != nil"
           action := .ofResponse response (.withError opening errorName) values }

end Guard

end GoContracts

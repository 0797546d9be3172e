import GoContracts.Text.Quoted

/-!
# Guards

A guard is an `if` statement that stands for a contract: its condition tells that the contract is
violated, and its body reports that or returns.
-/

namespace GoContracts

namespace Guard

/-- What a guard reports. -/
inductive Message where
  /-- A fixed text. -/
  | text (text : String)
  /-- A fixed text and after it the description of the error in a variable. -/
  | withError (opening : String) (errorName : String)
  deriving DecidableEq, Repr

/-- The expression that yields a message. -/
def Message.render : Message → String
  | text t => Text.Quoted.quote t
  | withError opening errorName => Text.Quoted.quote opening ++ " + " ++ errorName ++ ".Error()"

/-- What a guard does when its condition holds. -/
inductive Action where
  | abort (message : Message)
  | return (values : List String)
  | logAndReturn (message : Message) (values : List String)
  deriving DecidableEq, Repr

/-- A return statement with the given values. -/
def renderReturn (values : List String) : String :=
  if values.isEmpty then "return" else "return " ++ ", ".intercalate values

namespace Action

/-- The statements of an action. -/
def statements : Action → List String
  | abort message => ["panic(" ++ message.render ++ ")"]
  | .return values => [renderReturn values]
  | logAndReturn message values =>
    ["log.Println(" ++ message.render ++ ")", renderReturn values]

/-- The packages that an action uses. -/
def imports : Action → List String
  | logAndReturn .. => ["log"]
  | _ => []

end Action

end Guard

/-- A guard. -/
structure Guard where
  condition : String
  action : Guard.Action
  /-- The packages that the condition uses. -/
  conditionImports : List String := []
  deriving DecidableEq, Repr

namespace Guard

/-- The packages that a guard uses. -/
def imports (g : Guard) : List String := g.conditionImports ++ g.action.imports

/-- The lines of a guard at the given indentation. -/
def lines (indent : String) (g : Guard) : List String :=
  (indent ++ "if " ++ g.condition ++ " \x7b") ::
    (g.action.statements.map fun statement => indent ++ "\t" ++ statement) ++ [indent ++ "\x7d"]

/-- The text of a guard, without a newline at its end. -/
def render (indent : String) (g : Guard) : String := "\n".intercalate (g.lines indent)

/-- The text of guards, one after the other, without a newline at its end. -/
def renderAll (indent : String) (guards : List Guard) : String :=
  "\n".intercalate (guards.map (render indent))

/-- The name that stands for a blank error target on the given line of a directive. -/
def placeholderName (line : Nat) : String := "_inco_err_" ++ toString line

end Guard

end GoContracts

import GoContracts.Syntax.Grammar.Expressions

/-!
# Declarations and statements

The rules for declarations, simple statements, control statements and their headers. Between the
keyword of a control statement and its block newlines are blanks.
-/

namespace GoContracts.Syntax.Grammar

/-! ## Declarations -/

/-- One specification, or specifications in parentheses, after a keyword. -/
def specifications (group : List Tree → List Tree) (spec : Reader Tree) : Reader (List Tree) := do
  if ← looking (atSymbol true "(") then
    let opening ← symbol true "("
    let specs ← terminatedList (atSymbol true ")") spec
    return group (opening :: specs ++ [← symbol true ")"])
  else return [← spec]

/-- The context of an expression that a newline ends. -/
def onLine : Context := { free := false }

/-- The values after an equals sign. -/
def values (rules : Rules) (free : Bool) : Reader (List Tree) := do
  let equals ← symbol free "="
  return [equals, (← expressionList rules onLine).asRole .value]

/-- Variables with a type, values or both. -/
def varSpec (rules : Rules) : Reader Tree := do
  let declared ← names .identifier
  if ← looking (atSymbol true "=") then
    return .node .varSpec (declared ++ (← values rules true))
  let type ← rules (.type false)
  let assigned ← optional? (values rules false)
  return .node .varSpec (declared ++ type.asRole .type :: assigned.getD [])

/-- Constants, with or without values. The commas between the names count among the names. -/
def constSpec (rules : Rules) : Reader Tree := do
  let constants := (← names .identifier).map (·.asRole .name)
  let typed : Reader (List Tree) := do
    require !(← looking atLineEnd)
    let type ← rules (.type true)
    return type.asRole .type :: (← values rules true)
  let rest ← optional? (values rules false <|> typed)
  return .node .constSpec (constants ++ rest.getD [])

/-- A type declaration or an alias, with type parameters or without. -/
def typeSpec (rules : Rules) : Reader Tree := do
  let declared := (← name true .typeIdentifier).asRole .name
  let rest (parts : List Tree) : Reader Tree := do
    if ← looking (atSymbol true "=") then
      let equals ← symbol true "="
      return .node .typeAlias (parts ++ [equals, (← rules (.type false)).asRole .type])
    else return .node .typeSpec (parts ++ [(← rules (.type false)).asRole .type])
  let generic : Reader Tree := do
    rest [declared, (← typeParameters rules).asRole .typeParameters]
  rest [declared] <|> generic

/-- A declaration of constants, variables or types. -/
def declaration (rules : Rules) : Reader Tree := do
  let ts ← get
  if atWord true "var" ts then
    let word ← keyword true "var"
    return .node .varDeclaration
      (word :: (← specifications (fun specs => [.node .varSpecList specs]) (varSpec rules)))
  else if atWord true "const" ts then
    let word ← keyword true "const"
    return .node .constDeclaration (word :: (← specifications id (constSpec rules)))
  else
    let word ← keyword true "type"
    return .node .typeDeclaration (word :: (← specifications id (typeSpec rules)))

/-! ## Simple statements -/

/-- The statement that a list of expressions begins. The context `after` holds for the expressions
to the right of its operator. -/
def simpleFrom (rules : Rules) (c after : Context) (left : Tree) : Reader Tree := do
  let single : Reader Tree :=
    match left.children with
    | [t] => pure t
    | _ => failure
  match longestSymbol? c.free statementOperators (← get) with
  | some ":=" =>
    let operator ← symbol c.free ":="
    let right ← expressionList rules after
    return .node .shortVarDeclaration [left.asRole .left, operator, right.asRole .right]
  | some "<-" =>
    let channel ← single
    let operator ← symbol c.free "<-"
    let value ← expression rules after
    return .node .sendStatement [channel.asRole .channel, operator, value.asRole .value]
  | some "++" => return .node .incStatement [← single, ← symbol c.free "++"]
  | some "--" => return .node .decStatement [← single, ← symbol c.free "--"]
  | some op =>
    let operator ← symbol c.free op
    let right ← expressionList rules after
    return .node .assignmentStatement
      [left.asRole .left, operator.asRole .operator, right.asRole .right]
  | none => return .node .expressionStatement [← single]

/-- A simple statement that a newline ends. -/
def simpleStatement (rules : Rules) : Reader Tree := do
  let c : Context := { free := false, statement := true }
  simpleFrom rules c onLine (← expressionList rules c)

/-! ## Control statements -/

/-- The first expressions of a header. -/
def headerContext : Context := { header := true, statement := true }

/-- The statement before the semicolon of a header and the semicolon. -/
def initializer? (rules : Rules) (left : Tree) : Reader (Option (List Tree)) := optional? do
  let first ← simpleFrom rules headerContext {} left
  return [first.asRole .initializer, ← symbol true ";"]

/-- The expression that a list of one expression holds. -/
def onlyExpression (t : Tree) : Reader Tree :=
  match t.children with
  | [e] => pure e
  | _ => failure

/-- A conditional statement; `n` bounds the number of its alternatives. -/
def ifStatement (rules : Rules) : Nat → Reader Tree
  | 0 => failure
  | n + 1 => do
    let word ← keyword true "if"
    let left ← expressionList rules headerContext
    let (before, condition) ←
      match ← initializer? rules left with
      | some before => pure (before, ← expression rules { header := true })
      | none => pure ([], ← onlyExpression left)
    let consequence ← rules .block
    let alternative ←
      if ← looking (atWord false "else") then do
        let otherwise ← keyword false "else"
        let branch ←
          if ← looking (atSymbol true "\x7b") then rules .block else ifStatement rules n
        pure [otherwise, branch.asRole .alternative]
      else pure []
    return .node .ifStatement (word :: before ++
      condition.asRole .condition :: consequence.asRole .consequence :: alternative)

/-- The header of a loop over a range, after the names that it binds. -/
def rangeClause (rules : Rules) (bound : List Tree) : Reader Tree := do
  let word ← keyword true "range"
  let ranged ← expression rules { header := true }
  return .node .rangeClause (bound ++ [word, ranged.asRole .right])

/-- The condition and the last part of a loop header, from its first semicolon. -/
def forClause (rules : Rules) (first : List Tree) : Reader Tree := do
  let opening ← symbol true ";"
  let condition ←
    if ← looking (atSymbol true ";") then pure []
    else pure [(← expression rules {}).asRole .condition]
  let closing ← symbol true ";"
  let update ←
    if ← looking (atSymbol true "\x7b") then pure []
    else do
      let left ← expressionList rules headerContext
      let last ← simpleFrom rules headerContext { header := true } left
      pure [last.asRole .update]
  return .node .forClause (first ++ opening :: condition ++ closing :: update)

/-- The header of a loop. -/
def loopHeader (rules : Rules) : Reader (List Tree) := do
  let ts ← get
  if atSymbol true "\x7b" ts then return []
  else if atWord true "range" ts then return [← rangeClause rules []]
  else if atSymbol true ";" ts then return [← forClause rules []]
  else
    let left ← expressionList rules headerContext
    let ranged : Reader (List Tree) := do
      let operator ← symbol true ":=" <|> symbol true "="
      return [← rangeClause rules [left.asRole .left, operator]]
    let counted : Reader (List Tree) := do
      let first ← simpleFrom rules headerContext {} left
      return [← forClause rules [first.asRole .initializer]]
    let conditional : Reader (List Tree) := do
      return [← onlyExpression left]
    ranged <|> counted <|> conditional

/-- A loop. -/
def forStatement (rules : Rules) : Reader Tree := do
  let word ← keyword true "for"
  let header ← loopHeader rules
  let body ← rules .block
  return .node .forStatement (word :: header ++ [body.asRole .body])

/-- Whether a list of statements may end: at a brace, or at the next clause. -/
def atStatementsEnd (clauses : Bool) (ts : List Token) : Bool :=
  atSymbol true "\x7d" ts || (clauses && (atWord true "case" ts || atWord true "default" ts))

/-- The statements of a block or clause. -/
def statements (rules : Rules) (clauses : Bool) : Reader (List Tree) :=
  terminatedList (atStatementsEnd clauses) (rules .statement)

/-- The clauses between the braces of a statement; `first` reads what a clause of kind `k` has
between its keyword and its colon. -/
def clauses (rules : Rules) (k : Kind) (first : Reader (List Tree)) : Reader (List Tree) := do
  let opening ← symbol true "\x7b"
  let cases ← gather do
    if ← looking (atSymbol true "\x7d") then return none
    if ← looking (atWord true "default") then
      let word ← keyword true "default"
      let colon ← symbol true ":"
      return some (.node .defaultCase (word :: colon :: (← statements rules true)))
    else
      let word ← keyword true "case"
      let parts ← first
      let colon ← symbol true ":"
      return some (.node k (word :: parts ++ colon :: (← statements rules true)))
  return opening :: cases ++ [← symbol true "\x7d"]

/-- The values of a clause. -/
def caseValues (rules : Rules) : Reader (List Tree) := do
  return [(← expressionList rules {}).asRole .value]

/-- The types of a clause. -/
def caseTypes (rules : Rules) : Reader (List Tree) := do
  let first ← rules (.type true)
  let more ← gather do
    if ← looking (atSymbol true ",") then
      return some [← symbol true ",", (← rules (.type true)).asRole .type]
    else return none
  return first.asRole .type :: more.flatten

/-- The communication of a clause: a send or a receive. -/
def caseCommunication (rules : Rules) : Reader (List Tree) := do
  let c : Context := { statement := true }
  let left ← expressionList rules c
  let communication ←
    match longestSymbol? true statementOperators (← get) with
    | some "<-" => simpleFrom rules c {} left
    | some op => do
      require (op = ":=" || op = "=")
      let operator ← symbol true op
      let right ← expression rules {}
      pure (.node .receiveStatement [left.asRole .left, operator, right.asRole .right])
    | none => do
      let right ← onlyExpression left
      pure (.node .receiveStatement [right.asRole .right])
  return [communication.asRole .communication]

/-- The rest of a switch over types, from the mark after the value. -/
def typeSwitch (rules : Rules) (word : Tree) (parts : List Tree) : Reader Tree := do
  let mark := [← symbol true ".", ← symbol true "(", ← keyword true "type", ← symbol true ")"]
  return .node .typeSwitchStatement
    (word :: parts ++ mark ++ (← clauses rules .typeCase (caseTypes rules)))

/-- The rest of a switch over values, from its brace. -/
def valueSwitch (rules : Rules) (word : Tree) (parts : List Tree) : Reader Tree := do
  return .node .expressionSwitchStatement
    (word :: parts ++ (← clauses rules .expressionCase (caseValues rules)))

/-- What follows the initializer of a switch: nothing, a value, or a value whose type is
examined. -/
def switchSubject (rules : Rules) (word : Tree) (parts : List Tree) : Reader Tree := do
  if ← looking (atSymbol true "\x7b") then valueSwitch rules word parts
  else
    let left ← expressionList rules { header := true, statement := true, typeSwitch := true }
    let examined : Reader Tree := do
      match ← optional? (symbol true ":=") with
      | some operator =>
        let value ← rules (.binary { header := true, typeSwitch := true } 1)
        typeSwitch rules word (parts ++ [left.asRole .alias, operator, value.asRole .value])
      | none =>
        let value ← onlyExpression left
        typeSwitch rules word (parts ++ [value.asRole .value])
    let valued : Reader Tree := do
      let value ← onlyExpression left
      valueSwitch rules word (parts ++ [value.asRole .value])
    examined <|> valued

/-- A switch over values or types. -/
def switchStatement (rules : Rules) : Reader Tree := do
  let word ← keyword true "switch"
  let initialized : Reader Tree := do
    let left ← expressionList rules { header := true, statement := true, typeSwitch := true }
    match ← initializer? rules left with
    | some before => switchSubject rules word before
    | none => failure
  initialized <|> switchSubject rules word []

/-- A choice among communications. -/
def selectStatement (rules : Rules) : Reader Tree := do
  let word ← keyword true "select"
  return .node .selectStatement
    (word :: (← clauses rules .communicationCase (caseCommunication rules)))

/-- A statement of a keyword and a label, which may be missing. -/
def jumpStatement (word : String) (k : Kind) : Reader Tree := do
  let jump ← keyword true word
  let label ← optional? (name false .labelName)
  return .node k (jump :: label.toList)

/-- A statement of a keyword and an expression. -/
def launchStatement (rules : Rules) (word : String) (k : Kind) : Reader Tree := do
  let launch ← keyword true word
  return .node k [launch, ← expression rules onLine]

/-- A return statement. -/
def returnStatement (rules : Rules) : Reader Tree := do
  let word ← keyword true "return"
  let bare ← looking fun ts =>
    atLineEnd ts || [";", "\x7d", "\x00"].any (atSymbol false · ts)
  if bare then return .node .returnStatement [word]
  return .node .returnStatement [word, ← expressionList rules onLine]

/-- Whether a label begins the tokens. -/
def atLabel (ts : List Token) : Bool :=
  match afterNewlines ts with
  | t :: rest => t.lexeme = .word && atSymbol true ":" rest && !atSymbol true ":=" rest
  | [] => false

/-- A statement with a label before it, or a label at the end of a list of statements. -/
def labeledStatement (rules : Rules) : Reader Tree := do
  let label ← name true .labelName
  let colon ← symbol true ":"
  let parts := [label.asRole .label, colon]
  if ← looking (atStatementsEnd true) then return .node .labeledStatement parts
  return .node .labeledStatement (parts ++ [← rules .statement])

/-- A statement. -/
def statement (rules : Rules) : Reader Tree := do
  skipNewlines
  let ts ← get
  if atSymbol true "\x7b" ts then rules .block
  else if atSymbol true ";" ts then return .node .emptyStatement [← symbol true ";"]
  else if atLabel ts then labeledStatement rules
  else
    match ts.head? with
    | some { lexeme := .word, text := w, .. } =>
      if w = "var" || w = "const" || w = "type" then declaration rules
      else if w = "return" then returnStatement rules
      else if w = "go" then launchStatement rules "go" .goStatement
      else if w = "defer" then launchStatement rules "defer" .deferStatement
      else if w = "if" then ifStatement rules ts.length
      else if w = "for" then forStatement rules
      else if w = "switch" then switchStatement rules
      else if w = "select" then selectStatement rules
      else if w = "fallthrough" then
        return .node .fallthroughStatement [← keyword true "fallthrough"]
      else if w = "break" then jumpStatement "break" .breakStatement
      else if w = "continue" then jumpStatement "continue" .continueStatement
      else if w = "goto" then jumpStatement "goto" .gotoStatement
      else simpleStatement rules
    | _ => simpleStatement rules

/-- A block of statements. -/
def block (rules : Rules) : Reader Tree := do
  let opening ← symbol true "\x7b"
  let body ← statements rules false
  return .node .block (opening :: body ++ [← symbol true "\x7d"])

end GoContracts.Syntax.Grammar

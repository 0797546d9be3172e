import GoContracts.Syntax.Grammar.Statements

/-!
# Files

A file is a sequence of declarations and statements. What stands after the first text that fits no
rule is not read, and the file counts as broken. Where all that a broken file misses are names
between a comma and an assignment operator, it is read with empty names in their places.
-/

namespace GoContracts.Syntax.Grammar

/-- One step of the grammar: the rule of each phrase over the rules of its parts. -/
def rule (rules : Rules) : Rules
  | .binary c level => binary rules c level
  | .operand c => operand rules c
  | .type free => type rules free
  | .parameters => parameters rules
  | .block => block rules
  | .statement => statement rules

/-- The rules down to a depth of `n` phrases. -/
def rulesTo : Nat → Rules
  | 0 => fun _ => failure
  | n + 1 => fun phrase => rule (rulesTo n) phrase

/-- The name that a package clause gives. -/
def packageClause : Reader Tree := do
  let word ← keyword true "package"
  return .node .packageClause [word, ← name true .packageIdentifier]

/-- The path of an import, with the local name before it if there is one. -/
def importSpec : Reader Tree := do
  let name ← optional? (dot <|> packageName)
  let path ← lexeme true .string .interpretedStringLiteral <|>
    lexeme true .rawString .rawStringLiteral
  return .node .importSpec ((name.map (·.asRole .name)).toList ++ [path.asRole .path])
where
  dot : Reader Tree := do return (← symbol true ".").asKind .dot
  packageName : Reader Tree := do
    let blank ← looking (atWord true "_")
    name true (if blank then .blankIdentifier else .packageIdentifier)

/-- An import declaration. -/
def importDeclaration : Reader Tree := do
  let word ← keyword true "import"
  return .node .importDeclaration
    (word :: (← specifications (fun specs => [.node .importSpecList specs]) importSpec))

/-- What a function declaration has after its parameters, if it stands on their line. -/
def functionRest (rules : Rules) : Reader (List Tree) := do
  let result ← result? rules false
  let body ←
    if ← looking (atSymbol false "\x7b") then pure [(← rules .block).asRole .body] else pure []
  return result.toList ++ body

/-- The declaration of a function. -/
def functionDeclaration (rules : Rules) : Reader Tree := do
  let word ← keyword true "func"
  let declared ← name true .identifier
  let generic ← optional? (typeParameters rules)
  let parameters ← rules .parameters
  return .node .functionDeclaration (word :: declared.asRole .name ::
    (generic.map (·.asRole .typeParameters)).toList ++
    parameters.asRole .parameters :: (← functionRest rules))

/-- The declaration of a method. -/
def methodDeclaration (rules : Rules) : Reader Tree := do
  let word ← keyword true "func"
  let receiver ← rules .parameters
  let declared ← name true .fieldIdentifier
  let parameters ← rules .parameters
  return .node .methodDeclaration (word :: receiver.asRole .receiver :: declared.asRole .name ::
    parameters.asRole .parameters :: (← functionRest rules))

/-- A declaration or statement of a file. -/
def topLevel (rules : Rules) : Reader Tree := do
  let ts ← get
  if atWord true "package" ts then packageClause
  else if atWord true "import" ts then importDeclaration
  else if atWord true "func" ts then
    functionDeclaration rules <|> methodDeclaration rules <|> rules .statement
  else rules .statement

/-- Whether no token is left but newlines. -/
def atEnd (ts : List Token) : Bool := (afterNewlines ts).isEmpty

/-- The next declaration or statement of a file with its terminator, if there is one. -/
def fileItem (rules : Rules) : Reader (Option (List Tree)) := do
  if ← looking atEnd then return none
  optional? do
    let t ← topLevel rules
    ended atEnd t

/-- The declarations and statements of a file, as far as they fit the grammar. -/
def fileItems (rules : Rules) : Reader (List Tree) := do
  let groups ← gather (fileItem rules)
  return groups.flatten

/-- The tokens of the grammar: comments are left out, and of newlines in a row only the first one
stays. -/
def significant : List Token → List Token
  | [] => []
  | t :: ts =>
    let rest := significant ts
    if t.lexeme = .comment then rest
    else if t.lexeme = .newline then
      match rest with
      | u :: more => if u.lexeme = .newline then t :: more else t :: rest
      | [] => [t]
    else t :: rest

/-- The comments among the tokens. -/
def comments (tokens : List Token) : List Tree :=
  (tokens.filter (·.lexeme = .comment)).map fun t => .leaf (.node .comment) t.start t.stop

/-- The tree of a text over its declarations and statements. -/
def sourceFile (text : String) (items : List Tree) : Tree :=
  .mk (.node .sourceFile) none 0 (Text.size text) (items.filter (·.label ≠ .lineBreak))

/-- The tree of a text with its comments, and whether all of the text fits the grammar. -/
def readSource (text : String) : Tree × Bool :=
  let tokens := Token.readAll text
  let source := significant tokens
  match (fileItems (rulesTo (8 * source.length + 16))).run source with
  | some (items, rest) => ((sourceFile text items).attach (comments tokens), atEnd rest)
  | none => (sourceFile text [], false)

/-- The tokens with an empty word between each comma and an assignment operator behind it. -/
def supplyNames : List Token → List Token
  | [] => []
  | t :: ts =>
    if t.isSymbolOf ',' && (atSymbol false "=" ts || atSymbol false ":=" ts) then
      t :: { lexeme := .word, text := "", start := t.stop, stop := t.stop } :: supplyNames ts
    else t :: supplyNames ts

/-- The tree of a text that misses names only. -/
def recover? (text : String) : Option Tree := do
  let tokens := Token.readAll text
  let source := supplyNames (significant tokens)
  let (items, rest) ← (fileItems (rulesTo (8 * source.length + 16))).run source
  guard (atEnd rest)
  return (sourceFile text items).attach (comments tokens)

end GoContracts.Syntax.Grammar

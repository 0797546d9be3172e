import GoContracts.Syntax.Grammar.Types

/-!
# Expressions

Many texts read both as an expression and as a type: `a[b]`, `(*p)`, `x.y`. Such a text is read as
an expression, and `typeReading?` gives the type that it spells as well. Where a call, an index or a
conversion could be meant, each reading has a weight; the heavier one is taken, and of two equal
ones the reading as a type.
-/

namespace GoContracts.Syntax.Grammar

/-! ## Two readings of one text -/

/-- Whether the kind is one of types only. -/
def isTypeKind : Kind → Bool
  | .parenthesizedType | .genericType | .pointerType | .arrayType | .implicitLengthArrayType
  | .sliceType | .structType | .interfaceType | .mapType | .channelType | .functionType
  | .negatedType | .qualifiedType | .typeIdentifier => true
  | _ => false

/-- Whether the tree is a type that is no expression. -/
def isType (t : Tree) : Bool := t.kind?.any isTypeKind

/-- Refuse a type that is no expression. -/
def requireExpression (t : Tree) : Reader Unit := require !isType t

/-- Whether the type has the form of a name, so that it can take arguments. -/
def isNamedType (t : Tree) : Bool := t.is .typeIdentifier || t.is .qualifiedType

/-- The type that an expression spells, if it spells one; types separated by `|` give a type
element. -/
def spelledType? : Tree → Option Tree
  | .mk (.node k) role start stop cs =>
    let t : Tree := .mk (.node k) role start stop cs
    match k, cs with
    | .identifier, [] => some ((t.asKind .typeIdentifier).withoutRole)
    | .selectorExpression, [operand, dot, field] =>
      if operand.is .identifier then
        some (.node .qualifiedType [(operand.asKind .packageIdentifier).asRole .package, dot,
          (field.asKind .typeIdentifier).asRole .name])
      else none
    | .unaryExpression, [operator, operand] => do
      let type ← (spelledType? operand).filter isType
      if operator.isToken "*" then some (.node .pointerType [operator.withoutRole, type]) else none
    | .parenthesizedExpression, [opening, inner, closing] => do
      let type ← (spelledType? inner).filter isType
      some (.node .parenthesizedType [opening, type, closing])
    | .binaryExpression, [left, operator, right] => do
      let first ← spelledType? left
      let second ← (spelledType? right).filter isType
      if operator.isToken "|" then
        some (.node .typeElem ((if first.is .typeElem then first.children else [first]) ++
          [operator.withoutRole, second]))
      else none
    | .indexExpression, [operand, opening, index, closing] => do
      let base ← (spelledType? operand).filter isNamedType
      let element ← spelledType? index
      let element := if element.is .typeElem then element else .node .typeElem [element]
      some (.node .genericType [base.asRole .type,
        (Tree.node .typeArguments [opening, element, closing]).asRole .typeArguments])
    | .typeInstantiationExpression, type :: opening :: items =>
      if isNamedType type then
        some (.node .genericType [type, (Tree.node .typeArguments (opening ::
          items.map fun t => if isType t then .node .typeElem [t] else t)).asRole .typeArguments])
      else none
    | _, _ => if isTypeKind k then some t.withoutRole else none
  | _ => none

/-- The type that an expression spells, if it spells one. -/
def typeReading? (t : Tree) : Option Tree := (spelledType? t).filter isType

/-- The argument of a generic type that an expression spells, if it spells one. -/
def elementReading? (t : Tree) : Option Tree :=
  (spelledType? t).map fun type => if type.is .typeElem then type else .node .typeElem [type]

mutual

/-- How much a reading weighs: type arguments and generic types speak for it, conversions and
plain type names against it. -/
def weight : Tree → Int
  | .mk (.node .typeIdentifier) _ _ _ _ => -1
  | .mk (.node .qualifiedType) _ _ _ _ => 0
  | .mk (.node .genericType) _ _ _ (_ :: cs) => 1 + weights cs
  | .mk (.node .typeArguments) _ _ _ cs => 2 + weights cs
  | .mk (.node .typeConversionExpression) _ _ _ cs => weights cs - 1
  | .mk (.node .typeInstantiationExpression) _ _ _ cs => weights cs - 1
  | .mk _ _ _ _ cs => weights cs

/-- The sum of the weights. -/
def weights : List Tree → Int
  | [] => 0
  | t :: ts => weight t + weights ts

end

/-! ## Arguments and elements -/

/-- An expression that is no type. -/
def expression (rules : Rules) (c : Context) : Reader Tree := do
  let t ← rules (.binary c 1)
  requireExpression t
  return t

/-- An argument of a call; dots after it pass a slice as all remaining arguments. -/
def argument (rules : Rules) : Reader Tree := do
  let t ← expression rules {}
  match ← optional? (symbol true "...") with
  | some dots => return .node .variadicArgument [t, dots]
  | none => return t

/-- A parenthesized list of items, which is empty or begins with an item. -/
def argumentList (first rest : Reader Tree) : Reader Tree := do
  let opening ← symbol true "("
  if ← looking (atSymbol true ")") then
    return .node .argumentList [opening, ← symbol true ")"]
  let item ← first
  let more ← gather do
    if ← looking (atSymbol true ",") then
      let comma ← symbol true ","
      if ← looking (atSymbol true ")") then return some [comma]
      return some [comma, ← rest]
    else return none
  return .node .argumentList (opening :: item :: more.flatten ++ [← symbol true ")"])

/-- A call or conversion of a type with an argument list, if there is exactly one plain
argument. -/
def conversion? (type arguments : Tree) : Option Tree :=
  match arguments.items with
  | [operand] =>
    if operand.is .variadicArgument then none
    else some (.node .typeConversionExpression (type.asRole .type ::
      arguments.children.map fun t => if t.isNamed then t.asRole .operand else t))
  | _ => none

/-- The call of a function. -/
def callOf (function arguments : Tree) : Tree :=
  .node .callExpression [function.asRole .function, arguments.asRole .arguments]

/-- The call of a function with type arguments. -/
def genericCall (function typeArguments arguments : Tree) : Tree :=
  .node .callExpression
    [function.asRole .function, typeArguments.asRole .typeArguments, arguments.asRole .arguments]

/-- The heaviest of the readings; of equal ones the first. -/
def heaviest : List Tree → Option Tree
  | [] => none
  | t :: ts => some (ts.foldl (fun best u => if weight best < weight u then u else best) t)

/-- The type with the stars before it. -/
def pointerType (stars : List Tree) (type : Tree) : Tree :=
  stars.foldr (fun star target => .node .pointerType [star, target]) type

/-- What an operand before an argument list means: a conversion if it spells a type, the call of a
generic function if it ends in type arguments, or a plain call. The stars before the operand belong
to the type of a conversion. -/
def applied? (stars : List Tree) (operand arguments : Tree) : Option Tree :=
  let conversion :=
    (typeReading? operand).bind fun type => conversion? (pointerType stars type) arguments
  if isType operand then conversion
  else
    let generic : Option Tree :=
      match operand.label, operand.children with
      | .node .indexExpression, [function, opening, index, closing] =>
        (elementReading? index).map fun element =>
          genericCall function
            (.node .typeArguments [opening, element, closing]) arguments
      | _, _ => none
    heaviest (conversion.toList ++ generic.toList ++ [callOf operand arguments])

/-- The value of a composite literal: elements between braces, each with a key or without. -/
def literalValue (rules : Rules) : Nat → Reader Tree
  | 0 => failure
  | n + 1 => do
    let opening ← symbol true "\x7b"
    let element : Reader Tree := do
      let value ←
        if ← looking (atSymbol true "\x7b") then literalValue rules n else expression rules {}
      return .node .literalElement [value]
    let items ← commaList "\x7d" do
      let first ← element
      if ← looking (atSymbol true ":") then
        let colon ← symbol true ":"
        let value ← element
        return .node .keyedElement [first.asRole .key, colon, value.asRole .value]
      else return first
    let closing ← symbol true "\x7d"
    return .node .literalValue (opening :: items ++ [closing])

/-- A composite literal of the given type. -/
def compositeLiteral (rules : Rules) (type : Tree) : Reader Tree := do
  let body ← fun ts => literalValue rules (ts.length + 1) ts
  return .node .compositeLiteral [type.asRole .type, body.asRole .body]

/-- Whether the type may begin a composite literal. -/
def isLiteralType (t : Tree) : Bool :=
  [Kind.mapType, .sliceType, .arrayType, .implicitLengthArrayType, .structType, .typeIdentifier,
    .genericType, .qualifiedType].any t.is

/-! ## Suffixes of an operand -/

/-- A selection or a type assertion. -/
def selection (rules : Rules) (c : Context) (operand : Tree) : Reader Tree := do
  requireExpression operand
  let dot ← symbol c.free "."
  if ← looking (atSymbol true "(") then
    let opening ← symbol true "("
    let type ← rules (.type true)
    let closing ← symbol true ")"
    return .node .typeAssertionExpression
      [operand.asRole .operand, dot, opening, type.asRole .type, closing]
  else
    let field ← name true .fieldIdentifier
    return .node .selectorExpression [operand.asRole .operand, dot, field.asRole .field]

/-- Whether `.(type)` follows. -/
def atTypeSwitch (ts : List Token) : Bool :=
  match (symbol true "." *> symbol true "(" *> keyword true "type" *> symbol true ")").run ts with
  | some _ => true
  | none => false

/-- The bounds of a slice after its opening bracket and its first bound. -/
def sliceOf (rules : Rules) (operand opening : Tree) (first : List Tree) : Reader Tree := do
  let bound (r : Role) : Reader (List Tree) := do
    if ← looking fun ts => atSymbol true "]" ts || atSymbol true ":" ts then return []
    return [(← expression rules {}).asRole r]
  let colon ← symbol true ":"
  let finish ← bound .finish
  let rest ← do
    if !finish.isEmpty && (← looking (atSymbol true ":")) then
      let second ← symbol true ":"
      pure [second, (← expression rules {}).asRole .capacity]
    else pure []
  let closing ← symbol true "]"
  return .node .sliceExpression
    (operand.asRole .operand :: opening :: first ++ colon :: finish ++ rest ++ [closing])

/-- The index expression or, if that reading weighs no less, the instantiation of a type. -/
def indexed (stars : List Tree) (operand opening index closing : Tree) : Tree :=
  let plain := Tree.node .indexExpression
    [operand.asRole .operand, opening, index.asRole .index, closing]
  match typeReading? operand, typeReading? index with
  | some type, some element =>
    let typed := Tree.node .typeInstantiationExpression
      [(pointerType stars type).asRole .type, opening, element, closing]
    if weight plain ≤ weight typed then typed else plain
  | _, _ => plain

/-- The types that the items of a bracketed list spell. -/
def spelledItems (reading? : Tree → Option Tree) (items : List Tree) : Reader (List Tree) :=
  items.mapM fun t =>
    if t.isNamed then
      match reading? t with
      | some type => pure type
      | none => failure
    else pure t

/-- An index, a slice, or type arguments with what they are given to. -/
def bracketed (rules : Rules) (c : Context) (operand : Tree) : Reader Tree := do
  let opening ← symbol c.free "["
  if ← looking (atSymbol true ":") then
    requireExpression operand
    return ← sliceOf rules operand opening []
  let first ← rules (.binary {} 1)
  if ← looking (atSymbol true ":") then
    requireExpression operand
    requireExpression first
    return ← sliceOf rules operand opening [first.asRole .start]
  let more ← gather do
    if ← looking (atSymbol true ",") then
      let comma ← symbol true ","
      if ← looking (atSymbol true "]") then return some [comma]
      return some [comma, ← rules (.binary {} 1)]
    else return none
  let more := more.flatten
  let closing ← symbol true "]"
  let called ← looking fun ts => atSymbol c.free "(" ts
  if more.isEmpty && !isType first && !isType operand then
    if called then
      return .node .indexExpression
        [operand.asRole .operand, opening, first.asRole .index, closing]
    else return indexed c.stars operand opening first closing
  -- Only types can be meant inside these brackets.
  if called && !isType operand then
    let arguments ← argumentList (argument rules) (argument rules)
    let typeArguments := Tree.node .typeArguments
      (opening :: (← spelledItems elementReading? (first :: more)) ++ [closing])
    let conversion : Option Tree := do
      let base ← typeReading? operand
      if isNamedType base then
        conversion? (pointerType c.stars (.node .genericType
          [base.asRole .type, typeArguments.asRole .typeArguments])) arguments
      else none
    match heaviest (conversion.toList ++ [genericCall operand typeArguments arguments]) with
    | some t => return t
    | none => failure
  else
    match typeReading? operand with
    | some type =>
      return .node .typeInstantiationExpression
        ((pointerType c.stars type).asRole .type :: opening ::
          (← spelledItems typeReading? (first :: more)) ++ [closing])
    | none => failure

/-- A composite literal after an operand that spells its type. In the header of a statement a
plain name never begins one, and a longer type begins one if the header goes on after it. -/
def literalAfter? (rules : Rules) (c : Context) (operand : Tree) : Reader (Option Tree) := do
  match (typeReading? operand).filter isLiteralType with
  | none => return none
  | some type =>
    if !c.header || isType operand then return some (← compositeLiteral rules type)
    else if type.is .typeIdentifier then return none
    else optional? do
      let t ← compositeLiteral rules type
      require !(← looking atBlockEnd)
      return t
where
  /-- Whether what was read is the block of the header. -/
  atBlockEnd (ts : List Token) : Bool :=
    atLineEnd ts || atWord false "else" ts || [";", "\x7d", ")", ","].any (atSymbol false · ts)

/-- One suffix of an operand. -/
def suffix? (rules : Rules) (c : Context) (operand : Tree) : Reader (Option Tree) := do
  let ts ← get
  if atSymbol c.free "..." ts then return none
  else if atSymbol c.free "." ts then
    if c.typeSwitch && atTypeSwitch ts then return none
    else return some (← selection rules c operand)
  else if atSymbol c.free "(" ts then
    let arguments ← argumentList (argument rules) (argument rules)
    match applied? c.stars operand arguments with
    | some t => return some t
    | none => failure
  else if atSymbol c.free "[" ts then return some (← bracketed rules c operand)
  else if atSymbol c.free "\x7b" ts then literalAfter? rules c operand
  else return none

/-! ## Operands -/

/-- A function literal, or the type of a function. -/
def function (rules : Rules) (c : Context) : Reader Tree := do
  let func ← keyword true "func"
  let parts ← signature rules c.free
  match ← optional? (rules .block) with
  | some body => return .node .funcLiteral (func :: parts ++ [body.asRole .body])
  | none => return .node .functionType (func :: parts)

/-- An array type whose length is that of the literal that follows it. -/
def implicitArrayType (rules : Rules) : Reader Tree := do
  let opening ← symbol true "["
  let dots ← symbol true "..."
  let closing ← symbol true "]"
  let element ← rules (.type true)
  require (← looking (atSymbol true "\x7b"))
  return .node .implicitLengthArrayType
    [opening, dots, closing, element.asRole .element]

/-- A predeclared function that makes a value of a type, or its call with a type as the first
argument. The name is a keyword inside the identifier, which thus spells no type. -/
def allocation (rules : Rules) (c : Context) : Reader Tree := do
  let function := Tree.node .identifier [← keyword true "new" <|> keyword true "make"]
  if ← looking (atSymbol c.free "(") then
    return callOf function (← argumentList (rules (.type true)) (expression rules {}))
  else return function

/-- The kind of the operand that is the given word. -/
def wordKind (w : String) : Kind :=
  if w = "nil" then .nilLiteral else if w = "true" then .trueLiteral
  else if w = "false" then .falseLiteral else if w = "iota" then .iota else .identifier

/-- An operand without suffixes. -/
def primary (rules : Rules) (c : Context) : Reader Tree := do
  skipNewlines
  match (← get).head? with
  | none => failure
  | some t =>
    match t.lexeme with
    | .int => lexeme true .int .intLiteral
    | .float => lexeme true .float .floatLiteral
    | .imaginary => lexeme true .imaginary .imaginaryLiteral
    | .rune => lexeme true .rune .runeLiteral
    | .string => lexeme true .string .interpretedStringLiteral
    | .rawString => lexeme true .rawString .rawStringLiteral
    | .word =>
      if t.text = "func" then function rules c
      else if ["map", "chan", "struct", "interface"].contains t.text then rules (.type c.free)
      else if t.text = "new" || t.text = "make" then allocation rules c
      else name true (wordKind t.text)
    | .symbol '(' => do
      let opening ← symbol true "("
      let inner ← rules (.binary {} 1)
      let closing ← symbol true ")"
      return .node (if isType inner then .parenthesizedType else .parenthesizedExpression)
        [opening, inner, closing]
    | .symbol '[' => implicitArrayType rules <|> rules (.type c.free)
    | .symbol '~' => rules (.type c.free)
    | _ => failure

/-- An operand with its suffixes. -/
def suffixed (rules : Rules) (c : Context) (first : Tree) : Reader Tree :=
  extend (suffix? rules c) first

/-- The operators that stand before an operand. -/
def unaryOperators : List String := ["+", "-", "!", "^", "*", "&", "<-"]

/-- An operand with the operators before it. What has taken the star before it into its type begins
with that star. -/
def operand (rules : Rules) (c : Context) : Reader Tree := do
  skipNewlines
  match longestSymbol? true unaryOperators (← get) with
  | none => suffixed rules c (← primary rules c)
  | some "<-" => channel <|> unary "<-"
  | some op => unary op
where
  channel : Reader Tree := do
    let type ← channelType rules c.free
    suffixed rules c type
  unary (op : String) : Reader Tree := do
    let operator ← symbol true op
    let t ← rules (.operand { c with stars := if op = "*" then c.stars ++ [operator] else [] })
    if t.start ≤ operator.start then return t
    else if isType t then
      require (op = "*")
      return .node .pointerType [operator, t]
    else return .node .unaryExpression [operator.asRole .operator, t.asRole .operand]

/-! ## Binary operators -/

/-- The binary operators with their levels; a higher level binds tighter. -/
def binaryOperators : List (String × Nat) :=
  [("*", 5), ("/", 5), ("%", 5), ("<<", 5), (">>", 5), ("&", 5), ("&^", 5),
    ("+", 4), ("-", 4), ("|", 4), ("^", 4),
    ("==", 3), ("!=", 3), ("<", 3), ("<=", 3), (">", 3), (">=", 3),
    ("&&", 2), ("||", 1)]

/-- The operators that assign. -/
def assignmentOperators : List String :=
  ["*=", "/=", "%=", "<<=", ">>=", "&=", "&^=", "+=", "-=", "|=", "^=", "="]

/-- The symbols that turn an expression into a statement. -/
def statementOperators : List String := assignmentOperators ++ [":=", "<-", "++", "--"]

/-- The binary operator that follows an operand, with its level. The longest symbol that may stand
there is taken; it may be one that makes a statement instead. -/
def binaryOperator? (c : Context) (ts : List Token) : Option (String × Nat) := do
  let candidates := binaryOperators.map (·.1) ++ (if c.statement then statementOperators else [])
  let op ← longestSymbol? c.free candidates ts
  binaryOperators.find? (·.1 = op)

/-- Operands joined by binary operators of at least the given level. -/
def binary (rules : Rules) (c : Context) (level : Nat) : Reader Tree := do
  let first ← rules (.operand c)
  extend (step c level) first
where
  step (c : Context) (level : Nat) (left : Tree) : Reader (Option Tree) := do
    match binaryOperator? c (← get) with
    | none => return none
    | some (op, l) =>
      if l < level then return none
      requireExpression left
      let operator ← symbol c.free op
      let right ← rules (.binary c (l + 1))
      requireExpression right
      return some (.node .binaryExpression
        [left.asRole .left, operator.asRole .operator, right.asRole .right])

/-- Expressions separated by commas. -/
def expressionList (rules : Rules) (c : Context) : Reader Tree := do
  let first ← expression rules c
  let more ← gather do
    if ← looking (atSymbol c.free ",") then
      return some [← symbol c.free ",", ← expression rules c]
    else return none
  return .node .expressionList (first :: more.flatten)

end GoContracts.Syntax.Grammar

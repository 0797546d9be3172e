import GoContracts.Syntax.Grammar.Reader

/-!
# Types, parameters and members

The rules for type expressions and for the lists of parameters, fields and methods inside them.
-/

namespace GoContracts.Syntax.Grammar

/-- Types separated by `|`. -/
def typeElement (rules : Rules) (free : Bool) : Reader Tree := do
  let first ← rules (.type free)
  let more ← gather do
    if ← looking (atSymbol free "|") then
      return some [← symbol free "|", ← rules (.type free)]
    else return none
  return .node .typeElem (first :: more.flatten)

/-- The bracketed arguments of a generic type. -/
def typeArguments (rules : Rules) (free : Bool) : Reader Tree := do
  let opening ← symbol free "["
  let items ← commaList "]" (typeElement rules true)
  require (items.any (·.is .typeElem))
  let closing ← symbol true "]"
  return .node .typeArguments (opening :: items ++ [closing])

/-- A type name, qualified or not, with its arguments if it has any. -/
def namedType (rules : Rules) (free : Bool) : Reader Tree := do
  let first ← name free .typeIdentifier
  let base ←
    if ← looking (fun ts => atSymbol free "." ts && !atSymbol free "..." ts) then do
      let dot ← symbol free "."
      let member ← name true .typeIdentifier
      pure (.node .qualifiedType
        [(first.asKind .packageIdentifier).asRole .package, dot, member.asRole .name])
    else pure first
  match ← optional? (typeArguments rules free) with
  | some arguments =>
    return .node .genericType [base.asRole .type, arguments.asRole .typeArguments]
  | none => return base

/-- The result of a function: a list of parameters or a type. -/
def result? (rules : Rules) (free : Bool) : Reader (Option Tree) := do
  if ← looking (atSymbol free "(") then
    return some ((← rules .parameters).asRole .result)
  let begins ← looking fun ts =>
    atAnyWord free ts || ["*", "[", "<-", "~"].any (atSymbol free · ts)
  if begins then return some ((← rules (.type free)).asRole .result) else return none

/-- The parameters and the result of a function. -/
def signature (rules : Rules) (free : Bool) : Reader (List Tree) := do
  let parameters ← rules .parameters
  let result ← result? rules free
  return parameters.asRole .parameters :: result.toList

/-- A function type. -/
def functionType (rules : Rules) (free : Bool) : Reader Tree := do
  let func ← keyword free "func"
  return .node .functionType (func :: (← signature rules free))

/-- A map type. -/
def mapType (rules : Rules) (free : Bool) : Reader Tree := do
  let map ← keyword free "map"
  let opening ← symbol true "["
  let key ← rules (.type true)
  let closing ← symbol true "]"
  let value ← rules (.type free)
  return .node .mapType [map, opening, key.asRole .key, closing, value.asRole .value]

/-- A channel type, of either direction or both. -/
def channelType (rules : Rules) (free : Bool) : Reader Tree := do
  let marks ←
    if ← looking (atSymbol free "<-") then do
      let arrow ← symbol free "<-"
      pure [arrow, ← keyword true "chan"]
    else do
      let chan ← keyword free "chan"
      match ← optional? (symbol true "<-") with
      | some arrow => pure [chan, arrow]
      | none => pure [chan]
  let value ← rules (.type free)
  return .node .channelType (marks ++ [value.asRole .value])

/-- A slice type, or an array type with a length. -/
def arrayType (rules : Rules) (free : Bool) : Reader Tree := do
  let opening ← symbol free "["
  match ← optional? (symbol true "]") with
  | some closing =>
    let element ← rules (.type free)
    return .node .sliceType [opening, closing, element.asRole .element]
  | none =>
    let length ← rules (.binary {} 1)
    let closing ← symbol true "]"
    let element ← rules (.type free)
    return .node .arrayType
      [opening, length.asRole .length, closing, element.asRole .element]

/-- The tag of a field. -/
def tag? : Reader (List Tree) := do
  let tag ← optional?
    (lexeme false .string .interpretedStringLiteral <|> lexeme false .rawString .rawStringLiteral)
  return (tag.map (·.asRole .tag)).toList

/-- Whether an embedded field may end here. -/
def atFieldEnd (ts : List Token) : Bool :=
  atLineEnd ts || atSymbol false ";" ts || atSymbol false "\x7d" ts ||
    ts.head?.any fun t => t.lexeme = .string || t.lexeme = .rawString

/-- Names separated by commas. -/
def names (k : Kind) : Reader (List Tree) := do
  let first ← name true k
  let more ← gather do
    if ← looking (atSymbol true ",") then
      let comma ← symbol true ","
      return some [comma, (← name true k).asRole .name]
    else return none
  return first.asRole .name :: more.flatten

/-- A field declaration: an embedded type, or names with a type. -/
def fieldDeclaration (rules : Rules) : Reader Tree := embedded <|> named
where
  embedded : Reader Tree := do
    let star ← optional? (symbol true "*")
    let type ← namedType rules false
    require (← looking atFieldEnd)
    return .node .fieldDeclaration (star.toList ++ type.asRole .type :: (← tag?))
  named : Reader Tree := do
    let fields ← names .fieldIdentifier
    let type ← rules (.type false)
    return .node .fieldDeclaration (fields ++ type.asRole .type :: (← tag?))

/-- A struct type. -/
def structType (rules : Rules) (free : Bool) : Reader Tree := do
  let struct ← keyword free "struct"
  let opening ← symbol true "\x7b"
  let fields ← terminatedList (atSymbol true "\x7d") (fieldDeclaration rules)
  let closing ← symbol true "\x7d"
  return .node .structType
    [struct, .node .fieldDeclarationList (opening :: fields ++ [closing])]

/-- A method of an interface. -/
def methodElement (rules : Rules) : Reader Tree := do
  let method ← name true .fieldIdentifier
  return .node .methodElem (method.asRole .name :: (← signature rules false))

/-- An interface type. -/
def interfaceType (rules : Rules) (free : Bool) : Reader Tree := do
  let interface ← keyword free "interface"
  let opening ← symbol true "\x7b"
  let elements ← terminatedList (atSymbol true "\x7d")
    (methodElement rules <|> typeElement rules false)
  let closing ← symbol true "\x7d"
  return .node .interfaceType (interface :: opening :: elements ++ [closing])

/-- A type. -/
def type (rules : Rules) (free : Bool) : Reader Tree := do
  skipNewlines
  let ts ← get
  if atWord free "func" ts then functionType rules free
  else if atWord free "map" ts then mapType rules free
  else if atWord free "chan" ts || atSymbol free "<-" ts then channelType rules free
  else if atWord free "struct" ts then structType rules free
  else if atWord free "interface" ts then interfaceType rules free
  else if atSymbol free "[" ts then arrayType rules free
  else if atSymbol free "*" ts then
    return .node .pointerType [← symbol free "*", ← rules (.type free)]
  else if atSymbol free "~" ts then
    return .node .negatedType [← symbol free "~", ← rules (.type free)]
  else if atSymbol free "(" ts then
    return .node .parenthesizedType
      [← symbol free "(", ← rules (.type true), ← symbol true ")"]
  else namedType rules free

/-- A declaration of parameters before it is known whether a lone name is a type. -/
inductive ParameterEntry where
  /-- A name, or a type of that name. -/
  | lone (t : Tree)
  /-- One or more names with their type, or a type alone. -/
  | declared (t : Tree) (takesNames : Bool)
  /-- The comma after an entry. -/
  | comma (t : Tree)

/-- One entry of a list of parameters. -/
def parameterEntry (rules : Rules) : Reader ParameterEntry :=
  variadic <|> bare <|> alone <|> typed
where
  variadic : Reader ParameterEntry := do
    let parameter ← optional? (name true .identifier)
    let dots ← symbol true "..."
    let type ← rules (.type true)
    return .declared (.node .variadicParameterDeclaration
      ((parameter.map (·.asRole .name)).toList ++ [dots, type.asRole .type])) false
  atEntryEnd : Reader Unit := do
    require (← looking fun ts => atSymbol true "," ts || atSymbol true ")" ts)
  bare : Reader ParameterEntry := do
    let word ← name true .identifier
    atEntryEnd
    return .lone word
  alone : Reader ParameterEntry := do
    let type ← rules (.type true)
    atEntryEnd
    return .declared (.node .parameterDeclaration [type.asRole .type]) false
  typed : Reader ParameterEntry := do
    let word ← name true .identifier
    let type ← rules (.type true)
    atEntryEnd
    return .declared (.node .parameterDeclaration [word.asRole .name, type.asRole .type]) true

/-- The declaration of a type without a name. -/
def typeOnly (t : Tree) : Tree :=
  .node .parameterDeclaration [(t.asKind .typeIdentifier).asRole .type]

/-- Declarations from the entries of a list, read from its end: names before a declaration that
takes names belong to it, and any other lone name is a type. The names still open are collected
with the commas after them. -/
def declareParameters : List ParameterEntry → List Tree
  | [] => []
  | .lone t :: rest =>
    match joined rest with
    | some (more, k) => .node .parameterDeclaration (t.asRole .name :: more) ::
        declareParameters (rest.drop k)
    | none => typeOnly t :: declareParameters rest
  | .declared t _ :: rest => t :: declareParameters rest
  | .comma t :: rest => t :: declareParameters rest
termination_by entries => entries.length
decreasing_by all_goals (simp only [List.length_drop, List.length_cons]; omega)
where
  /-- The commas and names up to a declaration that takes names, and the number of entries. -/
  joined : List ParameterEntry → Option (List Tree × Nat)
    | .comma c :: .declared d true :: _ => some (c :: d.children, 2)
    | .comma c :: .lone t :: rest =>
      (joined rest).map fun (more, k) => (c :: t.asRole .name :: more, k + 2)
    | _ => none

/-- A parenthesized list of parameters. -/
def parameters (rules : Rules) : Reader Tree := do
  let opening ← symbol true "("
  let entries ← gather do
    if ← looking (atSymbol true ")") then return none
    let entry ← optional? (parameterEntry rules)
    match ← optional? (symbol true ",") with
    | some comma => return some (entry.toList ++ [.comma comma])
    | none =>
      require entry.isSome
      return some entry.toList
  let entries := entries.flatten
  require (entries.length ≤ 1 || alternates entries)
  let closing ← symbol true ")"
  return .node .parameterList (opening :: declareParameters entries ++ [closing])
where
  /-- Entries stand between commas. -/
  alternates : List ParameterEntry → Bool
    | [] => true
    | .comma _ :: _ => false
    | [_] => true
    | _ :: .comma _ :: rest => alternates rest
    | _ => false

/-- A parameter of a generic declaration: names with the types they range over. -/
def typeParameterDeclaration (rules : Rules) : Reader Tree := do
  let parameters ← names .identifier
  let element ← typeElement rules true
  return .node .typeParameterDeclaration
    (parameters ++ [(element.asKind .typeConstraint).asRole .type])

/-- The bracketed parameters of a generic declaration. -/
def typeParameters (rules : Rules) : Reader Tree := do
  let opening ← symbol true "["
  let items ← commaList "]" (typeParameterDeclaration rules)
  require (items.any (·.is .typeParameterDeclaration))
  let closing ← symbol true "]"
  return .node .typeParameterList (opening :: items ++ [closing])

end GoContracts.Syntax.Grammar

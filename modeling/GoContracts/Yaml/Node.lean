import GoContracts.Yaml.Token

/-!
# Nodes of YAML

A document is a tree of scalars, sequences and mappings. An alias stands for the node that carries
the anchor of its name. A stream may hold one document only.
-/

namespace GoContracts.Yaml

/-- A node of a document. -/
inductive Node where
  /-- A text; `plain` if it is written without quotation marks or indicators. -/
  | scalar (text : String) (plain : Bool)
  | sequence (items : List Node)
  | mapping (entries : List (Node × Node))
  deriving Repr

instance : Inhabited Node := ⟨.mapping []⟩

namespace Node

/-- The node that is left out. -/
def absent : Node := scalar "" true

/-- What stands for a node inside itself. -/
def enclosing : Node := mapping []

/-- The nodes that carry anchors, last first. -/
abbrev Anchors := List (String × Node)

/-- What a reader of tokens yields: the result, the anchors and what follows. -/
abbrev Reader (α : Type) := Anchors → List Token → Option (α × Anchors × List Token)

/-- Carry an anchor and a tag before a node. -/
structure Properties where
  anchor? : Option String := none
  /-- The handle of the tag. -/
  tag? : Option String := none

/-- Read the anchor and the tag before a node, in any order. -/
def readProperties (tokens : List Token) : Properties × List Token :=
  match tokens with
  | .anchor name :: .tag handle :: rest => ({ anchor? := some name, tag? := some handle }, rest)
  | .tag handle :: .anchor name :: rest => ({ anchor? := some name, tag? := some handle }, rest)
  | .anchor name :: rest => ({ anchor? := some name }, rest)
  | .tag handle :: rest => ({ tag? := some handle }, rest)
  | _ => ({}, tokens)

/-- Whether the next token is one of the given ones. -/
def nextIn (ends : List Token) (tokens : List Token) : Bool :=
  tokens.head?.any ends.contains

/-- Whether no key or value can begin with the next token of a mapping that is given by
indentation. -/
def atMappingGap (tokens : List Token) : Bool :=
  nextIn [.key, .value, .blockEnd] tokens

/-- Bind an anchor to a node. -/
def bindAnchor (properties : Properties) (node : Node) (anchors : Anchors) : Anchors :=
  match properties.anchor? with
  | some name => (name, node) :: anchors
  | none => anchors

/-- Read a node that may be left out: it is where one of the given tokens follows. -/
def orAbsent (isGap : List Token → Bool) (read : Reader Node) : Reader Node := fun anchors tokens =>
  if isGap tokens then some (absent, anchors, tokens) else read anchors tokens

mutual

/-- Read a node. `block` allows collections that are given by indentation, `indentless` a sequence
whose dashes stand at the column of the mapping around it. -/
def read (handles : List String) (block indentless : Bool) : Nat → Reader Node
  | 0, _, _ => none
  | n + 1, anchors, tokens =>
    match tokens with
    | .alias name :: rest =>
      (anchors.find? (·.1 = name)).map fun found => (found.2, anchors, rest)
    | _ =>
      let (properties, rest) := readProperties tokens
      if properties.tag?.any fun handle => handle ≠ "" && !handles.contains handle then none
      else
        let inside := bindAnchor properties enclosing anchors
        let finish := fun (found : Node × Anchors × List Token) =>
          (found.1, bindAnchor properties found.1 found.2.1, found.2.2)
        match rest with
        | .scalar text plain :: rest => some (finish (scalar text plain, anchors, rest))
        | .openBracket :: rest =>
          (readFlowItems handles n true [] inside rest).map finish
        | .openBrace :: rest =>
          (readFlowEntries handles n true [] inside rest).map finish
        | .entry :: _ =>
          if block && indentless then
            (readItems handles n true [] inside rest).map finish
          else if properties.anchor?.isSome || properties.tag?.isSome then
            some (finish (absent, anchors, rest))
          else none
        | .sequenceStart :: rest =>
          if block then (readItems handles n false [] inside rest).map finish
          else if properties.anchor?.isSome || properties.tag?.isSome then
            some (finish (absent, anchors, .sequenceStart :: rest))
          else none
        | .mappingStart :: rest =>
          if block then (readEntries handles n [] inside rest).map finish
          else if properties.anchor?.isSome || properties.tag?.isSome then
            some (finish (absent, anchors, .mappingStart :: rest))
          else none
        | _ =>
          if properties.anchor?.isSome || properties.tag?.isSome then
            some (finish (absent, anchors, rest))
          else none

/-- Read the items of a sequence that is given by dashes. -/
def readItems (handles : List String) : Nat → Bool → List Node → Reader Node
  | 0, _, _, _, _ => none
  | n + 1, indentless, items, anchors, tokens =>
    match tokens with
    | .entry :: rest => do
      let isGap := if indentless then nextIn [.entry, .key, .value, .blockEnd]
        else nextIn [.entry, .blockEnd]
      let (item, anchors, rest) ←
        orAbsent isGap (read handles true false n) anchors rest
      readItems handles n indentless (item :: items) anchors rest
    | .blockEnd :: rest =>
      some (sequence items.reverse, anchors, if indentless then .blockEnd :: rest else rest)
    | _ => if indentless then some (sequence items.reverse, anchors, tokens) else none

/-- Read the entries of a mapping that is given by indentation. -/
def readEntries (handles : List String) : Nat → List (Node × Node) → Reader Node
  | 0, _, _, _ => none
  | n + 1, entries, anchors, tokens =>
    match tokens with
    | .key :: rest => do
      let (key, anchors, rest) ←
        orAbsent atMappingGap (read handles true true n) anchors rest
      match rest with
      | .value :: rest =>
        let (value, anchors, rest) ←
          orAbsent atMappingGap (read handles true true n) anchors rest
        readEntries handles n ((key, value) :: entries) anchors rest
      | _ => readEntries handles n ((key, absent) :: entries) anchors rest
    | .blockEnd :: rest => some (mapping entries.reverse, anchors, rest)
    | _ => none

/-- Read the value of a key inside brackets or braces; it may be left out. -/
def readFlowValue (handles : List String) (close : Token) : Nat → Reader Node
  | 0, _, _ => none
  | n + 1, anchors, tokens =>
    match tokens with
    | .value :: rest =>
      orAbsent (nextIn [.comma, close]) (read handles false false n) anchors rest
    | _ => some (absent, anchors, tokens)

/-- Read the items between brackets. An item with a key is a mapping of one entry. -/
def readFlowItems (handles : List String) : Nat → Bool → List Node → Reader Node
  | 0, _, _, _, _ => none
  | n + 1, first, items, anchors, tokens =>
    match tokens with
    | .closeBracket :: rest => some (sequence items.reverse, anchors, rest)
    | _ => do
      let tokens ← if first then some tokens else
        match tokens with
        | .comma :: rest => some rest
        | _ => none
      match tokens with
      | .closeBracket :: rest => return (sequence items.reverse, anchors, rest)
      | .key :: rest =>
        let (key, anchors, rest) ←
          if nextIn [.value, .comma, .closeBracket] rest then some (absent, anchors, rest.tail)
          else read handles false false n anchors rest
        let (value, anchors, rest) ← readFlowValue handles .closeBracket n anchors rest
        readFlowItems handles n false (mapping [(key, value)] :: items) anchors rest
      | _ =>
        let (item, anchors, rest) ← read handles false false n anchors tokens
        readFlowItems handles n false (item :: items) anchors rest

/-- Read the entries between braces. -/
def readFlowEntries (handles : List String) : Nat → Bool → List (Node × Node) → Reader Node
  | 0, _, _, _, _ => none
  | n + 1, first, entries, anchors, tokens =>
    match tokens with
    | .closeBrace :: rest => some (mapping entries.reverse, anchors, rest)
    | _ => do
      let tokens ← if first then some tokens else
        match tokens with
        | .comma :: rest => some rest
        | _ => none
      match tokens with
      | .closeBrace :: rest => return (mapping entries.reverse, anchors, rest)
      | .key :: rest =>
        let (key, anchors, rest) ←
          orAbsent (nextIn [.value, .comma, .closeBrace]) (read handles false false n) anchors rest
        let (value, anchors, rest) ← readFlowValue handles .closeBrace n anchors rest
        readFlowEntries handles n false ((key, value) :: entries) anchors rest
      | _ =>
        let (key, anchors, rest) ← read handles false false n anchors tokens
        readFlowEntries handles n false ((key, absent) :: entries) anchors rest

end

/-! ## Documents -/

/-- Whether a version can be read. -/
def isKnownVersion (major minor : Nat) : Bool := major = 1 && (minor = 1 || minor = 2)

/-- Read directives: at most one version, and handles that differ. Yields the handles. -/
def readDirectives : Bool → List String → List Token → Option (Bool × List String × List Token)
  | hasVersion, handles, .version major minor :: rest =>
    if hasVersion || !isKnownVersion major minor then none else readDirectives true handles rest
  | hasVersion, handles, .tagHandle handle :: rest =>
    if handles.contains handle then none else readDirectives hasVersion (handle :: handles) rest
  | hasVersion, handles, tokens => some (hasVersion, handles, tokens)

/-- The node of the only document of a stream; none if the stream is empty. -/
def ofTokens? (tokens : List Token) : Option (Option Node) := do
  let (hasVersion, declared, rest) ← readDirectives false [] tokens
  match rest with
  | [] => if hasVersion || !declared.isEmpty then none else return none
  | first :: content =>
    let isExplicit := first = .documentStart
    if !isExplicit && (hasVersion || !declared.isEmpty) then none
    else
      let content := if isExplicit then content else rest
      let handles := declared ++ ["!", "!!"]
      let isEnd := fun (tokens : List Token) => tokens.isEmpty || nextIn [.documentStart] tokens ||
        nextIn [.documentEnd] tokens ||
        (match tokens with
          | .version .. :: _ => true
          | .tagHandle _ :: _ => true
          | _ => false)
      let (node, _, rest) ←
        if isExplicit then
          orAbsent isEnd (read handles true false (3 * content.length + 3)) [] content
        else read handles true false (3 * content.length + 3) [] content
      if rest.all (· = .documentEnd) then return some node else none

/-- The node of the only document of a text; the inner value is missing if the text is empty. -/
def ofText? (text : String) : Option (Option Node) := tokens? text >>= ofTokens?

end Node

end GoContracts.Yaml

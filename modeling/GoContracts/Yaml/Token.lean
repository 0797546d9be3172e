import GoContracts.Yaml.Scalar

/-!
# Tokens of YAML

A stream is a list of tokens. Indentation is turned into tokens that open and close collections, and
a colon makes a key of what stands before it on its line.
-/

namespace GoContracts.Yaml

/-- A token. -/
inductive Token where
  /-- A version directive with its numbers. -/
  | version (major minor : Nat)
  /-- A directive that gives the meaning of a tag handle. -/
  | tagHandle (handle : String)
  /-- `---` -/
  | documentStart
  /-- `...` -/
  | documentEnd
  /-- The indentation begins a sequence. -/
  | sequenceStart
  /-- The indentation begins a mapping. -/
  | mappingStart
  /-- The indentation ends a collection. -/
  | blockEnd
  /-- `[` -/
  | openBracket
  /-- `]` -/
  | closeBracket
  /-- `{` -/
  | openBrace
  /-- `}` -/
  | closeBrace
  /-- `-` before an item of a sequence. -/
  | entry
  /-- `,` -/
  | comma
  /-- A key follows. -/
  | key
  /-- A value follows. -/
  | value
  | alias (name : String)
  | anchor (name : String)
  /-- A tag with its handle, empty for one in full. -/
  | tag (handle : String)
  | scalar (text : String) (plain : Bool)
  deriving DecidableEq, Repr

/-- A place in the stream and what follows it. -/
structure Cursor where
  rest : List Char
  index : Nat := 0
  line : Nat := 0
  column : Nat := 0

namespace Cursor

/-- The place after the next character. A carriage return before a newline ends no line. -/
def next (k : Cursor) : Cursor :=
  match k.rest with
  | [] => k
  | c :: rest =>
    if isBreak c && !(c = '\r' && rest.head? = some '\n') then
      { rest, index := k.index + 1, line := k.line + 1 }
    else { rest, index := k.index + 1, line := k.line, column := k.column + 1 }

/-- The place after a number of characters. -/
def advance : Nat → Cursor → Cursor
  | 0, k => k
  | n + 1, k => advance n k.next

/-- The place before the given rest. -/
def moveTo (k : Cursor) (rest : List Char) : Cursor := k.advance (k.rest.length - rest.length)

end Cursor

/-- A token that may turn out to be a key. -/
structure KeyCandidate where
  /-- Whether nothing else is allowed there. -/
  required : Bool
  /-- The number of tokens before it. -/
  number : Nat
  index : Nat
  line : Nat
  column : Nat

/-- The state of reading tokens. -/
structure Scanner where
  cursor : Cursor
  /-- The column of the innermost collection that is given by indentation. -/
  indent : Int := -1
  /-- The columns of the collections around it. -/
  outer : List Int := []
  /-- The candidates for a key, one for each level of brackets, innermost first. -/
  candidate? : Option KeyCandidate := none
  outerCandidates : List (Option KeyCandidate) := []
  /-- Whether a key may begin here. -/
  keyAllowed : Bool := true
  /-- The tokens so far. -/
  tokens : List Token := []

namespace Scanner

/-- Whether brackets are open. -/
def inFlow (s : Scanner) : Bool := !s.outerCandidates.isEmpty

/-- Add a token. -/
def emit (t : Token) (s : Scanner) : Scanner := { s with tokens := s.tokens ++ [t] }

/-- Move on by a number of characters. -/
def skip (n : Nat) (s : Scanner) : Scanner := { s with cursor := s.cursor.advance n }

/-- Give up the candidate for a key; fail if it had to be one. -/
def dropCandidate (s : Scanner) : Option Scanner :=
  if s.candidate?.any (·.required) then none else some { s with candidate? := none }

/-- Make what begins here the candidate for a key. -/
def saveCandidate (s : Scanner) : Option Scanner :=
  if s.keyAllowed then
    s.dropCandidate.map fun s => { s with
      candidate? := some {
        required := !s.inFlow && s.indent = s.cursor.column
        number := s.tokens.length
        index := s.cursor.index
        line := s.cursor.line
        column := s.cursor.column } }
  else some s

/-- Whether a candidate is on an earlier line or too far back. -/
def isStale (s : Scanner) (candidate : KeyCandidate) : Bool :=
  candidate.line < s.cursor.line || candidate.index + 1024 < s.cursor.index

/-- Give up the candidates that can no longer be keys. -/
def dropStale (s : Scanner) : Option Scanner :=
  let stale := fun (c? : Option KeyCandidate) => c?.any s.isStale
  if (s.candidate? :: s.outerCandidates).any fun c? => stale c? && c?.any (·.required) then none
  else
    let keep := fun c? => if stale c? then none else c?
    some { s with candidate? := keep s.candidate?, outerCandidates := s.outerCandidates.map keep }

/-- Begin a collection at a column if that is further in. Its token comes after the first `number`
tokens. -/
def indentTo (column number : Nat) (t : Token) (s : Scanner) : Scanner :=
  if !s.inFlow && s.indent < column then
    { s with
      outer := s.indent :: s.outer
      indent := column
      tokens := s.tokens.take number ++ t :: s.tokens.drop number }
  else s

/-- End the collections that begin further in than a column. -/
def unindent (column indent : Int) : List Int → Int × List Int × List Token
  | [] => (indent, [], [])
  | above :: outer =>
    if column < indent then
      let (indent, outer, ends) := unindent column above outer
      (indent, outer, .blockEnd :: ends)
    else (indent, above :: outer, [])

/-- End the collections that begin further in than a column. -/
def unindentTo (column : Int) (s : Scanner) : Scanner :=
  if s.inFlow then s
  else
    let (indent, outer, ends) := unindent column s.indent s.outer
    { s with indent, outer, tokens := s.tokens ++ ends }

/-! ## Blanks between tokens -/

/-- Move to the next token: over spaces, comments and breaks, and over tabs where no key may
begin. -/
def skipBlanks : Nat → Scanner → Scanner
  | 0, s => s
  | n + 1, s =>
    match s.cursor.rest with
    | [] => s
    | c :: rest =>
      if c.toNat = 0xFEFF && s.cursor.index = 0 then skipBlanks n (s.skip 1)
      else if c = ' ' || (c = '\t' && (s.inFlow || !s.keyAllowed)) then skipBlanks n (s.skip 1)
      else if c = '#' then
        skipBlanks n { s with cursor := s.cursor.moveTo (rest.dropWhile (!isBreak ·)) }
      else if isBreak c then
        let s := { s with cursor := s.cursor.moveTo (readBreak (c :: rest)).2 }
        skipBlanks n (if s.inFlow then s else { s with keyAllowed := true })
      else s

/-! ## Directives, anchors and tags -/

/-- A number of at most nine digits. -/
def readNumber? (text : List Char) : Option (Nat × List Char) :=
  let (digits, rest) := text.span Char.isDigit
  if digits.isEmpty || 9 < digits.length then none
  else some (digits.foldl (fun n c => n * 10 + (c.toNat - '0'.toNat)) 0, rest)

/-- The numbers of a version. -/
def readVersion? (text : List Char) : Option (Token × List Char) := do
  let (major, rest) ← readNumber? text
  match rest with
  | '.' :: rest =>
    let (minor, rest) ← readNumber? rest
    return (.version major minor, rest)
  | _ => none

/-- A handle of a tag: between two exclamation marks, or one alone. -/
def readHandle? : List Char → Option (String × List Char)
  | '!' :: text =>
    let (word, rest) := text.span isWordChar
    match rest with
    | '!' :: rest => some (String.ofList ('!' :: word ++ ['!']), rest)
    | _ => some (String.ofList ('!' :: word), rest)
  | _ => none

/-- Whether a character may stand in the address that a tag names. -/
def isAddressChar (inFull : Bool) (c : Char) : Bool :=
  isWordChar c || ";/?:@&=+$.!~*'()%".toList.contains c || (inFull && ",[]".toList.contains c)

/-- An address; escapes in it have to be well-formed. -/
def readAddress? (inFull : Bool) (text : List Char) : Option (List Char × List Char) :=
  let (address, rest) := text.span (isAddressChar inFull)
  if escapesOk address then some (address, rest) else none
where
  /-- Whether each percent sign stands before two hexadecimal digits. -/
  escapesOk : List Char → Bool
    | '%' :: a :: b :: rest => (hexDigit? a).isSome && (hexDigit? b).isSome && escapesOk rest
    | '%' :: _ => false
    | _ :: rest => escapesOk rest
    | [] => true

/-- A directive after its percent sign. -/
def readDirective? (text : List Char) : Option (Token × List Char) := do
  let (name, rest) := text.span isWordChar
  if name.isEmpty || !atGap rest then none
  else
    let rest := rest.dropWhile isSpace
    let (token, rest) ←
      match String.ofList name with
      | "YAML" => readVersion? rest
      | "TAG" => do
        let (handle, rest) ← readHandle? rest
        if handle ≠ "!" && !handle.endsWith "!" then none
        else if !rest.head?.any isSpace then none
        else
          let (address, rest) ← readAddress? true (rest.dropWhile isSpace)
          if address.isEmpty || !atGap rest then none else some (.tagHandle handle, rest)
      | _ => none
    let rest := rest.dropWhile isSpace
    let rest := if rest.head? = some '#' then rest.dropWhile (!isBreak ·) else rest
    if atLineEnd rest then some (token, (readBreak rest).2) else none

/-- The name of an anchor or alias. -/
def readName? (text : List Char) : Option (String × List Char) :=
  let (name, rest) := text.span isWordChar
  if name.isEmpty || !(atGap rest || rest.head?.any fun c => "?:,]\x7d%@`".toList.contains c) then
    none
  else some (String.ofList name, rest)

/-- A tag: an address in full, or a handle with the rest of the address. -/
def readTag? (inFlow : Bool) (text : List Char) : Option (Token × List Char) := do
  let (handle, rest) ←
    match text with
    | '!' :: '<' :: rest => do
      let (address, rest) ← readAddress? true rest
      match rest with
      | '>' :: rest => if address.isEmpty then none else some ("", rest)
      | _ => none
    | _ => do
      let (handle, rest) ← readHandle? text
      let (address, rest) ← readAddress? false rest
      if 1 < handle.length && handle.endsWith "!" then
        if address.isEmpty then none else some (handle, rest)
      else if handle = "!" && address.isEmpty then some ("", rest)
      else some ("!", rest)
  if atGap rest || (inFlow && rest.head? = some ',') then return (.tag handle, rest) else none

/-! ## The next token -/

/-- Take over a token that ends before `rest`. -/
def accept (t : Token) (rest : List Char) (s : Scanner) : Scanner :=
  ({ s with cursor := s.cursor.moveTo rest }).emit t

/-- A bracket or brace that opens a collection. -/
def openFlow (t : Token) (s : Scanner) : Option Scanner :=
  s.saveCandidate.map fun s =>
    ({ s with candidate? := none, outerCandidates := s.candidate? :: s.outerCandidates,
              keyAllowed := true }).emit t |>.skip 1

/-- A bracket or brace that closes a collection. -/
def closeFlow (t : Token) (s : Scanner) : Option Scanner :=
  s.dropCandidate.map fun s =>
    let s :=
      match s.outerCandidates with
      | candidate? :: outerCandidates => { s with candidate?, outerCandidates }
      | [] => s
    ({ s with keyAllowed := false }).emit t |>.skip 1

/-- A dash before an item. -/
def blockEntry (s : Scanner) : Option Scanner :=
  if !s.inFlow && !s.keyAllowed then none
  else
    (s.indentTo s.cursor.column s.tokens.length .sequenceStart).dropCandidate.map fun s =>
      ({ s with keyAllowed := true }).emit .entry |>.skip 1

/-- A question mark before a key. -/
def explicitKey (s : Scanner) : Option Scanner :=
  if !s.inFlow && !s.keyAllowed then none
  else
    (s.indentTo s.cursor.column s.tokens.length .mappingStart).dropCandidate.map fun s =>
      ({ s with keyAllowed := !s.inFlow }).emit .key |>.skip 1

/-- A colon before a value: the candidate becomes a key. -/
def valueMark (s : Scanner) : Option Scanner :=
  match s.candidate? with
  | some candidate =>
    let s := { s with
      tokens := s.tokens.take candidate.number ++ Token.key :: s.tokens.drop candidate.number }
    let s := s.indentTo candidate.column candidate.number .mappingStart
    some (({ s with candidate? := none, keyAllowed := false }).emit .value |>.skip 1)
  | none =>
    if !s.inFlow && !s.keyAllowed then none
    else
      let s := s.indentTo s.cursor.column s.tokens.length .mappingStart
      some (({ s with keyAllowed := !s.inFlow }).emit .value |>.skip 1)

/-- What begins a key and forbids another one right after it. -/
def inlineToken (s : Scanner) (read : Option (Token × List Char)) : Option Scanner := do
  let s ← s.saveCandidate
  let (t, rest) ← read
  return ({ s with keyAllowed := false }).accept t rest

/-- Whether a plain scalar can begin here. -/
def beginsPlain (inFlow : Bool) (c : Char) (rest : List Char) : Bool :=
  !(isSpace c || isBreak c || "-?:,[]\x7b\x7d#&*!|>'\"%@`".toList.contains c) ||
    (c = '-' && !rest.head?.any isSpace) || (!inFlow && (c = '?' || c = ':') && !atGap rest)

/-- A plain scalar. -/
def plainScalar (s : Scanner) : Option Scanner := do
  let s ← s.saveCandidate
  let text := s.cursor.rest
  let scalar ← readPlain s.inFlow (s.indent + 1) (text.length + 1) []
    { column := s.cursor.column } text
  return ({ s with keyAllowed := scalar.broken }).accept
    (.scalar (String.ofList scalar.text) true) scalar.rest

/-- A quoted scalar. -/
def quotedScalar (single : Bool) (rest : List Char) (s : Scanner) : Option Scanner :=
  s.inlineToken ((readQuoted single (rest.length + 1) [] false rest).map fun scalar =>
    (.scalar (String.ofList scalar.text) false, scalar.rest))

/-- A block scalar. -/
def blockScalar (literal : Bool) (rest : List Char) (s : Scanner) : Option Scanner := do
  let s ← s.dropCandidate
  let scalar ← readBlock literal s.indent rest
  return ({ s with keyAllowed := true }).accept (.scalar (String.ofList scalar.text) false)
    scalar.rest

/-- A token at the beginning of a line that ends all collections. -/
def atMargin (s : Scanner) (read : Option (Token × List Char)) : Option Scanner := do
  let s ← (s.unindentTo (-1)).dropCandidate
  let (t, rest) ← read
  return ({ s with keyAllowed := false }).accept t rest

/-- Read the token that begins with `c`. -/
def token (c : Char) (rest : List Char) (s : Scanner) : Option Scanner :=
  let text := c :: rest
  if s.cursor.column = 0 && c = '%' then s.atMargin (readDirective? rest)
  else if s.cursor.column = 0 && atDocumentMarker text then
    s.atMargin (some (if c = '-' then .documentStart else .documentEnd, text.drop 3))
  else if c = '[' then s.openFlow .openBracket
  else if c = '\x7b' then s.openFlow .openBrace
  else if c = ']' then s.closeFlow .closeBracket
  else if c = '\x7d' then s.closeFlow .closeBrace
  else if c = ',' then
    s.dropCandidate.map fun s => ({ s with keyAllowed := true }).emit .comma |>.skip 1
  else if c = '-' && atGap rest then s.blockEntry
  else if c = '?' && (s.inFlow || atGap rest) then s.explicitKey
  else if c = ':' && (s.inFlow || atGap rest) then s.valueMark
  else if c = '*' then s.inlineToken ((readName? rest).map fun (name, rest) => (.alias name, rest))
  else if c = '&' then s.inlineToken ((readName? rest).map fun (name, rest) => (.anchor name, rest))
  else if c = '!' then s.inlineToken (readTag? s.inFlow text)
  else if c = '|' && !s.inFlow then s.blockScalar true rest
  else if c = '>' && !s.inFlow then s.blockScalar false rest
  else if c = '\'' then s.quotedScalar true rest
  else if c = '"' then s.quotedScalar false rest
  else if beginsPlain s.inFlow c rest then s.plainScalar
  else none

/-- Read all tokens. -/
def run : Nat → Scanner → Option (List Token)
  | 0, _ => none
  | n + 1, s => do
    let s ← (s.skipBlanks (s.cursor.rest.length + 1)).dropStale
    let s := s.unindentTo s.cursor.column
    match s.cursor.rest with
    | [] => return (← (s.unindentTo (-1)).dropCandidate).tokens
    | c :: rest => run n (← s.token c rest)

end Scanner

/-- The tokens of a stream, if it can be split into tokens. -/
def tokens? (stream : String) : Option (List Token) :=
  let text := stream.toList
  if text.all isAllowed then Scanner.run (text.length + 1) { cursor := { rest := text } } else none

end GoContracts.Yaml

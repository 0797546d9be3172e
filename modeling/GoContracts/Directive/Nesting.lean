import GoContracts.Text.Slice

/-!
# Brackets and literals in directive text

Expressions in a directive may hold calls, composite literals and strings with commas of their
own. A scan of the text keeps the depth of the brackets and the literal it is in; only what stands
outside literals at depth zero separates.
-/

namespace GoContracts

/-- Where a scan stands: the bracket depth and the literal it is in. -/
structure Nesting where
  /-- Opening brackets less closing ones so far. -/
  depth : Int := 0
  /-- The mark that ends the literal the scan is in. -/
  quote? : Option Char := none
  /-- Whether the next character of the literal is escaped. -/
  escaped : Bool := false
  deriving DecidableEq, Repr

namespace Nesting

/-- The state after one more character. A backslash escapes in all literals but raw ones. -/
def next (s : Nesting) (c : Char) : Nesting :=
  match s.quote? with
  | some q =>
    if s.escaped then { s with escaped := false }
    else if c = '\\' && q != '`' then { s with escaped := true }
    else if c = q then { s with quote? := none }
    else s
  | none =>
    match c with
    | '"' | '\'' | '`' => { s with quote? := some c }
    | '(' | '[' | '{' => { s with depth := s.depth + 1 }
    | ')' | ']' | '}' => { s with depth := s.depth - 1 }
    | _ => s

/-- Whether `c` is a comma that separates parts: outside literals and brackets. -/
def separates (s : Nesting) (c : Char) : Bool := c = ',' && s.quote?.isNone && s.depth = 0

/-- Whether `c` closes the outermost parenthesis: outside literals, back to depth zero. -/
def closes (s : Nesting) (c : Char) : Bool :=
  c = ')' && s.quote?.isNone && (s.next c).depth = 0

/-- The pieces of a text between its separating commas, one more than there are commas. -/
def pieces (s : Nesting) : List Char → List (List Char)
  | [] => [[]]
  | c :: cs =>
    if s.separates c then [] :: pieces (s.next c) cs
    else match pieces (s.next c) cs with
      | [] => [[c]]
      | p :: ps => (c :: p) :: ps

/-- The text before the first closing parenthesis of depth zero, and the text after it. -/
def untilClose? (s : Nesting) : List Char → Option (List Char × List Char)
  | [] => none
  | c :: cs =>
    if s.closes c then some ([], cs)
    else (untilClose? (s.next c) cs).map fun (inner, rest) => (c :: inner, rest)

end Nesting

/-- The parts of a text between its separating commas, trimmed, without the empty ones. -/
def topLevelParts (text : List Char) : List (List Char) :=
  ((Nesting.pieces {} text).map (Text.stripWhile Text.isBlank)).filter (!·.isEmpty)

/-- The text before the last separating comma and the text after it. -/
def splitLastComma? (text : List Char) : Option (List Char × List Char) :=
  match (Nesting.pieces {} text).reverse with
  | last :: before :: more => some ([','].intercalate (before :: more).reverse, last)
  | _ => none

/-- For a text that begins with `(`: the text up to the partner of that parenthesis, without both
of them, and the text after the partner. -/
def splitParenthesis? : List Char → Option (List Char × List Char)
  | '(' :: cs => Nesting.untilClose? (Nesting.next {} '(') cs
  | _ => none

/-- Byte position of the last separating comma. -/
def lastCommaPosition? (text : List Char) : Option Nat :=
  (splitLastComma? text).map fun (before, _) => Text.byteLength before

/-- Byte position of the partner of the parenthesis that begins the text. -/
def partnerPosition? (text : List Char) : Option Nat :=
  (splitParenthesis? text).map fun (inner, _) => Text.byteLength inner + 1

end GoContracts

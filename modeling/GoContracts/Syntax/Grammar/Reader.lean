import GoContracts.Syntax.Token
import GoContracts.Syntax.Tree

/-!
# Reading phrases from tokens

A reader takes tokens from the front of a list and may refuse. The rules of the grammar are
readers over a reader for their parts; `Phrase` names the rules that occur inside others.

A newline ends a statement where a statement may end, and is a blank anywhere else. Readers that
can stop at a newline take a flag: with `free` set, newlines count as blanks.
-/

namespace GoContracts.Syntax.Grammar

/-- A reader of tokens that may refuse. -/
abbrev Reader := StateT (List Token) Option

/-- The place that an expression stands in. -/
structure Context where
  /-- Newlines count as blanks. -/
  free : Bool := true
  /-- A brace after the expression begins a block. -/
  header : Bool := false
  /-- The operators that make a statement may follow. -/
  statement : Bool := false
  /-- `.(type)` may follow. -/
  typeSwitch : Bool := false
  /-- The stars right before the operand, which make a pointer type of a type. -/
  stars : List Tree := []
  deriving Repr

/-- The rules that occur inside other rules. -/
inductive Phrase where
  /-- An expression or a type, with binary operators of at least the given level. -/
  | binary (c : Context) (level : Nat)
  /-- An expression or a type without binary operators. -/
  | operand (c : Context)
  /-- A type. -/
  | type (free : Bool)
  /-- A parenthesized list of parameters. -/
  | parameters
  /-- A block of statements. -/
  | block
  /-- A statement. -/
  | statement
  deriving Repr

/-- A reader for every phrase. -/
abbrev Rules := Phrase → Reader Tree

/-! ## Tokens -/

/-- The tokens from the first one that is no newline. -/
def afterNewlines (ts : List Token) : List Token := ts.dropWhile (·.lexeme = .newline)

/-- The tokens that a reader looks at. -/
def visible (free : Bool) (ts : List Token) : List Token := if free then afterNewlines ts else ts

/-- The end of adjacent symbols that spell `cs` at the front of the tokens, and the tokens after
them. -/
def joined? : List Char → List Token → Option (Nat × List Token)
  | [c], t :: ts => if t.isSymbolOf c then some (t.stop, ts) else none
  | c :: d :: cs, t :: u :: ts =>
    if t.isSymbolOf c && t.stop = u.start then joined? (d :: cs) (u :: ts) else none
  | _, _ => none

/-- Whether the visible tokens begin with the symbol `text`. -/
def atSymbol (free : Bool) (text : String) (ts : List Token) : Bool :=
  (joined? text.toList (visible free ts)).isSome

/-- Whether the first visible token is the word `w`. -/
def atWord (free : Bool) (w : String) (ts : List Token) : Bool :=
  (visible free ts).head?.any (·.isWord w)

/-- Whether the first visible token is any word. -/
def atAnyWord (free : Bool) (ts : List Token) : Bool :=
  (visible free ts).head?.any (·.lexeme = .word)

/-- Whether the first token is a newline, or there is none. -/
def atLineEnd (ts : List Token) : Bool := ts.head?.all (·.lexeme = .newline)

/-- The longest of the symbols that begins the visible tokens. -/
def longestSymbol? (free : Bool) (candidates : List String) (ts : List Token) : Option String :=
  (candidates.filter (atSymbol free · ts)).foldl
    (fun best s => match best with
      | some b => if b.length < s.length then some s else some b
      | none => some s)
    none

/-- Take one token of the class `lexeme` as a leaf. -/
def lexeme (free : Bool) (lexeme : Lexeme) (k : Kind) : Reader Tree := fun ts =>
  match visible free ts with
  | t :: rest => if t.lexeme = lexeme then some (.leaf (.node k) t.start t.stop, rest) else none
  | [] => none

/-- Take the symbol `text`. -/
def symbol (free : Bool) (text : String) : Reader Tree := fun ts =>
  match visible free ts with
  | t :: us => (joined? text.toList (t :: us)).map fun (stop, rest) =>
      (.leaf (.token text) t.start stop, rest)
  | [] => none

/-- Take the keyword `w`. -/
def keyword (free : Bool) (w : String) : Reader Tree := fun ts =>
  match visible free ts with
  | t :: rest => if t.isWord w then some (.leaf (.token w) t.start t.stop, rest) else none
  | [] => none

/-- Take any word as a name of kind `k`. -/
def name (free : Bool) (k : Kind) : Reader Tree := lexeme free .word k

/-- A test of the tokens ahead. -/
def looking (p : List Token → Bool) : Reader Bool := fun ts => some (p ts, ts)

/-- Refuse unless the condition holds. -/
def require (b : Bool) : Reader Unit := if b then pure () else failure

/-- Drop the newlines ahead, where something must follow. -/
def skipNewlines : Reader Unit := modify afterNewlines

/-! ## Repetition -/

/-- Read with `step` until it has no result, at most as often as there are tokens. -/
def gather {α : Type} (step : Reader (Option α)) : Reader (List α) := fun ts => go ts.length ts
where
  go : Nat → Reader (List α)
    | 0 => pure []
    | n + 1 => do
      match ← step with
      | none => pure []
      | some a => return a :: (← go n)

/-- Extend a result with `step` until it has no result, at most as often as there are tokens. -/
def extend {α : Type} (step : α → Reader (Option α)) (a : α) : Reader α := fun ts =>
  go ts.length a ts
where
  go : Nat → α → Reader α
    | 0, a => pure a
    | n + 1, a => do
      match ← step a with
      | none => pure a
      | some b => go n b

/-- What a reader takes, or nothing. -/
def optional? {α : Type} (r : Reader α) : Reader (Option α) := (some <$> r) <|> pure none

/-- A list of items separated by commas up to a closing symbol, which is not taken. The list may
be empty and may end in a comma. -/
def commaList (closing : String) (item : Reader Tree) : Reader (List Tree) := do
  if ← looking (atSymbol true closing) then return []
  let first ← optional? item
  let more ← gather do
    if ← looking (atSymbol true ",") then
      let comma ← symbol true ","
      if ← looking (atSymbol true closing) then return some [comma]
      return some [comma, ← item]
    else return none
  require (first.isSome || more.flatten.length ≤ 1)
  return first.toList ++ more.flatten

/-- The newline, semicolon or null character that ends a statement. -/
def terminator : Reader Tree :=
  lineBreak <|> symbol false ";" <|> symbol false "\x00"
where
  lineBreak : Reader Tree := fun ts =>
    match ts with
    | t :: rest =>
      if t.lexeme = .newline then some (.leaf .lineBreak t.start t.stop, rest) else none
    | [] => none

/-- An item with its terminator, which may be missing where the list may end. -/
def ended (atEnd : List Token → Bool) (t : Tree) : Reader (List Tree) := do
  match ← optional? terminator with
  | some stop => return [t, stop]
  | none => do
    require (← looking atEnd)
    return [t]

/-- Items that are ended by terminators, up to a place where the list may end. The last item needs
no terminator. -/
def terminatedList (atEnd : List Token → Bool) (item : Reader Tree) : Reader (List Tree) := do
  let groups ← gather do
    if ← looking atEnd then return none
    skipNewlines
    let t ← item
    return some (← ended atEnd t)
  return groups.flatten

end GoContracts.Syntax.Grammar

import GoContracts.Text.Identifier
import GoContracts.Text.Slice

/-!
# Tokens of Go

A text is cut into words, literals, comments, newlines and single symbols. Symbols that stand side
by side are joined by the grammar, because which of them belong together depends on what may
follow: after an operand `--` decrements at the end of a statement and negates twice elsewhere.
-/

namespace GoContracts.Syntax

/-- The class of a token. -/
inductive Lexeme where
  | word | int | float | imaginary | rune | string | rawString | newline | comment
  | symbol (c : Char)
  | unknown
  deriving DecidableEq, Repr

/-- A token with its byte positions. -/
structure Token where
  lexeme : Lexeme
  text : String
  start : Nat
  stop : Nat
  deriving DecidableEq, Repr

namespace Token

/-! ## Numbers -/

/-- Whether `c` is a hexadecimal digit. -/
def isHexDigit (c : Char) : Bool :=
  c.isDigit || ('a' ≤ c && c ≤ 'f') || ('A' ≤ c && c ≤ 'F')

/-- Whether `c` is an octal digit. -/
def isOctalDigit (c : Char) : Bool := '0' ≤ c && c ≤ '7'

/-- Whether `c` is a binary digit. -/
def isBinaryDigit (c : Char) : Bool := c = '0' || c = '1'

/-- Length of the longest run of digits with single underscores between them. -/
def digitsLength (p : Char → Bool) : List Char → Nat
  | [] => 0
  | [c] => if p c then 1 else 0
  | c :: d :: cs =>
    if p c then
      if d = '_' then
        match digitsLength p cs with
        | 0 => 1
        | n + 1 => n + 3
      else digitsLength p (d :: cs) + 1
    else 0

/-- The length `m` after `n` characters, or no length at all. -/
def lengthAfter (n m : Nat) : Nat := if m = 0 then 0 else n + m

/-- Length of a run of digits that an underscore may precede. -/
def markedDigitsLength (p : Char → Bool) : List Char → Nat
  | '_' :: cs => lengthAfter 1 (digitsLength p cs)
  | cs => digitsLength p cs

/-- Length of the integer literal that begins the text; zero if there is none. -/
def intLength : List Char → Nat
  | '0' :: c :: cs =>
    let based :=
      if c = 'x' || c = 'X' then lengthAfter 2 (markedDigitsLength isHexDigit cs)
      else if c = 'b' || c = 'B' then lengthAfter 2 (markedDigitsLength isBinaryDigit cs)
      else if c = 'o' || c = 'O' then lengthAfter 2 (markedDigitsLength isOctalDigit cs)
      else lengthAfter 1 (markedDigitsLength isOctalDigit (c :: cs))
    max 1 based
  | '0' :: [] => 1
  | c :: cs => if c.isDigit then digitsLength Char.isDigit (c :: cs) else 0
  | [] => 0

/-- Length of an exponent with one of the given marks; zero if there is none. -/
def exponentLength (isMark : Char → Bool) : List Char → Nat
  | m :: s :: cs =>
    if isMark m then
      if s = '+' || s = '-' then lengthAfter 2 (digitsLength Char.isDigit cs)
      else lengthAfter 1 (digitsLength Char.isDigit (s :: cs))
    else 0
  | _ => 0

/-- Length of the decimal floating-point literal that begins the text; zero if there is none. -/
def decimalFloatLength (cs : List Char) : Nat :=
  let isMark := fun c => c = 'e' || c = 'E'
  let whole := digitsLength Char.isDigit cs
  match cs.drop whole with
  | '.' :: rest =>
    let part := digitsLength Char.isDigit rest
    if whole = 0 && part = 0 then 0
    else whole + 1 + part + exponentLength isMark (rest.drop part)
  | rest => if whole = 0 then 0 else lengthAfter whole (exponentLength isMark rest)

/-- Length of the hexadecimal floating-point literal that begins the text; zero if there is
none. -/
def hexFloatLength : List Char → Nat
  | '0' :: x :: cs =>
    if x = 'x' || x = 'X' then
      let isMark := fun c => c = 'p' || c = 'P'
      let whole := markedDigitsLength isHexDigit cs
      match cs.drop whole with
      | '.' :: rest =>
        let part := digitsLength isHexDigit rest
        if whole = 0 && part = 0 then 0
        else lengthAfter (whole + part + 3) (exponentLength isMark (rest.drop part))
      | rest => if whole = 0 then 0 else lengthAfter (whole + 2) (exponentLength isMark rest)
    else 0
  | _ => 0

/-- Length of the floating-point literal that begins the text; zero if there is none. -/
def floatLength (cs : List Char) : Nat := max (decimalFloatLength cs) (hexFloatLength cs)

/-- Length of the imaginary literal that begins the text; zero if there is none. -/
def imaginaryLength (cs : List Char) : Nat :=
  let marked (n : Nat) : Nat := if n ≠ 0 && (cs.drop n).head? = some 'i' then n + 1 else 0
  max (marked (digitsLength Char.isDigit cs))
    (max (marked (intLength cs)) (marked (floatLength cs)))

/-- The longest number that begins the text, with its length. -/
def number? (cs : List Char) : Option (Lexeme × Nat) :=
  let i := intLength cs
  let f := floatLength cs
  let m := imaginaryLength cs
  if i = 0 && f = 0 && m = 0 then none
  else if f ≤ m && i ≤ m then some (.imaginary, m)
  else if i ≤ f then some (.float, f)
  else some (.int, i)

/-! ## Literals and comments -/

/-- Number of hexadecimal digits that must follow the escape character `c`. -/
def escapeDigits (c : Char) : Nat :=
  if c = 'x' then 2 else if c = 'u' then 4 else if c = 'U' then 8 else 0

/-- The character that no literal and no comment may hold. -/
def isNull (c : Char) : Bool := c = '\x00'

/-- Number of characters up to the mark that ends an interpreted string, that mark included. The
counter is the number of digits that an escape still needs. -/
def stringLength? : Nat → List Char → Option Nat
  | _, [] => none
  | n + 1, c :: cs => if isHexDigit c then (stringLength? n cs).map (· + 1) else none
  | 0, '\\' :: c :: cs => if isNull c then none else (stringLength? (escapeDigits c) cs).map (· + 2)
  | 0, c :: cs =>
    if c = '"' then some 1
    else if c = '\n' || c = '\\' || isNull c then none
    else (stringLength? 0 cs).map (· + 1)

/-- Number of characters up to the first `mark`, that mark included. -/
def untilLength? (mark : Char) : List Char → Option Nat
  | [] => none
  | c :: cs =>
    if c = mark then some 1 else if isNull c then none else (untilLength? mark cs).map (· + 1)

/-- Number of characters of a rune after its first mark. -/
def runeLength? : List Char → Option Nat
  | '\\' :: c :: cs =>
    let digits (n : Nat) (p : Char → Bool) : Option Nat :=
      if (cs.take n).length = n && (cs.take n).all p && (cs.drop n).head? = some '\'' then
        some (n + 3)
      else none
    if isOctalDigit c then
      if (cs.take 2).length = 2 && (cs.take 2).all isOctalDigit &&
          (cs.drop 2).head? = some '\'' then
        some 5
      else none
    else if escapeDigits c ≠ 0 then digits (escapeDigits c) isHexDigit
    else if "abfnrtv\\'\"".toList.contains c then digits 0 isHexDigit
    else none
  | c :: '\'' :: _ => if c = '\'' || c = '\\' || isNull c then none else some 2
  | _ => none

/-- Number of characters up to the end of a block comment, that end included. -/
def blockLength? : List Char → Option Nat
  | '*' :: '/' :: _ => some 2
  | c :: cs => if isNull c then none else (blockLength? cs).map (· + 1)
  | [] => none

/-- Number of characters of a comment after its first slash. -/
def commentLength? : List Char → Option Nat
  | '/' :: cs => some ((cs.takeWhile fun c => c != '\n' && !isNull c).length + 1)
  | '*' :: cs => (blockLength? cs).map (· + 1)
  | _ => none

/-! ## Cutting a text into tokens -/

/-- Whether the character separates tokens without being one. -/
def isGap (c : Char) : Bool :=
  c = ' ' || c = '\t' || c = '\r' || c = '\x0b' || c = '\x0c'

/-- The characters that the grammar knows as symbols; a null character ends a statement. -/
def isSymbol (c : Char) : Bool := "+-*/%&|^<>=!:;,.()[]\x7b\x7d~\x00".toList.contains c

/-- A literal of the given length, or a lone character if the literal has no end. -/
def closed (lexeme : Lexeme) (n? : Option Nat) : Lexeme × Nat := n?.elim (.unknown, 0) (lexeme, ·)

/-- The literal, comment or symbol that begins with the character `c` before `cs`, and how many
characters of `cs` it takes. -/
def scanMark (c : Char) (cs : List Char) : Lexeme × Nat :=
  if c = '"' then closed .string (stringLength? 0 cs)
  else if c = '`' then closed .rawString (untilLength? '`' cs)
  else if c = '\'' then closed .rune (runeLength? cs)
  else match if c = '/' then commentLength? cs else none with
    | some n => (.comment, n)
    | none => (if isSymbol c then .symbol c else .unknown, 0)

/-- The token that begins with the character `c` before `cs`, and how many characters of `cs` it
takes; there is no lexeme for a gap. -/
def scan (c : Char) (cs : List Char) : Option Lexeme × Nat :=
  if isGap c then (none, 0)
  else if c = '\n' then (some .newline, 0)
  else if Text.isIdentifierStart c then (some .word, (cs.takeWhile Text.isIdentifierPart).length)
  else match number? (c :: cs) with
    | some (lexeme, n) => (some lexeme, n - 1)
    | none =>
      let (lexeme, n) := scanMark c cs
      (some lexeme, n)

/-- The tokens of a text whose first byte has the given position. -/
def readFrom (pos : Nat) : List Char → List Token
  | [] => []
  | c :: cs =>
    let (lexeme?, n) := scan c cs
    let taken := c :: cs.take n
    let stop := pos + Text.byteLength taken
    let rest := readFrom stop (cs.drop n)
    match lexeme? with
    | none => rest
    | some lexeme => ⟨lexeme, String.ofList taken, pos, stop⟩ :: rest
termination_by cs => cs.length
decreasing_by
  simp only [List.length_drop, List.length_cons]
  omega

/-- The tokens of a text. A byte order mark at its beginning is skipped. -/
def readAll (s : String) : List Token :=
  match Text.chars s with
  | '\ufeff' :: cs => readFrom 3 cs
  | cs => readFrom 0 cs

/-- Whether the token is the symbol `c`. -/
def isSymbolOf (t : Token) (c : Char) : Bool := t.lexeme = .symbol c

/-- Whether the token is the word `w`. -/
def isWord (t : Token) (w : String) : Bool := t.lexeme = .word && t.text = w

end Token

end GoContracts.Syntax

/-!
# Quoted literals

Writing a text as an interpreted string literal of Go, and reading the literals that a directive
may hold. A literal is read with fewer escapes than are written: an escape that is not among
`\n`, `\t`, `\"` and `\\` stays as it stands.
-/

namespace GoContracts.Text.Quoted

/-- The lower-case hexadecimal digit of a value below sixteen. -/
def hexDigit (n : Nat) : Char := Nat.digitChar (n % 16)

/-- How one character stands inside a literal. -/
def encodeChar (c : Char) : List Char :=
  match c with
  | '"' => ['\\', '"']
  | '\\' => ['\\', '\\']
  | '\n' => ['\\', 'n']
  | '\r' => ['\\', 'r']
  | '\t' => ['\\', 't']
  | c =>
    if c.toNat < 0x20 || c.toNat = 0x7F then
      ['\\', 'x', hexDigit (c.toNat / 16), hexDigit c.toNat]
    else [c]

/-- The characters of a text between its quotation marks. -/
def encode (cs : List Char) : List Char := cs.flatMap encodeChar

/-- The text as an interpreted string literal. -/
def quote (s : String) : String := String.ofList ('"' :: encode s.toList ++ ['"'])

/-- Whether a text can stand between quotation marks: no bare mark, no backslash at the end. -/
def isBody : Bool → List Char → Bool
  | escaped, [] => !escaped
  | true, _ :: cs => isBody false cs
  | false, c :: cs => if c = '\\' then isBody true cs else c != '"' && isBody false cs

/-- What stands between the quotation marks, if the text is exactly one quoted literal. -/
def body? (cs : List Char) : Option (List Char) :=
  match cs with
  | '"' :: rest =>
    if rest.getLast? = some '"' && isBody false rest.dropLast then some rest.dropLast else none
  | _ => none

/-- Resolve the common escapes and leave every other one as it stands. -/
def decode : List Char → List Char
  | [] => []
  | '\\' :: 'n' :: cs => '\n' :: decode cs
  | '\\' :: 't' :: cs => '\t' :: decode cs
  | '\\' :: '"' :: cs => '"' :: decode cs
  | '\\' :: '\\' :: cs => '\\' :: decode cs
  | '\\' :: c :: cs => '\\' :: c :: decode cs
  | c :: cs => c :: decode cs

/-- The text that a quoted literal stands for, if the text is exactly one such literal. -/
def unquote? (cs : List Char) : Option (List Char) := (body? cs).map decode

end GoContracts.Text.Quoted

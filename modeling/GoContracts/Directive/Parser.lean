import GoContracts.Directive.Basic
import GoContracts.Directive.Nesting
import GoContracts.Text.Quoted

/-!
# Reading directives

The text of a comment, without its delimiters, is a directive if it has one of the forms

```text
@require [-nd] [-ret[(expr, ...)]] [-log] var, var, ...
@require [-ret[(expr, ...)]] [-log] condition[, "message"]
@must [-ret[(expr, ...)]] [-log]
```

Flags stand in any order after the keyword, and `-log` implies `-ret`. A comment of any other form
is an ordinary comment.
-/

namespace GoContracts

open Text (after? isBlank stripWhile)

namespace Directive

/-- Whether a word ends here: the text is over or goes on with a blank. -/
def atBoundary : List Char → Bool
  | [] => true
  | c :: _ => isBlank c

/-- The rest of a text after a flag that is followed by a blank or the end. -/
def afterFlag? (flag text : List Char) : Option (List Char) :=
  (after? flag text).filter atBoundary

/-- The text of a comment without its delimiters and the blanks around it. -/
def commentBody (raw : List Char) : List Char :=
  let text := stripWhile isBlank raw
  match text with
  | '/' :: '/' :: rest => stripWhile isBlank rest
  | '/' :: '*' :: rest =>
    match rest.reverse with
    | '/' :: '*' :: before => stripWhile isBlank before.reverse
    | _ => stripWhile isBlank rest
  | _ => text

/-- The keyword that begins the text, if a word ends or a flag begins right after it, and the rest
of the text. -/
def readKeyword? (text : List Char) : Option (Keyword × List Char) :=
  let read (k : Keyword) : Option (Keyword × List Char) :=
    ((after? k.text.toList text).filter fun rest => atBoundary rest || rest.head? = some '-').map
      fun rest => (k, rest)
  (read .require).or (read .must)

/-- The flags of a directive. -/
structure Flags where
  /-- The payload lists variables that may not be zero. -/
  nonZero : Bool := false
  /-- What a violation does. -/
  response : Response := {}
  deriving DecidableEq, Repr

/-- Read the flags that begin the text, and return the rest of it. Each flag takes at least three
characters, so the length of the text bounds their number. There is no result if a flag does not
fit the keyword. -/
def readFlags? (keyword : Keyword) : Nat → Flags → List Char → Option (Flags × List Char)
  | 0, flags, text => some (flags, text)
  | n + 1, flags, text =>
    let text := text.dropWhile isBlank
    match afterFlag? ['-', 'n', 'd'] text with
    | some rest =>
      if keyword = .must then none else readFlags? keyword n { flags with nonZero := true } rest
    | none =>
      match afterFlag? ['-', 'l', 'o', 'g'] text with
      | some rest =>
        readFlags? keyword n
          { flags with response := { flags.response with returns := true, logs := true } } rest
      | none =>
        match after? ['-', 'r', 'e', 't'] text with
        | none => some (flags, text)
        | some rest =>
          let returning : Flags :=
            { flags with response := { flags.response with returns := true } }
          if rest.head? = some '(' then
            match splitParenthesis? rest with
            | none => some (returning, rest)
            | some (inner, rest) =>
              let values := (topLevelParts inner).map String.ofList
              let flags := { returning with response := { returning.response with values } }
              if rest.head? = some '(' then some (flags, rest) else readFlags? keyword n flags rest
          else if atBoundary rest then readFlags? keyword n returning rest
          else some (flags, text)

/-- The condition and the message of a payload: the last part between commas is the message if it
is a quoted literal. -/
def splitMessage (text : List Char) : List Char × Option (List Char) :=
  match splitLastComma? text with
  | none => (text, none)
  | some (before, last) =>
    match Text.Quoted.unquote? (stripWhile isBlank last) with
    | none => (text, none)
    | some message => (stripWhile isBlank before, some message)

/-- The variables of a payload: what stands between commas, without blanks and empty parts. -/
def splitVars (text : List Char) : List (List Char) :=
  ((Text.splitChars ',' text).map (stripWhile isBlank)).filter (!·.isEmpty)

/-- The directive that the characters of a comment hold. -/
def parseChars? (comment : List Char) : Option Directive := do
  let (keyword, rest) ← readKeyword? (commentBody comment)
  let (flags, rest) ← readFlags? keyword rest.length {} rest
  let payload := stripWhile isBlank rest
  match keyword with
  | .must => some (.noError flags.response)
  | .require =>
    if flags.nonZero then
      let vars := splitVars payload
      if vars.isEmpty then none else some (.nonZero flags.response (vars.map String.ofList))
    else
      let (expr, message) := splitMessage payload
      if expr.isEmpty then none
      else some (.holds flags.response (String.ofList expr) (message.map String.ofList))

/-- The directive that a comment holds; none for an ordinary comment. -/
def parse? (comment : String) : Option Directive := parseChars? comment.toList

end Directive

end GoContracts

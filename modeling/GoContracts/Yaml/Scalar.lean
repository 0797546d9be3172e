import GoContracts.Yaml.Character

/-!
# Scalars of YAML

The lexical forms of scalars: plain, quoted and block. Each reader yields the text of the scalar and
what follows it, or nothing if the form is broken. Lines of plain and quoted scalars are folded: one
break becomes a space, and of several breaks all but the first count.
-/

namespace GoContracts.Yaml

/-! ## Folding -/

/-- White space between the parts of a scalar. -/
structure Gap where
  /-- The spaces before the first break. -/
  spaces : List Char := []
  /-- The first break. -/
  firstBreak : List Char := []
  /-- The breaks after the first one. -/
  moreBreaks : List Char := []
  /-- Whether a line ended, be it by an escaped break. -/
  broken : Bool := false
  /-- The column that is reached. -/
  column : Nat

/-- What the gap stands for in a folded scalar. -/
def Gap.folded (gap : Gap) : List Char :=
  if gap.broken then
    if gap.firstBreak = ['\n'] then (if gap.moreBreaks.isEmpty then [' '] else gap.moreBreaks)
    else gap.firstBreak ++ gap.moreBreaks
  else gap.spaces

/-- Read white space. A tab before column `indent` of a new line is refused. -/
def readGap (indent : Int) : Nat → Gap → List Char → Option (Gap × List Char)
  | 0, gap, text => some (gap, text)
  | n + 1, gap, text =>
    match text with
    | [] => some (gap, [])
    | c :: rest =>
      if isSpace c then
        if gap.broken && gap.column < indent && c = '\t' then none
        else
          readGap indent n { gap with
            spaces := if gap.broken then gap.spaces else gap.spaces ++ [c]
            column := gap.column + 1 } rest
      else if isBreak c then
        let (br, rest) := readBreak (c :: rest)
        if gap.broken then
          readGap indent n { gap with moreBreaks := gap.moreBreaks ++ br, column := 0 } rest
        else
          readGap indent n { gap with firstBreak := br, broken := true, column := 0 } rest
      else some (gap, c :: rest)

/-! ## Plain scalars -/

/-- A character that is part of the structure inside brackets. -/
def isFlowIndicator (c : Char) : Bool :=
  c = ',' || c = '[' || c = ']' || c = '\x7b' || c = '\x7d'

/-- The characters of a plain scalar up to the next gap or indicator. -/
def plainRun (inFlow : Bool) : List Char → Option (List Char × List Char)
  | [] => some ([], [])
  | c :: rest =>
    if isSpace c || isBreak c then some ([], c :: rest)
    else if inFlow && c = ':' && rest.head?.any (fun d => isFlowIndicator d || d = '?') then none
    else if (c = ':' && atGap rest) || (inFlow && isFlowIndicator c) then some ([], c :: rest)
    else do
      let (run, rest) ← plainRun inFlow rest
      return (c :: run, rest)

/-- What has been read of a scalar. -/
structure Scalar where
  text : List Char
  /-- Whether the scalar ends on a new line. -/
  broken : Bool := false
  rest : List Char

/-- Read a plain scalar after the gap `gap`, in lines that are indented by `indent`. -/
def readPlain (inFlow : Bool) (indent : Int) : Nat → List Char → Gap → List Char → Option Scalar
  | 0, text, gap, rest => some { text, broken := gap.broken, rest }
  | n + 1, text, gap, rest =>
    if (gap.column = 0 && atDocumentMarker rest) || rest.head? = some '#' then
      some { text, broken := gap.broken, rest }
    else do
      let (run, after) ← plainRun inFlow rest
      if run.isEmpty then return { text, broken := gap.broken, rest }
      else
        let text := text ++ gap.folded ++ run
        let column := gap.column + run.length
        if after.isEmpty || !atGap after then return { text, rest := after }
        else
          let (gap, after) ← readGap indent (after.length + 1) { column } after
          if !inFlow && gap.column < indent then
            return { text, broken := gap.broken, rest := after }
          else readPlain inFlow indent n text gap after

/-! ## Quoted scalars -/

/-- The character that a letter after a backslash stands for. -/
def escaped? : Char → Option Char
  | '0' => some '\x00'
  | 'a' => some '\x07'
  | 'b' => some '\x08'
  | 't' | '\t' => some '\t'
  | 'n' => some '\n'
  | 'v' => some '\x0b'
  | 'f' => some '\x0c'
  | 'r' => some '\r'
  | 'e' => some '\x1b'
  | ' ' => some ' '
  | '"' => some '"'
  | '/' => some '/'
  | '\\' => some '\\'
  | 'N' => some '\u0085'
  | '_' => some '\u00a0'
  | 'L' => some '\u2028'
  | 'P' => some '\u2029'
  | _ => none

/-- Number of hexadecimal digits after a letter that introduces a character by its number. -/
def escapeWidth? : Char → Option Nat
  | 'x' => some 2
  | 'u' => some 4
  | 'U' => some 8
  | _ => none

/-- The value of a hexadecimal digit. -/
def hexDigit? (c : Char) : Option Nat :=
  if c.isDigit then some (c.toNat - '0'.toNat)
  else if 'a' ≤ c && c ≤ 'f' then some (c.toNat - 'a'.toNat + 10)
  else if 'A' ≤ c && c ≤ 'F' then some (c.toNat - 'A'.toNat + 10)
  else none

/-- The number that the given count of hexadecimal digits spells, and what follows. -/
def hexNumber? : Nat → Nat → List Char → Option (Nat × List Char)
  | 0, value, rest => some (value, rest)
  | n + 1, value, c :: rest => do hexNumber? n (value * 16 + (← hexDigit? c)) rest
  | _ + 1, _, [] => none

/-- The character of a number, if there is one. -/
def charOf? (n : Nat) : Option Char :=
  if n.isValidChar then some (Char.ofNat n) else none

/-- The character that an escape stands for, and what follows. -/
def readEscape : List Char → Option (Char × List Char)
  | [] => none
  | c :: rest =>
    match escapeWidth? c with
    | some width => do
      let (value, rest) ← hexNumber? width 0 rest
      return (← charOf? value, rest)
    | none => (escaped? c).map fun d => (d, rest)

/-- The characters of a quoted scalar up to the next gap or the closing mark. The outcome tells
whether an escaped break ended the line. -/
def quotedRun (single : Bool) : Nat → List Char → Option (List Char × Bool × List Char)
  | 0, text => some ([], false, text)
  | n + 1, text =>
    match text with
    | [] => some ([], false, [])
    | c :: rest =>
      if isSpace c || isBreak c then some ([], false, text)
      else if single then
        if c = '\'' then
          match rest with
          | '\'' :: rest => (quotedRun single n rest).map fun (run, found) => ('\'' :: run, found)
          | _ => some ([], false, text)
        else (quotedRun single n rest).map fun (run, found) => (c :: run, found)
      else if c = '"' then some ([], false, text)
      else if c = '\\' then
        if rest.head?.any isBreak then some ([], true, (readBreak rest).2)
        else do
          let (d, rest) ← readEscape rest
          let (run, found) ← quotedRun single n rest
          return (d :: run, found)
      else (quotedRun single n rest).map fun (run, found) => (c :: run, found)

/-- Read a quoted scalar after its opening mark. -/
def readQuoted (single : Bool) : Nat → List Char → Bool → List Char → Option Scalar
  | 0, _, _, _ => none
  | n + 1, text, atLineStart, rest =>
    if (atLineStart && atDocumentMarker rest) || rest.isEmpty then none
    else do
      let (run, escapedBreak, after) ← quotedRun single (rest.length + 1) rest
      let text := text ++ run
      let mark := if single then '\'' else '"'
      if !escapedBreak && after.head? = some mark then return { text, rest := after.tail }
      else
        let start : Gap := { column := if escapedBreak then 0 else 1, broken := escapedBreak }
        let (gap, after) ← readGap (-1) (after.length + 1) start after
        readQuoted single n (text ++ gap.folded) (gap.column = 0) after

/-! ## Block scalars -/

/-- What the breaks at the end of a block scalar become. -/
inductive Chomping where
  | strip
  | clip
  | keep
  deriving DecidableEq

/-- The chomping that a sign asks for. -/
def chomping? : Char → Option Chomping
  | '-' => some .strip
  | '+' => some .keep
  | _ => none

/-- The indentation that a digit asks for; zero if the text begins with no digit. -/
def readIncrement : List Char → Option (Nat × List Char)
  | c :: rest =>
    if c = '0' then none
    else if c.isDigit then some (c.toNat - '0'.toNat, rest)
    else some (0, c :: rest)
  | [] => some (0, [])

/-- Read the chomping and the indentation after the indicator of a block scalar, in any order. -/
def readBlockHeader (text : List Char) : Option (Chomping × Nat × List Char) :=
  match text.head?.bind chomping? with
  | some chomping => (readIncrement text.tail).map fun (n, rest) => (chomping, n, rest)
  | none => do
    let (increment, rest) ← readIncrement text
    if increment = 0 then return (.clip, 0, rest)
    else
      match rest.head?.bind chomping? with
      | some chomping => return (chomping, increment, rest.tail)
      | none => return (.clip, increment, rest)

/-- The breaks before the next line that is not empty. `indent` is zero as long as no line has
decided the indentation. Yields the breaks, the greatest column, the column, and what follows. -/
def readBlockBreaks (indent : Nat) :
    Nat → List Char → Nat → Nat → List Char → Option (List Char × Nat × Nat × List Char)
  | 0, breaks, widest, column, text => some (breaks, widest, column, text)
  | n + 1, breaks, widest, column, text =>
    match text with
    | ' ' :: rest =>
      if indent = 0 || column < indent then
        readBlockBreaks indent n breaks (max widest (column + 1)) (column + 1) rest
      else some (breaks, widest, column, text)
    | c :: rest =>
      if c = '\t' && (indent = 0 || column < indent) then none
      else if isBreak c then
        let (br, rest) := readBreak (c :: rest)
        readBlockBreaks indent n (breaks ++ br) widest 0 rest
      else some (breaks, widest, column, text)
    | [] => some (breaks, widest, column, [])

/-- Read the lines of a block scalar. `leading` are the breaks that end the line before, the second
part those of empty lines after it, and `leadingSpace` tells that the line before begins with white
space. -/
def readBlockLines (literal : Bool) (chomping : Chomping) (indent : Nat) :
    Nat → List Char → List Char → List Char → Bool → Nat → List Char → Option Scalar
  | 0, _, _, _, _, _, _ => none
  | n + 1, text, leading, more, leadingSpace, column, rest =>
    if column = indent && !rest.isEmpty then do
      let space := rest.head?.any isSpace
      let joint :=
        if !literal && leading = ['\n'] && !leadingSpace && !space then
          (if more.isEmpty then [' '] else [])
        else leading
      let (line, after) := rest.span (!isBreak ·)
      let (br, after) := readBreak after
      let (breaks, _, column, after) ← readBlockBreaks indent (after.length + 1) [] 0 0 after
      readBlockLines literal chomping indent n (text ++ joint ++ more ++ line) br breaks space
        column
        after
    else
      some { text := text ++ (if chomping = .strip then [] else leading) ++
                (if chomping = .keep then more else [])
             rest }

/-- Read a block scalar after its indicator, inside a node that is indented by `outer`. -/
def readBlock (literal : Bool) (outer : Int) (text : List Char) : Option Scalar := do
  let (chomping, increment, rest) ← readBlockHeader text
  let rest := rest.dropWhile isSpace
  let rest := if rest.head? = some '#' then rest.dropWhile (!isBreak ·) else rest
  if !atLineEnd rest then none
  else
    let rest := (readBreak rest).2
    let given : Nat := if increment = 0 then 0 else (max outer 0).toNat + increment
    let (breaks, widest, column, rest) ← readBlockBreaks given (rest.length + 1) [] 0 0 rest
    let indent := if given = 0 then max (max widest (outer + 1).toNat) 1 else given
    readBlockLines literal chomping indent (rest.length + 2) [] [] breaks false column rest

end GoContracts.Yaml

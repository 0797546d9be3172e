import GoContracts.Directive.Parser
import GoContracts.Proofs.Directive.Nesting
import GoContracts.Proofs.Text.Quoted

/-!
# Written directives

How directives are written in comments: the pieces of a comment, with the conditions under which
each of them can be told from its neighbours, and the directive that they are meant to spell.
-/

namespace GoContracts.Directive

open Text (isBlank stripWhile Trimmed)
open Text.Quoted (isBody isMessageChar quote)

/-- A run of blanks, which may be empty. -/
structure Blanks where
  chars : List Char
  blank : ∀ c ∈ chars, isBlank c = true

/-- A text with blanks around it that satisfies `p` and does not itself begin or end with one. -/
structure Padded (p : List Char → Prop) where
  before : Blanks
  text : List Char
  after : Blanks
  ne_nil : text ≠ []
  trimmed : Trimmed text
  fits : p text

/-- The characters of a text and the blanks around it. -/
def Padded.chars {p : List Char → Prop} (t : Padded p) : List Char :=
  t.before.chars ++ t.text ++ t.after.chars

/-- A value to return. -/
abbrev Item := Padded Nesting.Complete

/-- A flag as it is written. -/
inductive WrittenFlag where
  /-- `-nd` -/
  | nonZero
  /-- `-ret` -/
  | returns
  /-- `-log` -/
  | logs
  /-- `-ret(item, ...)` -/
  | values (items : List Item)

namespace WrittenFlag

/-- The characters of a flag. -/
def chars : WrittenFlag → List Char
  | nonZero => ['-', 'n', 'd']
  | returns => ['-', 'r', 'e', 't']
  | logs => ['-', 'l', 'o', 'g']
  | values items =>
    ['-', 'r', 'e', 't'] ++ ('(' :: [','].intercalate (items.map Padded.chars) ++ [')'])

/-- Whether the flag is `-nd`. -/
def isNonZero : WrittenFlag → Bool
  | nonZero => true
  | _ => false

/-- Whether the flag is `-log`. -/
def isLogs : WrittenFlag → Bool
  | logs => true
  | _ => false

/-- The items of a flag that has a list. -/
def values? : WrittenFlag → Option (List String)
  | values items => some (items.map (String.ofList ·.text))
  | _ => none

end WrittenFlag

/-- The variables of a requirement. The blanks before the first and after the last of them are not
part of the list. -/
structure VariableList where
  vars : List (Padded (',' ∉ ·))
  ne_nil : vars ≠ []
  first : ∀ v, vars.head? = some v → v.before.chars = [] ∧ v.text.head? ≠ some '-'
  last : ∀ v, vars.getLast? = some v → v.after.chars = []

/-- The condition of a requirement. -/
structure Condition where
  text : List Char
  ne_nil : text ≠ []
  trimmed : Trimmed text
  undashed : text.head? ≠ some '-'

/-- Whether a quoted literal stands behind a separating comma at the end of the text. -/
def EndsInLiteral (text : List Char) : Prop :=
  ∃ before last, text = before ++ ',' :: last ∧ (Nesting.scan {} before).separates ',' = true ∧
    ∃ inner, stripWhile isBlank last = '"' :: inner ++ ['"'] ∧ isBody false inner = true

/-- A message and the blanks around the comma before it. -/
structure Message where
  beforeComma : Blanks
  afterComma : Blanks
  text : String
  readable : ∀ c ∈ text.toList, isMessageChar c = true

/-- What stands behind the flags. A condition whose own end looks like a message cannot stand
without one, and one that leaves a bracket or a literal open cannot stand before one. -/
inductive Demand where
  /-- Variables that may not be zero. -/
  | nonZero (vars : VariableList)
  /-- A condition. -/
  | holds (condition : Condition) (plain : ¬ EndsInLiteral condition.text)
  /-- A condition and a message. -/
  | explained (condition : Condition) (closed : Nesting.scan {} condition.text = {})
    (message : Message)
  /-- Nothing, as the error of an assignment is meant. -/
  | noError

namespace Demand

/-- The keyword that makes the demand. -/
def keyword : Demand → Keyword
  | noError => .must
  | _ => .require

/-- Whether the demand lists variables. -/
def isNonZero : Demand → Bool
  | nonZero _ => true
  | _ => false

/-- The characters of a demand. -/
def chars : Demand → List Char
  | nonZero vars => [','].intercalate (vars.vars.map Padded.chars)
  | holds condition _ => condition.text
  | explained condition _ message =>
    condition.text ++ message.beforeComma.chars ++
      ',' :: (message.afterComma.chars ++ (quote message.text).toList)
  | noError => []

/-- The directive that the demand makes, with what a violation does. -/
def directive (response : Response) : Demand → Directive
  | nonZero vars => .nonZero response (vars.vars.map (String.ofList ·.text))
  | holds condition _ => .holds response (String.ofList condition.text) none
  | explained condition _ message =>
    .holds response (String.ofList condition.text) (some message.text)
  | noError => .noError response

end Demand

/-- How a comment is delimited. -/
inductive CommentStyle where
  /-- From `//` to the end of the line. -/
  | line
  /-- Between `/*` and `*/`. -/
  | block

/-- The comment with the given text between its delimiters. -/
def CommentStyle.enclose : CommentStyle → List Char → List Char
  | line, inner => ['/', '/'] ++ inner
  | block, inner => ['/', '*'] ++ inner ++ ['*', '/']

/-- The flags of a directive, each with the blanks before it. -/
def flagsChars (flags : List (Blanks × WrittenFlag)) : List Char :=
  flags.flatMap fun f => f.1.chars ++ f.2.chars

/-- A comment that spells a directive. Blanks follow each flag that something comes after, and the
keyword of a requirement without flags. -/
structure Written where
  style : CommentStyle
  lead : Blanks
  flags : List (Blanks × WrittenFlag)
  gap : Blanks
  demand : Demand
  trail : Blanks
  spaced : ∀ f ∈ flags.tail, f.1.chars ≠ []
  gap_ne_nil : demand.keyword = .require → gap.chars ≠ []
  nonZero_iff : flags.any (·.2.isNonZero) = demand.isNonZero

namespace Written

/-- The comment. -/
def text (w : Written) : String :=
  String.ofList (w.style.enclose (w.lead.chars ++ (w.demand.keyword.text.toList ++
    flagsChars w.flags ++ w.gap.chars ++ w.demand.chars) ++ w.trail.chars))

/-- What a violation does: it logs if `-log` occurs, it returns if any flag but `-nd` occurs, and
the values are those of the last flag that lists some. -/
def response (w : Written) : Response where
  returns := w.flags.any (!·.2.isNonZero)
  logs := w.flags.any (·.2.isLogs)
  values := (w.flags.filterMap (·.2.values?)).getLast?.getD []

/-- The directive that the comment spells. -/
def directive (w : Written) : Directive := w.demand.directive w.response

end Written

end GoContracts.Directive

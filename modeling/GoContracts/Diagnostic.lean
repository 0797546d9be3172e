import GoContracts.Directive.Anchor

/-!
# Diagnostics

What is reported beside the result: directives without effect, conditions that can never hold,
files that could not be read in full, and what was written or removed.
-/

namespace GoContracts

/-- Why a directive has no effect. -/
inductive Neglect where
  /-- It stands outside a list of statements. -/
  | outsideStatements
  /-- No statement follows it in its list. -/
  | noStatement
  /-- The statement after it is no assignment. -/
  | noAssignment
  /-- No assignment begins on its line. -/
  | trailsNothing
  /-- A later one, on the given line, applies to the same assignment. -/
  | superseded (line : Nat)
  /-- None of the assigned values is an error. -/
  | noErrorValue
  deriving DecidableEq, Repr

/-- How the cause is put for a directive of the given keyword. -/
def Neglect.text (keyword : Keyword) : Neglect → String
  | outsideStatements => keyword.text ++ " outside a statement list"
  | noStatement => keyword.text ++ " has no following statement"
  | noAssignment => keyword.text ++ " is not followed by an assignment"
  | trailsNothing => keyword.text ++ " does not trail an assignment"
  | superseded line => keyword.text ++ " superseded by line " ++ toString line
  | noErrorValue => "no error value in the assignment"

/-- A report. -/
inductive Diagnostic where
  /-- A directive has no effect. -/
  | ignored (anchor : Anchor) (cause : Neglect)
  /-- A condition is false whatever the variables hold. -/
  | alwaysFalse (anchor : Anchor) (condition : String)
  /-- Some files of a directory do not fit the grammar. -/
  | brokenFiles (directory : String) (paths : List String)
  /-- The manifest has been written, with the given number of entries. -/
  | overlayWritten (path : String) (count : Nat)
  /-- The cache directory has been removed. -/
  | removed (path : String)
  deriving DecidableEq, Repr

namespace Diagnostic

/-- Whether the report is a warning. -/
def isWarning : Diagnostic → Bool
  | ignored .. | alwaysFalse .. | brokenFiles .. => true
  | overlayWritten .. | removed .. => false

/-- The wording of a report. -/
def text : Diagnostic → String
  | ignored anchor cause =>
    anchor.location ++ ": " ++ cause.text anchor.directive.keyword ++ ", ignored"
  | alwaysFalse anchor condition =>
    anchor.location ++ ": precondition `" ++ condition ++ "` is always false"
  | brokenFiles directory paths =>
    directory ++ ": syntax errors in " ++ ", ".intercalate paths ++
      "; type resolution may be incomplete"
  | overlayWritten path count =>
    "overlay written to " ++ path ++ " (" ++ toString count ++ " file(s) mapped)"
  | removed path => "removed " ++ path

end Diagnostic

/-- A computation that reports in order and may fail. What was reported before a failure stays. -/
abbrev Reporting (ε α : Type) := ExceptT ε (StateM (List Diagnostic)) α

namespace Reporting

/-- Add a report. -/
def note {ε : Type} (d : Diagnostic) : Reporting ε Unit := modify (· ++ [d])

end Reporting

end GoContracts

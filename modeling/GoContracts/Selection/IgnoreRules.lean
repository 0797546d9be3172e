import GoContracts.Failure

/-!
# Ignore files

An ignore file holds one rule a line and applies to what is below its directory. A rule with a slash
inside is a path relative to that directory, and covers everything under it; any other rule is a
pattern of names. A slash at the end limits a rule to directories.
-/

namespace GoContracts

/-- A rule of an ignore file. -/
structure IgnoreRule where
  pattern : String
  glob : Glob
  /-- Whether the rule is about directories only. -/
  directoriesOnly : Bool
  /-- Whether the rule is a path. -/
  anchored : Bool
  deriving Repr

namespace IgnoreRule

/-- The text without any number of the given beginnings. -/
def dropBeginnings (beginning : List Char) : Nat → List Char → List Char
  | 0, text => text
  | n + 1, text =>
    match Text.after? beginning text with
    | some rest => dropBeginnings beginning n rest
    | none => text

/-- The pattern of a line: no slashes at the end, no repeated dot at the beginning. -/
def patternOf (line : String) : String :=
  let body := (Path.withoutTrailingSlashes line).toList
  String.ofList (dropBeginnings ['.', '/'] body.length body)

/-- Whether a trimmed line holds a rule. -/
def isRule (line : String) : Bool :=
  line ≠ "" && line.toList.head? ≠ some '#' && patternOf line ≠ ""

/-- The rule of a line. -/
def parse (line : String) : Except Glob.Fault IgnoreRule :=
  let pattern := patternOf line
  let anchored := pattern.toList.contains '/'
  (Glob.parse anchored pattern).map fun glob =>
    { pattern, glob, directoriesOnly := line.toList.getLast? = some '/', anchored }

/-- Whether a rule covers an entry, given by its path relative to the directory of the rule. -/
def covers (rule : IgnoreRule) (relative : String) (isDirectory : Bool) : Bool :=
  if rule.anchored then
    (Text.after? (rule.pattern ++ "/").toList relative.toList).isSome ||
      ((!rule.directoriesOnly || isDirectory) &&
        (relative = rule.pattern || rule.glob.isMatch relative))
  else
    (!rule.directoriesOnly || isDirectory) && rule.glob.isMatch (Text.afterLast '/' relative)

end IgnoreRule

/-- The rules of a directory. -/
structure IgnoreRules where
  /-- The directory to which the rules apply. -/
  base : String
  rules : List IgnoreRule
  deriving Repr

namespace IgnoreRules

/-- The lines of an ignore file that hold rules, trimmed. -/
def ruleLines (content : String) : List String :=
  ((Text.lines content).map Text.trim).filter IgnoreRule.isRule

/-- The rule of one line; a failure names the ignore file. -/
def parseLine (path line : String) : Except Failure IgnoreRule :=
  match IgnoreRule.parse line with
  | .ok rule => .ok rule
  | .error fault => .error (.ignorePattern line path (IgnoreRule.patternOf line) fault)

/-- The rules of the ignore file at `path`; none if it holds no rule. -/
def parse? (base content path : String) : Except Failure (Option IgnoreRules) := do
  let rules ← (ruleLines content).mapM (parseLine path)
  return if rules.isEmpty then none else some { base, rules }

/-- Whether a rule covers the path relative to the directory. -/
def covers (r : IgnoreRules) (relative : String) (isDirectory : Bool) : Bool :=
  r.rules.any fun rule => rule.covers relative isDirectory

/-- Whether a rule covers the path. What is not below the directory is not covered. -/
def coversPath (r : IgnoreRules) (path : String) (isDirectory : Bool) : Bool :=
  match Path.relativeTo? r.base path with
  | none | some [] => false
  | some components => r.covers (Path.ofComponents components) isDirectory

end IgnoreRules

end GoContracts

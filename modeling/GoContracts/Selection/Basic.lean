import GoContracts.FileTree.Disk
import GoContracts.Selection.IgnoreRules

/-!
# Selection

The files of a project that are compiled: all source files below the root other than tests, in
order of their names, without those in hidden, skipped or ignored directories, in the directory of
generated files, or excluded by pattern.
-/

namespace GoContracts

/-- What the selection of files depends on. -/
structure Selection where
  disk : Disk
  /-- The directory that is searched. -/
  root : String
  settings : Settings

namespace Selection

/-- The directory of generated files. -/
def cacheDirectory (s : Selection) : String := s.settings.cacheDirectoryIn s.root

/-- Whether a directory below the root is left out with everything in it. -/
def skips (s : Selection) (name path : String) : Bool :=
  name.startsWith "." || s.settings.skippedDirectories.contains name ||
    Path.same path s.cacheDirectory

/-- Whether a pattern excludes a path. -/
def excludes (s : Selection) (path : String) : Bool :=
  match Path.relativeTo? s.root path with
  | some components => s.settings.excludes (Path.ofComponents components)
  | none => false

/-- The rules of the ignore file of a directory, if it has one. -/
def rulesOf (s : Selection) (directory : String) : Except Failure (Option IgnoreRules) :=
  let path := Path.join directory s.settings.ignoreFile
  if s.disk.isFile path then
    match s.disk.readText path with
    | .ok content => IgnoreRules.parse? directory content path
    | .error cause => .error (.read path cause)
  else .ok none

/-- The files that are found, and what stands in the way of a selection. -/
structure Found where
  paths : List String := []
  /-- The first failure to read a directory, which ends the search. -/
  unreadable? : Option Failure := none
  /-- The first failure to read an ignore file. -/
  failure? : Option Failure := none

/-- What is found in one place and after it in another. -/
def Found.append (a b : Found) : Found :=
  { paths := a.paths ++ b.paths
    unreadable? := a.unreadable?.or b.unreadable?
    failure? := a.failure?.or b.failure? }

/-- The rules that have been read, with those of a directory in addition. -/
def withOwn (s : Selection) (directory : String) (rules : List IgnoreRules) :
    List IgnoreRules × Option Failure :=
  match s.rulesOf directory with
  | .ok (some own) => (rules ++ [own], none)
  | .ok none => (rules, none)
  | .error failure => (rules, some failure)

/-- The failure to read a directory, whose path may be too long. -/
def unreadable? (path : String) : Option Failure :=
  if Disk.pathLimit ≤ Text.size path then some (.walk path .nameTooLong) else none

/-- A file, if it is a source file that is not excluded. -/
def visitFile (s : Selection) (name path : String) : Found :=
  { paths := if SourceFile.isSourceName name && !s.excludes path then [path] else [] }

mutual

/-- What is found in the tree at a path, and the rules that have been read when it has been
searched. The rules read before are consulted, whichever directories they come from. -/
def visit (s : Selection) (rules : List IgnoreRules) (name path : String) :
    FileTree → Found × List IgnoreRules
  | .file _ => (s.visitFile name path, rules)
  | .link _ => ({}, rules)
  | .directory entries =>
    let (rules, failure?) := s.withOwn path rules
    match unreadable? path with
    | some unreadable => ({ unreadable? := some unreadable, failure? }, rules)
    | none =>
      let (found, rules) := s.visitEntries rules path entries
      (({ failure? } : Found).append found, rules)

/-- What is found in the entries of a directory, and the rules that have been read then. -/
def visitEntries (s : Selection) (rules : List IgnoreRules) (directory : String) :
    List (String × FileTree) → Found × List IgnoreRules
  | [] => ({}, rules)
  | (name, tree) :: entries =>
    let path := Path.join directory name
    let isLeftOut := (tree.isDirectory && s.skips name path) ||
      rules.any fun r => r.coversPath path tree.isDirectory
    let (found, rules) := if isLeftOut then ({}, rules) else s.visit rules name path tree
    let (more, rules) := s.visitEntries rules directory entries
    (found.append more, rules)

end

/-- What is found below the root. A root that is a link to a directory is searched, but has no
rules of its own. -/
def found (s : Selection) : Except Failure Found :=
  match s.disk.find false s.root with
  | .error cause => .error (.walk s.root cause)
  | .ok (_, .link _) =>
    match s.disk.find true s.root with
    | .error cause => .error (.walk s.root cause)
    | .ok (_, tree) => .ok (s.visitEntries [] s.root tree.entries).1
  | .ok (_, tree) => .ok (s.visit [] ((Path.fileName? s.root).getD s.root) s.root tree).1

/-- The selected files in order. -/
def files (s : Selection) : Except Failure (List String) := do
  let found ← s.found
  match found.unreadable?.or found.failure? with
  | some failure => throw failure
  | none => return found.paths

end Selection

end GoContracts

import GoContracts.Glob.Matching
import GoContracts.Path
import GoContracts.Text.Escaped

/-!
# Settings

What a project may settle: where generated files go, how ignore files are called, and which paths
and directories are left out.
-/

namespace GoContracts

/-- The settings of a project. -/
structure Settings where
  /-- The directory of generated files, relative to the root. -/
  cacheDirectory : String := ".inco_cache"
  /-- The name of the ignore file of a directory. -/
  ignoreFile : String := ".incoignore"
  /-- Patterns of paths, relative to the root, that are left out. -/
  excludedPaths : List String := []
  /-- Names of directories that are left out. -/
  skippedDirectories : List String := ["vendor", "testdata"]
  deriving DecidableEq, Repr

namespace Settings

/-- What is wrong with settings. -/
inductive Fault where
  /-- They are not written as settings. -/
  | unreadable
  | emptyCacheDirectory
  | invalidIgnoreFile (name : String)
  | invalidPattern (pattern : String) (fault : Glob.Fault)
  deriving DecidableEq, Repr

/-- How a fault is put. -/
def Fault.message : Fault → String
  | unreadable => "malformed settings"
  | emptyCacheDirectory => "cache_dir must not be empty"
  | invalidIgnoreFile name => "invalid ignore_file " ++ Text.escaped name
  | invalidPattern pattern fault =>
    "invalid excluded_paths pattern " ++ Text.escaped pattern ++ ": " ++ fault.message pattern

/-- The first pattern that cannot be read. -/
def patternFault? (patterns : List String) : Option Fault :=
  patterns.findSome? fun pattern =>
    match Glob.parse false pattern with
    | .ok _ => none
    | .error fault => some (.invalidPattern pattern fault)

/-- The first fault of settings that are written as such. -/
def fault? (s : Settings) : Option Fault :=
  if Text.isAllBlank s.cacheDirectory then some .emptyCacheDirectory
  else if Text.isAllBlank s.ignoreFile || s.ignoreFile.toList.contains '/' then
    some (.invalidIgnoreFile s.ignoreFile)
  else patternFault? s.excludedPaths

/-- The patterns of excluded paths that can be read. -/
def exclusions (s : Settings) : List Glob :=
  s.excludedPaths.filterMap fun pattern => (Glob.parse false pattern).toOption

/-- Whether a path relative to the root is excluded. -/
def excludes (s : Settings) (path : String) : Bool := s.exclusions.any (·.isMatch path)

/-- The directory of generated files of a project at the given root. -/
def cacheDirectoryIn (s : Settings) (root : String) : String := Path.join root s.cacheDirectory

/-- The names of files that may hold settings, in the order in which they are looked for. -/
def fileNames : List String := ["inco.yaml", ".inco.yaml"]

end Settings

end GoContracts

import GoContracts.FileTree.OsError
import GoContracts.Guard.Contract
import GoContracts.Settings.Basic

/-!
# Failures

What ends a run.
-/

namespace GoContracts

/-- Why a run ends without a result. -/
inductive Failure where
  | createCacheDirectory (path : String) (cause : OsError)
  | read (path : String) (cause : OsError)
  | writeShadow (path : String) (cause : OsError)
  | writeManifest (path : String) (cause : OsError)
  | removeCacheDirectory (path : String) (cause : OsError)
  /-- The tree below a path cannot be walked. -/
  | walk (path : String) (cause : OsError)
  | invalidExpression (expression : InvalidExpression)
  /-- A file is not among those that were loaded for its directory. -/
  | fileNotInPackage (path : String)
  | settings (path : String) (fault : Settings.Fault)
  | ignorePattern (pattern path glob : String) (fault : Glob.Fault)
  deriving DecidableEq, Repr

/-- How a failure is put. -/
def Failure.message : Failure → String
  | createCacheDirectory path cause =>
    "failed to create cache directory " ++ path ++ ": " ++ cause.message
  | read path cause => "failed to read " ++ path ++ ": " ++ cause.message
  | writeShadow path cause => "failed to write shadow file " ++ path ++ ": " ++ cause.message
  | writeManifest path cause => "failed to write manifest " ++ path ++ ": " ++ cause.message
  | removeCacheDirectory path cause =>
    "failed to remove cache directory " ++ path ++ ": " ++ cause.message
  | walk path cause =>
    "failed to walk " ++ path ++ ": IO error for operation on " ++ path ++ ": " ++ cause.message
  | invalidExpression e =>
    e.location ++ ": invalid " ++ e.use.word ++ " expression `" ++ e.text ++ "`"
  | fileNotInPackage path => path ++ " is not part of the package loaded for its directory"
  | settings path fault => "invalid configuration " ++ path ++ ": " ++ fault.message
  | ignorePattern pattern path glob fault =>
    "invalid ignore pattern `" ++ pattern ++ "` in " ++ path ++ ": " ++ fault.message glob

end GoContracts

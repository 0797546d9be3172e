import GoContracts.Overlay.Manifest
import GoContracts.Package.Loading
import GoContracts.Selection.Basic
import GoContracts.Settings.Reader

/-!
# The engine

An engine compiles the contracts of one project. It keeps the manifest of what it has written, and
between two runs the packages that it has loaded.
-/

namespace GoContracts

/-- The compiler of one project. -/
structure Engine where
  /-- The absolute path of the project. -/
  root : String
  settings : Settings
  manifest : Manifest := {}
  /-- The packages by their directories. -/
  packages : List (String × Package) := []

namespace Engine

/-- The directory of generated files. -/
def cacheDirectory (e : Engine) : String := e.settings.cacheDirectoryIn e.root

/-- The path of the manifest. -/
def manifestPath (e : Engine) : String := Path.join e.cacheDirectory Manifest.fileName

/-- The absolute path of a project, which must exist. -/
def canonicalRoot (disk : Disk) (root : String) : Except Failure String :=
  match disk.canonical root with
  | .ok path => .ok path
  | .error cause => .error (.read root cause)

/-- The engine of the project at a path, with the given settings. -/
def withSettings (disk : Disk) (root : String) (settings : Settings) : Except Failure Engine := do
  return { root := ← canonicalRoot disk root, settings }

/-- The engine of the project at a path, with the settings that are found there. -/
def discover (disk : Disk) (root : String) : Except Failure Engine := do
  let root ← canonicalRoot disk root
  return { root, settings := ← Settings.discover disk root }

/-- The package that was loaded for a directory. -/
def package? (e : Engine) (directory : String) : Option Package :=
  (e.packages.find? fun entry => Path.same entry.1 directory).map (·.2)

/-- The selection of the project's files on a disk. -/
def selection (e : Engine) (disk : Disk) : Selection :=
  { disk, root := e.root, settings := e.settings }

end Engine

end GoContracts

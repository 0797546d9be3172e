import GoContracts.Failure
import GoContracts.FileTree.Disk
import GoContracts.Weaving.Injection

/-!
# Loading packages

The package of a directory is made of its source files other than tests, whether or not they are
selected. A shadow is the text of one of its files with guards.
-/

namespace GoContracts.Package

/-- The paths of the source files in a directory, links to files among them, in order of their
names. -/
def sourcePaths (disk : Disk) (directory : String) : Except Failure (List String) :=
  match disk.readDirectory directory with
  | .error cause => .error (.read directory cause)
  | .ok entries =>
    .ok ((entries.filterMap fun (name, _) =>
      let path := Path.join directory name
      if SourceFile.isSourceName name && disk.isFile path then some path else none))

/-- Read the source file at a path. -/
def loadFile (disk : Disk) (path : String) : Except Failure SourceFile :=
  match disk.readText path with
  | .ok text => .ok (.read path text)
  | .error cause => .error (.read path cause)

/-- Load the package of a directory. Files that do not fit the grammar are reported. -/
def load (disk : Disk) (directory : String) : Reporting Failure Package := do
  let paths ← MonadExcept.ofExcept (sourcePaths disk directory)
  let files ← MonadExcept.ofExcept (paths.mapM (loadFile disk))
  let broken := files.filter (·.hasErrors)
  unless broken.isEmpty do
    Reporting.note (.brokenFiles directory (broken.map (·.path)))
  return .ofFiles files

/-- The shadow of a file of the package; none if the file holds no directive. -/
def shadowOf? (p : Package) (file : SourceFile) : Reporting Failure (Option String) :=
  ExceptT.adapt Failure.invalidExpression do
    return (← file.inject? p).map (Injection.shadow file)

/-- The shadow of the file at a path. -/
def shadowAt? (p : Package) (path : String) : Reporting Failure (Option String) :=
  match p.file? (Path.same path) with
  | some file => p.shadowOf? file
  | none => throw (.fileNotInPackage path)

end GoContracts.Package

import GoContracts.Engine.Basic

/-!
# Sessions

A session is an engine at work on a disk. Its steps write shadows and the manifest, report what they
do, and may fail; what was done before a failure stays. Faults that befall the disk are given with
the session, in the order of the steps that they befall.
-/

namespace GoContracts

/-- Writes generated files into a directory, which is made when it is first needed. -/
structure ShadowWriter where
  directory : String
  /-- Whether the directory has been made. -/
  made : Bool := false
  deriving DecidableEq, Repr

/-- An engine at work. -/
structure Session where
  engine : Engine
  writer : ShadowWriter
  disk : Disk
  /-- What has been reported, in order. -/
  reports : List Diagnostic := []
  /-- What befalls the next steps that make files or directories; nothing once the list is used
  up. -/
  faults : List (Option Disk.Fault) := []

namespace Session

/-- The session of an engine with a writer of its own. -/
def start (engine : Engine) (disk : Disk) (faults : List (Option Disk.Fault) := []) : Session :=
  { engine, writer := { directory := engine.cacheDirectory }, disk, faults }

/-- A step of a session. What it did before a failure stays done. -/
abbrev Action (α : Type) := ExceptT Failure (StateM Session) α

/-- Add a report. -/
def note (d : Diagnostic) : Action Unit := modify fun s => { s with reports := s.reports ++ [d] }

/-- A step that changes the disk. -/
def onDisk {α : Type} (failure : OsError → Failure) (act : Disk.Action α) : Action α := fun s =>
  let (result, disk) := act s.disk
  (result.mapError failure, { s with disk })

/-- What befalls the next step that makes files or directories. -/
def nextFault? (s : Session) : Option Disk.Fault := s.faults.head?.join

/-- A step that makes files or directories. It takes the next fault. -/
def making (failure : OsError → Failure) (act : Option Disk.Fault → Disk.Action Unit) :
    Action Unit := fun s =>
  let (result, disk) := act s.nextFault? s.disk
  (result.mapError failure, { s with disk, faults := s.faults.tail })

/-- A computation that reports. -/
def reporting {α : Type} (act : Reporting Failure α) : Action α := fun s =>
  let (result, reports) := act s.reports
  (result, { s with reports })

/-- A step with a writer of its own. -/
def withFreshWriter {α : Type} (act : Action α) : Action α := fun s =>
  let (result, after) := act { s with writer := { directory := s.engine.cacheDirectory } }
  (result, { after with writer := s.writer })

/-- A step after which the loaded packages are forgotten, whether or not it fails. -/
def forgettingPackages {α : Type} (act : Action α) : Action α := fun s =>
  let (result, after) := act s
  (result, { after with engine := { after.engine with packages := [] } })

/-! ## Writing -/

/-- Make the directory of the writer unless it has been made. -/
def ensureDirectory : Action Unit := do
  let writer := (← get).writer
  unless writer.made do
    making (.createCacheDirectory writer.directory) (Disk.makeDirectories writer.directory ·)
    modify fun s => { s with writer := { s.writer with made := true } }

/-- Write the shadow of a file. Yields its path. -/
def writeShadow (path text : String) : Action String := do
  ensureDirectory
  let shadow := Path.join (← get).writer.directory (Shadow.name path text)
  making (.writeShadow shadow) (Disk.writeText shadow text ·)
  return shadow

/-- Write the manifest. Yields its path. -/
def writeManifest : Action String := do
  ensureDirectory
  let s ← get
  let path := Path.join s.writer.directory Manifest.fileName
  making (.writeManifest path) (Disk.writeText path s.engine.manifest.render ·)
  return path

/-! ## Compiling -/

/-- The package of a directory, loaded when it is first needed. -/
def packageOf (directory : String) : Action Package := do
  let s ← get
  match s.engine.package? directory with
  | some package => return package
  | none =>
    let package ← reporting (Package.load s.disk directory)
    modify fun s =>
      { s with engine := { s.engine with packages := (directory, package) :: s.engine.packages } }
    return package

/-- Write the shadow of one file and record it. Yields the path of the shadow; none if the file
holds no directive. -/
def process (path : String) : Action (Option String) := do
  let directory := (Path.parent? path).getD (← get).engine.root
  let package ← packageOf directory
  match ← reporting (package.shadowAt? path) with
  | none => return none
  | some text =>
    let shadow ← writeShadow path text
    modify fun s =>
      { s with engine := { s.engine with manifest := s.engine.manifest.record path shadow } }
    return some shadow

/-- Write the manifest if any file is mapped. -/
def publish : Action Unit := do
  let manifest := (← get).engine.manifest
  unless manifest.isEmpty do
    let path ← writeManifest
    note (.overlayWritten path manifest.size)

/-- Compile all selected files and write the manifest, which is yielded as well. -/
def run : Action Manifest := do
  let s ← get
  let paths ← MonadExcept.ofExcept (s.engine.selection s.disk).files
  withFreshWriter do
    forgettingPackages (paths.forM fun path => discard (process path))
    publish
  return (← get).engine.manifest

/-- Remove the directory of generated files. Tells whether there was one. -/
def clean : Action Bool := do
  let s ← get
  let directory := s.engine.cacheDirectory
  if s.disk.pathExists directory then
    onDisk (.removeCacheDirectory directory) (Disk.removeAll directory)
    note (.removed directory)
    return true
  else return false

end Session

end GoContracts

import GoContracts.Failure
import GoContracts.FileTree.Disk
import GoContracts.Settings.Basic
import GoContracts.Yaml.Node

/-!
# Reading settings

Settings are written as a mapping. What is not mentioned keeps its standard value, and what is not
known is ignored. They stand in a file at the root of the sources.
-/

namespace GoContracts.Settings

open Yaml (Node)

/-- The text of a scalar. -/
def text? : Node → Option String
  | .scalar s _ => some s
  | _ => none

/-- Whether the node is left out. -/
def isAbsent : Node → Bool
  | .scalar s plain => plain && s = ""
  | _ => false

/-- A list of texts; one that is left out is empty. -/
def texts? (node : Node) : Option (List String) :=
  match node with
  | .sequence items => items.mapM text?
  | other => if isAbsent other then some [] else none

/-- The values that every setting has if it is mentioned at all. -/
structure Mentioned where
  cacheDirectory? : Option String := none
  ignoreFile? : Option String := none
  excludedPaths? : Option (List String) := none
  skippedDirectories? : Option (List String) := none

/-- A value for a setting that has none yet. -/
def once {α : Type} (old? : Option α) (new? : Option α) : Option (Option α) :=
  if old?.isSome then none else new?.map some

namespace Mentioned

/-- Take over one entry. No setting may be mentioned twice. -/
def add (m : Mentioned) (entry : Node × Node) : Option Mentioned := do
  match ← text? entry.1 with
  | "cache_dir" => return { m with cacheDirectory? := ← once m.cacheDirectory? (text? entry.2) }
  | "ignore_file" => return { m with ignoreFile? := ← once m.ignoreFile? (text? entry.2) }
  | "excluded_paths" => return { m with excludedPaths? := ← once m.excludedPaths? (texts? entry.2) }
  | "skip_dirs" =>
    return { m with skippedDirectories? := ← once m.skippedDirectories? (texts? entry.2) }
  | _ => return m

/-- The settings with standard values for those that are not mentioned. -/
def toSettings (m : Mentioned) : Settings :=
  let standard : Settings := {}
  { cacheDirectory := m.cacheDirectory?.getD standard.cacheDirectory
    ignoreFile := m.ignoreFile?.getD standard.ignoreFile
    excludedPaths := m.excludedPaths?.getD standard.excludedPaths
    skippedDirectories := m.skippedDirectories?.getD standard.skippedDirectories }

end Mentioned

/-- The settings that a node spells out. -/
def ofNode? (node : Node) : Option Settings :=
  match node with
  | .mapping entries => (entries.foldlM Mentioned.add {}).map Mentioned.toSettings
  | other => if isAbsent other then some {} else none

/-- The settings that a text spells out, faulty or not. A blank text spells out the standard
ones. -/
def ofText? (text : String) : Option Settings :=
  if Text.isAllBlank text then some {}
  else do
    match ← Node.ofText? text with
    | none => some {}
    | some node => ofNode? node

/-- Read settings and check them. -/
def parse (text : String) : Except Fault Settings :=
  match ofText? text with
  | none => .error .unreadable
  | some settings =>
    match settings.fault? with
    | some fault => .error fault
    | none => .ok settings

/-! ## Finding settings -/

/-- The settings in the file at a path. -/
def load (disk : Disk) (path : String) : Except Failure Settings :=
  match disk.readText path with
  | .error cause => .error (.read path cause)
  | .ok text =>
    match parse text with
    | .ok settings => .ok settings
    | .error fault => .error (.settings path fault)

/-- The first file at the root that may hold settings. -/
def find? (disk : Disk) (root : String) : Option String :=
  (fileNames.map (Path.join root)).find? disk.isFile

/-- The settings at the root; the standard ones if there are none. -/
def discover (disk : Disk) (root : String) : Except Failure Settings :=
  match find? disk root with
  | some path => load disk path
  | none => .ok {}

end GoContracts.Settings

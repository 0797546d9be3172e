import GoContracts.CommandLine.Basic

/-!
# The program

Reads the part of the file system that a command looks at, carries the command out on it, writes
back what has changed, and prints what there is to say.
-/

namespace GoContracts

namespace FileSystem

/-- A computation that reads files into a tree. -/
abbrev Gathering (α : Type) := StateT FileTree IO α

/-- A path that leads nowhere, since no name holds the character NUL. -/
def deadEnd : String := "/\x00"

/-- The path without links to which a path leads. -/
def destination (path : String) : IO String :=
  tryCatch (return toString (← IO.FS.realPath path)) fun _ => return deadEnd

/-- The kind of the entry of a directory; none if there is no such entry. -/
def kindOf? (directory : List String) (name : String) : IO (Option IO.FS.FileType) :=
  tryCatch (do
    let above ← IO.FS.realPath (Path.ofPlace directory)
    return some (← (above / name).symlinkMetadata).type) fun _ => return none

/-- The names in a directory. -/
def namesIn (directory : List String) : IO (List String) := do
  return (← (← IO.FS.realPath (Path.ofPlace directory)).readDir).toList.map (·.fileName)

/-- Put a tree at a place unless something is there. -/
def offer (place : List String) (t : FileTree) : Gathering Unit :=
  modify fun root =>
    if (root.get? place).isSome then root
    else FileTree.insertAt place.dropLast (place.getLastD "") t root

/-- Read what the pieces of a path lead through from a place. -/
partial def gatherPath (place : List String) : List String → Gathering Unit
  | [] => pure ()
  | piece :: rest => do
    if Path.isSilent piece then gatherPath place rest
    else if piece = ".." then gatherPath place.dropLast rest
    else
      let own := place ++ [piece]
      match ← kindOf? place piece with
      | some .dir =>
        offer own .empty
        gatherPath own rest
      | some .symlink =>
        let target ← destination (Path.ofPlace own)
        offer own (.link target)
        unless target = deadEnd do gatherPath [] (Text.splitAt '/' target ++ rest)
      | some .file => offer own (.file (.ofBytes (← IO.FS.readBinFile (Path.ofPlace own))))
      | _ => pure ()

/-- Read everything below a place, but nothing in hidden directories. -/
partial def gatherBelow (place : List String) : Gathering Unit := do
  for name in ← namesIn place do
    gatherPath place [name]
    if (← kindOf? place name) matches some .dir then
      unless name.startsWith "." do gatherBelow (place ++ [name])

/-- Read what a path leads through, and everything below it. -/
def gatherAll (workingDirectory : List String) (path : String) : Gathering Unit := do
  gatherPath (if Path.isAbsolute path then [] else workingDirectory) (Text.splitAt '/' path)
  match Disk.find { root := ← get, workingDirectory } true path with
  | .ok (place, .directory _) => gatherBelow place
  | _ => pure ()

/-- Read what a command for a target looks at. -/
def gatherTarget (workingDirectory : List String) (target : Target) : Gathering Unit := do
  gatherAll workingDirectory target.path
  if let some path := target.settings? then gatherAll workingDirectory path
  match CommandLine.engineFor { root := ← get, workingDirectory } target with
  | .ok engine => gatherAll workingDirectory engine.cacheDirectory
  | .error _ => pure ()

/-- The part of the file system that a command looks at. -/
def gather (arguments : List String) : IO Disk := do
  let workingDirectory :=
    (Text.splitAt '/' (← destination (toString (← IO.currentDir)))).filter (· ≠ "")
  let read : Gathering Unit := do
    gatherPath [] workingDirectory
    if let some target := (Request.parse arguments).bind Request.target? then
      gatherTarget workingDirectory target
  return { root := (← read.run .empty).2, workingDirectory }

/-- Remove what is at a place. -/
def remove (place : List String) (t : FileTree) : IO Unit :=
  let path := Path.ofPlace place
  if t.isDirectory then IO.FS.removeDirAll path else IO.FS.removeFile path

/-- Turn the entries of the directory at a place from old ones into new ones. -/
partial def update (place : List String) (old new : List (String × FileTree)) : IO Unit := do
  for (name, before) in old do
    if (new.lookup name).isNone then remove (place ++ [name]) before
  for (name, after) in new do
    let own := place ++ [name]
    match old.lookup name, after with
    | some before, .directory entries => update own before.entries entries
    | none, .directory entries =>
      IO.FS.createDir (Path.ofPlace own)
      update own [] entries
    | some (.file before), .file content =>
      unless before = content do IO.FS.writeBinFile (Path.ofPlace own) content.toBytes
    | _, .file content => IO.FS.writeBinFile (Path.ofPlace own) content.toBytes
    | _, .link _ => pure ()

end FileSystem

namespace Outcome

/-- Print what there is to say. Arguments that make no sense are answered with a summary. -/
def print (o : Outcome) : IO Unit := do
  for report in o.reports do
    IO.eprintln ((if report.isWarning then "WARN " else "INFO ") ++ report.text)
  for line in o.output do IO.println line
  match o.failure? with
  | some failure => IO.eprintln ("Error: " ++ failure.message)
  | none =>
    unless o.exitCode = 0 do
      for line in CommandLine.helpText do IO.eprintln line

end Outcome

end GoContracts

/-- Carry out the command that the arguments ask for. -/
def main (arguments : List String) : IO UInt32 :=
  tryCatch
    (do
      let disk ← GoContracts.FileSystem.gather arguments
      let outcome := GoContracts.CommandLine.run disk arguments
      GoContracts.FileSystem.update [] disk.root.entries outcome.disk.root.entries
      outcome.print
      return outcome.exitCode.toUInt32)
    fun e => do
      IO.eprintln ("Error: " ++ toString e)
      return GoContracts.CommandLine.failureCode.toUInt32

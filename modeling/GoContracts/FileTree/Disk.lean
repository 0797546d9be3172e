import GoContracts.FileTree.Basic
import GoContracts.FileTree.OsError
import GoContracts.Path

/-!
# The disk

Paths lead through a tree from its root or from the working directory. Links on the way are
followed, at most forty of them. A slash at the end of a path demands a directory.

Files and directories may fail to be made for reasons that the tree does not tell, such as a device
that is full. A fault says what befalls one such step, and how far it gets.
-/

namespace GoContracts

/-- A tree of files with a working directory. -/
structure Disk where
  root : FileTree
  /-- The place where relative paths begin. -/
  workingDirectory : List String := []

instance : Inhabited Disk := ⟨{ root := .empty }⟩

namespace Disk

/-- Where a path leads. -/
inductive Target where
  /-- To a tree at a place without links. -/
  | found (place : List String) (tree : FileTree)
  /-- To a missing entry of a directory; `directoryOnly` if only a directory can be put there. -/
  | vacant (directory : List String) (name : String) (directoryOnly : Bool)

/-- The greatest length of a name in bytes. -/
def maxNameLength : Nat := 255

/-- The least number of bytes that is too long for a path. -/
def pathLimit : Nat := 4096

/-- The number of links that are followed. -/
def maxLinks : Nat := 40

/-- Follow the pieces of a path from a place. `follows` says where a link leads: it follows the
target with the rest of the path behind it, from the place where the target begins. -/
def followWith (root : FileTree) (followsLast : Bool)
    (follows : List String → List String → Except OsError Target) (place : List String) :
    List String → Except OsError Target
  | [] => .ok (.found place ((root.get? place).getD .empty))
  | piece :: rest =>
    if Path.isSilent piece then followWith root followsLast follows place rest
    else if piece = ".." then followWith root followsLast follows place.dropLast rest
    else if maxNameLength < Text.size piece then .error .nameTooLong
    else
      match root.get? (place ++ [piece]) with
      | none =>
        if rest.all (· = "") then .ok (.vacant place piece !rest.isEmpty) else .error .notFound
      | some (.directory _) => followWith root followsLast follows (place ++ [piece]) rest
      | some (.file content) =>
        if rest.isEmpty then .ok (.found (place ++ [piece]) (.file content))
        else .error .notDirectory
      | some (.link target) =>
        if rest.isEmpty && !followsLast then .ok (.found (place ++ [piece]) (.link target))
        else
          follows (if Path.isAbsolute target then [] else place) (Text.splitAt '/' target ++ rest)

/-- Follow the pieces of a path from a place through at most the given number of links. A link in
the last piece is left alone unless `followsLast`. -/
def follow (root : FileTree) (followsLast : Bool) :
    Nat → List String → List String → Except OsError Target
  | 0 => followWith root followsLast fun _ _ => .error .linkLoop
  | links + 1 => followWith root followsLast (follow root followsLast links)

/-- Where a path leads on the disk. -/
def target (d : Disk) (followsLast : Bool) (path : String) : Except OsError Target :=
  if path.toList.contains '\x00' then .error .nulInPath
  else if path = "" then .error .notFound
  else if pathLimit ≤ Text.size path then .error .nameTooLong
  else follow d.root followsLast maxLinks (if Path.isAbsolute path then [] else d.workingDirectory)
    (Text.splitAt '/' path)

/-- The tree to which a path leads, and its place. -/
def find (d : Disk) (followsLast : Bool) (path : String) :
    Except OsError (List String × FileTree) := do
  match ← d.target followsLast path with
  | .found place tree => return (place, tree)
  | .vacant .. => throw .notFound

/-! ## Looking -/

/-- Whether a path leads to something. -/
def pathExists (d : Disk) (path : String) : Bool := (d.find true path).isOk

/-- Whether a path leads to a file. -/
def isFile (d : Disk) (path : String) : Bool :=
  match d.find true path with
  | .ok (_, tree) => tree.isFile
  | .error _ => false

/-- Whether a path leads to a directory. -/
def isDirectory (d : Disk) (path : String) : Bool :=
  match d.find true path with
  | .ok (_, tree) => tree.isDirectory
  | .error _ => false

/-- The absolute path without links to which a path leads. -/
def canonical (d : Disk) (path : String) : Except OsError String := do
  let (place, _) ← d.find true path
  return Path.ofPlace place

/-- The text of a file. -/
def readText (d : Disk) (path : String) : Except OsError String := do
  match ← d.find true path with
  | (_, .file (.text s)) => return s
  | (_, .file (.binary _)) => throw .invalidUtf8
  | (_, _) => throw .isDirectory

/-- The entries of a directory. -/
def readDirectory (d : Disk) (path : String) : Except OsError (List (String × FileTree)) := do
  match ← d.find true path with
  | (_, .directory entries) => return entries
  | (_, _) => throw .notDirectory

/-! ## Changing -/

/-- A step that may change the disk and may fail. What was changed before a failure stays. -/
abbrev Action (α : Type) := ExceptT OsError (StateM Disk) α

/-- Change the tree. -/
def changeRoot (f : FileTree → FileTree) : Action Unit :=
  modify fun d => { d with root := f d.root }

/-- Where a path leads at the moment. -/
def targetNow (followsLast : Bool) (path : String) : Action Target := do
  MonadExcept.ofExcept ((← get).target followsLast path)

/-- What befalls a step that makes a file or directories. -/
inductive Fault where
  /-- Nothing is made. -/
  | refused (cause : OsError)
  /-- The step breaks off after the first `n` bytes of the file, or the outermost `n`
  directories. -/
  | brokenOff (cause : OsError) (n : Nat)
  deriving DecidableEq, Repr

/-- What is reported of a fault. -/
def Fault.cause : Fault → OsError
  | refused cause | brokenOff cause _ => cause

/-- Put a file into a directory, as far as a fault lets it. -/
def storeIn (directory : List String) (name : String) (content : Content) :
    Option Fault → Action Unit
  | none => changeRoot (.insertAt directory name (.file content))
  | some (.refused cause) => throw cause
  | some (.brokenOff cause n) => do
    changeRoot (.insertAt directory name (.file (content.cut n)))
    throw cause

/-- Put a file in place of the one at a path, or where none is. -/
def writeContent (path : String) (content : Content) (fault? : Option Fault := none) :
    Action Unit := do
  match ← targetNow true path with
  | .found place (.file _) => storeIn place.dropLast (place.getLastD "") content fault?
  | .found .. => throw .isDirectory
  | .vacant directory name directoryOnly =>
    if directoryOnly then throw .isDirectory else storeIn directory name content fault?

/-- Put a text file in place of the one at a path, or where none is. -/
def writeText (path text : String) (fault? : Option Fault := none) : Action Unit :=
  writeContent path (.text text) fault?

/-- Put a link where nothing is. -/
def makeLink (path target : String) : Action Unit := do
  match ← targetNow false path with
  | .found .. => throw .exists
  | .vacant directory name directoryOnly =>
    if directoryOnly then throw .notFound
    else changeRoot (.insertAt directory name (.link target))

/-- Make a directory where nothing is. -/
def makeDirectory (path : String) : Action Unit := do
  match ← targetNow false path with
  | .found .. => throw .exists
  | .vacant directory name _ => changeRoot (.insertAt directory name .empty)

/-- The path and the paths above it, without the root and the empty path. -/
def ancestors : Nat → String → List String
  | 0, _ => []
  | n + 1, path =>
    match Path.parent? path with
    | none => []
    | some above => if path = "" then [] else path :: ancestors n above

/-- Make the first of the directories after those that contain it. -/
def makeChain : List String → Action Unit
  | [] => pure ()
  | path :: above =>
    tryCatch (makeDirectory path) fun e => do
      match e with
      | .notFound =>
        makeChain above
        tryCatch (makeDirectory path) fun e => do
          unless e = .exists && (← get).isDirectory path do throw e
      | e => unless e = .exists && (← get).isDirectory path do throw e

/-- Make a directory and those that contain it where they are missing. -/
def makeDirectories (path : String) (fault? : Option Fault := none) : Action Unit := do
  let chain := ancestors (Text.size path + 1) path
  match fault? with
  | none => makeChain chain
  | some (.refused cause) => throw cause
  | some (.brokenOff cause n) => do
    makeChain (chain.drop (chain.length - n))
    throw cause

/-- Remove the entry to which a path leads without following a link at its end. -/
def removeEntry (path : String) : Action Unit := do
  let (place, _) ← MonadExcept.ofExcept ((← get).find false path)
  changeRoot (.eraseAt place.dropLast (place.getLastD ""))

/-- The last piece of a path that is not empty. -/
def lastPiece (path : String) : String :=
  ((Text.splitAt '/' path).filter (· ≠ "")).getLastD ""

/-- Remove an empty directory. Its path may not end in dots. -/
def removeEmptied (path : String) : Action Unit := do
  match lastPiece path with
  | "." => throw .invalidArgument
  | ".." => throw .notEmpty
  | _ =>
    match ← MonadExcept.ofExcept ((← get).find false (Path.withoutTrailingSlashes path)) with
    | (place, .directory _) => changeRoot (.eraseAt place.dropLast (place.getLastD ""))
    | _ => throw .notDirectory

/-- Remove a directory with everything in it, or a link. -/
def removeAll (path : String) : Action Unit := do
  match ← MonadExcept.ofExcept ((← get).find false path) with
  | (_, .link _) => removeEntry path
  | (_, .file _) => throw .notDirectory
  | (place, .directory _) =>
    changeRoot (.modifyAt (fun _ => []) place)
    removeEmptied path

end Disk

end GoContracts

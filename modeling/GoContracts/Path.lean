import GoContracts.Text.Slice

/-!
# Paths

A path is a text of pieces separated by slashes. Paths are compared by their components, which are
its pieces without empty ones and dots, except that a dot at the very beginning counts.
-/

namespace GoContracts.Path

/-- Whether a piece after the first says nothing. -/
def isSilent (piece : String) : Bool := piece = "" || piece = "."

/-- Whether a path begins at the root. -/
def isAbsolute (path : String) : Bool := path.toList.head? = some '/'

/-- The components of the pieces of a path. The root is a component of its own. -/
def componentsOf : List String → List String
  | [] => []
  | first :: rest =>
    (if first = "" then (if rest.isEmpty then [] else ["/"]) else [first]) ++
      rest.filter (!isSilent ·)

/-- The components of a path. -/
def components (path : String) : List String := componentsOf (Text.splitAt '/' path)

/-- Whether two paths have the same components. -/
def same (a b : String) : Bool := components a = components b

/-- The path of `name` below `base`; an absolute `name` stands for itself. -/
def join (base name : String) : String :=
  if isAbsolute name then name
  else if base = "" || base.toList.getLast? = some '/' then base ++ name
  else base ++ "/" ++ name

/-- The path without the slashes at its end. -/
def withoutTrailingSlashes (path : String) : String :=
  String.ofList (Text.dropEndWhile (· = '/') path.toList)

/-- The last component, if it is a name. -/
def fileName? (path : String) : Option String :=
  (components path).getLast?.filter fun c => c ≠ "/" && c ≠ "." && c ≠ ".."

/-- A file name without its extension. A dot at the beginning begins no extension. -/
def stemOf (name : String) : String :=
  match (name.toList.reverse.dropWhile (· ≠ '.')).tail with
  | [] => name
  | stem => String.ofList stem.reverse

/-- The file name without its extension; empty if the path has no file name. -/
def fileStem (path : String) : String := ((fileName? path).map stemOf).getD ""

/-- The pieces of the path above the last component. -/
def parentPieces? : List String → Option (List String)
  | [] => none
  | first :: rest =>
    match (rest.reverse.dropWhile isSilent) with
    | _ :: above => some (first :: (above.dropWhile isSilent).reverse)
    | [] => if first = "" then none else some []

/-- The path above the last component; none for the root and the empty path. -/
def parent? (path : String) : Option String :=
  (parentPieces? (Text.splitAt '/' path)).map fun pieces =>
    if pieces = [""] then "/" else "/".intercalate pieces

/-- The components of a path after those of `base`. -/
def relativeTo? (base path : String) : Option (List String) :=
  let base := components base
  let path := components path
  if base.isPrefixOf path then some (path.drop base.length) else none

/-- The components with slashes between them. -/
def ofComponents (components : List String) : String := "/".intercalate components

/-- The absolute path of the place to which the names lead from the root. -/
def ofPlace (names : List String) : String := "/" ++ ofComponents names

end GoContracts.Path

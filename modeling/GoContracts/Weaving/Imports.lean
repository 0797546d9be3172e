import GoContracts.Weaving.Edit
import GoContracts.Syntax.SourceFile

/-!
# Adding imports

The imports that guards need go into the first parenthesized list of imports, else behind the last
single one, else after the package clause. What a file imports under its own name is not added.
-/

namespace GoContracts

open Syntax (Tree)

namespace SourceFile

/-- The texts in ascending order, each once. -/
def sortedSet (texts : List String) : List String :=
  (texts.mergeSort fun a b => !decide (b < a)).eraseDups

/-- Whether the file imports the path under the name that it has by itself. -/
def importsByName (file : SourceFile) (path : String) : Bool :=
  file.imports.any fun i => i.path = path && i.localName = Text.afterLast '/' path

/-- The import declarations in order. -/
def importDeclarations (file : SourceFile) : List Tree :=
  file.tree.namedChildren.filter (·.is .importDeclaration)

/-- The first parenthesized list of imports. -/
def importList? (file : SourceFile) : Option Tree :=
  file.importDeclarations.findSome? fun declaration =>
    declaration.namedChildren.find? (·.is .importSpecList)

/-- The path as a line of an import list. -/
def importLine (path : String) : String := "\t\"" ++ path ++ "\"\n"

/-- A declaration that imports the path. -/
def importClause (path : String) : String := "import \"" ++ path ++ "\""

/-- Add the paths before the parenthesis that closes a list of imports. -/
def extendImportList (file : SourceFile) (list : Tree) (paths : List String) : Edit :=
  let close := list.stop - 1
  let lines := String.join (paths.map importLine)
  if Text.startsLine file.text close then .insert (Text.lineStart file.text close) lines
  else .insert close ("\n" ++ lines)

/-- A declaration that imports all paths. -/
def importBlock (paths : List String) : String :=
  match paths with
  | [path] => importClause path
  | _ => "import (\n" ++ String.join (paths.map importLine) ++ ")"

/-- Position after the line of the package clause; zero if there is none. -/
def afterPackageClause (file : SourceFile) : Nat :=
  ((file.tree.namedChildren.find? (·.is .packageClause)).map fun clause =>
    Text.lineEnd file.text clause.stop).getD 0

/-- Add at least one path to the file. -/
def addImports (file : SourceFile) (paths : List String) : Edit :=
  match file.importList?, file.importDeclarations.getLast? with
  | some list, _ => file.extendImportList list paths
  | none, some last =>
    .insert (Text.lineEnd file.text last.stop)
      (String.join (paths.map fun path => "\n" ++ importClause path))
  | none, none => .insert file.afterPackageClause ("\n\n" ++ importBlock paths)

/-- The edit that adds those of the needed paths that the file does not import by name. -/
def importEdit? (file : SourceFile) (needed : List String) : Option Edit :=
  match (sortedSet needed).filter fun path => !file.importsByName path with
  | [] => none
  | missing => some (file.addImports missing)

end SourceFile

end GoContracts

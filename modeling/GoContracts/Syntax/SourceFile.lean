import GoContracts.Syntax.Grammar.File

/-!
# Source files

A source file is a text with its syntax tree. Its imports and comments are found in the tree, and
its statements in the bodies of blocks and clauses.
-/

namespace GoContracts

open Syntax (Tree Kind Role)

/-- A source file. -/
structure SourceFile where
  /-- Where the file is, as it appears in messages and line markers. -/
  path : String
  /-- The text of the file. -/
  text : String
  /-- The syntax tree of the text. -/
  tree : Tree
  /-- Whether part of the text fits no rule of the grammar. -/
  hasErrors : Bool
  deriving Repr

/-- An import. -/
structure Import where
  /-- The path without quotation marks. -/
  path : String
  /-- The local name, if one is given. -/
  alias? : Option String
  deriving DecidableEq, Repr

/-- The name by which an import is referred to: the one given or the last segment of the path. -/
def Import.localName (i : Import) : String := i.alias?.getD (Text.afterLast '/' i.path)

namespace SourceFile

/-- Read a file up to the first text that fits no rule. -/
def parse (path text : String) : SourceFile :=
  let (tree, complete) := Syntax.Grammar.readSource text
  { path, text, tree, hasErrors := !complete }

/-- Read a file. A broken one is recovered if it misses names only. -/
def read (path text : String) : SourceFile :=
  let file := parse path text
  if file.hasErrors then
    { file with tree := (Syntax.Grammar.recover? text).getD file.tree }
  else file

/-- Whether a file of the given name is a source file and no test. -/
def isSourceName (name : String) : Bool := name.endsWith ".go" && !name.endsWith "_test.go"

/-- The text that a tree covers. -/
def textOf (file : SourceFile) (t : Tree) : String := Text.slice file.text t.start t.stop

/-- The name in the package clause. -/
def packageName? (file : SourceFile) : Option String := do
  let clause ← file.tree.namedChildren.find? (·.is .packageClause)
  let name ← clause.namedChildren.find? (·.is .packageIdentifier)
  return file.textOf name

/-- The comments in order. -/
def comments (file : SourceFile) : List Tree := file.tree.preorder.filter (·.isComment)

/-- The path that a quoted import path spells. -/
def unquotePath (s : String) : String :=
  String.ofList (Text.stripWhile (fun c => c = '"' || c = '`') s.toList)

/-- The imports in order. -/
def imports (file : SourceFile) : List Import :=
  (file.tree.preorder.filter (·.is .importSpec)).filterMap fun spec => do
    let path ← spec.child? .path
    return { path := unquotePath (file.textOf path),
             alias? := (spec.child? .name).map file.textOf }

end SourceFile

/-- The statements of a block or clause. -/
structure Body where
  /-- The block or clause. -/
  node : Tree
  /-- Position after the brace or colon that opens it. -/
  opening : Nat
  /-- The statements in order, without comments. -/
  statements : List Tree
  deriving Repr

namespace Body

/-- The kind of a scope. -/
def scopeKind? (t : Tree) : Option Kind := t.kind?.filter Kind.isScope

/-- The token that opens the statements of a scope. -/
def openingToken (t : Tree) : String := if t.is .block then "\x7b" else ":"

/-- The statements that stand as the tree `t` in a block or clause: none if it is a token or a
comment, those in it if it is a list of statements, and otherwise the tree itself. -/
def statementsOf (t : Tree) : List Tree :=
  if !t.isNamed || t.isComment then []
  else if t.is .statementList then t.items
  else [t]

/-- The body of a block or clause. -/
def of? (t : Tree) : Option Body := do
  let _ ← scopeKind? t
  let rest := t.children.dropWhile (!·.isToken (openingToken t))
  let opening ← rest.head?
  return { node := t, opening := opening.stop, statements := rest.tail.flatMap statementsOf }

/-- The bodies in a tree, each before the ones inside it. -/
def all (root : Tree) : List Body := root.preorder.filterMap of?

end Body

end GoContracts

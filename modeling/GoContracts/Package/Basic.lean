import GoContracts.Scope.Signature
import GoContracts.Syntax.SourceFile

/-!
# Packages

A package is the files of one directory with the declarations at their top level. Where a name is
declared more than once, the last declaration counts.
-/

namespace GoContracts

open Syntax (Tree)

/-- A type declared at the top level. -/
structure TypeDecl where
  typeParams : List TypeParam
  underlying : TypeExpr
  deriving Repr

/-- Where a value at the top level has its type from. -/
inductive ValueSource where
  /-- The type is written down. -/
  | declared (type : TypeExpr)
  /-- The name is number `index` of `count` names bound to values in the file of that number. -/
  | inferred (file : Nat) (values : Tree) (index count : Nat)
  deriving Repr

/-- The last entry for a key. -/
def lastValue? {κ α : Type} [BEq κ] (key : κ) (entries : List (κ × α)) : Option α :=
  (entries.reverse.find? (·.1 == key)).map (·.2)

/-- The files of a package and their declarations in order. -/
structure Package where
  files : List SourceFile := []
  name? : Option String := none
  types : List (String × TypeDecl) := []
  funcs : List (String × Signature) := []
  /-- Methods by the name of the receiver's type and their own. -/
  methods : List ((String × String) × Signature) := []
  values : List (String × ValueSource) := []
  /-- Import paths by the local name of the import. -/
  imports : List (String × String) := []
  deriving Repr

namespace Package

/-- The types that a declaration declares. -/
def declaredTypes (file : SourceFile) (declaration : Tree) : List (String × TypeDecl) :=
  declaration.namedChildren.filterMap fun spec =>
    if spec.is .typeSpec || spec.is .typeAlias then do
      let name ← spec.child? .name
      let type ← spec.child? .type
      return (file.textOf name,
        { typeParams := ((spec.child? .typeParameters).map (Signature.typeParamsOf file)).getD []
          underlying := TypeExpr.ofTree file type })
    else none

/-- The type of a specification and its values. -/
abbrev SpecSource := Option TypeExpr × Option Tree

/-- The sources of the values of each specification. A constant without type and values repeats
those of the specification before it. -/
def specSources (file : SourceFile) (repeats : Bool) :
    SpecSource → List Tree → List (Tree × SpecSource)
  | _, [] => []
  | previous, spec :: specs =>
    let own : SpecSource :=
      ((spec.child? .type).map (TypeExpr.ofTree file), spec.child? .value)
    let source := if repeats && own.1.isNone && own.2.isNone then previous else own
    (spec, source) :: specSources file repeats source specs

/-- The values that a declaration declares. All children in the role of a name count. -/
def declaredValues (number : Nat) (file : SourceFile) (declaration : Tree) :
    List (String × ValueSource) :=
  (specSources file (declaration.is .constDeclaration) (none, none)
      (Syntax.valueSpecs declaration)).flatMap fun (spec, type?, values?) =>
    let names := spec.childrenIn .name
    names.zipIdx.filterMap fun (name, index) =>
      match type?, values? with
      | some type, _ => some (file.textOf name, .declared type)
      | none, some values => some (file.textOf name, .inferred number values index names.length)
      | none, none => none

/-- The name of an unqualified receiver type, behind at most one pointer. -/
def receiverBase? (signature : Signature) : Option String :=
  signature.receiver?.bind fun receiver => receiver.type.deref.localName?

/-- The package with one more declaration of the file of the given number. -/
def addDeclaration (number : Nat) (file : SourceFile) (p : Package) (declaration : Tree) :
    Package :=
  match declaration.kind? with
  | some .typeDeclaration => { p with types := p.types ++ declaredTypes file declaration }
  | some .functionDeclaration =>
    match declaration.child? .name with
    | some name =>
      { p with funcs := p.funcs ++ [(file.textOf name, Signature.ofFunction file declaration)] }
    | none => p
  | some .methodDeclaration =>
    let signature := Signature.ofFunction file declaration
    match declaration.child? .name, receiverBase? signature with
    | some name, some base =>
      { p with methods := p.methods ++ [((base, file.textOf name), signature)] }
    | _, _ => p
  | some .varDeclaration | some .constDeclaration =>
    { p with values := p.values ++ declaredValues number file declaration }
  | _ => p

/-- The package with one more file. -/
def addFile (p : Package) (file : SourceFile) : Package :=
  let number := p.files.length
  let p := { p with files := p.files ++ [file], name? := p.name?.or file.packageName? }
  let p := file.tree.namedChildren.foldl (addDeclaration number file) p
  { p with imports := p.imports ++ file.imports.map fun i => (i.localName, i.path) }

/-- The package of the given files. -/
def ofFiles (files : List SourceFile) : Package := files.foldl addFile {}

/-- The declaration of a type. -/
def typeDecl? (p : Package) (name : String) : Option TypeDecl := lastValue? name p.types

/-- The signature of a function. -/
def func? (p : Package) (name : String) : Option Signature := lastValue? name p.funcs

/-- The signature of a method. -/
def method? (p : Package) (receiver name : String) : Option Signature :=
  lastValue? (receiver, name) p.methods

/-- The source of a value. -/
def value? (p : Package) (name : String) : Option ValueSource := lastValue? name p.values

/-- The path of the import with the given local name. -/
def importPath? (p : Package) (localName : String) : Option String :=
  lastValue? localName p.imports

/-- The file at a path. -/
def file? (p : Package) (same : String → Bool) : Option SourceFile :=
  p.files.find? fun file => same file.path

/-- Whether the type has a method `Error() string`. -/
def hasErrorMethod (p : Package) (receiver : String) : Bool :=
  (p.method? receiver "Error").any fun signature =>
    signature.params.isEmpty && signature.results.map (·.type.text) = ["string"]

end Package

end GoContracts

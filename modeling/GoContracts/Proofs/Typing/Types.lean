import GoContracts.Proofs.Typing.Imports

/-!
# Types and their zero values

The types that values have by the rules of the language. A type expression stands for a type in the
context in which it is written, where its names refer to type parameters, to the types of the
package or to the predeclared ones. An alias stands for the type that it names, so equal types are
identical ones, the lengths of arrays apart. A type that is declared inside a function is left
open.
-/

namespace GoContracts

open Syntax (Tree)

/-- The kinds of zero values. -/
inductive ZeroKind where
  /-- The value `nil`. -/
  | nilable
  | string
  | integer
  | float
  | complex
  | bool
  /-- A struct or array of zero values. -/
  | aggregate
  | typeParam
  deriving DecidableEq, Repr

/-- The kind that a category tells. -/
def Category.zeroKind? : Category → Option ZeroKind
  | .nilable => some .nilable
  | .string => some .string
  | .integer => some .integer
  | .float => some .float
  | .complex => some .complex
  | .bool => some .bool
  | .aggregate _ => some .aggregate
  | .typeParam _ => some .typeParam
  | .unknown => none

namespace Static

/-- A type. -/
inductive Ty where
  /-- A predeclared type. -/
  | basic (name : String)
  /-- A type parameter of a function. -/
  | param (name : String)
  /-- A type that is declared inside a function. -/
  | inner (name : String)
  /-- A type of the package with its type arguments. -/
  | named (name : String) (args : List Ty)
  /-- A type of the package with the given path. -/
  | foreign (path name : String)
  | pointer (target : Ty)
  | slice (element : Ty)
  | array (element : Ty)
  | map (key value : Ty)
  | chan (element : Ty)
  | func
  | interface
  | struct (fields : List (String × Ty))

/-! ### Predeclared names -/

/-- The kind of a predeclared type. -/
def predeclaredKind? (name : String) : Option ZeroKind :=
  if name = "string" then some .string
  else if name = "bool" then some .bool
  else if ["int", "int8", "int16", "int32", "int64", "uint", "uint8", "uint16", "uint32", "uint64",
    "uintptr", "byte", "rune"].contains name then some .integer
  else if ["float32", "float64"].contains name then some .float
  else if ["complex64", "complex128"].contains name then some .complex
  else if ["error", "any"].contains name then some .nilable
  else none

/-- The type that a predeclared name stands for. Two of them are aliases. -/
def canonicalName (name : String) : String :=
  if name = "byte" then "uint8" else if name = "rune" then "int32" else name

/-- The predeclared functions whose calls have answers. -/
def predeclaredFunctions : List String :=
  ["new", "make", "len", "cap", "copy", "append", "min", "max", "recover"]

/-- Whether the name is that of a predeclared type or function. -/
def IsPredeclared (name : String) : Prop :=
  (predeclaredKind? name).isSome ∨ name ∈ predeclaredFunctions

/-! ### Declarations of the package -/

section

variable (p : Package) (file : SourceFile)

/-- The file declares the type that the package has under the name. -/
def DeclaresType (name : String) (d : TypeDecl) : Prop :=
  p.typeDecl? name = some d ∧ file ∈ p.files ∧
    ∃ declaration ∈ file.tree.namedChildren, (name, d) ∈ Package.declaredTypes file declaration

/-- The file declares the function that the package has under the name. -/
def DeclaresFunction (name : String) (s : Signature) : Prop :=
  p.func? name = some s ∧ file ∈ p.files ∧ ∃ declaration ∈ file.tree.namedChildren,
    declaration.is .functionDeclaration ∧ (declaration.child? .name).map file.textOf = some name ∧
      s = .ofFunction file declaration

/-- The file declares the method that the package has under the names. -/
def DeclaresMethod (receiver name : String) (s : Signature) : Prop :=
  p.method? receiver name = some s ∧ file ∈ p.files ∧ ∃ declaration ∈ file.tree.namedChildren,
    declaration.is .methodDeclaration ∧ (declaration.child? .name).map file.textOf = some name ∧
      s = .ofFunction file declaration

/-- The file declares the value that the package has under the name. -/
def DeclaresValue (name : String) (source : ValueSource) : Prop :=
  p.value? name = some source ∧ file ∈ p.files ∧ ∃ declaration ∈ file.tree.namedChildren,
    ∃ number, p.files[number]? = some file ∧
      (name, source) ∈ Package.declaredValues number file declaration

/-- Whether the name is an alias of a type. -/
def isAlias (name : String) : Bool :=
  p.files.any fun file => file.tree.namedChildren.any fun declaration =>
    declaration.is .typeDeclaration && declaration.namedChildren.any fun spec =>
      spec.is .typeAlias && (spec.child? .name).any fun t => file.textOf t = name

end

section

variable {files : List SourceFile} {p : Package} {file : SourceFile} {name : String}
  {source : ValueSource}

private theorem mem_of_lastValue? {κ α : Type} [BEq κ] [LawfulBEq κ] {key : κ}
    {entries : List (κ × α)}
    {a : α} (h : lastValue? key entries = some a) : (key, a) ∈ entries := by
  obtain ⟨⟨key', a'⟩, hfind, rfl⟩ := Option.map_eq_some_iff.mp h
  obtain rfl : key' = key := by simpa using List.find?_some hfind
  exact List.mem_reverse.mp (List.mem_of_find?_eq_some hfind)

private theorem mem_values_addDeclaration {number : Nat} {declaration : Tree}
    {entry : String × ValueSource}
    (h : entry ∈ (p.addDeclaration number file declaration).values) :
    entry ∈ p.values ∨ entry ∈ Package.declaredValues number file declaration := by
  unfold Package.addDeclaration at h
  split at h
  · exact .inl h
  · split at h <;> exact .inl h
  · simp only at h
    split at h <;> exact .inl h
  · exact List.mem_append.mp h
  · exact List.mem_append.mp h
  · exact .inl h

private theorem mem_values_addFile {entry : String × ValueSource}
    (h : entry ∈ (p.addFile file).values) :
    entry ∈ p.values ∨ ∃ declaration ∈ file.tree.namedChildren,
      entry ∈ Package.declaredValues p.files.length file declaration := by
  have hfold (ts : List Tree) (q : Package)
      (h : entry ∈ (ts.foldl (Package.addDeclaration p.files.length file) q).values) :
      entry ∈ q.values ∨ ∃ declaration ∈ ts,
        entry ∈ Package.declaredValues p.files.length file declaration := by
    induction ts generalizing q with
    | nil => exact .inl h
    | cons t ts ih =>
      rcases ih _ h with h | ⟨declaration, hmem, h⟩
      · rcases mem_values_addDeclaration h with h | h
        · exact .inl h
        · exact .inr ⟨t, List.mem_cons_self, h⟩
      · exact .inr ⟨declaration, List.mem_cons_of_mem _ hmem, h⟩
  exact hfold file.tree.namedChildren
    { p with files := p.files ++ [file], name? := p.name?.or file.packageName? } h

/-- Each value of a package is declared by one of its files. -/
theorem exists_declaresValue (h : (Package.ofFiles files).value? name = some source) :
    ∃ file, DeclaresValue (.ofFiles files) file name source := by
  have hfold (p : Package) (hmem : (name, source) ∈ (files.foldl Package.addFile p).values) :
      (name, source) ∈ p.values ∨ ∃ number file, files[number]? = some file ∧
        ∃ declaration ∈ file.tree.namedChildren,
          (name, source) ∈ Package.declaredValues (p.files.length + number) file declaration := by
    clear h
    induction files generalizing p with
    | nil => exact .inl hmem
    | cons file files ih =>
      rcases ih _ hmem with h | ⟨number, other, hfile, h⟩
      · rcases mem_values_addFile h with h | h
        · exact .inl h
        · exact .inr ⟨0, file, rfl, h⟩
      · rw [Package.files_addFile, List.length_append, List.length_singleton, Nat.add_assoc,
          Nat.add_comm 1] at h
        exact .inr ⟨number + 1, other, hfile, h⟩
  rcases hfold {} (mem_of_lastValue? h) with hmem | ⟨number, file, hfile, declaration, hmem, hvalue⟩
  · cases hmem
  · rw [List.length_nil, Nat.zero_add] at hvalue
    refine ⟨file, h, ?_, declaration, hmem, number, ?_, hvalue⟩
    · rw [Package.files_ofFiles]
      exact List.mem_of_getElem? hfile
    · rw [Package.files_ofFiles]
      exact hfile

end

/-! ### What type expressions stand for -/

/-- What the names of a type expression refer to. -/
structure Context where
  /-- The paths of packages by their local names. -/
  imports : String → Option String
  /-- The names of types that are not those of the package. -/
  bound : String → Option Ty
  /-- Whether other names may be those of types of the package. -/
  isOwn : Bool

/-- Type parameters stand for the arguments at their places. -/
def bind (params : List String) (args : List Ty) (name : String) : Option Ty :=
  (params.zip args).lookup name

/-- The context inside the declaration of a type with the given arguments. -/
def Context.ofType (file : SourceFile) (d : TypeDecl) (args : List Ty) : Context where
  imports := file.importPath?
  bound := bind (d.typeParams.map (·.name)) args
  isOwn := true

/-- The receiver of a method binds its type parameters to the type arguments. -/
def bindReceiver (s : Signature) (args : List Ty) : String → Option Ty :=
  bind (((s.receiver?.map (·.type.baseArgs)).getD []).map fun e => (e.localName?).getD "_") args

mutual

/-- A type expression stands for a type. -/
inductive Resolves (p : Package) : Context → TypeExpr → Ty → Prop
  | bound {c e n args τ} (hshape : e.shape = .named none n args) (hn : n ≠ "_")
    (hbound : c.bound n = some τ) : Resolves p c e τ
  | declared {c e n args file d τs} (hshape : e.shape = .named none n args) (hn : n ≠ "_")
    (hbound : c.bound n = none) (hown : c.isOwn) (hdeclared : DeclaresType p file n d)
    (halias : isAlias p n = false) (hargs : ResolvesAll p c args τs) : Resolves p c e (.named n τs)
  | renamed {c e n args file d τ} (hshape : e.shape = .named none n args) (hn : n ≠ "_")
    (hbound : c.bound n = none) (hown : c.isOwn) (hdeclared : DeclaresType p file n d)
    (halias : isAlias p n = true) (hparams : d.typeParams = [])
    (h : Resolves p (.ofType file d []) d.underlying τ) : Resolves p c e τ
  | predeclared {c e n args} (hshape : e.shape = .named none n args) (hbound : c.bound n = none)
    (hfree : c.isOwn → p.typeDecl? n = none) (hn : (predeclaredKind? n).isSome) :
    Resolves p c e (.basic (canonicalName n))
  | foreign {c e q n args path} (hshape : e.shape = .named (some q) n args)
    (himport : c.imports q = some path) : Resolves p c e (.foreign path n)
  | pointer {c e target τ} (hshape : e.shape = .pointer target) (h : Resolves p c target τ) :
    Resolves p c e (.pointer τ)
  | slice {c e element τ} (hshape : e.shape = .slice element) (h : Resolves p c element τ) :
    Resolves p c e (.slice τ)
  | array {c e element τ} (hshape : e.shape = .array element) (h : Resolves p c element τ) :
    Resolves p c e (.array τ)
  | map {c e key value κ τ} (hshape : e.shape = .map key value) (hkey : Resolves p c key κ)
    (hvalue : Resolves p c value τ) : Resolves p c e (.map κ τ)
  | chan {c e element τ} (hshape : e.shape = .chan element) (h : Resolves p c element τ) :
    Resolves p c e (.chan τ)
  | func {c e} (hshape : e.shape = .func) : Resolves p c e .func
  | interface {c e methods elements} (hshape : e.shape = .interface methods elements) :
    Resolves p c e .interface
  | struct {c e fields types} (hshape : e.shape = .struct fields)
    (h : ResolvesFields p c fields types) : Resolves p c e (.struct types)

/-- Each type expression stands for the type at its place. -/
inductive ResolvesAll (p : Package) : Context → List TypeExpr → List Ty → Prop
  | nil {c} : ResolvesAll p c [] []
  | cons {c e es τ τs} (h : Resolves p c e τ) (hs : ResolvesAll p c es τs) :
    ResolvesAll p c (e :: es) (τ :: τs)

/-- Each field has the type at its place. -/
inductive ResolvesFields (p : Package) :
    Context → List (String × TypeExpr) → List (String × Ty) → Prop
  | nil {c} : ResolvesFields p c [] []
  | cons {c n e fields τ types} (h : Resolves p c e τ) (hs : ResolvesFields p c fields types) :
    ResolvesFields p c ((n, e) :: fields) ((n, τ) :: types)

end

/-! ### Other packages -/

/-- What other packages declare. -/
structure Others where
  /-- The kind of a type by the path of its package and its name. -/
  kindOf? : String → String → Option ZeroKind
  /-- The type of a variable. -/
  valueOf? : String → String → Option TypeExpr
  /-- The types of the results of a function. -/
  resultsOf? : String → String → Option (List TypeExpr)
  /-- The paths of the packages in these types. -/
  pathOf? : String → Option String

/-- The context of types that other packages mention. -/
def Others.context (o : Others) : Context where
  imports := o.pathOf?
  bound _ := none
  isOwn := false

/-- Where the tables of well-known packages have an entry it is right. -/
structure Others.Known (o : Others) (p : Package) : Prop where
  kind {path n c k} (hc : Library.category? (path ++ "." ++ n) = some c)
    (hk : o.kindOf? path n = some k) : c.zeroKind? = some k
  value {path n spelled e} (hspelled : Library.variableType? (path ++ "." ++ n) = some spelled)
    (he : o.valueOf? path n = some e) : e = .ofText spelled
  results {path n spelled es}
    (hspelled : Library.functionResults? (path ++ "." ++ n) = some spelled)
    (hes : o.resultsOf? path n = some es) : es = spelled.map .ofText
  path {q path n c k} (hpath : o.pathOf? q = some path)
    (hc : Library.category? (Typing.qualifiedKey p q n) = some c) (hk : o.kindOf? path n = some k) :
    c.zeroKind? = some k

/-- Other packages that declare what the tables tell. -/
def Others.ofTables (p : Package) : Others where
  kindOf? path n := (Library.category? (path ++ "." ++ n)).bind (·.zeroKind?)
  valueOf? path n := (Library.variableType? (path ++ "." ++ n)).map .ofText
  resultsOf? path n := (Library.functionResults? (path ++ "." ++ n)).map fun spelled =>
    spelled.map .ofText
  pathOf? := p.importPath?

/-- The tables of the library know the types that they have a category for. -/
theorem Others.known_ofTables (p : Package) : (Others.ofTables p).Known p where
  kind hc hk := by
    simp only [ofTables, hc] at hk
    exact hk
  value hspelled he := by
    simp only [ofTables, hspelled] at he
    exact (Option.some.inj he).symm
  results hspelled hes := by
    simp only [ofTables, hspelled] at hes
    exact (Option.some.inj hes).symm
  path {q path n c k} hpath hc hk := by
    change p.importPath? q = some path at hpath
    rw [Typing.qualifiedKey, hpath, Option.getD_some] at hc
    simp only [ofTables, hc] at hk
    exact hk

/-! ### Zero values and underlying types -/

/-- The zero value of a type is of a kind. -/
inductive HasZero (o : Others) (p : Package) : Ty → ZeroKind → Prop
  | basic {n k} (h : predeclaredKind? n = some k) : HasZero o p (.basic n) k
  | param {n} : HasZero o p (.param n) .typeParam
  | named {n args file d τ k} (hdeclared : DeclaresType p file n d)
    (hτ : Resolves p (.ofType file d args) d.underlying τ) (h : HasZero o p τ k) :
    HasZero o p (.named n args) k
  | foreign {path n k} (h : o.kindOf? path n = some k) : HasZero o p (.foreign path n) k
  | pointer {τ} : HasZero o p (.pointer τ) .nilable
  | slice {τ} : HasZero o p (.slice τ) .nilable
  | map {κ τ} : HasZero o p (.map κ τ) .nilable
  | chan {τ} : HasZero o p (.chan τ) .nilable
  | func : HasZero o p .func .nilable
  | interface : HasZero o p .interface .nilable
  | array {τ} : HasZero o p (.array τ) .aggregate
  | struct {fields} : HasZero o p (.struct fields) .aggregate

/-- Whether the type is its own underlying type. -/
def Ty.isLiteral : Ty → Bool
  | .inner _ | .named _ _ | .foreign _ _ => false
  | _ => true

/-- The underlying type of a type. That of a type of another package is left open. -/
inductive Underlying (p : Package) : Ty → Ty → Prop
  | here {τ} (h : τ.isLiteral) : Underlying p τ τ
  | named {n args file d τ σ} (hdeclared : DeclaresType p file n d)
    (hτ : Resolves p (.ofType file d args) d.underlying τ) (h : Underlying p τ σ) :
    Underlying p (.named n args) σ

/-- A type has the zero value of its underlying type. -/
theorem Underlying.hasZero {o : Others} {p : Package} {τ σ : Ty} {k : ZeroKind}
    (h : Underlying p τ σ) (hk : HasZero o p σ k) : HasZero o p τ k := by
  induction h with
  | here => exact hk
  | named hdeclared hτ _ ih => exact .named hdeclared hτ (ih hk)

/-- A type literal is its own underlying type. -/
theorem Underlying.eq_of_isLiteral {p : Package} {τ σ : Ty} (h : Underlying p τ σ)
    (hτ : τ.isLiteral) : σ = τ := by
  cases h with
  | here => rfl
  | named => cases hτ

end Static

end GoContracts

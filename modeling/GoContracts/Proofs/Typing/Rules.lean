import GoContracts.Proofs.Scope.Visibility
import GoContracts.Proofs.Typing.Types

/-!
# Typing rules

The types that the language gives to expressions. An operand is a value of a type or an untyped
constant, which takes the type that it is used with and has a type of its own only where it is used
with none. A variable has the type of its declaration, a constant without a type stays untyped. The
rules cover the forms of expressions whose types follow from declarations; selections through
embedded fields and operations on type parameters other than arithmetic have none.
-/

namespace GoContracts.Static

open Syntax (Tree Kind)
open Syntax.Tree (preorderAll)
open Lexical (Surroundings Declaration Regular surroundings)

/-! ### Operands -/

/-- The kind of an untyped constant. -/
inductive Constant where
  | bool
  | int
  | rune
  | float
  | complex
  | string
  deriving DecidableEq, Repr

namespace Constant

/-- The name of the type that a constant has on its own. -/
def typeName : Constant → String
  | bool => "bool"
  | int => "int"
  | rune => "int32"
  | float => "float64"
  | complex => "complex128"
  | string => "string"

/-- The kind of the zero value of that type. -/
def zeroKind : Constant → ZeroKind
  | bool => .bool
  | int | rune => .integer
  | float => .float
  | complex => .complex
  | string => .string

/-- The place among the kinds of numbers. -/
def rank : Constant → Nat
  | bool | string => 0
  | int => 1
  | rune => 2
  | float => 3
  | complex => 4

/-- The kind of an operation on two constants. -/
def join (a b : Constant) : Constant := if a.rank < b.rank then b else a

/-- The kind of a shift of a constant. -/
def shifted (a : Constant) : Constant := if a = rune then rune else int

/-- The constants that are written as literals or single words. -/
def ofKind? : Kind → Option Constant
  | .trueLiteral | .falseLiteral => some bool
  | .iota | .intLiteral => some int
  | .floatLiteral => some float
  | .imaginaryLiteral => some complex
  | .runeLiteral => some rune
  | .interpretedStringLiteral | .rawStringLiteral => some string
  | _ => none

end Constant

/-- What an expression is to an operation. -/
inductive Operand where
  | typed (τ : Ty)
  | untyped (c : Constant)

namespace Operand

/-- The type of a variable that the operand initializes. -/
def type : Operand → Ty
  | typed τ => τ
  | untyped c => .basic c.typeName

/-- An untyped constant is of the kind that it has on its own. -/
def HasZero (o : Others) (p : Package) : Operand → ZeroKind → Prop
  | typed τ, k => Static.HasZero o p τ k
  | untyped c, k => k = c.zeroKind

/-- A shift of the operand. -/
def shifted : Operand → Operand
  | typed τ => typed τ
  | untyped c => untyped c.shifted

end Operand

/-- Two operands make a third one. A constant takes the type of the other operand. -/
inductive Combine : Operand → Operand → Operand → Prop
  | typed {τ} : Combine (.typed τ) (.typed τ) (.typed τ)
  | left {τ c} : Combine (.typed τ) (.untyped c) (.typed τ)
  | right {τ c} : Combine (.untyped c) (.typed τ) (.typed τ)
  | untyped {c c'} : Combine (.untyped c) (.untyped c') (.untyped (c.join c'))

/-- Operands make one, the first two first. -/
inductive CombineAll : List Operand → Operand → Prop
  | single {ω} : CombineAll [ω] ω
  | more {ω ω' ω'' ωs r} (h : Combine ω ω' ω'') (hs : CombineAll (ω'' :: ωs) r) :
    CombineAll (ω :: ω' :: ωs) r

section

variable (p : Package)

/-- A type or the one that it points to. -/
inductive Reaches : Ty → Ty → Prop
  | self {τ} : Reaches τ τ
  | target {τ σ} (h : Underlying p τ (.pointer σ)) : Reaches τ σ

/-- The type of the elements of a value with the given underlying type. A string has bytes. -/
inductive Element : Ty → Ty → Prop
  | slice {σ} : Element (.slice σ) σ
  | array {σ} : Element (.array σ) σ
  | map {κ σ} : Element (.map κ σ) σ
  | string : Element (.basic "string") (.basic "uint8")

/-- The type of the elements of an operand. A pointer to an array stands for the array. -/
inductive Indexes : Operand → Ty → Prop
  | element {τ σ ρ} (h : Underlying p τ σ) (hρ : Element σ ρ) : Indexes (.typed τ) ρ
  | pointed {τ ρ σ} (hρ : Underlying p τ (.pointer ρ)) (h : Underlying p ρ (.array σ)) :
    Indexes (.typed τ) σ
  | constant : Indexes (.untyped .string) (.basic "uint8")

/-- The type of a part of an operand. A part of an array is a slice. -/
inductive Slices : Operand → Ty → Prop
  | slice {τ σ} (h : Underlying p τ (.slice σ)) : Slices (.typed τ) τ
  | array {τ ρ σ} (hρ : Reaches p τ ρ) (h : Underlying p ρ (.array σ)) :
    Slices (.typed τ) (.slice σ)
  | string {τ} (h : Underlying p τ (.basic "string")) : Slices (.typed τ) τ
  | constant : Slices (.untyped .string) (.basic "string")

/-- The type of the keys or values of a range over a value with the given underlying type. A string
has characters at places. -/
inductive Ranged (isKey : Bool) : Ty → Ty → Prop
  | slice {σ} : Ranged isKey (.slice σ) (if isKey then .basic "int" else σ)
  | array {σ} : Ranged isKey (.array σ) (if isKey then .basic "int" else σ)
  | map {κ σ} : Ranged isKey (.map κ σ) (if isKey then κ else σ)
  | chan {σ} (h : isKey) : Ranged isKey (.chan σ) σ
  | string : Ranged isKey (.basic "string") (.basic (if isKey then "int" else "int32"))

/-- The type of the keys or values of a range over an operand. A number counts in its own type. -/
inductive Ranges (isKey : Bool) : Operand → Ty → Prop
  | ranged {τ σ ρ} (h : Underlying p τ σ) (hρ : Ranged isKey σ ρ) : Ranges isKey (.typed τ) ρ
  | pointed {τ ρ σ σ'} (hρ : Underlying p τ (.pointer ρ)) (h : Underlying p ρ (.array σ))
    (hσ : Ranged isKey (.array σ) σ') : Ranges isKey (.typed τ) σ'
  | constant : Ranges isKey (.untyped .string) (.basic (if isKey then "int" else "int32"))
  | count {τ n} (hkey : isKey) (h : Underlying p τ (.basic n))
    (hn : predeclaredKind? n = some .integer) : Ranges isKey (.typed τ) τ
  | constantCount (hkey : isKey) : Ranges isKey (.untyped .int) (.basic "int")

end

/-! ### Places -/

/-- The declaration that gives a variable its type. Where a block assigns to a name for the second
time, with `:=` and new names beside it, that is the first declaration; the body of a function and
its parameters are one block. -/
def typingDeclaration? (name : String) : List (List Declaration) → Option Declaration
  | [] => none
  | block :: outer =>
    match block.find? (·.name = name) with
    | none => typingDeclaration? name outer
    | some d =>
      let parameter? := outer.head?.bind fun block => block.find? (·.name = name)
      some ((parameter?.filter (·.form = .parameter)).getD d)

/-- Where an expression stands: at the top level of a file, or at a position in the bodies of the
functions around it. -/
structure Place where
  file : SourceFile
  position? : Option Nat
  inOrder : file.InOrder
  regular : ∀ pos ∈ position?, Regular file pos
  start : ∀ pos ∈ position?, pos ∈ (preorderAll file.tree.children).map Tree.start

namespace Place

variable (l : Place)

/-- The scope at the place. -/
def scope : Scope :=
  match l.position? with
  | none => .packageLevel l.file
  | some pos => .visibleAt l.file pos

/-- The declarations around the place. -/
def around : Surroundings :=
  match l.position? with
  | none => {}
  | some pos => surroundings l.file pos

/-- The type parameters in force. -/
def params : List String :=
  (l.around.declarations.filter (·.form = .typeParameter)).map (·.name)

/-- What the names of types refer to. -/
def context : Context where
  imports := l.file.importPath?
  bound n := (l.around.visible? n).map fun d =>
    if d.form = .typeParameter then .param n else .inner n
  isOwn := true

/-- Another place within the same file where no other type parameters are in force. -/
def SameFunction (l' : Place) : Prop := l'.file = l.file ∧ l'.params ⊆ l.params

/-- The name is not declared inside a function. -/
def IsGlobal (name : String) : Prop := name ≠ "_" ∧ l.around.visible? name = none

/-- The name is the predeclared one. -/
def IsUniversal (p : Package) (name : String) : Prop :=
  l.IsGlobal name ∧ p.typeDecl? name = none ∧ p.func? name = none ∧ p.value? name = none

end Place

/-! ### Expressions -/

/-- The expressions of a list or a single one. -/
def listed (t : Tree) : List Tree := if t.is .expressionList then t.items else [t]

/-- The operator of an expression. -/
def operatorOf (file : SourceFile) (t : Tree) : String :=
  ((t.child? .operator).map file.textOf).getD ""

/-- The arguments of a call. -/
def argumentsOf (call : Tree) : List Tree := ((call.child? .arguments).map (·.items)).getD []

/-- The name of a called function, if it is called by its name alone. -/
def calledName? (file : SourceFile) (call : Tree) : Option String :=
  ((call.child? .function).filter (·.is .identifier)).map file.textOf

/-- The type that a call converts to, if it is a conversion, with its type arguments. -/
def conversionType (file : SourceFile) (call : Tree) (name : String) : TypeExpr :=
  .mk name (.named none name
    (((call.child? .typeArguments).map fun t => TypeExpr.ofNamed file t.children).getD []))

/-- The values belong to the declaration of constants. -/
def IsConstant (file : SourceFile) (values : Tree) : Prop :=
  ∃ spec ∈ file.tree.preorder, spec.is .constSpec ∧ spec.child? .value = some values

/-- A name that is bound to a value: a constant stays untyped, a variable does not. -/
inductive Binds (file : SourceFile) (values : Tree) (ω : Operand) : Operand → Prop
  | constant (h : IsConstant file values) : Binds file values ω ω
  | value (h : ¬IsConstant file values) : Binds file values ω (.typed ω.type)

/-- The expression has two values, the second of which tells of success. -/
def HasCommaOk (file : SourceFile) (t : Tree) : Prop :=
  t.is .indexExpression ∨ t.is .typeAssertionExpression ∨
    t.is .unaryExpression ∧ operatorOf file t = "<-"

section

variable (o : Others) (p : Package)

mutual

/-- The operand that an expression with a single value is. -/
inductive Gives : Place → Tree → Operand → Prop
  | constant {l t kind c} (hkind : t.kind? = some kind) (hc : Constant.ofKind? kind = some c)
    (hfree : Lexical.isPredeclared t → l.IsUniversal p (l.file.textOf t)) : Gives l t (.untyped c)
  | name {l t ω} (hkind : t.is .identifier)
    (hword : l.file.textOf t ∉ ["true", "false", "nil", "_"])
    (h : Names l (l.file.textOf t) ω) : Gives l t ω
  | parenthesized {l t inner ω} (hkind : t.is .parenthesizedExpression)
    (hinner : t.items.head? = some inner) (h : Gives l inner ω) : Gives l t ω
  | function {l t} (hkind : t.is .funcLiteral) : Gives l t (.typed .func)
  | negation {l t operand ω} (hkind : t.is .unaryExpression) (hoperator : operatorOf l.file t = "!")
    (hoperand : t.child? .operand = some operand) (h : Gives l operand ω)
    (hbool : ∀ k, ω.HasZero o p k → k = .bool ∨ k = .typeParam) : Gives l t ω
  | sign {l t operand ω} (hkind : t.is .unaryExpression)
    (hoperator : operatorOf l.file t ∈ ["+", "-", "^"])
    (hoperand : t.child? .operand = some operand) (h : Gives l operand ω) : Gives l t ω
  | address {l t operand τ} (hkind : t.is .unaryExpression) (hoperator : operatorOf l.file t = "&")
    (hoperand : t.child? .operand = some operand) (h : Gives l operand (.typed τ)) :
    Gives l t (.typed (.pointer τ))
  | indirection {l t operand τ σ} (hkind : t.is .unaryExpression)
    (hoperator : operatorOf l.file t = "*") (hoperand : t.child? .operand = some operand)
    (h : Gives l operand (.typed τ)) (hσ : Underlying p τ (.pointer σ)) : Gives l t (.typed σ)
  | receive {l t operand τ σ} (hkind : t.is .unaryExpression)
    (hoperator : operatorOf l.file t = "<-") (hoperand : t.child? .operand = some operand)
    (h : Gives l operand (.typed τ)) (hσ : Underlying p τ (.chan σ)) : Gives l t (.typed σ)
  | comparison {l t} (hkind : t.is .binaryExpression)
    (hoperator : operatorOf l.file t ∈ ["==", "!=", "<", "<=", ">", ">="]) :
    Gives l t (.untyped .bool)
  | logical {l t left right a b ω} (hkind : t.is .binaryExpression)
    (hoperator : operatorOf l.file t ∈ ["&&", "||"]) (hleft : t.child? .left = some left)
    (hright : t.child? .right = some right) (ha : Gives l left a) (hb : Gives l right b)
    (h : Combine a b ω) (hbool : ∀ k, ω.HasZero o p k → k = .bool ∨ k = .typeParam) : Gives l t ω
  | arithmetic {l t left right a b ω} (hkind : t.is .binaryExpression)
    (hoperator : operatorOf l.file t ∈ ["+", "-", "*", "/", "%", "&", "|", "^", "&^"])
    (hleft : t.child? .left = some left) (hright : t.child? .right = some right)
    (ha : Gives l left a) (hb : Gives l right b) (h : Combine a b ω) : Gives l t ω
  | shift {l t left right a} (hkind : t.is .binaryExpression)
    (hoperator : operatorOf l.file t ∈ ["<<", ">>"]) (hleft : t.child? .left = some left)
    (hright : t.child? .right = some right) (ha : Gives l left a) : Gives l t a.shifted
  | spelled {l t type τ} (hkind : t.is .compositeLiteral ∨ t.is .typeAssertionExpression ∨
      t.is .typeConversionExpression) (htype : t.child? .type = some type)
    (h : Resolves p l.context (.ofTree l.file type) τ) : Gives l t (.typed τ)
  | call {l t ω} (hkind : t.is .callExpression) (h : Calls l t [ω]) : Gives l t ω
  | imported {l t operand field path e τ} (hkind : t.is .selectorExpression)
    (hoperand : t.child? .operand = some operand) (hfield : t.child? .field = some field)
    (hident : operand.is .identifier) (hglobal : l.IsGlobal (l.file.textOf operand))
    (hvalue : p.value? (l.file.textOf operand) = none)
    (himport : l.file.importPath? (l.file.textOf operand) = some path)
    (he : o.valueOf? path (l.file.textOf field) = some e) (h : Resolves p o.context e τ) :
    Gives l t (.typed τ)
  | field {l t operand field τ ρ fields σ} (hkind : t.is .selectorExpression)
    (hoperand : t.child? .operand = some operand) (hfield : t.child? .field = some field)
    (h : Gives l operand (.typed τ)) (hρ : Reaches p τ ρ)
    (hfields : Underlying p ρ (.struct fields))
    (hσ : fields.lookup (l.file.textOf field) = some σ) : Gives l t (.typed σ)
  | index {l t operand ω σ} (hkind : t.is .indexExpression)
    (hoperand : t.child? .operand = some operand) (h : Gives l operand ω) (hσ : Indexes p ω σ) :
    Gives l t (.typed σ)
  | slice {l t operand ω σ} (hkind : t.is .sliceExpression)
    (hoperand : t.child? .operand = some operand) (h : Gives l operand ω) (hσ : Slices p ω σ) :
    Gives l t (.typed σ)

/-- The operand that the name of a variable or constant is. -/
inductive Names : Place → String → Operand → Prop
  | declared {l name d b type τ} (hd : typingDeclaration? name l.around.blocks = some d)
    (hb : d.binding? = some b) (horigin : b.origin = .declared type)
    (h : Resolves p l.context type τ) : Names l name (.typed τ)
  | assigned {l name d ω} (hd : typingDeclaration? name l.around.blocks = some d)
    (h : Assigns l d ω) : Names l name ω
  | ranged {l l' name d b t isKey a τ} (hd : typingDeclaration? name l.around.blocks = some d)
    (hb : d.binding? = some b) (horigin : b.origin = if isKey then .rangeKey t else .rangeValue t)
    (hplace : l'.position? = some t.start) (hsame : l.SameFunction l') (h : Gives l' t a)
    (hτ : Ranges p isKey a τ) : Names l name (.typed τ)
  | globalDeclared {l name file type τ} (hglobal : l.IsGlobal name)
    (hdeclared : DeclaresValue p file name (.declared type))
    (h : Resolves p ⟨file.importPath?, fun _ => none, true⟩ type τ) : Names l name (.typed τ)
  | globalValue {l l' name number values index count ωs a ω} (hglobal : l.IsGlobal name)
    (hvalue : p.value? name = some (.inferred number values index count))
    (hfile : p.files[number]? = some l'.file) (hplace : l'.position? = none)
    (hvalues : Yields l' (values.smallestAt values.start values.stop) ωs)
    (hcount : ωs.length = count) (ha : ωs[index]? = some a) (h : Binds l'.file values a ω) :
    Names l name ω

/-- The operand that a declaration binds its name to. -/
inductive Assigns : Place → Declaration → Operand → Prop
  | value {l l' d b values index count ωs a ω} (hb : d.binding? = some b)
    (horigin : b.origin = .value values index count) (hplace : l'.position? = some values.start)
    (hsame : l.SameFunction l') (hvalues : Yields l' values ωs) (hcount : ωs.length = count)
    (ha : ωs[index]? = some a) (h : Binds l.file values a ω) : Assigns l d ω
  | commaOk {l l' d b values index e a} (hb : d.binding? = some b)
    (horigin : b.origin = .value values index 2) (hplace : l'.position? = some values.start)
    (hsame : l.SameFunction l') (he : listed values = [e]) (hok : HasCommaOk l.file e)
    (h : Gives l' e a) : Assigns l d (.typed (if index = 0 then a.type else .basic "bool"))

/-- The operands that the results of a call are. -/
inductive Calls : Place → Tree → List Operand → Prop
  | conversion {l t name τ} (hname : calledName? l.file t = some name)
    (hvariable : ∀ d, l.around.visible? name = some d → d.form = .typeParameter)
    (hfree : p.func? name = none ∧ p.value? name = none)
    (h : Resolves p l.context (conversionType l.file t name) τ) : Calls l t [.typed τ]
  | function {l t name file s bound τs} (hname : calledName? l.file t = some name)
    (hglobal : l.IsGlobal name) (hdeclared : DeclaresFunction p file name s)
    (hbound : ∀ n σ, bound n = some σ → ∃ q ∈ s.typeParams, q.name = n)
    (h : ResolvesAll p ⟨file.importPath?, bound, true⟩ (s.results.map (·.type)) τs) :
    Calls l t (τs.map .typed)
  | method {l t f operand field τ name args file s τs} (hf : t.child? .function = some f)
    (hselector : f.is .selectorExpression) (hoperand : f.child? .operand = some operand)
    (hfield : f.child? .field = some field) (hreceiver : Gives l operand (.typed τ))
    (hτ : τ = .named name args ∨ τ = .pointer (.named name args))
    (hdeclared : DeclaresMethod p file name (l.file.textOf field) s)
    (h : ResolvesAll p ⟨file.importPath?, bindReceiver s args, true⟩ (s.results.map (·.type)) τs) :
    Calls l t (τs.map .typed)
  | imported {l t f operand field path es τs} (hf : t.child? .function = some f)
    (hselector : f.is .selectorExpression) (hoperand : f.child? .operand = some operand)
    (hfield : f.child? .field = some field) (hident : operand.is .identifier)
    (hglobal : l.IsGlobal (l.file.textOf operand))
    (hvalue : p.value? (l.file.textOf operand) = none)
    (himport : l.file.importPath? (l.file.textOf operand) = some path)
    (hes : o.resultsOf? path (l.file.textOf field) = some es) (h : ResolvesAll p o.context es τs) :
    Calls l t (τs.map .typed)
  | new {l t e τ} (hname : calledName? l.file t = some "new") (huniversal : l.IsUniversal p "new")
    (he : (argumentsOf t).head? = some e) (h : Resolves p l.context (.ofTree l.file e) τ) :
    Calls l t [.typed (.pointer τ)]
  | make {l t e τ} (hname : calledName? l.file t = some "make")
    (huniversal : l.IsUniversal p "make") (he : (argumentsOf t).head? = some e)
    (h : Resolves p l.context (.ofTree l.file e) τ) : Calls l t [.typed τ]
  | size {l t name} (hname : calledName? l.file t = some name)
    (hsize : name ∈ ["len", "cap", "copy"]) (huniversal : l.IsUniversal p name) :
    Calls l t [.typed (.basic "int")]
  | append {l t e τ} (hname : calledName? l.file t = some "append")
    (huniversal : l.IsUniversal p "append") (he : (argumentsOf t).head? = some e)
    (h : Gives l e (.typed τ)) : Calls l t [.typed τ]
  | extremum {l t name ωs ω} (hname : calledName? l.file t = some name)
    (hextremum : name ∈ ["min", "max"]) (huniversal : l.IsUniversal p name)
    (hωs : GivesAll l (argumentsOf t) ωs) (h : CombineAll ωs ω) : Calls l t [ω]
  | recover {l t} (hname : calledName? l.file t = some "recover")
    (huniversal : l.IsUniversal p "recover") : Calls l t [.typed (.basic "any")]

/-- The operands that expressions are, in order. -/
inductive GivesAll : Place → List Tree → List Operand → Prop
  | nil {l} : GivesAll l [] []
  | cons {l t ts ω ωs} (h : Gives l t ω) (hs : GivesAll l ts ωs) : GivesAll l (t :: ts) (ω :: ωs)

/-- The operands that the values of an expression or a list of expressions are. A single call may
have any number of them. -/
inductive Yields : Place → Tree → List Operand → Prop
  | call {l t call ωs} (ht : listed t = [call]) (hkind : call.is .callExpression)
    (h : Calls l call ωs) : Yields l t ωs
  | each {l t ωs} (ht : ∀ e, listed t = [e] → e.is .callExpression = false)
    (h : GivesAll l (listed t) ωs) : Yields l t ωs

end

end

end GoContracts.Static

import GoContracts.Scope.Basic

/-!
# Lexical scoping

Which declarations are in force at a position of a file, by the rules of the language and for all of
its forms of declaration. A traversal goes from the root of the tree down to the position and opens
a block for each node on its way, which holds what the parts of the node before the position
declare. The innermost block that declares a name has the declaration in force, and of several in
one block it is the last one.
-/

namespace GoContracts.Lexical

open Syntax (Tree Kind)

/-- The forms of a declaration inside a function. -/
inductive Form where
  /-- A receiver, a parameter or a named result. -/
  | parameter
  | typeParameter
  /-- A target of `:=`, be it a statement or the initializer of one. -/
  | assigned
  /-- A variable or constant with a type or values of its own. -/
  | specified
  /-- A key or value of a range. -/
  | ranged
  /-- Any form behind a label. -/
  | labelled
  /-- A constant that repeats the values of the one before it. -/
  | repeated
  | typeName
  /-- The variable of a switch over types. -/
  | examined
  /-- A variable that a communication receives. -/
  | received
  /-- Any form, seen from a later part of the same header or group. -/
  | early
  /-- A name that is the word of a predeclared constant. -/
  | predeclared
  /-- A name in a list in which a comma or a comment is counted as well. -/
  | miscounted
  deriving DecidableEq, Repr

/-- Whether a scope takes note of the declarations of a form, as they are. -/
def Form.isPlain : Form → Bool
  | parameter | assigned | specified | ranged => true
  | typeParameter | labelled | repeated | typeName | examined | received | early | predeclared
  | miscounted => false

/-- A declaration of a name. -/
structure Declaration where
  name : String
  form : Form
  /-- The binding that a scope holds for it. -/
  binding? : Option Binding
  named : ∀ b, binding? = some b → b.name = name
  noted : form.isPlain → binding?.isSome

namespace Declaration

/-- A declaration of a form of which a scope takes no note. -/
def overlooked (name : String) (form : Form) (h : form.isPlain = false) : Declaration where
  name := name
  form := form
  binding? := none
  named _ hb := nomatch hb
  noted hplain := absurd hplain (Bool.eq_false_iff.mp h)

/-- The declaration of a form of which a scope takes note. -/
def bound (form : Form) (b : Binding) : Declaration where
  name := b.name
  form := form
  binding? := some b
  named _ h := congrArg Binding.name (Option.some.inj h).symm
  noted _ := rfl

/-- The binding of a declaration of the given name. -/
def boundAs? (name : String) (d : Declaration) : Option Binding :=
  if d.name = name then d.binding? else none

end Declaration

/-! ### Single declarations -/

/-- Whether the tree is the word of a predeclared constant, which may be declared anew. -/
def isPredeclared (t : Tree) : Bool :=
  t.is .nilLiteral || t.is .trueLiteral || t.is .falseLiteral || t.is .iota

/-- Whether the tree may be declared. -/
def isTarget (t : Tree) : Bool := t.is .identifier || isPredeclared t

section

variable (file : SourceFile)

/-- The declaration of a target. The blank is never declared. -/
def target? (form : Form) (t : Tree) (origin : Origin) : Option Declaration :=
  if isPredeclared t then some (.overlooked (file.textOf t) .predeclared (by decide))
  else (Scope.bind? file t origin).map (.bound form)

/-- The declaration of a name by a form of which a scope takes no note. -/
def unbound? (form : Form) (h : form.isPlain = false) (t : Tree) : Option Declaration :=
  if t.isNamed && !t.isComment && file.textOf t ≠ "_" then
    some (.overlooked (file.textOf t) form h)
  else none

/-- The form of the targets of a list. -/
def listForm (form : Form) (targets : List Tree) : Form :=
  if targets.all isTarget then form else .miscounted

/-- The declarations of targets that share a list of values. -/
def valueDeclarations (form : Form) (targets : List Tree) (values : Tree) : List Declaration :=
  targets.zipIdx.filterMap fun (t, index) =>
    target? file (listForm form targets) t (.value values index targets.length)

/-- The declarations of a specification of variables or constants. -/
def specDeclarations (spec : Tree) : List Declaration :=
  let names := spec.childrenIn .name
  match spec.child? .type, spec.child? .value with
  | some type, _ => names.filterMap fun t =>
    target? file .specified t (.declared (.ofTree file type))
  | none, some values => valueDeclarations file .specified names values
  | none, none => names.filterMap (unbound? file .repeated (by decide))

/-- The declarations of a range clause. -/
def rangeDeclarations (clause : Tree) : List Declaration :=
  match clause.child? .left, clause.child? .right with
  | some left, some right =>
    let targets := left.namedChildren
    let form := listForm .ranged targets
    (targets.head?.bind fun t => target? file form t (.rangeKey right)).toList ++
      (targets[1]?.bind fun t => target? file form t (.rangeValue right)).toList
  | _, _ => []

/-- Whether a statement or clause declares its targets instead of assigning to them. -/
def declares (t : Tree) : Bool := t.children.any (·.isToken ":=")

/-- The declarations that an unlabelled statement makes in the block around it. -/
def unlabelledDeclarations (statement : Tree) : List Declaration :=
  match statement.kind? with
  | some .shortVarDeclaration =>
    match statement.child? .left, statement.child? .right with
    | some left, some right => valueDeclarations file .assigned left.namedChildren right
    | _, _ => []
  | some .varDeclaration | some .constDeclaration =>
    (Syntax.valueSpecs statement).flatMap (specDeclarations file)
  | some .typeDeclaration =>
    statement.namedChildren.filterMap fun spec =>
      (spec.child? .name).bind (unbound? file .typeName (by decide))
  | some .receiveStatement =>
    if declares statement then
      (statement.child? .left).toList.flatMap fun left =>
        left.namedChildren.filterMap (unbound? file .received (by decide))
    else []
  | _ => []

mutual

/-- The statement behind all labels. -/
def unlabelled : Tree → Tree
  | .mk label role? start stop children =>
    if label = .node .labeledStatement then
      (lastUnlabelled children).getD (.mk label role? start stop children)
    else .mk label role? start stop children

/-- The last of the trees without its labels. -/
def lastUnlabelled : List Tree → Option Tree
  | [] => none
  | t :: ts => (lastUnlabelled ts).or (some (unlabelled t))

end

/-- The declarations that a statement makes in the block around it. -/
def statementDeclarations (statement : Tree) : List Declaration :=
  if statement.is .labeledStatement then
    (unlabelledDeclarations file (unlabelled statement)).map fun d =>
      .overlooked d.name .labelled (by decide)
  else unlabelledDeclarations file statement

/-! ### Blocks -/

variable (pos : Nat)

/-- Whether the tree holds the position. -/
def holds (t : Tree) : Bool := t.start ≤ pos && pos < t.stop

/-- Whether the tree is a function with the position in its body. -/
def isEntered (t : Tree) : Bool :=
  t.kind?.any Kind.isFunction && (t.child? .body).any (holds pos)

/-- The declarations of the type parameters and parameters of a function. -/
def parameterDeclarations (function : Tree) : List Declaration :=
  let signature := Signature.ofFunction file function
  (signature.typeParams.filter (·.name ≠ "_")).map
      (fun t => .overlooked t.name .typeParameter (by decide)) ++
    ((Scope.paramBindings signature.allParams).filter (·.name ≠ "_")).map (.bound .parameter)

/-- The children before the position. -/
def before (t : Tree) : List Tree := t.namedChildren.filter (·.stop ≤ pos)

/-- The declarations of an initializer before the position. -/
def initialDeclarations (statement : Tree) : List Declaration :=
  ((statement.child? .initializer).filter (·.stop ≤ pos)).toList.flatMap
    (statementDeclarations file)

/-- The declarations of the header of a loop before the position. -/
def headerDeclarations (loop : Tree) : List Declaration :=
  (before pos loop).flatMap fun clause =>
    if clause.is .rangeClause then (if declares clause then rangeDeclarations file clause else [])
    else if clause.is .forClause then
      (clause.child? .initializer).toList.flatMap (statementDeclarations file)
    else []

/-- The declarations of the variable of a switch over types, which the clauses behind its value
see. -/
def examinedDeclarations (switch : Tree) : List Declaration :=
  if (switch.child? .value).any (·.stop ≤ pos) then
    (switch.child? .alias).toList.flatMap fun targets =>
      targets.namedChildren.filterMap (unbound? file .examined (by decide))
  else []

/-- Whether the tree groups specifications, each of which the later ones see. -/
def isGroup (t : Tree) : Bool :=
  t.is .constDeclaration || t.is .varSpecList || t.is .typeDeclaration

/-- The declaration as a later part of the same header or group sees it. -/
def asEarly (d : Declaration) : Declaration := .overlooked d.name .early (by decide)

/-- The declarations of one specification of a group. -/
def groupedDeclarations (spec : Tree) : List Declaration :=
  (if Syntax.isValueSpec spec then specDeclarations file spec
    else (spec.child? .name).toList.filterMap (unbound? file .typeName (by decide))).map asEarly

/-- What the parts of a node before the position declare, with one list for what is declared
together. -/
def partsBefore (node : Tree) : List (List Declaration) :=
  match node.kind? with
  | none => []
  | some kind =>
    if kind.listsStatements then (before pos node).map (statementDeclarations file)
    else if kind.isFunction then
      if isEntered pos node then [parameterDeclarations file node] else []
    else
      match kind with
      | .ifStatement | .expressionSwitchStatement => [initialDeclarations file pos node]
      | .typeSwitchStatement =>
        [initialDeclarations file pos node, examinedDeclarations file pos node]
      | .forStatement => [headerDeclarations file pos node]
      | .forClause => [(initialDeclarations file pos node).map asEarly]
      | .constDeclaration | .varSpecList | .typeDeclaration =>
        (before pos node).map (groupedDeclarations file)
      | .typeSpec | .typeAlias =>
        [((node.child? .name).filter (·.stop ≤ pos)).toList.filterMap
          (unbound? file .early (by decide))]
      | _ => []

/-! ### The traversal -/

/-- What surrounds a position. -/
structure Surroundings where
  /-- The blocks around the position, the innermost first, each in the order of declaration. -/
  blocks : List (List Declaration) := []
  /-- The innermost function that has the position in its body. -/
  function? : Option Tree := none

/-- What surrounds the position inside a node. Specifications outside all functions declare nothing
local. -/
def Surroundings.enter (s : Surroundings) (node : Tree) : Surroundings where
  blocks :=
    (if s.function?.isNone && (isGroup node || node.is .typeSpec || node.is .typeAlias) then []
      else (partsBefore file pos node).flatten) :: s.blocks
  function? := if isEntered pos node then some node else s.function?

mutual

/-- Enter a node and, inside it, the nodes that hold the position. -/
def descend (s : Surroundings) : Tree → Surroundings
  | .mk label role? start stop children =>
    descendAmong (s.enter file pos (.mk label role? start stop children)) children

/-- Enter the one of the trees that holds the position. -/
def descendAmong (s : Surroundings) : List Tree → Surroundings
  | [] => s
  | t :: ts => if holds pos t then descend s t else descendAmong s ts

end

/-- What surrounds a position of a file. -/
def surroundings : Surroundings := descend file pos {} file.tree

end

namespace Surroundings

variable (s : Surroundings)

/-- The declaration of a name that is in force. -/
def visible? (name : String) : Option Declaration :=
  s.blocks.findSome? fun block => block.reverse.find? (·.name = name)

/-- All declarations, from the one that comes first for each name to those that it hides. -/
def declarations : List Declaration := s.blocks.flatMap List.reverse

end Surroundings

end GoContracts.Lexical

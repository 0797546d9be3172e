import GoContracts.Scope.Signature
import GoContracts.Syntax.SourceFile

/-!
# Scopes

What is visible at a position inside a function: the parameters and the locals declared before it,
innermost first, and the signature of the innermost function around it.
-/

namespace GoContracts

open Syntax (Tree Kind)

/-- Where a visible name has its type from. -/
inductive Origin where
  /-- The type is written down. -/
  | declared (type : TypeExpr)
  /-- The name is number `index` of `count` names that are bound to the values. -/
  | value (values : Tree) (index count : Nat)
  /-- The key of a range over an expression. -/
  | rangeKey (ranged : Tree)
  /-- The value of a range over an expression. -/
  | rangeValue (ranged : Tree)
  deriving Repr

/-- A visible name. -/
structure Binding where
  name : String
  origin : Origin
  deriving Repr

/-- What is visible at a position. -/
structure Scope where
  file : SourceFile
  /-- The signature of the innermost function. -/
  signature? : Option Signature := none
  /-- The visible names, innermost first. -/
  bindings : List Binding := []
  deriving Repr

namespace Scope

/-- The scope outside all functions: no local name is visible. -/
def packageLevel (file : SourceFile) : Scope := { file }

/-- The binding of a target, if it is an identifier other than the blank one. -/
def bind? (file : SourceFile) (target : Tree) (origin : Origin) : Option Binding :=
  if target.is .identifier then
    let name := file.textOf target
    if name = "_" then none else some { name, origin }
  else none

/-- The bindings of targets that share a list of values. -/
def bindValues (file : SourceFile) (targets : List Tree) (values : Tree) : List Binding :=
  targets.zipIdx.filterMap fun (target, index) =>
    bind? file target (.value values index targets.length)

/-- The names that a specification of variables or constants declares. -/
def specBindings (file : SourceFile) (spec : Tree) : List Binding :=
  let names := spec.childrenIn .name
  match spec.child? .type, spec.child? .value with
  | some type, _ =>
    let type := TypeExpr.ofTree file type
    names.filterMap fun name => bind? file name (.declared type)
  | none, some values => bindValues file names values
  | none, none => []

/-- The names that a statement declares in the block around it. -/
def statementBindings (file : SourceFile) (statement : Tree) : List Binding :=
  match statement.kind? with
  | some .shortVarDeclaration =>
    match statement.child? .left, statement.child? .right with
    | some left, some right => bindValues file left.namedChildren right
    | _, _ => []
  | some .varDeclaration | some .constDeclaration =>
    (Syntax.valueSpecs statement).flatMap (specBindings file)
  | _ => []

/-- The names that a range clause binds. -/
def rangeBindings (file : SourceFile) (clause : Tree) : List Binding :=
  match clause.child? .left, clause.child? .right with
  | some left, some right =>
    let names := left.namedChildren
    (names.head?.bind fun key => bind? file key (.rangeKey right)).toList ++
      (names[1]?.bind fun value => bind? file value (.rangeValue right)).toList
  | _, _ => []

/-- The names of parameters. -/
def paramBindings (params : List Param) : List Binding :=
  params.filterMap fun param =>
    param.name?.map fun name => { name, origin := .declared param.type }

/-- The names that a node around a position declares before that position. -/
def bindingsOf (file : SourceFile) (position : Nat) (node : Tree) : List Binding :=
  match node.kind? with
  | none => []
  | some kind =>
    if kind.listsStatements then
      ((node.namedChildren.filter (·.stop ≤ position)).reverse).flatMap (statementBindings file)
    else if kind.isFunction then paramBindings (Signature.ofFunction file node).allParams
    else
      match kind with
      | .ifStatement | .expressionSwitchStatement | .typeSwitchStatement =>
        match node.child? .initializer with
        | some first => if first.stop ≤ position then statementBindings file first else []
        | none => []
      | .forStatement =>
        (node.namedChildren.filter (·.stop ≤ position)).flatMap fun clause =>
          if clause.is .rangeClause then rangeBindings file clause
          else if clause.is .forClause then
            ((clause.child? .initializer).map (statementBindings file)).getD []
          else []
      | _ => []

/-- The nodes around the smallest one at a position, from the inside out. -/
def ancestorsAt (file : SourceFile) (position : Nat) : List Tree :=
  (file.tree.pathTo position position).dropLast.reverse

/-- What is visible at a position. -/
def visibleAt (file : SourceFile) (position : Nat) : Scope :=
  let around := ancestorsAt file position
  { file
    signature? := (around.find? fun node => node.kind?.any Kind.isFunction).map
      (Signature.ofFunction file)
    bindings := around.flatMap (bindingsOf file position) }

/-- The innermost binding of a name. -/
def lookup? (s : Scope) (name : String) : Option Binding := s.bindings.find? (·.name = name)

/-- The type parameter of the innermost function with the given name. -/
def typeParam? (s : Scope) (name : String) : Option TypeParam :=
  s.signature?.bind fun signature => signature.typeParams.find? (·.name = name)

end Scope

end GoContracts

import GoContracts.TypeExpr.OfTree

/-!
# Signatures

The parameters and results of functions, methods and function literals.
-/

namespace GoContracts

open Syntax (Tree)

/-- A parameter or result. -/
structure Param where
  name? : Option String
  type : TypeExpr
  deriving Repr, Inhabited

/-- A type parameter. One that a receiver introduces has no constraint of its own. -/
structure TypeParam where
  name : String
  constraint? : Option TypeExpr
  deriving Repr, Inhabited

/-- The signature of a function, method or function literal. -/
structure Signature where
  typeParams : List TypeParam := []
  receiver? : Option Param := none
  params : List Param := []
  results : List Param := []
  deriving Repr, Inhabited

namespace Signature

/-- One parameter for each name, or a single one without a name. -/
def paramsNamed (names : List String) (type : TypeExpr) : List Param :=
  if names.isEmpty then [{ name? := none, type }]
  else names.map fun name => { name? := some name, type }

/-- The parameters of a list, one for each declared name. A variadic parameter is a slice. -/
def paramsOf (file : SourceFile) (list : Tree) : List Param :=
  list.namedChildren.flatMap fun declaration =>
    let variadic := declaration.is .variadicParameterDeclaration
    if variadic || declaration.is .parameterDeclaration then
      match declaration.child? .type with
      | none => []
      | some node =>
        let type := TypeExpr.ofTree file node
        paramsNamed ((declaration.childrenIn .name).map file.textOf)
          (if variadic then .sliceOf type else type)
    else []

/-- The type parameters of a list, one for each declared name. -/
def typeParamsOf (file : SourceFile) (list : Tree) : List TypeParam :=
  list.namedChildren.flatMap fun declaration =>
    if declaration.is .typeParameterDeclaration || declaration.is .parameterDeclaration then
      let constraint? := (declaration.child? .type).map (TypeExpr.ofTree file)
      (declaration.childrenIn .name).map fun name => { name := file.textOf name, constraint? }
    else []

/-- The results of a function. -/
def resultsOf (file : SourceFile) (function : Tree) : List Param :=
  match function.child? .result with
  | none => []
  | some result =>
    if result.is .parameterList then paramsOf file result
    else [{ name? := none, type := TypeExpr.ofTree file result }]

/-- The type parameters that the type of a receiver introduces. -/
def receiverTypeParams (receiver : Param) : List TypeParam :=
  receiver.type.baseArgs.filterMap fun arg =>
    arg.localName?.map fun name => { name, constraint? := none }

/-- The signature of a function declaration, method declaration or function literal. -/
def ofFunction (file : SourceFile) (function : Tree) : Signature :=
  let receiver? := (function.child? .receiver).bind fun list => (paramsOf file list).head?
  { typeParams :=
      ((function.child? .typeParameters).map (typeParamsOf file)).getD [] ++
        (receiver?.map receiverTypeParams).getD []
    receiver?
    params := ((function.child? .parameters).map (paramsOf file)).getD []
    results := resultsOf file function }

/-- Whether there are results and each of them has a name. -/
def resultsAllNamed (s : Signature) : Bool :=
  !s.results.isEmpty && s.results.all (·.name?.isSome)

/-- The receiver, the parameters and the results. -/
def allParams (s : Signature) : List Param := s.receiver?.toList ++ s.params ++ s.results

end Signature

end GoContracts

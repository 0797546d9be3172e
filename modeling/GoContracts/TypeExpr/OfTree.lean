import GoContracts.Syntax.SourceFile
import GoContracts.TypeExpr.Basic

/-!
# Reading types from syntax trees
-/

namespace GoContracts.TypeExpr

open Syntax (Tree Kind Role)

/-- The names of the methods among the members of an interface, with the spelling of what follows
each name. -/
def methodsOf (file : SourceFile) (members : List Tree) : List (String × String) :=
  members.filterMap fun member =>
    if member.is .methodElem then
      (member.child? .name).map fun name =>
        (file.textOf name, Text.collapseBlanks (Text.slice file.text name.stop member.stop))
    else none

/-- The name of an embedded field: that of its type. -/
def embeddedName (type : TypeExpr) : String := type.baseName?.getD type.text

/-- Whether a tree is an item: named and no comment. -/
def isItem (t : Tree) : Bool := t.isNamed && !t.isComment

mutual

/-- The type that a tree spells. -/
def ofTree (file : SourceFile) : Tree → TypeExpr
  | .mk (.node k) role start stop cs =>
    let text := file.textOf (.mk (.node k) role start stop cs)
    match k with
    | .typeIdentifier | .identifier | .packageIdentifier => mk text (.named none text [])
    | .qualifiedType =>
      mk text (.named ((cs.find? (·.role? = some .package)).map file.textOf)
        (((cs.find? (·.role? = some .name)).map file.textOf).getD "") [])
    | .genericType =>
      match (ofRole file .type cs).shape with
      | .named qualifier name _ => mk text (.named qualifier name (argumentsOf file cs))
      | _ => mk text .unknown
    | .pointerType => mk text (.pointer (ofFirst file cs))
    | .sliceType => mk text (.slice (ofRole file .element cs))
    | .arrayType | .implicitLengthArrayType => mk text (.array (ofRole file .element cs))
    | .mapType => mk text (.map (ofRole file .key cs) (ofRole file .value cs))
    | .channelType => mk text (.chan (ofRole file .value cs))
    | .functionType => mk text .func
    | .interfaceType => mk text (.interface (methodsOf file cs) (embeddedOf file cs))
    | .structType => mk text (.struct (fieldsOf file cs))
    | .parenthesizedType => ofFirst file cs
    | .negatedType => mk text (.approx (ofFirst file cs))
    | .typeElem | .typeConstraint =>
      match termsOf file cs with
      | [term] => term
      | terms => mk text (.union terms)
    | _ => mk text .unknown
  | t => unknown (file.textOf t)

/-- The type of the first tree in the given role. -/
def ofRole (file : SourceFile) (r : Role) : List Tree → TypeExpr
  | [] => unknown ""
  | t :: ts => if t.role? = some r then ofTree file t else ofRole file r ts

/-- The type of the first item. -/
def ofFirst (file : SourceFile) : List Tree → TypeExpr
  | [] => unknown ""
  | t :: ts => if isItem t then ofTree file t else ofFirst file ts

/-- The types of all named trees. -/
def ofNamed (file : SourceFile) : List Tree → List TypeExpr
  | [] => []
  | t :: ts => if t.isNamed then ofTree file t :: ofNamed file ts else ofNamed file ts

/-- The arguments of a generic type among its parts. -/
def argumentsOf (file : SourceFile) : List Tree → List TypeExpr
  | [] => []
  | .mk _ role _ _ cs :: ts =>
    if role = some .typeArguments then ofNamed file cs
    else argumentsOf file ts

/-- The terms of a type element among its parts. -/
def termsOf (file : SourceFile) : List Tree → List TypeExpr
  | [] => []
  | .mk l role start stop cs :: ts =>
    if l = .node .typeElem then termsOf file cs ++ termsOf file ts
    else if isItem (.mk l role start stop cs) then
      ofTree file (.mk l role start stop cs) :: termsOf file ts
    else termsOf file ts

/-- The types embedded in an interface. -/
def embeddedOf (file : SourceFile) : List Tree → List TypeExpr
  | [] => []
  | t :: ts =>
    if isItem t && !t.is .methodElem then ofTree file t :: embeddedOf file ts
    else embeddedOf file ts

/-- The fields of a struct, from the first list of fields among its parts. -/
def fieldsOf (file : SourceFile) : List Tree → List (String × TypeExpr)
  | [] => []
  | .mk l _ _ _ cs :: ts =>
    if l = .node .fieldDeclarationList then declaredFields file cs else fieldsOf file ts

/-- The fields that the declarations of a list declare. -/
def declaredFields (file : SourceFile) : List Tree → List (String × TypeExpr)
  | [] => []
  | .mk l _ _ _ cs :: ts =>
    if l = .node .fieldDeclaration && cs.any (·.role? = some .type) then
      let type := ofRole file .type cs
      let names := (cs.filter (·.role? = some .name)).map file.textOf
      (if names.isEmpty then [embeddedName type] else names).map (fun name => (name, type)) ++
        declaredFields file ts
    else declaredFields file ts

end

end GoContracts.TypeExpr

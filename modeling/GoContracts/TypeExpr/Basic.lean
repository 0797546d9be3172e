/-!
# Type expressions

A type expression keeps the spelling of a type, which generated code repeats, beside the coarse
shape by which it is classified.
-/

namespace GoContracts

mutual

/-- A type with its spelling. -/
inductive TypeExpr where
  | mk (text : String) (shape : Shape)

/-- The shape of a type. -/
inductive Shape where
  /-- A type name, with the package it is qualified by and its type arguments. -/
  | named (qualifier? : Option String) (name : String) (args : List TypeExpr)
  | pointer (target : TypeExpr)
  | slice (element : TypeExpr)
  | array (element : TypeExpr)
  | map (key value : TypeExpr)
  | chan (element : TypeExpr)
  | func
  /-- Method names with the spelling of what follows them, and the embedded types. -/
  | interface (methods : List (String × String)) (elements : List TypeExpr)
  /-- Field names with their types; an embedded field has the name of its type. -/
  | struct (fields : List (String × TypeExpr))
  /-- Types separated by `|` in a constraint. -/
  | union (terms : List TypeExpr)
  /-- All types with the given underlying type. -/
  | approx (type : TypeExpr)
  | unknown

end

deriving instance Repr for TypeExpr, Shape

namespace TypeExpr

/-- The spelling of a type. -/
def text : TypeExpr → String
  | mk t _ => t

/-- The shape of a type. -/
def shape : TypeExpr → Shape
  | mk _ s => s

/-- The type of an unqualified name. -/
def named (name : String) : TypeExpr := mk name (.named none name [])

/-- A type of which the spelling only is known. -/
def unknown (text : String) : TypeExpr := mk text .unknown

instance : Inhabited TypeExpr := ⟨unknown ""⟩

/-- The pointer to a type. -/
def pointerTo (target : TypeExpr) : TypeExpr := mk ("*" ++ target.text) (.pointer target)

/-- The slice of a type. -/
def sliceOf (element : TypeExpr) : TypeExpr := mk ("[]" ++ element.text) (.slice element)

/-- The name of an unqualified named type. -/
def localName? (t : TypeExpr) : Option String :=
  match t.shape with
  | .named none name _ => some name
  | _ => none

/-- The type without one pointer around it. -/
def deref (t : TypeExpr) : TypeExpr :=
  match t.shape with
  | .pointer target => target
  | _ => t

/-- The name of the type behind at most one pointer, qualified or not. -/
def baseName? (t : TypeExpr) : Option String :=
  match t.deref.shape with
  | .named _ name _ => some name
  | _ => none

/-- The arguments of the named type behind at most one pointer. -/
def baseArgs (t : TypeExpr) : List TypeExpr :=
  match t.deref.shape with
  | .named _ _ args => args
  | _ => []

end TypeExpr

end GoContracts

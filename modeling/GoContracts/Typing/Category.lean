import GoContracts.TypeExpr.Basic

/-!
# Categories of types

The category of a type says how its zero value is written and tested.
-/

namespace GoContracts

/-- The category of a type by its zero value. -/
inductive Category where
  /-- A pointer, slice, map, channel, function or interface. -/
  | nilable
  | string
  | integer
  | float
  | complex
  | bool
  /-- A struct or array. -/
  | aggregate (comparable : Bool)
  /-- A type parameter. It is comparable if its constraint allows `==`. -/
  | typeParam (comparable : Bool)
  | unknown
  deriving DecidableEq, Repr

/-- What the zero value of a category is called in messages. -/
def Category.zeroName : Category → String
  | nilable | unknown => "nil"
  | string => "empty string"
  | integer | float | complex => "zero"
  | bool => "false"
  | aggregate _ | typeParam _ => "zero value"

/-- A type with its category. -/
structure TypeInfo where
  type : TypeExpr
  category : Category
  deriving Repr

end GoContracts

import GoContracts.Typing.Category

/-!
# Zero values

How the zero value of a type is written, and the condition that a variable holds it. Where `==` is
not defined or the variable's type decides nothing about it, the value is inspected at run time.
-/

namespace GoContracts

/-- A test whether a variable holds the zero value of its type. -/
structure ZeroCheck where
  /-- The condition that holds exactly then. -/
  condition : String
  /-- What messages call the value. -/
  description : String
  /-- The package that the condition uses. -/
  importPath? : Option String := none
  deriving DecidableEq, Repr

namespace TypeInfo

/-- The zero value of the type, as an expression. -/
def zeroLiteral (info : TypeInfo) : String :=
  match info.category with
  | .nilable => "nil"
  | .string => "\"\""
  | .integer | .float | .complex => "0"
  | .bool => "false"
  | .aggregate _ => info.type.text ++ "\x7b\x7d"
  | .typeParam _ | .unknown => "*new(" ++ info.type.text ++ ")"

/-- The expression to compare a variable with, if comparing decides whether it is zero. -/
def zeroOperand? (info : TypeInfo) : Option String :=
  match info.category with
  | .nilable | .unknown => some "nil"
  | .string => some "\"\""
  | .integer | .complex => some "0"
  | .float => some "0.0"
  | .bool => some "false"
  | .aggregate comparable =>
    if comparable then some ("(" ++ info.type.text ++ "\x7b\x7d)") else none
  | .typeParam comparable => if comparable then some ("*new(" ++ info.type.text ++ ")") else none

end TypeInfo

namespace ZeroCheck

/-- The test of a variable of the given type, by reflection where it cannot be compared. -/
def ofType (variableName : String) (info : TypeInfo) : ZeroCheck :=
  let description := info.category.zeroName
  match info.zeroOperand? with
  | some operand => { condition := variableName ++ " == " ++ operand, description }
  | none =>
    { condition := "reflect.ValueOf(&" ++ variableName ++ ").Elem().IsZero()", description,
      importPath? := some "reflect" }

/-- The test of a variable. One of unresolved type is compared with `nil`. -/
def of (variableName : String) : Option TypeInfo → ZeroCheck
  | some info => ofType variableName info
  | none => { condition := variableName ++ " == nil", description := "nil" }

end ZeroCheck

end GoContracts

import GoContracts.Syntax.Expression

/-!
# Constant conditions

Conditions of literal booleans and integers are folded. What touches a variable or a call is not
constant, unless the other operand of `&&` or `||` decides. Integers have 128 bits; a sum,
difference or product outside that range is not constant.
-/

namespace GoContracts

open Syntax (Tree)

/-- The value of a constant expression. -/
inductive Constant where
  | bool (b : Bool)
  | int (i : Int)
  deriving DecidableEq, Repr

namespace Constant

/-- The bound of the integers: they lie from `-intBound` up to `intBound - 1`. -/
def intBound : Int := Int.pow 2 127

/-- The integer, if it is in range. -/
def ranged (i : Int) : Option Constant :=
  if -intBound ≤ i ∧ i < intBound then some (.int i) else none

/-- The negative of an integer in range; the least one is its own negative. -/
def negate (i : Int) : Int := if i = -intBound then i else -i

/-- The value of a digit in a base of at most sixteen. -/
def digit? (base : Nat) (c : Char) : Option Nat :=
  let value :=
    if c.isDigit then some (c.toNat - '0'.toNat)
    else if 'a' ≤ c && c ≤ 'f' then some (c.toNat - 'a'.toNat + 10)
    else if 'A' ≤ c && c ≤ 'F' then some (c.toNat - 'A'.toNat + 10)
    else none
  value.filter (· < base)

/-- The value of digits in a base; none without digits. -/
def digits? (base : Nat) (cs : List Char) : Option Nat :=
  if cs.isEmpty then none
  else cs.foldlM (fun n c => (digit? base c).map fun d => n * base + d) 0

/-- The value of an integer literal of any base. Underscores do not count. -/
def literal? (s : String) : Option Constant := do
  let value ←
    match s.toList.filter (· != '_') with
    | '0' :: c :: cs =>
      if c = 'x' || c = 'X' then digits? 16 cs
      else if c = 'b' || c = 'B' then digits? 2 cs
      else if c = 'o' || c = 'O' then digits? 8 cs
      else digits? 8 (c :: cs)
    | cs => digits? 10 cs
  ranged value

/-- The value of a unary operator. -/
def unary? (operator : String) : Constant → Option Constant
  | bool b => if operator = "!" then some (.bool !b) else none
  | int i =>
    if operator = "-" then some (.int (negate i))
    else if operator = "+" then some (.int i)
    else none

/-- The value of a binary operator between integers. -/
def intBinary? (operator : String) (a b : Int) : Option Constant :=
  match operator with
  | "==" => some (.bool (a = b))
  | "!=" => some (.bool (a ≠ b))
  | "<" => some (.bool (a < b))
  | "<=" => some (.bool (a ≤ b))
  | ">" => some (.bool (b < a))
  | ">=" => some (.bool (b ≤ a))
  | "+" => ranged (a + b)
  | "-" => ranged (a - b)
  | "*" => ranged (a * b)
  | _ => none

/-- The value of a binary operator between constants. -/
def strictBinary? (operator : String) : Constant → Constant → Option Constant
  | int a, int b => intBinary? operator a b
  | bool a, bool b =>
    match operator with
    | "&&" => some (.bool (a && b))
    | "||" => some (.bool (a || b))
    | "==" => some (.bool (a = b))
    | "!=" => some (.bool (a ≠ b))
    | _ => none
  | _, _ =>
    match operator with
    | "==" => some (.bool false)
    | "!=" => some (.bool true)
    | _ => none

/-- The value of a binary operator between operands that may not be constant. One operand can
decide `&&` and `||`. -/
def binary? (operator : String) (left right : Option Constant) : Option Constant :=
  if operator = "&&" && (left = some (.bool false) || right = some (.bool false)) then
    some (.bool false)
  else if operator = "||" && (left = some (.bool true) || right = some (.bool true)) then
    some (.bool true)
  else do strictBinary? operator (← left) (← right)

mutual

/-- The value of a tree whose leaves have the texts that `textOf` gives, if it is constant. -/
def fold? (textOf : Tree → String) : Tree → Option Constant
  | .mk (.node k) role start stop cs =>
    match k with
    | .trueLiteral => some (.bool true)
    | .falseLiteral => some (.bool false)
    | .identifier =>
      match textOf (.mk (.node k) role start stop cs) with
      | "true" => some (.bool true)
      | "false" => some (.bool false)
      | _ => none
    | .intLiteral => literal? (textOf (.mk (.node k) role start stop cs))
    | .parenthesizedExpression => foldFirst? textOf cs
    | .unaryExpression => do
      let operator ← cs.find? (·.role? = some .operator)
      unary? (textOf operator) (← foldRole? textOf .operand cs)
    | .binaryExpression => do
      let operator ← cs.find? (·.role? = some .operator)
      binary? (textOf operator) (foldRole? textOf .left cs) (foldRole? textOf .right cs)
    | _ => none
  | _ => none

/-- The value of the first named tree that is no comment. -/
def foldFirst? (textOf : Tree → String) : List Tree → Option Constant
  | [] => none
  | t :: ts => if t.isNamed && !t.isComment then fold? textOf t else foldFirst? textOf ts

/-- The value of the first tree in the given role. -/
def foldRole? (textOf : Tree → String) (r : Syntax.Role) : List Tree → Option Constant
  | [] => none
  | t :: ts => if t.role? = some r then fold? textOf t else foldRole? textOf r ts

end

end Constant

/-- Whether the expression is false whatever its variables hold. -/
def Expression.isConstantFalse (e : Expression) : Bool :=
  Constant.fold? e.textOf e.node = some (.bool false)

end GoContracts

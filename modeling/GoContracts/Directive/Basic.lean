/-!
# Contract directives

A directive is what a comment demands of the program around it: that a condition holds before the
next statement, or that an assignment yields no error.
-/

namespace GoContracts

/-- What a guard does when its contract is violated. -/
structure Response where
  /-- Return from the function instead of aborting. -/
  returns : Bool := false
  /-- Log the violation before returning. -/
  logs : Bool := false
  /-- The values to return; empty if they follow from the function's results. -/
  values : List String := []
  deriving DecidableEq, Repr

/-- The keyword that begins a directive. -/
inductive Keyword where
  /-- A condition on entry to the next statement. -/
  | require
  /-- An assignment whose error must be nil. -/
  | must
  deriving DecidableEq, Repr

/-- How the keyword is written. -/
def Keyword.text : Keyword → String
  | .require => "@require"
  | .must => "@must"

/-- A contract directive. -/
inductive Directive where
  /-- None of the variables may hold the zero value of its type. -/
  | nonZero (response : Response) (vars : List String)
  /-- The expression must be true; `message` replaces the standard text of a violation. -/
  | holds (response : Response) (expr : String) (message : Option String)
  /-- The error of the assignment must be nil. -/
  | noError (response : Response)
  deriving DecidableEq, Repr

namespace Directive

/-- The keyword of a directive. -/
def keyword : Directive → Keyword
  | nonZero .. | holds .. => .require
  | noError .. => .must

/-- What happens when the directive is violated. -/
def response : Directive → Response
  | nonZero r _ | holds r _ _ | noError r => r

/-- Whether the directive checks the error of an assignment. -/
def isErrorCheck (d : Directive) : Bool := d.keyword = .must

/-- The variables that may not be zero. -/
def vars : Directive → List String
  | nonZero _ vs => vs
  | _ => []

/-- Whether the directive lists variables that may not be zero. -/
def isNonZero : Directive → Bool
  | nonZero .. => true
  | _ => false

/-- The condition that must be true. -/
def expr? : Directive → Option String
  | holds _ e _ => some e
  | _ => none

/-- The text that replaces the standard text of a violation. -/
def message? : Directive → Option String
  | holds _ _ m => m
  | _ => none

end Directive

end GoContracts

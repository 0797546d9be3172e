import GoContracts.Diagnostic
import GoContracts.Guard.ErrorTarget

/-!
# Placements

Each directive of a file applies to one statement or to none. A directive in a list of statements
applies to the next statement of that list, except that a `@must` behind code applies to the
assignment that begins on its line. Of several `@must` before one statement the last one counts.
-/

namespace GoContracts

open Syntax (Tree Kind)

/-- What a directive applies to. -/
inductive Placement where
  /-- Its guards go before the statement. -/
  | before (statement : Tree)
  /-- Its guard on the error goes after the assignment. -/
  | after (assignment : Tree) (error : ErrorTarget)
  /-- It applies to nothing. -/
  | ignored (cause : Neglect)
  deriving Repr

/-- A directive and what it applies to. -/
structure Placed where
  anchor : Anchor
  placement : Placement
  deriving Repr

namespace Placement

/-- Whether the tree is an assignment. -/
def isAssignment (t : Tree) : Bool := t.kind?.any Kind.isAssignment

/-- Whether the directive is a `@must` behind code. -/
def isTrailing (anchor : Anchor) : Bool := anchor.directive.isErrorCheck && anchor.inline

/-- Whether the comment at the given position stands directly in the block or clause, or in a list
of statements there. -/
def holdsComment (body : Body) (pos : Nat) : Bool :=
  (body.node :: body.node.children.filter (·.is .statementList)).any fun t =>
    t.children.any fun c => c.isComment && c.start = pos

section

variable (p : Package) (file : SourceFile)

/-- The placement of a `@must` at an assignment. -/
def atAssignment (anchor : Anchor) (assignment : Tree) : Placement :=
  match ErrorTarget.of? p (.visibleAt file assignment.start) assignment anchor.line with
  | some error => .after assignment error
  | none => .ignored .noErrorValue

/-- The placement of a `@must` before a statement. -/
def beforeStatement (anchor : Anchor) (statement : Tree) : Placement :=
  if isAssignment statement then atAssignment p file anchor statement else .ignored .noAssignment

/-- Place the directives before a statement, in the order in which their placement is decided:
that of a `@must` is open until a later one takes its place or the statement is reached. -/
def placeGap (statement : Tree) : Option Anchor → List Anchor → List Placed
  | none, [] => []
  | some held, [] => [⟨held, beforeStatement p file held statement⟩]
  | held?, anchor :: anchors =>
    if anchor.directive.isErrorCheck then
      (held?.map fun held => ⟨held, .ignored (.superseded anchor.line)⟩).toList ++
        placeGap statement (some anchor) anchors
    else ⟨anchor, .before statement⟩ :: placeGap statement held? anchors

/-- Place the directives of a list of statements. -/
def placeAmong : List Tree → List Anchor → List Placed
  | [], anchors => anchors.map fun anchor => ⟨anchor, .ignored .noStatement⟩
  | statement :: statements, anchors =>
    placeGap p file statement none (anchors.takeWhile (·.start < statement.start)) ++
      placeAmong statements (anchors.dropWhile (·.start < statement.start))

/-- The assignment that begins on the line of the given number, counted from one. -/
def assignmentOnLine? (bodies : List Body) (line : Nat) : Option Tree :=
  (bodies.flatMap (·.statements)).find? fun statement =>
    isAssignment statement && Text.rowAt file.text statement.start + 1 = line

/-- The placement of a `@must` behind code. -/
def behindCode (bodies : List Body) (anchor : Anchor) : Placement :=
  match assignmentOnLine? file bodies anchor.line with
  | some assignment => atAssignment p file anchor assignment
  | none => .ignored .trailsNothing

end

end Placement

/-- The directives of a file with their placements, in the order in which they are decided: those
outside all lists of statements, those in each list, and last the `@must` behind code. -/
def SourceFile.placements (p : Package) (file : SourceFile) : List Placed :=
  let bodies := Body.all file.tree
  let (trailing, standing) := file.anchors.partition Placement.isTrailing
  let outside := standing.filter fun anchor =>
    !bodies.any fun body => Placement.holdsComment body anchor.start
  outside.map (fun anchor => ⟨anchor, .ignored .outsideStatements⟩) ++
    bodies.flatMap (fun body => Placement.placeAmong p file body.statements
      (standing.filter fun anchor => Placement.holdsComment body anchor.start)) ++
    trailing.map fun anchor => ⟨anchor, Placement.behindCode p file bodies anchor⟩

end GoContracts

import GoContracts.Guard.Contract
import GoContracts.Weaving.Imports
import GoContracts.Weaving.LineMarker
import GoContracts.Weaving.Placement

/-!
# Injection

Guards are woven into a file in three steps: every directive is placed, the guards of each
are generated, and the text is edited. The comments of directives are removed, guards are inserted
at their statements, blank error targets are named, and the imports of the guards are added.
-/

namespace GoContracts

open Syntax (Tree)

/-- A directive with its placement and its guards. -/
structure Demand where
  placed : Placed
  guards : List Guard
  deriving Repr

/-- A file with its guards woven in. -/
structure Injection where
  /-- The text with guards. -/
  generated : String
  /-- The lines of the file with those edits applied that keep the number of lines. -/
  reference : List String
  /-- The lines, counted from zero, that held directives only and were removed. -/
  stripped : List Nat
  /-- Number of directives in the file. -/
  directives : Nat
  deriving Repr

namespace Injection

/-! ## Removing directives -/

/-- Whether the comment of a directive has its lines to itself. -/
def standsAlone (file : SourceFile) (anchor : Anchor) : Bool :=
  Text.startsLine file.text anchor.start && Text.endsLine file.text anchor.stop

/-- Remove the comment of a directive: with its lines if it has them to itself, otherwise with the
blanks before it or, where it begins the line, behind it. -/
def strip (file : SourceFile) (anchor : Anchor) : Edit :=
  if standsAlone file anchor then
    .remove (Text.lineStart file.text anchor.start)
      (min (Text.lineEnd file.text anchor.stop + 1) (Text.size file.text))
  else
    let start := if anchor.inline then Text.indentStart file.text anchor.start else anchor.start
    let stop := if anchor.inline then anchor.stop else Text.indentEnd file.text anchor.stop
    .replace start stop (Text.newlinesOf (Text.slice file.text start stop))

/-- The lines that go with a directive, counted from zero. -/
def strippedLines (file : SourceFile) (anchor : Anchor) : List Nat :=
  if standsAlone file anchor then
    let first := Text.rowAt file.text anchor.start
    List.range' first (Text.rowAt file.text anchor.stop + 1 - first)
  else []

/-! ## Naming blank targets -/

/-- The error target of a directive. -/
def errorTarget? (placed : Placed) : Option ErrorTarget :=
  match placed.placement with
  | .after _ error => some error
  | _ => none

/-- The first error target that names each blank. -/
def namings (placed : List Placed) : List (Tree × ErrorTarget) :=
  (placed.filterMap fun x => do
    let error ← errorTarget? x
    return (← error.blank?, error)).eraseDupsBy fun a b => a.1.start == b.1.start

/-- The name by which a target is checked: for a blank the one it was given first. -/
def errorName (namings : List (Tree × ErrorTarget)) (error : ErrorTarget) : String :=
  match error.blank? with
  | none => error.errorName
  | some blank =>
    ((namings.find? fun naming => naming.1.start = blank.start).map (·.2.errorName)).getD
      error.errorName

/-- Name a blank target, and declare the name if the assignment does not. -/
def rename (naming : Tree × ErrorTarget) : List Edit :=
  let (blank, error) := naming
  .replace blank.start blank.stop error.errorName ::
    (error.operator?.map fun operator => .replace operator.start operator.stop ":=").toList

/-! ## Inserting guards -/

/-- Insert guards before a statement. -/
def insertBefore (file : SourceFile) (statement : Tree) (guards : List Guard) : Edit :=
  let indent := Text.indentAt file.text statement.start
  let text := Guard.renderAll indent guards
  if Text.startsLine file.text statement.start then
    .insert (Text.lineStart file.text statement.start) (text ++ "\n")
  else .insert statement.start ("\n" ++ text ++ "\n" ++ indent)

/-- Whether a text is blank or begins with a line comment after blanks. -/
def isRemark (s : String) : Bool :=
  match (Text.trim s).toList with
  | [] => true
  | '/' :: '/' :: _ => true
  | _ => false

/-- Insert guards after a statement: after its line if nothing but a remark follows there. -/
def insertAfter (file : SourceFile) (statement : Tree) (guards : List Guard) : Edit :=
  let indent := Text.indentAt file.text statement.start
  let text := Guard.renderAll indent guards
  let lineEnd := Text.lineEnd file.text statement.stop
  if isRemark (Text.slice file.text statement.stop lineEnd) then .insert lineEnd ("\n" ++ text)
  else .insert statement.stop ("\n" ++ text ++ "\n" ++ indent)

/-- The statement that the guards of a demand go before. -/
def statementAfter? (demand : Demand) : Option Tree :=
  match demand.placed.placement with
  | .before statement => some statement
  | _ => none

/-- The insertions before statements, one for each statement with guards before it. -/
def guardsBefore (file : SourceFile) (demands : List Demand) : List Edit :=
  let statements := (demands.filterMap statementAfter?).eraseDupsBy fun a b => a.start == b.start
  statements.map fun statement =>
    insertBefore file statement ((demands.filter fun demand =>
      (statementAfter? demand).any (·.start = statement.start)).flatMap (·.guards))

/-- The insertions after assignments, one for each guarded error. -/
def guardsAfter (file : SourceFile) (demands : List Demand) : List Edit :=
  demands.filterMap fun demand =>
    match demand.placed.placement with
    | .after assignment _ => some (insertAfter file assignment demand.guards)
    | _ => none

/-! ## The whole file -/

/-- The guards of a placed directive; a report if it applies to nothing. -/
def demand (p : Package) (file : SourceFile) (namings : List (Tree × ErrorTarget))
    (placed : Placed) : Reporting InvalidExpression Demand := do
  let anchor := placed.anchor
  match placed.placement with
  | .before statement =>
    return ⟨placed, ← Guard.precondition p anchor (.visibleAt file statement.start)⟩
  | .after assignment error =>
    let name := errorName namings error
    return ⟨placed, [← Guard.errorCheck p anchor (.visibleAt file assignment.start) name]⟩
  | .ignored cause =>
    Reporting.note (.ignored anchor cause)
    return ⟨placed, []⟩

/-- The edits that the demands ask for, without those of the imports. -/
def edits (file : SourceFile) (namings : List (Tree × ErrorTarget)) (demands : List Demand) :
    List Edit :=
  file.anchors.map (strip file) ++ guardsBefore file demands ++ namings.flatMap rename ++
    guardsAfter file demands

/-- The edits that the demands ask for. -/
def allEdits (file : SourceFile) (namings : List (Tree × ErrorTarget)) (demands : List Demand) :
    List Edit :=
  let imports := demands.flatMap fun demand => demand.guards.flatMap Guard.imports
  edits file namings demands ++ (file.importEdit? imports).toList

/-- The file with guards for the given demands. -/
def ofDemands (file : SourceFile) (namings : List (Tree × ErrorTarget)) (demands : List Demand) :
    Injection :=
  let all := allEdits file namings demands
  { generated := Edit.applyAll file.text all
    reference := Text.lines (Edit.applyInPlace file.text all)
    stripped := file.anchors.flatMap (strippedLines file)
    directives := file.anchors.length }

/-- The text with guards and line markers. -/
def shadow (file : SourceFile) (injection : Injection) : String :=
  LineMarker.insertAll file.path injection.reference injection.stripped injection.generated

end Injection

/-- Weave guards into a file of a package; nothing if it holds no directive. -/
def SourceFile.inject? (p : Package) (file : SourceFile) :
    Reporting InvalidExpression (Option Injection) := do
  if file.anchors.isEmpty then return none
  let placed := file.placements p
  let namings := Injection.namings placed
  let demands ← placed.mapM (Injection.demand p file namings)
  return some (Injection.ofDemands file namings demands)

end GoContracts

import GoContracts.Proofs.Weaving.Naming

/-!
# Promoted assignments

An assignment whose blank gets a name becomes a declaration. A declaration assigns to the variables
of its own block only, and declares every other name anew. So the values of the other targets go
where the assignment would have put them exactly if these targets are variables of that block.
-/

namespace GoContracts

open Syntax (Tree Kind)

/-! ### Blocks -/

namespace Scope

mutual

/-- The names that a statement, labelled or not, declares in the block around it. -/
def declaredNames (file : SourceFile) : Tree → List String
  | .mk label role? start stop children =>
    if label = .node .labeledStatement then declaredNamesAll file children
    else (statementBindings file (.mk label role? start stop children)).map (·.name)

/-- The names that the parts of a labelled statement declare in the block around it. -/
def declaredNamesAll (file : SourceFile) : List Tree → List String
  | [] => []
  | t :: ts => declaredNames file t ++ declaredNamesAll file ts

end

/-- The names of the identifiers in a list. -/
def namesIn (file : SourceFile) (list : Tree) : List String :=
  (list.namedChildren.filter (·.is .identifier)).map file.textOf

/-- The parameters and results of the function whose body begins where the tree does. -/
def parametersOf (file : SourceFile) (block : Tree) : List String :=
  (file.tree.preorder.filter fun f =>
      f.kind?.any Kind.isFunction && (f.child? .body).any (·.start = block.start)).flatMap fun f =>
    (Signature.ofFunction file f).allParams.filterMap (·.name?)

/-- The variables that a clause declares before its colon: what its communication receives, or the
value whose type the switch examines. -/
def clauseNames (file : SourceFile) (clause : Tree) : List String :=
  let received := (clause.child? .communication).bind fun t =>
    if t.children.any (·.isToken ":=") then t.child? .left else none
  let examined := (file.tree.preorder.filter fun t =>
      t.is .typeSwitchStatement && t.children.any fun c => c.label = clause.label &&
        c.start = clause.start).filterMap (·.child? .alias)
  (received.toList ++ examined).flatMap (namesIn file)

/-- The names declared in a block or clause before a position in it. -/
def blockNames (file : SourceFile) (body : Body) (position : Nat) : List String :=
  (body.statements.filter (·.stop ≤ position)).flatMap (declaredNames file) ++
    parametersOf file body.node ++ clauseNames file body.node

end Scope

/-! ### Where values go -/

/-- Where the value of a target goes. -/
inductive Destination where
  /-- The variable of the given name in a block, counted from the innermost one. -/
  | variable (block : Nat) (name : String)
  /-- A new variable of the innermost block. -/
  | fresh (name : String)
  /-- What the target denotes: a field, an element, or what a pointer refers to. -/
  | location (target : Tree)

namespace ErrorTarget

section

variable (file : SourceFile) (own : List String) (outer : List (List String)) (target : Tree)

/-- Where `=` puts the value of a target, given the names declared in the blocks around it. -/
def assigned? : Option Destination :=
  if target.is .identifier then
    ((own :: outer).findIdx? (·.contains (file.textOf target))).map
      (.variable · (file.textOf target))
  else some (.location target)

/-- Where `:=` puts the value of a target; nowhere if the target cannot be declared. -/
def declared? : Option Destination :=
  if target.is .identifier then
    if own.contains (file.textOf target) then some (.variable 0 (file.textOf target))
    else some (.fresh (file.textOf target))
  else none

end

variable {p : Package} {file : SourceFile} {own : List String} {outer : List (List String)}

/-- Only a variable of the same block is assigned by both forms. -/
theorem declared?_eq_assigned?_iff {target : Tree} :
    declared? file own target = assigned? file own outer target ↔
      target.is .identifier = true ∧ file.textOf target ∈ own := by
  rw [declared?, assigned?]
  by_cases hidentifier : target.is .identifier = true
  · rw [if_pos hidentifier, if_pos hidentifier, List.findIdx?_cons]
    by_cases hown : file.textOf target ∈ own
    · simp [hidentifier, hown]
    · have hshifted : ∀ found : Option Nat,
          some (Destination.fresh (file.textOf target)) ≠
            (found.map (· + 1)).map (.variable · (file.textOf target)) := by
        rintro (_ | k) <;> simp
      have hcontains : own.contains (file.textOf target) = false := by simpa using hown
      simp only [hcontains, Bool.false_eq_true, if_false]
      exact iff_of_false (hshifted _) fun h => hown h.2
  · rw [if_neg hidentifier, if_neg hidentifier]
    simp [hidentifier]

/-- Whether the values of all targets but blanks go to the same places if the assignment
declares. -/
def KeepsPlaces (file : SourceFile) (body : Body) (outer : List (List String))
    (assignment : Tree) : Prop :=
  ∀ target ∈ targets assignment, file.textOf target ≠ "_" →
    declared? file (Scope.blockNames file body assignment.start) target =
      assigned? file (Scope.blockNames file body assignment.start) outer target

/-- Whether all targets but blanks are variables of the block that holds the assignment. -/
def Redeclares (file : SourceFile) (body : Body) (assignment : Tree) : Prop :=
  ∀ target ∈ targets assignment, file.textOf target ≠ "_" →
    target.is .identifier = true ∧
      file.textOf target ∈ Scope.blockNames file body assignment.start

instance (body : Body) (assignment : Tree) : Decidable (Redeclares file body assignment) :=
  inferInstanceAs (Decidable (∀ _ ∈ _, _))

private theorem keepsPlaces_iff {body : Body} {assignment : Tree} :
    KeepsPlaces file body outer assignment ↔ Redeclares file body assignment := by
  refine forall₃_congr fun target _ _ => ?_
  exact declared?_eq_assigned?_iff

private theorem plainOperator?_eq_some {assignment operator : Tree}
    (h : plainOperator? file assignment = some operator) :
    assignment.is .assignmentStatement = true ∧ assignment.child? .operator = some operator ∧
      file.textOf operator = "=" := by
  rw [plainOperator?] at h
  split at h
  · next hassignment =>
    obtain ⟨hchild, htext⟩ := Option.filter_eq_some_iff.mp h
    exact ⟨hassignment, hchild, of_decide_eq_true htext⟩
  · simp at h

end ErrorTarget

namespace Injection

open ErrorTarget
open Reporting (Gives value? gives_of_value?)

/-- An assignment that becomes a declaration is a statement `=` of some body with a named blank. Its
other targets keep their places, whatever the blocks around that body declare, exactly if they are
variables of the body. -/
theorem promotion_keepsPlaces_iff {p : Package} {path text : String} {blank operator : Tree}
    {error : ErrorTarget} (h : (blank, error) ∈ (SourceFile.parse path text).namings p)
    (hoperator : error.operator? = some operator) :
    ∃ body ∈ Body.all (SourceFile.parse path text).tree, ∃ assignment ∈ body.statements,
      assignment.is .assignmentStatement = true ∧ assignment.child? .operator = some operator ∧
      (SourceFile.parse path text).textOf operator = "=" ∧ blank ∈ targets assignment ∧
      (SourceFile.parse path text).textOf blank = "_" ∧
      .replace operator.start operator.stop ":=" ∈
        ((SourceFile.parse path text).namings p).flatMap rename ∧
      ∀ outer, KeepsPlaces (.parse path text) body outer assignment ↔
        Redeclares (.parse path text) body assignment := by
  obtain ⟨assignment, hnames⟩ := exists_names (SourceFile.inOrder_parse path text) h
  obtain ⟨body, hbody, hmem⟩ := List.mem_flatMap.mp hnames.mem
  obtain ⟨hkind, hchild, htext⟩ := plainOperator?_eq_some (hnames.operator ▸ hoperator)
  have hedit : .replace operator.start operator.stop ":=" ∈
      ((SourceFile.parse path text).namings p).flatMap rename :=
    List.mem_flatMap.mpr ⟨(blank, error), h, by simp [rename, hoperator]⟩
  exact ⟨body, hbody, assignment, hmem, hkind, hchild, htext, (mem_of_select? hnames.selected).1,
    hnames.text, hedit, fun _ => keepsPlaces_iff⟩

/-- A function whose parameter is assigned in an inner block. -/
def innerAssignment : SourceFile :=
  .parse "/f.go" "package p\n\nfunc g() (int, error)\n\nfunc f(x int) int \x7b
\tif x > 0 \x7b\n\t\t// @must\n\t\tx, _ = g()\n\t\tprintln(x)\n\t\x7d\n\treturn x\n\x7d\n"

/-- The run on that function: it is valid, and its one assignment is promoted. -/
theorem innerAssignment_run : innerAssignment.hasErrors = false ∧
    (value? (innerAssignment.inject? (alone innerAssignment)) []).join.isSome = true ∧
    (innerAssignment.namings (alone innerAssignment)).any (·.2.operator?.isSome) = true ∧
    ∀ body ∈ Body.all innerAssignment.tree, ∀ assignment ∈ body.statements,
      assignment.is .assignmentStatement = true → ¬Redeclares innerAssignment body assignment := by
  decide +kernel

private theorem exists_promoted_innerAssignment : ∃ blank error operator,
    (blank, error) ∈ innerAssignment.namings (alone innerAssignment) ∧
      error.operator? = some operator := by
  obtain ⟨⟨blank, error⟩, hnaming, hsome⟩ := List.any_eq_true.mp innerAssignment_run.2.2.1
  obtain ⟨operator, hoperator⟩ := Option.isSome_iff_exists.mp hsome
  exact ⟨blank, error, operator, hnaming, hoperator⟩

/-- A parameter whose assignment in an inner block becomes a declaration. -/
theorem promotion_innerAssignment : ∃ blank error operator,
    (blank, error) ∈ innerAssignment.namings (alone innerAssignment) ∧
      error.operator? = some operator ∧
      ∃ body ∈ Body.all innerAssignment.tree, ∃ assignment ∈ body.statements,
        assignment.is .assignmentStatement = true ∧ assignment.child? .operator = some operator ∧
        innerAssignment.textOf operator = "=" ∧ blank ∈ targets assignment ∧
        innerAssignment.textOf blank = "_" ∧
        .replace operator.start operator.stop ":=" ∈
          (innerAssignment.namings (alone innerAssignment)).flatMap rename ∧
        (∀ outer, KeepsPlaces innerAssignment body outer assignment ↔
          Redeclares innerAssignment body assignment) ∧
        ∀ outer, ¬KeepsPlaces innerAssignment body outer assignment := by
  obtain ⟨blank, error, operator, hnaming, hoperator⟩ := exists_promoted_innerAssignment
  obtain ⟨body, hbody, assignment, hmem, hkind, hchild, htext, htarget, hblank, hedit, hiff⟩ :=
    promotion_keepsPlaces_iff hnaming hoperator
  have hnone := innerAssignment_run.2.2.2 body hbody assignment hmem hkind
  exact ⟨blank, error, operator, hnaming, hoperator, body, hbody, assignment, hmem, hkind, hchild,
    htext, htarget, hblank, hedit, hiff, fun outer hkeeps => hnone ((hiff outer).mp hkeeps)⟩

/-- The parameter is not a variable of the inner block, so the declaration hides it. -/
theorem innerAssignment_hides :
    ¬∀ p path text blank error operator body assignment before injection after,
      (SourceFile.parse path text).hasErrors = false →
      Gives ((SourceFile.parse path text).inject? p) before (some injection) after →
      (blank, error) ∈ (SourceFile.parse path text).namings p → error.operator? = some operator →
      body ∈ Body.all (SourceFile.parse path text).tree → assignment ∈ body.statements →
      assignment.child? .operator = some operator →
      Redeclares (SourceFile.parse path text) body assignment := by
  intro h
  obtain ⟨hvalid, hvalue, _, hnone⟩ := innerAssignment_run
  obtain ⟨injection, hinjection⟩ := Option.isSome_iff_exists.mp hvalue
  obtain ⟨after, hgives⟩ := gives_of_value? (Option.join_eq_some_iff.mp hinjection)
  obtain ⟨blank, error, operator, hnaming, hoperator⟩ := exists_promoted_innerAssignment
  obtain ⟨assignment, hnames⟩ := exists_names (SourceFile.inOrder_parse _ _) hnaming
  obtain ⟨body, hbody, hmem⟩ := List.mem_flatMap.mp hnames.mem
  obtain ⟨hkind, hchild, _⟩ := plainOperator?_eq_some (hnames.operator ▸ hoperator)
  exact hnone body hbody assignment hmem hkind
    (h _ _ _ blank error operator body assignment [] injection after hvalid hgives hnaming hoperator
      hbody hmem hchild)

end Injection

end GoContracts

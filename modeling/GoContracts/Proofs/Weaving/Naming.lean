import GoContracts.Proofs.Weaving.Injection
import GoContracts.Proofs.Weaving.Insertions
import GoContracts.Proofs.Weaving.Placement

/-!
# Named blanks

A blank that gets a name is the error target of an assignment that a directive applies to. Each such
blank is named once, and what is decided about it follows from its assignment.
-/

namespace GoContracts

open Syntax (Tree Kind)

variable {p : Package} {file : SourceFile}

namespace Placement

/-- Every directive that is not ignored goes before a statement or is tried at an assignment. -/
theorem placements_cases (h : file.InOrder) {placed : Placed}
    (hplaced : placed ∈ file.placements p) :
    (∃ cause, placed.placement = .ignored cause) ∨
      (∃ statement, placed.placement = .before statement) ∨
      ∃ assignment, placed.placement = atAssignment p file placed.anchor assignment := by
  unfold SourceFile.placements at hplaced
  rw [List.partition_eq_filter_filter] at hplaced
  dsimp only at hplaced
  rcases List.mem_append.mp hplaced with hplaced | hplaced
  · rcases List.mem_append.mp hplaced with hplaced | hplaced
    · obtain ⟨anchor, _, rfl⟩ := List.mem_map.mp hplaced
      exact .inl ⟨_, rfl⟩
    · obtain ⟨body, _, hplaced⟩ := List.mem_flatMap.mp hplaced
      have hsorted := (h.pairwise_anchors.filter (not ∘ isTrailing)).filter
        fun anchor => holdsComment body anchor.start
      rcases placeAmong_cases hsorted _ hplaced with hignored | ⟨statement, _, hcases⟩
      · exact .inl ⟨_, hignored⟩
      rcases hcases with ⟨_, hbefore⟩ | ⟨_, hopen | ⟨line, hignored⟩⟩
      · exact .inr (.inl ⟨statement, hbefore⟩)
      · rw [beforeStatement] at hopen
        split at hopen
        · exact .inr (.inr ⟨statement, hopen⟩)
        · exact .inl ⟨_, hopen⟩
      · exact .inl ⟨_, hignored⟩
  · obtain ⟨anchor, _, rfl⟩ := List.mem_map.mp hplaced
    rw [behindCode]
    split
    · next assignment _ => exact .inr (.inr ⟨assignment, rfl⟩)
    · exact .inl ⟨_, rfl⟩

/-- The error target of a placed directive is that of its assignment. -/
theorem of?_of_after (h : file.InOrder) {placed : Placed} (hplaced : placed ∈ file.placements p)
    {assignment : Tree} {error : ErrorTarget}
      (hafter : placed.placement = .after assignment error) :
    ErrorTarget.of? p (.visibleAt file assignment.start) assignment placed.anchor.line =
      some error := by
  rcases placements_cases h hplaced with ⟨_, hother⟩ | ⟨_, hother⟩ | ⟨other, hat⟩
  · exact absurd (hafter.symm.trans hother) (by simp)
  · exact absurd (hafter.symm.trans hother) (by simp)
  · rw [hafter, atAssignment] at hat
    split at hat
    · next hof =>
      obtain ⟨rfl, rfl⟩ := Placement.after.inj hat
      exact hof
    · exact absurd hat (by simp)

/-- A directive that is placed behind an assignment is placed behind a statement of the file. -/
theorem mem_statements_of_after (h : file.InOrder) {placed : Placed}
    (hplaced : placed ∈ file.placements p) {assignment : Tree} {error : ErrorTarget}
    (hafter : placed.placement = .after assignment error) :
    isAssignment assignment = true ∧
      assignment ∈ (Body.all file.tree).flatMap (·.statements) := by
  have hjustified := justified_placements h placed hplaced
  rw [Justified, hafter] at hjustified
  obtain ⟨_, hassignment, hassigns⟩ := hjustified
  refine ⟨hassignment, ?_⟩
  split at hassigns
  · exact List.mem_of_find?_eq_some hassigns
  · exact hassigns.mem

end Placement

namespace ErrorTarget

/-- A blank gets a name only if it is the selected target and spelled `_`; the operator is that of
the assignment, whatever the other targets are. -/
theorem of?_blank {scope : Scope} {assignment blank : Tree} {line : Nat} {error : ErrorTarget}
    (h : of? p scope assignment line = some error) (hblank : error.blank? = some blank) :
    select? p scope assignment = some blank ∧ scope.file.textOf blank = "_" ∧
      error.operator? = plainOperator? scope.file assignment := by
  obtain ⟨target, hselect, htarget⟩ := Option.map_eq_some_iff.mp h
  dsimp only at htarget
  split at htarget
  · next hname =>
    subst htarget
    obtain rfl : target = blank := by simpa using hblank
    exact ⟨hselect, hname, rfl⟩
  · subst htarget
    simp at hblank

/-- A blank is named after the line of the directive. -/
theorem errorName_of_blank {scope : Scope} {assignment blank : Tree} {line : Nat}
    {error : ErrorTarget} (h : of? p scope assignment line = some error)
    (hblank : error.blank? = some blank) : error.errorName = Guard.placeholderName line := by
  obtain ⟨target, _, htarget⟩ := Option.map_eq_some_iff.mp h
  dsimp only at htarget
  split at htarget
  · rw [← htarget]
  · subst htarget
    simp at hblank

/-- The selected target is an identifier among the targets. -/
theorem mem_of_select? {scope : Scope} {assignment target : Tree}
    (h : select? p scope assignment = some target) :
    target ∈ targets assignment ∧ target.is .identifier = true := by
  rcases Option.or_eq_some_iff.mp h with htyped | ⟨_, hspelled⟩
  · rw [typed?] at htyped
    obtain ⟨right, _, htyped⟩ := Option.bind_eq_some_iff.mp htyped
    dsimp only at htyped
    split at htyped
    · obtain ⟨⟨t, info?⟩, hfind, ht⟩ := Option.bind_eq_some_iff.mp htyped
      obtain rfl : t = target := by simpa using ht
      have hmem := List.mem_reverse.mp (List.mem_of_find?_eq_some hfind)
      have hpred := List.find?_some hfind
      rw [Bool.and_eq_true] at hpred
      exact ⟨(List.of_mem_zip hmem).1, hpred.1⟩
    · simp at htyped
  · have hnames : target ∈ (targets assignment).filter (·.is .identifier) := by
      rcases Option.or_eq_some_iff.mp hspelled with hlast | ⟨_, hfirst⟩
      · exact List.mem_reverse.mp (List.mem_of_find?_eq_some hlast)
      · exact List.mem_of_find?_eq_some hfirst
    exact List.mem_filter.mp hnames

end ErrorTarget

namespace Injection

/-- What is left without duplicates was there before. -/
theorem mem_of_mem_eraseDupsBy {α : Type} {r : α → α → Bool} {items : List α} {a : α}
    (h : a ∈ items.eraseDupsBy r) : a ∈ items := by
  induction hn : items.length using Nat.strongRecOn generalizing items with
  | ind n ih =>
    cases items with
    | nil => exact h
    | cons b items =>
      rw [List.eraseDupsBy_cons] at h
      rcases List.mem_cons.mp h with rfl | h
      · exact List.mem_cons_self ..
      · have hlt : (items.filter fun x => r x b = false).length < n := by
          rw [← hn, List.length_cons]
          exact Nat.lt_succ_of_le (List.length_filter_le _ _)
        exact List.mem_cons_of_mem b (List.mem_filter.mp (ih _ hlt h rfl)).1

/-- A named blank belongs to a directive behind an assignment. -/
theorem exists_of_mem_namings {placed : List Placed} {blank : Tree} {error : ErrorTarget}
    (h : (blank, error) ∈ namings placed) :
    ∃ x ∈ placed, ∃ assignment, x.placement = .after assignment error ∧
      error.blank? = some blank := by
  obtain ⟨x, hx, hnaming⟩ := List.mem_filterMap.mp (mem_of_mem_eraseDupsBy h)
  obtain ⟨error', herror, hnaming⟩ := Option.bind_eq_some_iff.mp hnaming
  obtain ⟨blank', hblank, hpair⟩ := Option.bind_eq_some_iff.mp hnaming
  obtain ⟨rfl, rfl⟩ : blank' = blank ∧ error' = error := by simpa using hpair
  rw [errorTarget?] at herror
  split at herror
  · next assignment _ hafter =>
    obtain rfl := Option.some.inj herror
    exact ⟨x, hx, assignment, hafter, hblank⟩
  · simp at herror

/-- A named blank is that of an error that is checked behind its assignment. -/
theorem errorName_of_mem_namings (h : file.InOrder) {blank : Tree} {error : ErrorTarget}
    (hnaming : (blank, error) ∈ file.namings p) :
    ∃ placed ∈ file.placements p, ∃ assignment, placed.placement = .after assignment error ∧
      error.blank? = some blank ∧ error.errorName = Guard.placeholderName placed.anchor.line := by
  obtain ⟨placed, hplaced, assignment, hafter, hblank⟩ := exists_of_mem_namings hnaming
  exact ⟨placed, hplaced, assignment, hafter, hblank,
    ErrorTarget.errorName_of_blank (Placement.of?_of_after h hplaced hafter) hblank⟩

/-- Where a named blank stands: it is the selected target of an assignment of the file. -/
structure Names (p : Package) (file : SourceFile) (blank : Tree) (error : ErrorTarget)
    (assignment : Tree) : Prop where
  isAssignment : Placement.isAssignment assignment = true
  mem : assignment ∈ (Body.all file.tree).flatMap (·.statements)
  selected : ErrorTarget.select? p (.visibleAt file assignment.start) assignment = some blank
  text : file.textOf blank = "_"
  operator : error.operator? = ErrorTarget.plainOperator? file assignment

/-- A named blank stands in an assignment. -/
theorem exists_names (h : file.InOrder) {blank : Tree} {error : ErrorTarget}
    (hnaming : (blank, error) ∈ file.namings p) :
    ∃ assignment, Names p file blank error assignment := by
  obtain ⟨placed, hplaced, assignment, hafter, hblank⟩ := exists_of_mem_namings hnaming
  obtain ⟨hassignment, hmem⟩ := Placement.mem_statements_of_after h hplaced hafter
  obtain ⟨hselected, htext, hoperator⟩ :=
    ErrorTarget.of?_blank (Placement.of?_of_after h hplaced hafter) hblank
  exact ⟨assignment, hassignment, hmem, hselected, htext, hoperator⟩

end Injection

end GoContracts

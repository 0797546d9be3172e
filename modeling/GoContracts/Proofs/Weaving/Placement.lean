import GoContracts.Proofs.Syntax.Bodies
import GoContracts.Weaving.Placement
import Mathlib.Data.List.Nodup
import Mathlib.Data.List.Perm.Basic

/-!
# Where directives are placed

Each directive of a file is placed once. The directives in a list of statements are placed by the
first statement behind them.
-/

namespace GoContracts

open Syntax (Tree)

/-! ### Directives in order -/

namespace SourceFile.InOrder

variable {file : SourceFile}

/-- The directives of a file in order are in order. -/
theorem pairwise_anchors (h : file.InOrder) :
    file.anchors.Pairwise fun a b => a.start < b.start := by
  rw [anchors, List.pairwise_filterMap]
  refine h.pairwise_comments.imp fun hlt a ha b hb => ?_
  obtain ⟨_, _, rfl⟩ := Option.map_eq_some_iff.mp ha
  obtain ⟨_, _, rfl⟩ := Option.map_eq_some_iff.mp hb
  exact hlt

/-- No directive of a file in order is listed twice. -/
theorem nodup_anchors (h : file.InOrder) : file.anchors.Nodup :=
  h.pairwise_anchors.imp fun hlt => by
    rintro rfl
    exact Nat.lt_irrefl _ hlt

/-- A body without lists of statements holds the comments among the children of its node. -/
theorem holdsComment_iff (h : file.InOrder) {body : Body} (hbody : body ∈ Body.all file.tree)
    {pos : Nat} : Placement.holdsComment body pos = true ↔
      ∃ c ∈ body.node.children, c.isComment = true ∧ c.start = pos := by
  have hnone : body.node.children.filter (·.is .statementList) = [] :=
    List.filter_eq_nil_iff.mpr fun c hc => by simp [h.flat_body hbody c hc]
  rw [Placement.holdsComment, hnone, List.any_cons, List.any_nil, Bool.or_false]
  simp [List.any_eq_true]

/-- At most one body directly holds the comment at a position. -/
theorem pairwise_holdsComment (h : file.InOrder) :
    (Body.all file.tree).Pairwise fun a b =>
      ∀ pos, ¬(Placement.holdsComment a pos = true ∧ Placement.holdsComment b pos = true) := by
  have hnodup := h.nodup_bodyComments
  rw [List.map_flatMap, List.nodup_flatMap] at hnodup
  refine hnodup.2.imp_of_mem fun ha hb hdisjoint pos hboth => ?_
  have hmem : ∀ body ∈ Body.all file.tree, Placement.holdsComment body pos = true →
      pos ∈ (body.node.children.filter (·.isComment)).map Tree.start := by
    intro body hbody hholds
    obtain ⟨c, hc, hcomment, hpos⟩ := (h.holdsComment_iff hbody).mp hholds
    exact List.mem_map.mpr ⟨c, List.mem_filter.mpr ⟨hc, hcomment⟩, hpos⟩
  exact hdisjoint (hmem _ ha hboth.1) (hmem _ hb hboth.2)

private theorem eq_of_holdsComment (h : file.InOrder) {body other : Body} {pos : Nat}
    (hbody : body ∈ Body.all file.tree) (hother : other ∈ Body.all file.tree)
    (hholds : Placement.holdsComment body pos = true)
    (hholds' : Placement.holdsComment other pos = true) : other = body := by
  by_contra hne
  have hnot := List.Pairwise.forall_of_forall_of_flip
    (R := fun a b : Body => a ≠ b →
      ¬(Placement.holdsComment a pos = true ∧ Placement.holdsComment b pos = true))
    (fun a _ hne => absurd rfl hne) (h.pairwise_holdsComment.imp fun hnot _ => hnot pos)
    (h.pairwise_holdsComment.imp fun hnot _ hboth => hnot pos hboth.symm)
  exact hnot hother hbody hne ⟨hholds', hholds⟩

end SourceFile.InOrder

namespace Placement

variable {p : Package} {file : SourceFile}

/-! ### Each directive once -/

/-- Items that no two groups share are the ones of no group and those of each group. -/
theorem distribute_perm {α β : Type} {r : β → α → Bool} (items : List α) {groups : List β}
    (h : groups.Pairwise fun b c => ∀ a, ¬(r b a = true ∧ r c a = true)) :
    ((items.filter fun a => !groups.any (r · a)) ++
      groups.flatMap fun b => items.filter (r b)).Perm items := by
  induction groups with
  | nil => simp
  | cons b groups ih =>
    obtain ⟨hfirst, hrest⟩ := List.pairwise_cons.mp h
    have hout : (items.filter fun a => !(b :: groups).any (r · a)) =
        (items.filter fun a => !groups.any (r · a)).filter (!r b ·) := by
      rw [List.filter_filter]
      simp [List.any_cons]
    have hin : items.filter (r b) =
        (items.filter fun a => !groups.any (r · a)).filter (r b) := by
      rw [List.filter_filter]
      refine List.filter_congr fun a _ => ?_
      cases hb : r b a with
      | false => rfl
      | true =>
        have hnone : groups.any (r · a) = false := by
          rw [List.any_eq_false]
          exact fun c hc hr => hfirst c hc a ⟨hb, hr⟩
        rw [hnone]
        rfl
    rw [List.flatMap_cons, ← List.append_assoc, hout, hin]
    refine (List.Perm.append_right _ ?_).trans (ih hrest)
    exact List.perm_append_comm.trans (List.filter_append_perm _ _)

private theorem map_anchor_map (anchors : List Anchor) (place : Anchor → Placement) :
    (anchors.map fun anchor => (⟨anchor, place anchor⟩ : Placed)).map (·.anchor) = anchors := by
  rw [List.map_map]
  exact List.map_id' anchors

/-- A check waits for the next one, a requirement goes before the statement. -/
theorem placeGap_cons {statement : Tree} {held? : Option Anchor} {anchor : Anchor}
    {anchors : List Anchor} : placeGap p file statement held? (anchor :: anchors) =
      if anchor.directive.isErrorCheck then
        (held?.map fun held => ⟨held, .ignored (.superseded anchor.line)⟩).toList ++
          placeGap p file statement (some anchor) anchors
      else ⟨anchor, .before statement⟩ :: placeGap p file statement held? anchors := by
  cases held? <;> rfl

/-- The directives of a gap are all placed. -/
theorem map_anchor_placeGap (statement : Tree) (held? : Option Anchor) (anchors : List Anchor) :
    ((placeGap p file statement held? anchors).map (·.anchor)).Perm (held?.toList ++ anchors) := by
  induction anchors generalizing held? with
  | nil => cases held? <;> simp [placeGap]
  | cons anchor anchors ih =>
    rw [placeGap_cons]
    split
    · rw [List.map_append]
      refine ((ih (some anchor)).append_left _).trans (List.Perm.of_eq ?_)
      cases held? <;> rfl
    · rw [List.map_cons]
      exact ((ih held?).cons anchor).trans List.perm_middle.symm

/-- The directives among statements are all placed. -/
theorem map_anchor_placeAmong (statements : List Tree) (anchors : List Anchor) :
    ((placeAmong p file statements anchors).map (·.anchor)).Perm anchors := by
  induction statements generalizing anchors with
  | nil =>
    rw [placeAmong, map_anchor_map anchors]
  | cons statement statements ih =>
    rw [placeAmong, List.map_append]
    refine ((map_anchor_placeGap statement none _).append (ih _)).trans ?_
    rw [Option.toList_none, List.nil_append, List.takeWhile_append_dropWhile]

/-- Every directive of a file is placed once. -/
theorem map_anchor_placements (h : file.InOrder) :
    ((file.placements p).map (·.anchor)).Perm file.anchors := by
  unfold SourceFile.placements
  rw [List.partition_eq_filter_filter]
  dsimp only
  rw [List.map_append, List.map_append, map_anchor_map, map_anchor_map, List.map_flatMap]
  have hstanding := distribute_perm (r := fun body (anchor : Anchor) =>
      holdsComment body anchor.start) (file.anchors.filter (not ∘ isTrailing))
    (h.pairwise_holdsComment.imp fun hnot (anchor : Anchor) => hnot anchor.start)
  have hbodies := List.Perm.flatMap_left (Body.all file.tree) fun body _ =>
    @map_anchor_placeAmong p file body.statements
      ((file.anchors.filter (not ∘ isTrailing)).filter fun anchor : Anchor =>
        holdsComment body anchor.start)
  refine ((hbodies.append_left _).append_right _).trans ((hstanding.append_right _).trans ?_)
  exact List.perm_append_comm.trans (List.filter_append_perm isTrailing file.anchors)

/-! ### What a directive applies to -/

/-- The statement is the first one behind the directive in the one body that directly holds the
comment of the directive. -/
def Follows (file : SourceFile) (anchor : Anchor) (statement : Tree) : Prop :=
  ∃ body ∈ Body.all file.tree, holdsComment body anchor.start = true ∧
    (∀ other ∈ Body.all file.tree, holdsComment other anchor.start = true → other = body) ∧
    body.statements.find? (anchor.start < ·.start) = some statement

/-- The statement that follows a directive is one of a body. -/
theorem Follows.mem {anchor : Anchor} {statement : Tree} (h : Follows file anchor statement) :
    statement ∈ (Body.all file.tree).flatMap (·.statements) := by
  obtain ⟨body, hbody, _, _, hfind⟩ := h
  exact List.mem_flatMap.mpr ⟨body, hbody, List.mem_of_find?_eq_some hfind⟩

/-- The statement is an assignment that a `@must` applies to. -/
def Assigns (file : SourceFile) (anchor : Anchor) (statement : Tree) : Prop :=
  isAssignment statement = true ∧
    if anchor.inline then assignmentOnLine? file (Body.all file.tree) anchor.line = some statement
    else Follows file anchor statement

/-- What the placement says about the directive. -/
def Justified (file : SourceFile) (placed : Placed) : Prop :=
  match placed.placement with
  | .before statement =>
    placed.anchor.directive.keyword = .require ∧ Follows file placed.anchor statement
  | .after assignment _ =>
    placed.anchor.directive.keyword = .must ∧ Assigns file placed.anchor assignment
  | .ignored _ => True

private theorem justified_atAssignment {anchor : Anchor} {assignment : Tree}
    (hkeyword : anchor.directive.keyword = .must) (h : Assigns file anchor assignment) :
    Justified file ⟨anchor, atAssignment p file anchor assignment⟩ := by
  unfold Justified atAssignment
  cases ErrorTarget.of? p (.visibleAt file assignment.start) assignment anchor.line with
  | none => trivial
  | some error => exact ⟨hkeyword, h⟩

private theorem justified_beforeStatement {anchor : Anchor} {statement : Tree}
    (hkeyword : anchor.directive.keyword = .must) (hinline : anchor.inline = false)
    (h : Follows file anchor statement) :
    Justified file ⟨anchor, beforeStatement p file anchor statement⟩ := by
  unfold beforeStatement
  split
  · next hassignment =>
    refine justified_atAssignment hkeyword ⟨hassignment, ?_⟩
    rw [if_neg (by simp [hinline])]
    exact h
  · trivial

/-- A directive in the gap before a statement is placed by its keyword. -/
theorem placeGap_cases {statement : Tree} {held? : Option Anchor} {anchors : List Anchor}
    (hheld : ∀ held, held? = some held → held.directive.keyword = .must) :
    ∀ placed ∈ placeGap p file statement held? anchors,
      (placed.anchor.directive.keyword = .require ∧ placed.placement = .before statement) ∨
      (placed.anchor.directive.keyword = .must ∧
        (placed.placement = beforeStatement p file placed.anchor statement ∨
          ∃ line, placed.placement = .ignored (.superseded line))) := by
  induction anchors generalizing held? with
  | nil =>
    cases held? with
    | none => simp [placeGap]
    | some held =>
      intro placed hplaced
      rw [placeGap, List.mem_singleton] at hplaced
      rw [hplaced]
      exact .inr ⟨hheld held rfl, .inl rfl⟩
  | cons anchor anchors ih =>
    intro placed hplaced
    rw [placeGap_cons] at hplaced
    split at hplaced
    · next hcheck =>
      have hmust : anchor.directive.keyword = .must := of_decide_eq_true hcheck
      rcases List.mem_append.mp hplaced with hplaced | hplaced
      · obtain ⟨held, hsome, rfl⟩ := Option.map_eq_some_iff.mp (Option.mem_toList.mp hplaced)
        exact .inr ⟨hheld held hsome, .inr ⟨anchor.line, rfl⟩⟩
      · exact ih (fun held hsome => Option.some.inj hsome ▸ hmust) placed hplaced
    · next hcheck =>
      rcases List.mem_cons.mp hplaced with rfl | hplaced
      · refine .inl ⟨?_, rfl⟩
        cases hkeyword : anchor.directive.keyword with
        | require => rfl
        | must => exact absurd (decide_eq_true hkeyword) hcheck
      · exact ih hheld placed hplaced

/-- The directives from the first one on that begins at or behind a position. -/
theorem le_of_mem_dropWhile {anchors : List Anchor} {pos : Nat}
    (h : anchors.Pairwise fun a b => a.start < b.start) :
    ∀ anchor ∈ anchors.dropWhile (·.start < pos), pos ≤ anchor.start := by
  induction anchors with
  | nil => simp
  | cons a anchors ih =>
    obtain ⟨hfirst, hrest⟩ := List.pairwise_cons.mp h
    rw [List.dropWhile_cons]
    split
    · exact ih hrest
    · next hle =>
      have hpos : pos ≤ a.start := by simpa using hle
      refine List.forall_mem_cons.mpr ⟨hpos, fun b hb => ?_⟩
      have := hfirst b hb
      omega

/-- A directive among statements is placed by the first of them behind it. -/
theorem placeAmong_cases {statements : List Tree} {anchors : List Anchor}
    (h : anchors.Pairwise fun a b => a.start < b.start) :
    ∀ placed ∈ placeAmong p file statements anchors,
      placed.placement = .ignored .noStatement ∨
      ∃ statement, statements.find? (placed.anchor.start < ·.start) = some statement ∧
        ((placed.anchor.directive.keyword = .require ∧ placed.placement = .before statement) ∨
        (placed.anchor.directive.keyword = .must ∧
          (placed.placement = beforeStatement p file placed.anchor statement ∨
            ∃ line, placed.placement = .ignored (.superseded line)))) := by
  induction statements generalizing anchors with
  | nil =>
    intro placed hplaced
    obtain ⟨anchor, _, rfl⟩ := List.mem_map.mp hplaced
    exact .inl rfl
  | cons statement statements ih =>
    intro placed hplaced
    rw [placeAmong] at hplaced
    rcases List.mem_append.mp hplaced with hplaced | hplaced
    · have hmem := (map_anchor_placeGap statement none _).subset (List.mem_map_of_mem hplaced)
      have hlt : placed.anchor.start < statement.start := by
        simpa using List.all_eq_true.mp List.all_takeWhile _ hmem
      refine .inr ⟨statement, List.find?_cons_of_pos (decide_eq_true hlt), ?_⟩
      exact placeGap_cases (fun held hsome => absurd hsome (by simp)) placed hplaced
    · have hmem := (map_anchor_placeAmong statements _).subset (List.mem_map_of_mem hplaced)
      have hle := le_of_mem_dropWhile h _ hmem
      rw [List.find?_cons_of_neg (by simpa using hle)]
      exact ih (h.sublist (List.dropWhile_sublist _)) placed hplaced

/-- The placement of every directive of a file is justified. -/
theorem justified_placements (h : file.InOrder) :
    ∀ placed ∈ file.placements p, Justified file placed := by
  intro placed hplaced
  unfold SourceFile.placements at hplaced
  rw [List.partition_eq_filter_filter] at hplaced
  dsimp only at hplaced
  rcases List.mem_append.mp hplaced with hplaced | hplaced
  · rcases List.mem_append.mp hplaced with hplaced | hplaced
    · obtain ⟨anchor, _, rfl⟩ := List.mem_map.mp hplaced
      trivial
    · obtain ⟨body, hbody, hplaced⟩ := List.mem_flatMap.mp hplaced
      have hmem := (map_anchor_placeAmong body.statements _).subset (List.mem_map_of_mem hplaced)
      obtain ⟨hmem, hholds⟩ := List.mem_filter.mp hmem
      obtain ⟨_, hstanding⟩ := List.mem_filter.mp hmem
      have hsorted := (h.pairwise_anchors.filter (not ∘ isTrailing)).filter
        fun anchor => holdsComment body anchor.start
      obtain ⟨anchor, placement⟩ := placed
      rcases placeAmong_cases hsorted _ hplaced with rfl | ⟨statement, hfind, hcases⟩
      · trivial
      have hfollows : Follows file anchor statement :=
        ⟨body, hbody, hholds, fun other hother hother' =>
          h.eq_of_holdsComment hbody hother hholds hother', hfind⟩
      rcases hcases with ⟨hkeyword, rfl⟩ | ⟨hkeyword, hplacement | ⟨line, rfl⟩⟩
      · exact ⟨hkeyword, hfollows⟩
      · obtain rfl : placement = beforeStatement p file anchor statement := hplacement
        refine justified_beforeStatement hkeyword ?_ hfollows
        simpa [isTrailing, Directive.isErrorCheck, hkeyword] using hstanding
      · trivial
  · obtain ⟨anchor, hmem, rfl⟩ := List.mem_map.mp hplaced
    obtain ⟨_, htrailing⟩ := List.mem_filter.mp hmem
    rw [isTrailing, Bool.and_eq_true] at htrailing
    unfold behindCode
    cases hfind : assignmentOnLine? file (Body.all file.tree) anchor.line with
    | none => trivial
    | some assignment =>
      refine justified_atAssignment (of_decide_eq_true htrailing.1) ⟨?_, ?_⟩
      · have hfound := List.find?_some hfind
        rw [Bool.and_eq_true] at hfound
        exact hfound.1
      · rw [if_pos htrailing.2]
        exact hfind

end Placement

end GoContracts

import GoContracts.Proofs.Syntax.Seats
import GoContracts.Proofs.Weaving.Naming
import GoContracts.Proofs.Weaving.Splicing

/-!
# Renamed blanks and promoted operators

A blank that gets a name and an operator that is promoted are single characters of the text. No two
of these edits touch the same character.
-/

namespace GoContracts

open Syntax (Tree Token Seated Laid)
open Text (CharAt)

variable {p : Package} {file : SourceFile}

/-- A node that is the character `c`. -/
structure SourceFile.Marks (file : SourceFile) (c : Char) (t : Tree) : Prop where
  token : ∃ u ∈ Token.readAll file.text, u.IsSolid ∧ t.start = u.start
  charAt : CharAt file.text t.start c
  stop : t.stop = t.start + 1

private theorem SourceFile.OnTokens.marks (h : file.OnTokens) {t : Tree} {c : Char}
    (hmem : t ∈ Tree.preorderAll file.tree.children) (htext : file.textOf t = String.ofList [c])
    (hsize : c.utf8Size = 1) (hc : c ≠ '/') : file.Marks c t := by
  have hbounds := h.inOrder.laid.node_bounds t hmem
  cases hcomment : t.isComment with
  | true =>
    have hmember : t ∈ file.comments := by
      rw [h.inOrder.comments_eq]
      exact List.mem_filter.mpr ⟨hmem, hcomment⟩
    obtain ⟨u, hu, hlexeme, hstart, hstop⟩ := h.comment t hmember
    obtain ⟨hfirst, hlast⟩ := Token.boundaries hu
    rw [← hstart] at hfirst
    rw [← hstop] at hlast
    have hat := (Text.charAt_of_slice hfirst hlast (Nat.le_of_lt hbounds.2.1) htext).1
    have hslash := (Token.charAt_comment hu hlexeme).1
    rw [← hstart] at hslash
    exact absurd (hat.unique hslash) hc
  | false =>
    obtain ⟨_, ⟨u, hu, hsolid, hstart⟩, ⟨v, hv, hstop, _⟩, _⟩ := h.seated t hmem hcomment
    have hfirst := (Token.boundaries hu).1
    have hlast := (Token.boundaries hv).2
    rw [← hstart] at hfirst
    rw [← hstop] at hlast
    obtain ⟨hat, hend⟩ := Text.charAt_of_slice hfirst hlast (Nat.le_of_lt hbounds.2.1) htext
    exact ⟨⟨u, hu, hsolid, hstart⟩, hat, by rw [hend, hsize]⟩

/-- A target of an assignment stands in it. -/
theorem ErrorTarget.mem_of_mem_targets {assignment target : Tree}
    (h : target ∈ targets assignment) : target ∈ Tree.preorderAll assignment.children := by
  unfold targets at h
  cases hleft : assignment.child? .left with
  | none => simp [hleft] at h
  | some left =>
    have hchild : left ∈ assignment.children := List.mem_of_find?_eq_some hleft
    have hown : left ∈ Tree.preorderAll assignment.children :=
      Tree.mem_preorderAll.mpr ⟨left, hchild, Tree.mem_preorder_self left⟩
    rw [hleft] at h
    dsimp only at h
    split at h
    · have hmem : target ∈ left.children :=
        List.mem_of_mem_filter (List.mem_of_mem_filter h)
      exact Tree.mem_preorderAll_of_mem_children hmem hown
    · rwa [List.mem_singleton.mp h]

namespace Injection

/-- No two that are left without duplicates are related. -/
theorem pairwise_eraseDupsBy {α : Type} (r : α → α → Bool) (items : List α) :
    (items.eraseDupsBy r).Pairwise fun a b => r b a = false := by
  induction hn : items.length using Nat.strongRecOn generalizing items with
  | ind n ih =>
    cases items with
    | nil => exact .nil
    | cons a items =>
      have hlt : (items.filter fun b => r b a = false).length < n := by
        rw [← hn, List.length_cons]
        exact Nat.lt_succ_of_le (List.length_filter_le _ _)
      rw [List.eraseDupsBy_cons, List.pairwise_cons]
      refine ⟨fun b hb => ?_, ih _ hlt _ rfl⟩
      have hfilter := (List.mem_filter.mp (mem_of_mem_eraseDupsBy hb)).2
      exact of_decide_eq_true hfilter

namespace Names

variable {blank operator assignment : Tree} {error : ErrorTarget}

/-- An assignment with a named blank is one of the file. -/
theorem mem_file (h : file.InOrder) (hnames : Names p file blank error assignment) :
    assignment ∈ Tree.preorderAll file.tree.children := by
  obtain ⟨body, hbody, hmem⟩ := List.mem_flatMap.mp hnames.mem
  exact (SourceFile.OnTokens.mem_of_mem_statements h hbody hmem).1

/-- A blank that gets a name is an underscore in its assignment. -/
theorem blank_marks (h : file.OnTokens) (hnames : Names p file blank error assignment) :
    file.Marks '_' blank ∧ blank ∈ Tree.preorderAll assignment.children := by
  have hmem := ErrorTarget.mem_of_mem_targets (ErrorTarget.mem_of_select? hnames.selected).1
  exact ⟨h.marks (Tree.mem_preorderAll_of_mem hmem _ (hnames.mem_file h.inOrder)) hnames.text rfl
    (by decide), hmem⟩

/-- An operator that is promoted is an equals sign among the parts of its assignment. -/
theorem operator_marks (h : file.OnTokens) (hnames : Names p file blank error assignment)
    (hoperator : error.operator? = some operator) :
    file.Marks '=' operator ∧ operator ∈ assignment.children := by
  have hplain := hnames.operator ▸ hoperator
  rw [ErrorTarget.plainOperator?] at hplain
  split at hplain
  · obtain ⟨hchild, htext⟩ := Option.filter_eq_some_iff.mp hplain
    have hmem : operator ∈ assignment.children := List.mem_of_find?_eq_some hchild
    exact ⟨h.marks (Tree.mem_preorderAll_of_mem_children hmem (hnames.mem_file h.inOrder))
      (of_decide_eq_true htext) rfl (by decide), hmem⟩
  · simp at hplain

/-- The operators of two assignments are different symbols, even if one assignment is nested in the
other. -/
theorem operator_start_ne (h : file.OnTokens) {blank' operator' assignment' : Tree}
    {error' : ErrorTarget} (hnames : Names p file blank error assignment)
    (hnames' : Names p file blank' error' assignment')
    (hoperator : error.operator? = some operator) (hoperator' : error'.operator? = some operator')
    (hne : assignment ≠ assignment') (hinner : assignment' ∈ assignment.preorder) :
    operator.start ≠ operator'.start := by
  obtain ⟨hmark, hmem⟩ := hnames.operator_marks h hoperator
  obtain ⟨hmark', hmem'⟩ := hnames'.operator_marks h hoperator'
  obtain ⟨hblank, hblankMem⟩ := hnames'.blank_marks h
  rw [Tree.preorder_eq] at hinner
  have hinner := (List.mem_cons.mp hinner).resolve_left (Ne.symm hne)
  obtain ⟨part, hpart, hinner⟩ := Tree.mem_preorderAll.mp hinner
  have hlaid := h.inOrder.laid.node_children _ (hnames.mem_file h.inOrder)
  have hlaid' := h.inOrder.laid.node_children _ (hnames'.mem_file h.inOrder)
  have hbounds' := hlaid'.bounds operator' hmem'
  have hblankBounds := hlaid'.node_bounds blank' hblankMem
  have hpartMem : part ∈ Tree.preorderAll file.tree.children :=
    Tree.mem_preorderAll_of_mem_children hpart (hnames.mem_file h.inOrder)
  have hwithin : part.start ≤ assignment'.start ∧ assignment'.stop ≤ part.stop := by
    rw [Tree.preorder_eq] at hinner
    rcases List.mem_cons.mp hinner with rfl | hinner
    · exact ⟨Nat.le_refl _, Nat.le_refl _⟩
    · have := (h.inOrder.laid.node_children part hpartMem).node_bounds _ hinner
      exact ⟨this.1, this.2.2⟩
  have hstop := hmark.stop
  have hstop' := hmark'.stop
  have hblankStop := hblank.stop
  intro hstart
  by_cases hsame : part = operator
  · -- The inner assignment would be the operator, but it also holds its blank.
    have hplace : blank'.start = operator'.start := by
      subst hsame
      omega
    have hat := hblank.charAt
    rw [hplace] at hat
    exact absurd (hat.unique hmark'.charAt) (by decide)
  · have hapart := List.Pairwise.forall_of_forall_of_flip
      (R := fun a b : Tree => a ≠ b → a.stop ≤ b.start ∨ b.stop ≤ a.start)
      (fun _ _ hne => absurd rfl hne) (hlaid.pairwise.imp fun hle _ => .inl hle)
      (hlaid.pairwise.imp fun hle _ => .inr hle) hpart hmem hsame
    omega

end Names

/-! ### All renamings -/

/-- An edit of a renaming replaces one character, an underscore or an equals sign. -/
theorem marks_of_mem_rename (h : file.OnTokens) {naming : Tree × ErrorTarget}
    (hnaming : naming ∈ file.namings p) {e : Edit} (he : e ∈ rename naming) :
    (∃ u ∈ Token.readAll file.text, u.IsSolid ∧ e.start = u.start) ∧ e.stop = e.start + 1 := by
  obtain ⟨assignment, hnames⟩ := exists_names h.inOrder hnaming
  rw [rename] at he
  rcases List.mem_cons.mp he with rfl | he
  · obtain ⟨hmark, _⟩ := hnames.blank_marks h
    exact ⟨hmark.token, hmark.stop⟩
  · obtain ⟨operator, hoperator, rfl⟩ := Option.map_eq_some_iff.mp (Option.mem_toList.mp he)
    obtain ⟨hmark, _⟩ := hnames.operator_marks h hoperator
    exact ⟨hmark.token, hmark.stop⟩

private theorem start_ne_of_ne (h : file.OnTokens)
    {blank blank' operator operator' assignment assignment' : Tree} {error error' : ErrorTarget}
    (hnames : Names p file blank error assignment)
    (hnames' : Names p file blank' error' assignment')
    (hoperator : error.operator? = some operator) (hoperator' : error'.operator? = some operator')
    (hblank : blank.start ≠ blank'.start) : operator.start ≠ operator'.start := by
  have hne : assignment ≠ assignment' := by
    rintro rfl
    have hselected := hnames.selected.symm.trans hnames'.selected
    exact hblank (Option.some.inj hselected ▸ rfl)
  rcases h.inOrder.laid.nested_or_apart _ (hnames.mem_file h.inOrder) _ (hnames'.mem_file h.inOrder)
    with hinner | hinner | hapart
  · exact (hnames'.operator_start_ne h hnames hoperator' hoperator (Ne.symm hne) hinner).symm
  · exact hnames.operator_start_ne h hnames' hoperator hoperator' hne hinner
  · have hmem := (hnames.operator_marks h hoperator).2
    have hmem' := (hnames'.operator_marks h hoperator').2
    have hbounds := (h.inOrder.laid.node_children _ (hnames.mem_file h.inOrder)).bounds _ hmem
    have hbounds' := (h.inOrder.laid.node_children _ (hnames'.mem_file h.inOrder)).bounds _ hmem'
    omega

/-- No two edits of the renamings touch the same character. -/
theorem pairwise_renames (h : file.OnTokens) :
    ((file.namings p).flatMap rename).Pairwise fun a b => a.start ≠ b.start := by
  have hmark : ∀ {blank blank' operator assignment assignment' : Tree} {error error' : ErrorTarget},
      Names p file blank error assignment → Names p file blank' error' assignment' →
      error'.operator? = some operator → blank.start ≠ operator.start := by
    intro blank blank' operator assignment assignment' error error' hnames hnames' hoperator hstart
    have hat := (hnames.blank_marks h).1.charAt
    rw [hstart] at hat
    exact absurd (hat.unique (hnames'.operator_marks h hoperator).1.charAt) (by decide)
  rw [List.pairwise_flatMap]
  refine ⟨fun naming hnaming => ?_, ?_⟩
  · obtain ⟨assignment, hnames⟩ := exists_names h.inOrder hnaming
    rw [rename, List.pairwise_cons]
    refine ⟨fun e he => ?_, ?_⟩
    · obtain ⟨operator, hoperator, rfl⟩ := Option.map_eq_some_iff.mp (Option.mem_toList.mp he)
      exact hmark hnames hnames hoperator
    · cases naming.2.operator? <;> simp
  · refine (pairwise_eraseDupsBy _ _).imp_of_mem fun {a b} ha hb hblank x hx y hy => ?_
    obtain ⟨assignment, hnames⟩ := exists_names h.inOrder (show (a.1, a.2) ∈ _ from ha)
    obtain ⟨assignment', hnames'⟩ := exists_names h.inOrder (show (b.1, b.2) ∈ _ from hb)
    have hne : a.1.start ≠ b.1.start := fun heq => by simp [heq] at hblank
    rw [rename] at hx hy
    rcases List.mem_cons.mp hx with rfl | hx
    · rcases List.mem_cons.mp hy with rfl | hy
      · exact hne
      · obtain ⟨operator, hoperator, rfl⟩ := Option.map_eq_some_iff.mp (Option.mem_toList.mp hy)
        exact hmark hnames hnames' hoperator
    · obtain ⟨operator, hoperator, rfl⟩ := Option.map_eq_some_iff.mp (Option.mem_toList.mp hx)
      rcases List.mem_cons.mp hy with rfl | hy
      · exact (hmark hnames' hnames hoperator).symm
      · obtain ⟨operator', hoperator', rfl⟩ := Option.map_eq_some_iff.mp (Option.mem_toList.mp hy)
        exact start_ne_of_ne h hnames hnames' hoperator hoperator' hne

end Injection

end GoContracts

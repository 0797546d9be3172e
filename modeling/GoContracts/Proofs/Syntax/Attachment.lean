import GoContracts.Syntax.Tree
import Mathlib.Data.List.Basic

/-!
# Comments in trees

Placing comments keeps each of them: it becomes a child of a node of the tree or stands next to it.
-/

namespace GoContracts.Syntax.Tree

/-- A tree is of a kind if it is a node of the kind. -/
theorem is_iff {t : Tree} {k : Kind} : t.is k = true ↔ t.kind? = some k := by
  cases t with
  | mk label => cases label <;> simp [Tree.is, Tree.kind?, Tree.label]

/-- A tree of one kind is of no other. -/
theorem is_eq_false {t : Tree} {k k' : Kind} (h : t.is k) (hne : k ≠ k') : t.is k' = false :=
  Bool.eq_false_iff.mpr fun h' =>
    hne (Option.some.inj ((is_iff.mp h).symm.trans (is_iff.mp h')))

/-- A tree is a comment if it has the label of one. -/
theorem isComment_iff {t : Tree} : t.isComment = true ↔ t.label = .node .comment :=
  decide_eq_true_iff

/-- A tree is one of its nodes. -/
theorem mem_preorder_self (t : Tree) : t ∈ t.preorder := by
  cases t
  rw [preorder]
  exact List.mem_cons_self ..

/-- The nodes of trees are the nodes of each of them. -/
theorem mem_preorderAll {t : Tree} {ts : List Tree} :
    t ∈ preorderAll ts ↔ ∃ u ∈ ts, t ∈ u.preorder := by
  induction ts with
  | nil => simp [preorderAll]
  | cons u us ih => simp [preorderAll, ih]

private theorem attachAll_nil (ts : List Tree) : attachAll ts [] = ts := by
  induction ts with
  | nil => rw [attachAll]
  | cons t ts ih =>
    rw [attachAll]
    simp [ih]

/-- Without comments a tree stays as it is. -/
theorem attach_nil (t : Tree) : t.attach [] = t := by
  cases t
  rw [attach, attachAll_nil]

/-- Comments go before the first tree, into it and among the trees behind it. -/
theorem attachAll_cons {label : Label} {role? : Option Role} {start stop : Nat}
    (children ts comments : List Tree) :
    attachAll (mk label role? start stop children :: ts) comments =
      (comments.filter fun c => c.start < start) ++
        mk label role? start stop (attachAll children
          (comments.filter fun c => start ≤ c.start && c.start < stop)) ::
        attachAll ts (comments.filter fun c => stop ≤ c.start) := by
  have hwhole : ∀ inside : List Tree, (if inside.isEmpty then mk label role? start stop children
      else attach (mk label role? start stop children) inside) =
        mk label role? start stop (attachAll children inside) := by
    intro inside
    cases inside with
    | nil => rw [if_pos List.isEmpty_nil, attachAll_nil]
    | cons c cs => rw [if_neg (by simp), attach]
  rw [attachAll]
  exact congrArg (_ ++ · :: _) (hwhole _)

mutual

/-- Each comment is a node of the tree to which it is attached. -/
theorem mem_preorder_attach {c : Tree} {comments : List Tree} (h : c ∈ comments) :
    ∀ t : Tree, c ∈ (t.attach comments).preorder
  | mk l r s e cs => by
    rw [attach, preorder]
    exact List.mem_cons_of_mem _ (mem_preorderAll_attachAll h cs)

/-- Every comment that is placed stands somewhere. -/
theorem mem_preorderAll_attachAll {c : Tree} {comments : List Tree} (h : c ∈ comments) :
    ∀ ts : List Tree, c ∈ preorderAll (attachAll ts comments)
  | [] => by
    rw [attachAll, mem_preorderAll]
    exact ⟨c, h, mem_preorder_self c⟩
  | t :: ts => by
    rw [attachAll]
    simp only [mem_preorderAll, List.mem_append, List.mem_cons]
    by_cases hbefore : c.start < t.start
    · exact ⟨c, .inl (by simp [h, hbefore]), mem_preorder_self c⟩
    by_cases hafter : t.stop ≤ c.start
    · have hmem : c ∈ comments.filter fun c => t.stop ≤ c.start := by simp [h, hafter]
      obtain ⟨u, hu, hc⟩ := mem_preorderAll.mp (mem_preorderAll_attachAll hmem ts)
      exact ⟨u, .inr (.inr hu), hc⟩
    · have hmem : c ∈ comments.filter fun c => t.start ≤ c.start && c.start < t.stop := by
        simp only [List.mem_filter, Bool.and_eq_true, decide_eq_true_eq]
        exact ⟨h, Nat.not_lt.mp hbefore, Nat.not_le.mp hafter⟩
      rw [if_neg (by simpa using List.ne_nil_of_mem hmem)]
      exact ⟨_, .inr (.inl rfl), mem_preorder_attach hmem t⟩

end

end GoContracts.Syntax.Tree

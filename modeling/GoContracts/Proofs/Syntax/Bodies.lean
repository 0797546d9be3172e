import GoContracts.Proofs.Syntax.Layout
import GoContracts.Syntax.SourceFile

/-!
# Statements and comments of a file

The statements of all lists of a file begin at different places, and each comment stands directly
in at most one of the lists.
-/

namespace GoContracts.Syntax

open Syntax.Tree (preorderAll)

/-- The nodes in the trees that are children of others but not the first ones. -/
def laterChildren (trees : List Tree) : List Tree := (preorderAll trees).flatMap (·.children.tail)

private theorem laterChildren_cons {label : Label} {role? : Option Role} {start stop : Nat}
    (children trees : List Tree) :
    laterChildren (.mk label role? start stop children :: trees) =
      children.tail ++ laterChildren children ++ laterChildren trees := by
  simp [laterChildren, Tree.preorderAll, Tree.preorder, Tree.children]

/-- The nodes of a tree are the tree and the nodes inside it. -/
theorem Tree.preorder_eq (t : Tree) : t.preorder = t :: preorderAll t.children := by
  cases t
  rw [Tree.preorder]
  rfl

namespace Laid

variable {lo hi : Nat} {trees : List Tree}

private theorem tail_bounds (h : Laid lo hi trees) :
    ∀ t ∈ trees.tail, lo < t.start ∧ t.start < t.stop ∧ t.stop ≤ hi := by
  cases h with
  | nil => simp
  | cons hlo hpos _ _ _ more =>
    intro t ht
    obtain ⟨hstart, hlt, hstop⟩ := more.bounds t ht
    exact ⟨by omega, hlt, hstop⟩

/-- What a node has behind its first child lies inside the node. -/
theorem laterChildren_bounds (h : Laid lo hi trees) :
    ∀ t ∈ laterChildren trees, lo < t.start ∧ t.start < hi := by
  induction h with
  | nil => simp [laterChildren, Tree.preorderAll]
  | cons hlo hpos inside _ _ more ihi ihm =>
    have hle := more.le
    intro t ht
    rw [laterChildren_cons, List.mem_append, List.mem_append] at ht
    rcases ht with (ht | ht) | ht
    · have := inside.tail_bounds t ht
      omega
    · have := ihi t ht
      omega
    · have := ihm t ht
      omega

/-- Trees and all but the first children of the nodes in them begin at different places. -/
theorem nodup_starts (h : Laid lo hi trees) :
    ((trees ++ laterChildren trees).map Tree.start).Nodup := by
  -- First children begin where their parents do; all others lie strictly behind one another.
  induction h with
  | nil => simp [laterChildren, Tree.preorderAll]
  | @cons _ hi label role? start stop children trees _ hpos inside _ _ more ihi ihm =>
    have hperm : (Tree.mk label role? start stop children :: trees ++
        laterChildren (.mk label role? start stop children :: trees)).Perm
          (.mk label role? start stop children ::
            ((children.tail ++ laterChildren children) ++ (trees ++ laterChildren trees))) := by
      rw [laterChildren_cons, List.cons_append]
      exact (List.perm_append_comm_assoc _ _ _).cons _
    have hinside : ∀ t ∈ children.tail ++ laterChildren children,
        start < t.start ∧ t.start < stop := by
      intro t ht
      rcases List.mem_append.mp ht with ht | ht
      · have := inside.tail_bounds t ht
        omega
      · exact inside.laterChildren_bounds t ht
    have hmore : ∀ t ∈ trees ++ laterChildren trees, stop ≤ t.start := by
      intro t ht
      rcases List.mem_append.mp ht with ht | ht
      · exact (more.bounds t ht).1
      · exact Nat.le_of_lt (more.laterChildren_bounds t ht).1
    have hsub : (children.tail ++ laterChildren children).Sublist
        (children ++ laterChildren children) := (List.tail_sublist _).append_right _
    rw [(hperm.map Tree.start).nodup_iff, List.map_cons, List.nodup_cons, List.map_append,
      List.nodup_append]
    refine ⟨fun hmem => ?_, ihi.sublist (hsub.map _), ihm, fun a ha b hb hab => ?_⟩
    · rw [← List.map_append, List.mem_map] at hmem
      obtain ⟨t, ht, hstart⟩ := hmem
      rw [Tree.start] at hstart
      rcases List.mem_append.mp ht with ht | ht
      · have := hinside t ht
        omega
      · have := hmore t ht
        omega
    · obtain ⟨t, ht, rfl⟩ := List.mem_map.mp ha
      obtain ⟨u, hu, rfl⟩ := List.mem_map.mp hb
      have := hinside t ht
      have := hmore u hu
      omega

/-- Trees stand side by side. -/
theorem pairwise (h : Laid lo hi trees) : trees.Pairwise fun a b => a.stop ≤ b.start := by
  induction h with
  | nil => exact .nil
  | cons _ _ _ _ _ more _ ih =>
    exact List.pairwise_cons.mpr ⟨fun t ht => (more.bounds t ht).1, ih⟩

/-- The nodes of trees stand where the trees do. -/
theorem node_bounds (h : Laid lo hi trees) :
    ∀ t ∈ preorderAll trees, lo ≤ t.start ∧ t.start < t.stop ∧ t.stop ≤ hi := by
  induction h with
  | nil => simp [Tree.preorderAll]
  | cons hlo hpos _ _ _ more ihi ihm =>
    have hle := more.le
    intro t ht
    rw [Tree.preorderAll, Tree.preorder] at ht
    rcases List.mem_append.mp ht with ht | ht
    · rcases List.mem_cons.mp ht with rfl | ht
      · exact ⟨hlo, hpos, hle⟩
      · have := ihi t ht
        omega
    · have := ihm t ht
      omega

/-- The children of a node stand in order inside it. -/
theorem node_children (h : Laid lo hi trees) :
    ∀ t ∈ preorderAll trees, Laid t.start t.stop t.children := by
  induction h with
  | nil => simp [Tree.preorderAll]
  | cons _ _ inside _ _ _ ihi ihm =>
    intro t ht
    rw [Tree.preorderAll, Tree.preorder] at ht
    rcases List.mem_append.mp ht with ht | ht
    · rcases List.mem_cons.mp ht with rfl | ht
      · exact inside
      · exact ihi t ht
    · exact ihm t ht

/-- Of two nodes one is part of the other, or one ends before the other begins. -/
theorem nested_or_apart (h : Laid lo hi trees) : ∀ t ∈ preorderAll trees, ∀ u ∈ preorderAll trees,
    t ∈ u.preorder ∨ u ∈ t.preorder ∨ t.stop ≤ u.start ∨ u.stop ≤ t.start := by
  induction h with
  | nil => simp [Tree.preorderAll]
  | @cons _ _ label role? start stop children trees hlo hpos inside front bare more ihi ihm =>
    have hown : ∀ t ∈ Tree.preorder (.mk label role? start stop children), t.stop ≤ stop := by
      intro t ht
      rw [Tree.preorder] at ht
      rcases List.mem_cons.mp ht with rfl | ht
      · exact Nat.le_refl _
      · exact (inside.node_bounds t ht).2.2
    have hrest : ∀ t ∈ preorderAll trees, stop ≤ t.start := fun t ht =>
      (more.node_bounds t ht).1
    intro t ht u hu
    rw [Tree.preorderAll] at ht hu
    rcases List.mem_append.mp ht with ht | ht
    · rcases List.mem_append.mp hu with hu | hu
      · have ht' := ht
        have hu' := hu
        rw [Tree.preorder] at ht' hu'
        rcases List.mem_cons.mp ht' with rfl | ht'
        · exact .inr (.inl hu)
        rcases List.mem_cons.mp hu' with rfl | hu'
        · exact .inl ht
        · exact ihi t ht' u hu'
      · have := hown t ht
        have := hrest u hu
        exact .inr (.inr (.inl (by omega)))
    · rcases List.mem_append.mp hu with hu | hu
      · have := hown u hu
        have := hrest t ht
        exact .inr (.inr (.inr (by omega)))
      · exact ihm t ht u hu

/-- The comments in the trees are in order. -/
theorem pairwise_comments (h : Laid lo hi trees) :
    (((preorderAll trees).filter (·.isComment)).Pairwise fun a b => a.start < b.start) ∧
      ∀ c ∈ (preorderAll trees).filter (·.isComment), lo ≤ c.start ∧ c.start < hi := by
  induction h with
  | nil => simp [Tree.preorderAll]
  | @cons lo hi label role? start stop children trees hlo hpos inside _ bare more ihi ihm =>
    have hle := more.le
    have hown : ((Tree.preorder (.mk label role? start stop children)).filter
      (·.isComment)).Pairwise
          (fun a b => a.start < b.start) ∧
        ∀ c ∈ (Tree.preorder (.mk label role? start stop children)).filter (·.isComment),
          start ≤ c.start ∧ c.start < stop := by
      rw [Tree.preorder]
      by_cases hc : (Tree.mk label role? start stop children).isComment = true
      · obtain rfl := bare.1 (Tree.isComment_iff.mp hc)
        rw [Tree.preorderAll, List.filter_cons_of_pos hc, List.filter_nil]
        refine ⟨List.pairwise_singleton _ _, fun c hmem => ?_⟩
        rw [List.mem_singleton.mp hmem]
        exact ⟨Nat.le_refl _, hpos⟩
      · rw [List.filter_cons_of_neg hc]
        exact ihi
    rw [Tree.preorderAll, List.filter_append, List.pairwise_append]
    refine ⟨⟨hown.1, ihm.1, fun a ha b hb => ?_⟩, fun c hc => ?_⟩
    · have := hown.2 a ha
      have := ihm.2 b hb
      omega
    · rcases List.mem_append.mp hc with hc | hc
      · have := hown.2 c hc
        omega
      · have := ihm.2 c hc
        omega

/-- No node stands around a list of statements. -/
theorem flat (h : Laid lo hi trees) : ∀ t ∈ trees, t.is .statementList = false := by
  induction h with
  | nil => simp
  | cons _ _ _ _ bare _ _ ih =>
    exact List.forall_mem_cons.mpr ⟨decide_eq_false bare.2, ih⟩

/-- Among the children of a node that are not all comments the first one is none. -/
theorem comments_sublist_tail (h : Laid lo hi trees) : ∀ t ∈ preorderAll trees,
    (∃ c ∈ t.children, c.isComment = false) →
      (t.children.filter (·.isComment)).Sublist t.children.tail := by
  induction h with
  | nil => simp [Tree.preorderAll]
  | @cons _ _ label role? start stop children trees _ _ _ front _ _ ihi ihm =>
    intro t ht hother
    rw [Tree.preorderAll, Tree.preorder] at ht
    rcases List.mem_append.mp ht with ht | ht
    · rcases List.mem_cons.mp ht with rfl | ht
      · rw [Tree.children] at hother ⊢
        obtain ⟨c, hc, hno⟩ := hother
        cases children with
        | nil => exact .slnil
        | cons first rest =>
          have hfirst : first.isComment = false := by
            rcases front with hfront | hall
            · exact hfront first rfl
            · rw [hall c hc] at hno
              exact absurd hno (by simp)
          rw [List.filter_cons_of_neg (by simp [hfirst]), List.tail_cons]
          exact List.filter_sublist
      · exact ihi t ht hother
    · exact ihm t ht hother

end Laid

end GoContracts.Syntax

namespace GoContracts

open Syntax (Tree Laid laterChildren)

/-! ### Bodies -/

/-- Trees other than lists of statements hold no statements but themselves. -/
theorem Body.flatMap_statementsOf {trees : List Tree}
    (h : ∀ t ∈ trees, t.is .statementList = false) :
    trees.flatMap statementsOf = trees.filter fun t => t.isNamed && !t.isComment := by
  induction trees with
  | nil => rfl
  | cons t trees ih =>
    obtain ⟨ht, htrees⟩ := List.forall_mem_cons.mp h
    rw [List.flatMap_cons, ih htrees, statementsOf, ht, List.filter_cons]
    cases t.isNamed
    · rfl
    · cases t.isComment
      · rfl
      · rfl

/-- The statements of a body without lists of statements are children of its node, and not the first
ones. -/
theorem Body.of_eq_some {t : Tree} {body : Body}
    (hflat : ∀ c ∈ t.children, c.is .statementList = false) (h : Body.of? t = some body) :
    body.node = t ∧
      body.statements.Sublist (t.children.tail.filter fun c => c.isNamed && !c.isComment) ∧
      ∃ c ∈ t.children, c.isComment = false := by
  obtain ⟨kind, hkind, h⟩ := Option.bind_eq_some_iff.mp h
  obtain ⟨opening, hopening, hbody⟩ := Option.bind_eq_some_iff.mp h
  obtain rfl := Option.some.inj hbody
  have hsuffix := List.dropWhile_suffix (l := t.children) (!·.isToken (openingToken t))
  have htail := hsuffix.sublist.tail
  have hstatements := flatMap_statementsOf fun c hc =>
    hflat c (List.mem_of_mem_tail (htail.subset hc))
  refine ⟨rfl, ?_, opening, hsuffix.subset (List.mem_of_head? hopening), ?_⟩
  · show (List.flatMap statementsOf _).Sublist _
    rw [hstatements]
    exact htail.filter _
  have htoken := List.head?_dropWhile_not (!·.isToken (openingToken t)) t.children
  rw [hopening] at htoken
  have hlabel : opening.label = .token (openingToken t) :=
    of_decide_eq_true (by simpa [Tree.isToken] using htoken)
  exact Bool.eq_false_iff.mpr fun hc => by simp [Tree.isComment_iff.mp hc] at hlabel

/-- The nodes of a file stand in order within its text. -/
structure SourceFile.InOrder (file : SourceFile) : Prop where
  root : file.tree.label = .node .sourceFile
  laid : Laid 0 (Text.size file.text) file.tree.children

/-- A parsed file is in order. -/
theorem SourceFile.inOrder_parse (path text : String) : (parse path text).InOrder :=
  let ⟨root, laid⟩ := Syntax.Grammar.laid_readSource text
  { root, laid }

namespace SourceFile.InOrder

variable {file : SourceFile}

/-- The root of a file has no body itself. -/
theorem bodies_eq (h : file.InOrder) :
    Body.all file.tree = (Tree.preorderAll file.tree.children).filterMap Body.of? := by
  have hroot : Body.of? file.tree = none := by
    simp [Body.of?, Body.scopeKind?, Tree.kind?, h.root, Syntax.Kind.isScope]
  rw [Body.all, Tree.preorder_eq, List.filterMap_cons_none hroot]

/-- Among the children of the node of a body there are no lists of statements. -/
theorem flat_body (h : file.InOrder) {body : Body} (hbody : body ∈ Body.all file.tree) :
    ∀ c ∈ body.node.children, c.is .statementList = false := by
  rw [h.bodies_eq] at hbody
  obtain ⟨t, ht, hbody⟩ := List.mem_filterMap.mp hbody
  have hflat := (h.laid.node_children t ht).flat
  obtain ⟨rfl, _⟩ := Body.of_eq_some hflat hbody
  exact hflat

/-- The root of a file is no comment. -/
theorem comments_eq (h : file.InOrder) :
    file.comments = (Tree.preorderAll file.tree.children).filter (·.isComment) := by
  have hroot : ¬file.tree.isComment = true := fun hc => by
    rw [Tree.isComment_iff, h.root] at hc
    simp at hc
  rw [comments, Tree.preorder_eq, List.filter_cons_of_neg hroot]

/-- The comments of a file in order are in order. -/
theorem pairwise_comments (h : file.InOrder) :
    file.comments.Pairwise fun a b => a.start < b.start := by
  rw [h.comments_eq]
  exact h.laid.pairwise_comments.1

/-- Parts of what stands behind the first children of the nodes with bodies. -/
private theorem sublist_laterChildren (trees : List Tree) {g : Body → List Tree}
    (hg : ∀ t ∈ Tree.preorderAll trees, ∀ body, Body.of? t = some body →
      (g body).Sublist t.children.tail) :
    (((Tree.preorderAll trees).filterMap Body.of?).flatMap g).Sublist (laterChildren trees) := by
  rw [laterChildren]
  generalize Tree.preorderAll trees = nodes at hg
  induction nodes with
  | nil => exact .slnil
  | cons t nodes ih =>
    have hmore := ih fun u hu => hg u (List.mem_cons_of_mem t hu)
    cases hbody : Body.of? t with
    | none =>
      rw [List.filterMap_cons_none hbody, List.flatMap_cons]
      exact hmore.trans (List.sublist_append_right _ _)
    | some body =>
      rw [List.filterMap_cons_some hbody, List.flatMap_cons, List.flatMap_cons]
      exact (hg t (List.mem_cons_self ..) body hbody).append hmore

/-- The statements of all bodies begin at different places. -/
theorem nodup_statements (h : file.InOrder) :
    (((Body.all file.tree).flatMap (·.statements)).map Tree.start).Nodup := by
  have hsub := sublist_laterChildren file.tree.children (g := Body.statements)
    fun t ht body hbody =>
      (Body.of_eq_some (h.laid.node_children t ht).flat hbody).2.1.trans List.filter_sublist
  rw [h.bodies_eq]
  exact h.laid.nodup_starts.sublist
    ((hsub.trans (List.sublist_append_right _ _)).map Tree.start)

/-- The comments that stand directly in bodies begin at different places. -/
theorem nodup_bodyComments (h : file.InOrder) :
    (((Body.all file.tree).flatMap fun body =>
      body.node.children.filter (·.isComment)).map Tree.start).Nodup := by
  have hsub := sublist_laterChildren file.tree.children
    (g := fun body => body.node.children.filter (·.isComment)) fun t ht body hbody => by
      obtain ⟨rfl, _, hother⟩ := Body.of_eq_some (h.laid.node_children t ht).flat hbody
      exact h.laid.comments_sublist_tail _ ht hother
  rw [h.bodies_eq]
  exact h.laid.nodup_starts.sublist
    ((hsub.trans (List.sublist_append_right _ _)).map Tree.start)

end SourceFile.InOrder

end GoContracts

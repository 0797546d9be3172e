import GoContracts.Proofs.Syntax.Grammar.File

/-!
# Where the nodes of a tree stand

The nodes of a tree stand in order, each within its parent, and comments keep that order when they
are placed among the nodes.
-/

namespace GoContracts.Syntax

/-- The trees stand in order between two positions, each with its children inside it. A comment has
no children, and it is the first child of a node only if the node has no others but comments. No
node stands around a list of statements. -/
inductive Laid : Nat → Nat → List Tree → Prop
  | nil {lo hi : Nat} (h : lo ≤ hi) : Laid lo hi []
  | cons {lo hi : Nat} {label : Label} {role? : Option Role} {start stop : Nat}
      {children trees : List Tree} (hlo : lo ≤ start) (hpos : start < stop)
      (inside : Laid start stop children)
      (front : (∀ c, children.head? = some c → c.isComment = false) ∨
        ∀ c ∈ children, c.isComment = true)
      (bare : (label = .node .comment → children = []) ∧ label ≠ .node .statementList)
      (more : Laid stop hi trees) :
      Laid lo hi (.mk label role? start stop children :: trees)

namespace Laid

variable {lo mid hi : Nat} {trees : List Tree}

/-- Trees are laid out between a position and a later one. -/
theorem le (h : Laid lo hi trees) : lo ≤ hi := by
  induction h with
  | nil h => exact h
  | cons hlo hpos _ _ _ _ _ ih => omega

private theorem append {more : List Tree} (h : Laid lo mid trees) (hmore : Laid mid hi more) :
    Laid lo hi (trees ++ more) := by
  induction h with
  | nil h =>
    cases hmore with
    | nil h' => exact .nil (Nat.le_trans h h')
    | cons hlo hpos inside front bare more =>
      exact .cons (Nat.le_trans h hlo) hpos inside front bare more
  | cons hlo hpos inside front bare _ _ ih =>
    exact .cons hlo hpos inside front bare (ih hmore)

/-- The trees stand between the two positions. -/
theorem bounds (h : Laid lo hi trees) :
    ∀ t ∈ trees, lo ≤ t.start ∧ t.start < t.stop ∧ t.stop ≤ hi := by
  induction h with
  | nil => simp
  | cons hlo hpos _ _ _ more _ ih =>
    refine List.forall_mem_cons.mpr ⟨⟨hlo, hpos, more.le⟩, fun t ht => ?_⟩
    obtain ⟨hstart, hlt, hstop⟩ := ih t ht
    exact ⟨by omega, hlt, hstop⟩

end Laid

/-! ### Comments -/

/-- A comment as the tokens of a text give it. -/
structure IsRemark (c : Tree) : Prop where
  label : c.label = .node .comment
  bare : c.children = []
  pos : c.start < c.stop

/-- Comments in order between two positions. -/
structure Remarks (lo hi : Nat) (comments : List Tree) : Prop where
  remark : ∀ c ∈ comments, IsRemark c
  between : ∀ c ∈ comments, lo ≤ c.start ∧ c.stop ≤ hi
  pairwise : comments.Pairwise fun a b => a.stop ≤ b.start

namespace Remarks

variable {lo hi : Nat} {comments : List Tree}

private theorem filter (h : Remarks lo hi comments) {lo' hi' : Nat} (p : Tree → Bool)
    (hp : ∀ c ∈ comments, p c = true → lo' ≤ c.start ∧ c.stop ≤ hi') :
    Remarks lo' hi' (comments.filter p) where
  remark c hc := h.remark c (List.mem_of_mem_filter hc)
  between c hc := hp c (List.mem_of_mem_filter hc) (List.mem_filter.mp hc).2
  pairwise := h.pairwise.filter p

/-- The comments that begin before a position at which none of them is cut. -/
theorem before (h : Remarks lo hi comments) {pos : Nat}
    (hclear : ∀ c ∈ comments, c.start < pos → c.stop ≤ pos) :
    Remarks lo pos (comments.filter fun c => c.start < pos) :=
  h.filter _ fun c hc hlt => ⟨(h.between c hc).1, hclear c hc (by simpa using hlt)⟩

/-- The comments between two positions of which the second cuts none of them. -/
theorem inside (h : Remarks lo hi comments) {start stop : Nat}
    (hclear : ∀ c ∈ comments, c.start < stop → c.stop ≤ stop) :
    Remarks start stop (comments.filter fun c => start ≤ c.start && c.start < stop) := by
  refine h.filter _ fun c hc hin => ?_
  simp only [Bool.and_eq_true, decide_eq_true_eq] at hin
  exact ⟨hin.1, hclear c hc hin.2⟩

/-- The comments from a position on. -/
theorem behind (h : Remarks lo hi comments) (pos : Nat) :
    Remarks pos hi (comments.filter fun c => pos ≤ c.start) :=
  h.filter _ fun c hc hle => ⟨by simpa using hle, (h.between c hc).2⟩

/-- Comments between two positions are laid out there. -/
theorem laid (h : Remarks lo hi comments) (hle : lo ≤ hi) : Laid lo hi comments := by
  induction comments generalizing lo with
  | nil => exact .nil hle
  | cons c cs ih =>
    obtain ⟨hlabel, hbare, hpos⟩ := h.remark c (List.mem_cons_self ..)
    obtain ⟨hlo, hhi⟩ := h.between c (List.mem_cons_self ..)
    obtain ⟨hfirst, hrest⟩ := List.pairwise_cons.mp h.pairwise
    have hmore : Remarks c.stop hi cs :=
      { remark := fun d hd => h.remark d (List.mem_cons_of_mem c hd)
        between := fun d hd => ⟨hfirst d hd, (h.between d (List.mem_cons_of_mem c hd)).2⟩
        pairwise := hrest }
    cases c with
    | mk label role? start stop children =>
      obtain rfl : children = [] := hbare
      obtain rfl : label = .node .comment := hlabel
      exact .cons hlo hpos (.nil (Nat.le_of_lt hpos)) (.inl (by simp)) ⟨fun _ => rfl, by decide⟩
        (ih hmore hhi)

end Remarks

/-- Comments share no byte with tokens. -/
def Apart (comments : List Tree) (ts : List Token) : Prop :=
  ∀ c ∈ comments, ∀ u ∈ ts, u.stop ≤ c.start ∨ c.stop ≤ u.start

private theorem Apart.mono {comments some : List Tree} {ts few : List Token} (h : Apart comments ts)
    (hc : some ⊆ comments) (ht : few ⊆ ts) : Apart some few :=
  fun c hsome u hfew => h c (hc hsome) u (ht hfew)

/-- No comment is cut where a token begins or ends. -/
theorem Apart.clear {comments : List Tree} {ts : List Token} (h : Apart comments ts)
    (ho : Ordered ts) {u : Token} (hu : u ∈ ts) :
    (∀ c ∈ comments, c.start < u.start → c.stop ≤ u.start) ∧
      ∀ c ∈ comments, c.start < u.stop → c.stop ≤ u.stop := by
  have hpos := ho.1 u hu
  constructor
  · intro c hc hlt
    have := h c hc u hu
    omega
  · intro c hc hlt
    have := h c hc u hu
    omega

/-! ### Trees that read tokens -/

private theorem Ordered.head_start_lt {own : List Token} (h : Ordered own) {first last : Token}
    (hfirst : own.head? = some first) (hlast : own.getLast? = some last) :
    first.start < last.stop := by
  have hpos := h.1 first (List.mem_of_head? hfirst)
  obtain ⟨rest, rfl⟩ := List.head?_eq_some_iff.mp hfirst
  rcases List.mem_cons.mp (List.mem_of_getLast? hlast) with rfl | hmem
  · exact hpos
  · have hle := (List.pairwise_cons.mp h.2).1 last hmem
    have := h.1 last (List.mem_cons_of_mem first hmem)
    omega

private theorem Ordered.stop_le_last {ts : List Token} (h : Ordered ts) {last u : Token}
    (hlast : ts.getLast? = some last) (hu : u ∈ ts) : u.stop ≤ last.stop := by
  obtain ⟨before, rfl⟩ := List.getLast?_eq_some_iff.mp hlast
  rcases List.mem_append.mp hu with hu | hu
  · have hle := (List.pairwise_append.mp h.2).2.2 u hu last (List.mem_singleton_self last)
    have hpos := h.1 last (by simp)
    omega
  · rw [List.mem_singleton.mp hu]

namespace Reads

variable {trees : List Tree} {ts : List Token} {lo hi : Nat}

/-- The grammar makes no comments. -/
theorem isComment_eq_false (h : Reads trees ts) : ∀ t ∈ trees, t.isComment = false := by
  induction h with
  | nil => simp
  | @leaf label _ _ _ _ _ _ _ _ _ _ _ spelled _ ih =>
    refine List.forall_mem_cons.mpr ⟨Bool.eq_false_iff.mpr fun hc => ?_, ih⟩
    have hlabel : label = .node .comment := Tree.isComment_iff.mp hc
    rw [hlabel] at spelled
    exact spelled.1 (by decide)
  | @node k _ _ _ _ _ _ _ _ _ _ _ _ _ formed _ _ _ _ _ ih =>
    refine List.forall_mem_cons.mpr ⟨Bool.eq_false_iff.mpr fun hc => ?_, ih⟩
    have hlabel : Label.node k = .node .comment := Tree.isComment_iff.mp hc
    obtain rfl := Label.node.inj hlabel
    exact formed

/-- The first tree begins before all tokens that are no newlines. -/
theorem start_le {t : Tree} (h : Reads (t :: trees) ts) (ho : Ordered ts) {u : Token} (hu : u ∈ ts)
    (hsolid : u.lexeme ≠ .newline) : t.start ≤ u.start := by
  obtain ⟨newlines, first, rest, rfl, hblank, _, hstart⟩ := h.start_eq
  rw [hstart]
  rcases List.mem_append.mp hu with hu | hu
  · exact absurd (hblank u hu) hsolid
  rcases List.mem_cons.mp hu with rfl | hu
  · exact Nat.le_refl _
  · have htail : Ordered ([first] ++ rest) := ho.right
    exact Nat.le_of_lt (htail.start_lt (List.mem_singleton_self first) hu)

/-- A node over trees and newlines ends with the last of its tokens. -/
theorem exists_stop {final : Tree} {newlines : List Token} (h : Reads trees ts)
    (hlast : trees.getLast? = some final) (ho : Ordered (ts ++ newlines)) :
    ∃ last ∈ ts ++ newlines, (newlines.getLast?.map (·.stop)).getD final.stop = last.stop ∧
      ∀ u ∈ ts ++ newlines, u.stop ≤ last.stop := by
  cases hnewline : newlines.getLast? with
  | none =>
    obtain ⟨last, hlastToken, hstop⟩ := Option.map_eq_some_iff.mp (h.stop_eq hlast)
    obtain rfl := List.getLast?_eq_none_iff.mp hnewline
    rw [List.append_nil] at ho ⊢
    exact ⟨last, List.mem_of_getLast? hlastToken, hstop.symm,
      fun u hu => ho.stop_le_last hlastToken hu⟩
  | some newline =>
    refine ⟨newline, List.mem_append_right _ (List.mem_of_getLast? hnewline), rfl, fun u hu => ?_⟩
    exact ho.stop_le_last (by rw [List.getLast?_append, hnewline, Option.some_or]) hu

/-- Trees that read tokens stand in order, with comments that share no byte with the tokens placed
among them. -/
theorem laid (h : Reads trees ts) (ho : Ordered ts) (hle : lo ≤ hi)
    (hlo : ∀ u ∈ ts, u.lexeme ≠ .newline → lo ≤ u.start) (hhi : ∀ u ∈ ts, u.stop ≤ hi)
    {comments : List Tree} (hcomments : Remarks lo hi comments) (hapart : Apart comments ts) :
    Laid lo hi (Tree.attachAll trees comments) := by
  -- The comments are divided as `attachAll` does it, and the bounds go down with them.
  induction h generalizing lo hi comments with
  | nil =>
    rw [Tree.attachAll]
    exact hcomments.laid hle
  | @leaf label role? newlines own first last trees rest blank hfirst hlast solid spelled more ih =>
    have hown : Ordered own := ho.left.right
    have hmemFirst : first ∈ newlines ++ own ++ rest := by simp [List.mem_of_head? hfirst]
    have hmemLast : last ∈ newlines ++ own ++ rest := by simp [List.mem_of_getLast? hlast]
    have hpos := hown.head_start_lt hfirst hlast
    have hinside : Remarks first.start last.stop _ := hcomments.inside (hapart.clear ho hmemLast).2
    rw [Tree.attachAll_cons, Tree.attachAll]
    refine ((hcomments.before (hapart.clear ho hmemFirst).1).laid
      (hlo first hmemFirst solid)).append
      (.cons (Nat.le_refl _) hpos (hinside.laid (Nat.le_of_lt hpos)) (.inr fun c hc => ?_) ?_ ?_)
    · exact Tree.isComment_iff.mpr (hinside.remark c hc).label
    · refine ⟨?_, ?_⟩ <;> rintro rfl <;> exact absurd (by decide) spelled.1
    · refine ih ho.right (hhi last hmemLast) (fun u hu _ => ?_) (fun u hu => hhi u (by simp [hu]))
        (hcomments.behind _) (hapart.mono (List.filter_subset_self _)
          (List.subset_append_right _ rest))
      exact (List.pairwise_append.mp ho.2).2.2 last
        (List.mem_append_right _ (List.mem_of_getLast? hlast)) u hu
  | @node k role? child final children trees inner newlines rest stop parts hfirst hlast balanced
      formed blank hstop clause more ihp ih =>
    obtain ⟨cs, rfl⟩ := List.head?_eq_some_iff.mp hfirst
    have hinner : Ordered inner := ho.left.left
    obtain ⟨last, hmemLast, hend, hbound⟩ := parts.exists_stop hlast ho.left
    obtain rfl : stop = last.stop := hstop.trans hend
    obtain ⟨_, first, _, hsplit, _, solid, hstart⟩ := parts.start_eq
    have hfirstInner : first ∈ inner := by simp [hsplit]
    have hmemFirst : first ∈ inner ++ newlines ++ rest := by simp [hfirstInner]
    have hmemLast' : last ∈ inner ++ newlines ++ rest := List.mem_append_left rest hmemLast
    have hpos : child.start < last.stop := by
      have hle := hbound first (List.mem_append_left _ hfirstInner)
      have := hinner.1 first hfirstInner
      omega
    have hclear := hapart.clear ho hmemFirst
    rw [← hstart] at hclear
    have hwithin := ihp hinner (Nat.le_of_lt hpos)
      (fun u hu hsolid => parts.start_le hinner hu hsolid)
      (fun u hu => hbound u (List.mem_append_left _ hu))
      (hcomments.inside (hapart.clear ho hmemLast').2)
      (hapart.mono (List.filter_subset_self _) fun u hu => by simp [hu])
    have hlo' : lo ≤ child.start := by
      rw [hstart]
      exact hlo first hmemFirst solid
    rw [Tree.attachAll_cons]
    refine ((hcomments.before hclear.1).laid hlo').append
      (.cons (Nat.le_refl _) hpos hwithin (.inl fun c hc => ?_) ?_ ?_)
    · have hnamed := parts.isComment_eq_false child (List.mem_cons_self ..)
      have hnone : (comments.filter fun c => child.start ≤ c.start && c.start < last.stop).filter
          (fun c => c.start < child.start) = [] := by
        rw [List.filter_filter, List.filter_eq_nil_iff]
        intro d _
        simp
        omega
      cases child with
      | mk label _ start stop children =>
        rw [Tree.start] at hnone
        rw [Tree.start, Tree.attachAll_cons, hnone, List.nil_append, List.head?_cons,
          Option.some.injEq] at hc
        rw [← hc]
        exact hnamed
    · refine ⟨fun hk => ?_, fun hk => ?_⟩ <;> obtain rfl := Label.node.inj hk <;> exact formed.elim
    · refine ih ho.right (hhi last hmemLast') (fun u hu _ => ?_) (fun u hu => hhi u (by simp [hu]))
        (hcomments.behind _) (hapart.mono (List.filter_subset_self _)
          (List.subset_append_right _ rest))
      exact (List.pairwise_append.mp ho.2).2.2 last hmemLast u hu

end Reads

/-! ### Trees of texts -/

namespace Grammar

variable {tokens : List Token}

private theorem remarks_comments (ho : Ordered tokens) {hi : Nat}
    (hhi : ∀ u ∈ tokens, u.stop ≤ hi) :
    Remarks 0 hi (comments tokens) where
  remark c hc := by
    obtain ⟨u, hu, rfl⟩ := List.mem_map.mp hc
    exact ⟨rfl, rfl, ho.1 u (List.mem_of_mem_filter hu)⟩
  between c hc := by
    obtain ⟨u, hu, rfl⟩ := List.mem_map.mp hc
    exact ⟨Nat.zero_le _, hhi u (List.mem_of_mem_filter hu)⟩
  pairwise := List.pairwise_map.mpr (ho.2.filter _)

private theorem apart_comments (ho : Ordered tokens) {own : List Token}
    (hown : own ⊆ significant tokens) :
    Apart (comments tokens) own := by
  intro c hc u hu
  obtain ⟨v, hv, rfl⟩ := List.mem_map.mp hc
  obtain ⟨hv, hcomment⟩ := List.mem_filter.mp hv
  have hne : u ≠ v := by
    rintro rfl
    exact lexeme_ne_comment (hown hu) (of_decide_eq_true hcomment)
  have hapart := List.Pairwise.forall_of_forall_of_flip
    (R := fun a b : Token => a ≠ b → a.stop ≤ b.start ∨ b.stop ≤ a.start)
    (fun a _ hne => absurd rfl hne) (ho.2.imp fun hle _ => .inl hle)
    (ho.2.imp fun hle _ => .inr hle)
  exact hapart ((significant_sublist tokens).subset (hown hu)) hv hne

/-- The parts of the tree of a text stand in order within the text. -/
theorem laid_readSource (text : String) : (readSource text).1.label = .node .sourceFile ∧
    Laid 0 (Text.size text) (readSource text).1.children := by
  have ho := Token.ordered_readAll text
  unfold readSource
  simp only [StateT.run]
  split
  · next items rest hitems =>
    refine ⟨rfl, ?_⟩
    obtain ⟨newlines, _, hparsed, _⟩ := fileItems_parsed (sound_rulesTo _) hitems
    obtain ⟨own, hown, hreads, _⟩ := hparsed (ho.sublist (significant_sublist _))
    have hsub : own ⊆ significant (Token.readAll text) := by
      rw [hown]
      exact List.subset_append_left _ _
    have hmem : own ⊆ Token.readAll text := fun u hu => (significant_sublist _).subset (hsub hu)
    exact hreads.laid (ho.sublist ((List.sublist_append_left own _).trans
        (hown ▸ significant_sublist _))) (Nat.zero_le _) (fun _ _ _ => Nat.zero_le _)
      (fun u hu => Token.stop_le_size (hmem hu))
      (remarks_comments ho fun u hu => Token.stop_le_size hu) (apart_comments ho hsub)
  · exact ⟨rfl, .nil (Nat.zero_le _)⟩

end Grammar

end GoContracts.Syntax

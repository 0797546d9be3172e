import GoContracts.Proofs.Scope.Agreement
import GoContracts.Proofs.Syntax.Seats

/-!
# The function around a node

The signature at the beginning of a node is that of the innermost function around the node, unless a
function begins where the node does: then the one of these that is innermost has the signature.
-/

namespace GoContracts

open Syntax (Tree Kind Laid)
open Syntax.Tree (preorder preorderAll pathIn mem_preorderAll)
open Lexical (holds)

namespace Syntax

/-! ### Nodes inside others -/

namespace Tree

mutual

private theorem length_preorder_lt {t : Tree} :
    ∀ u : Tree, t ∈ preorderAll u.children → t.preorder.length < u.preorder.length
  | mk _ _ _ _ cs => by
    intro ht
    rw [preorder, List.length_cons]
    exact Nat.lt_succ_of_le (length_preorder_le cs ht)

/-- A node of trees has no more nodes than the trees. -/
theorem length_preorder_le {t : Tree} :
    ∀ trees : List Tree, t ∈ preorderAll trees → t.preorder.length ≤ (preorderAll trees).length
  | [] => by simp [preorderAll]
  | u :: us => by
    intro ht
    rw [preorderAll, List.mem_append] at ht
    rw [preorderAll, List.length_append]
    rcases ht with ht | ht
    · rw [preorder_eq, List.mem_cons] at ht
      rcases ht with rfl | ht
      · exact Nat.le_add_right ..
      · exact Nat.le_trans (Nat.le_of_lt (length_preorder_lt u ht)) (Nat.le_add_right ..)
    · exact Nat.le_trans (length_preorder_le us ht) (Nat.le_add_left ..)

end

/-- No node is part of a part of itself. -/
theorem not_mem_preorder {t u : Tree} (h : t ∈ preorderAll u.children) : u ∉ t.preorder := by
  intro hu
  have hlt := length_preorder_lt u h
  rw [preorder_eq, List.mem_cons] at hu
  rcases hu with rfl | hu
  · exact Nat.lt_irrefl _ hlt
  · have := length_preorder_lt t hu
    omega

end Tree

/-! ### The way to a position -/

namespace Laid

variable {lo hi pos : Nat} {trees : List Tree}

/-- The path leads through all nodes that hold the position. -/
theorem mem_pathIn_iff (h : Laid lo hi trees) {u : Tree} :
    u ∈ pathIn pos pos trees ↔ u ∈ preorderAll trees ∧ holds pos u = true := by
  refine ⟨h.mem_pathIn u, ?_⟩
  rintro ⟨hu, hholds⟩
  have hpos := holds_iff.mp hholds
  induction h with
  | nil => simp [preorderAll] at hu
  | @cons lo hi label role? start stop children trees hlo hlt inside front bare more ihi ihm =>
    rw [(Laid.cons hlo hlt inside front bare more).pathIn_cons]
    rw [preorderAll, List.mem_append] at hu
    rcases hu with hu | hu
    · rw [preorder, List.mem_cons] at hu
      rcases hu with rfl | hu
      · rw [if_pos hholds, Tree.pathTo]
        exact List.mem_cons_self ..
      · have hbounds := inside.node_bounds u hu
        have hwithin : start ≤ pos ∧ pos < stop := by omega
        rw [if_pos (holds_iff.mpr hwithin), Tree.pathTo]
        exact List.mem_cons_of_mem _ (ihi hu)
    · have hbounds := more.node_bounds u hu
      rw [if_neg fun hnode => by
        have hnode := holds_iff.mp hnode
        simp only [Tree.stop] at hnode
        omega]
      exact ihm hu

/-- Each node of the path is part of those before it. -/
theorem pairwise_pathIn (h : Laid lo hi trees) :
    (pathIn pos pos trees).Pairwise fun a b => b ∈ preorderAll a.children := by
  induction h with
  | nil => simp [pathIn]
  | @cons lo hi label role? start stop children trees hlo hlt inside front bare more ihi ihm =>
    rw [(Laid.cons hlo hlt inside front bare more).pathIn_cons]
    split
    · rw [Tree.pathTo, List.pairwise_cons]
      exact ⟨fun b hb => (inside.mem_pathIn b hb).1, ihi⟩
    · exact ihm

/-- Of two nodes that hold a position the later one is part of the earlier one. -/
theorem pairwise_preorderAll (h : Laid lo hi trees) :
    (preorderAll trees).Pairwise fun a b => b ∈ preorderAll a.children ∨ a.stop ≤ b.start := by
  induction h with
  | nil => simp [preorderAll]
  | cons hlo hlt inside _ _ more ihi ihm =>
    have hrest := fun b hb => (more.node_bounds b hb).1
    rw [preorderAll, preorder, List.cons_append, List.pairwise_cons, List.pairwise_append]
    refine ⟨fun b hb => ?_, ihi, ihm, fun a ha b hb => ?_⟩
    · rcases List.mem_append.mp hb with hb | hb
      · exact .inl hb
      · exact .inr (hrest b hb)
    · have := inside.node_bounds a ha
      have := hrest b hb
      exact .inr (by omega)

end Laid

/-- Whether the tree is a function. -/
def Tree.isFunction (t : Tree) : Bool := t.kind?.any Kind.isFunction

end Syntax

/-! ### Signatures -/

section

variable {file : SourceFile} {node function : Tree}

/-- The function is the innermost one around the node. -/
structure Encloses (file : SourceFile) (node function : Tree) : Prop where
  mem : function ∈ preorderAll file.tree.children
  isFunction : function.isFunction = true
  around : node ∈ preorderAll function.children
  innermost : ∀ other ∈ preorderAll file.tree.children, other.isFunction = true →
    node ∈ preorderAll other.children → function ∈ other.preorder

/-- The function is part of the node and begins where the node does. Of several such functions it is
the innermost one. -/
structure Leads (node function : Tree) : Prop where
  mem : function ∈ node.preorder
  isFunction : function.isFunction = true
  start : function.start = node.start
  part : ∃ part ∈ function.children, part.start = function.start
  innermost : ∀ other ∈ node.preorder, other.isFunction = true → other.start = node.start →
    function ∈ other.preorder

/-- The functions that reach over a node, from the outermost to the innermost. -/
def functionsOver (file : SourceFile) (node : Tree) : List Tree :=
  (preorderAll file.tree.children).filter fun t =>
    t.isFunction && (t.start ≤ node.start && node.stop ≤ t.stop)

/-- The innermost function around a node is the last one that reaches over it, if it begins before
the node. -/
theorem encloses_of_functionsOver (h : file.InOrder)
    (hnode : node ∈ preorderAll file.tree.children)
    (hlast : (functionsOver file node).getLast? = some function)
    (hstart : function.start < node.start) : Encloses file node function := by
  obtain ⟨others, hothers⟩ := List.getLast?_eq_some_iff.mp hlast
  have hover : ∀ {t : Tree}, t ∈ functionsOver file node ↔ t ∈ preorderAll file.tree.children ∧
      t.isFunction = true ∧ t.start ≤ node.start ∧ node.stop ≤ t.stop := by
    simp [functionsOver, List.mem_filter]
  obtain ⟨hmem, hkind, -, hstop⟩ :=
    hover.mp (hothers ▸ List.mem_append_right others (List.mem_singleton_self function))
  have hnodeBounds := h.laid.node_bounds node hnode
  refine ⟨hmem, hkind, ?_, fun other hother hkind' haround => ?_⟩
  · rcases h.laid.nested_or_apart node hnode function hmem with hpart | hpart | hapart | hapart
    · rw [Tree.preorder_eq, List.mem_cons] at hpart
      rcases hpart with rfl | hpart
      · omega
      · exact hpart
    · rw [Tree.preorder_eq, List.mem_cons] at hpart
      rcases hpart with rfl | hpart
      · omega
      · have := (h.laid.node_children node hnode).node_bounds function hpart
        omega
    · omega
    · omega
  · have hbounds := (h.laid.node_children other hother).node_bounds node haround
    have hreaches := hover.mpr ⟨hother, hkind', hbounds.1, hbounds.2.2⟩
    have hchain := h.laid.pairwise_preorderAll.filter fun t =>
      t.isFunction && (t.start ≤ node.start && node.stop ≤ t.stop)
    rw [← functionsOver, hothers, List.pairwise_append] at hchain
    rw [hothers, List.mem_append, List.mem_singleton] at hreaches
    rw [Tree.preorder_eq, List.mem_cons]
    rcases hreaches with hbefore | rfl
    · rcases hchain.2.2 other hbefore function (List.mem_singleton_self _) with hpart | hapart
      · exact .inr hpart
      · omega
    · exact .inl rfl

namespace Scope

/-- The signature at a position that a function and one of its parts hold is that of the function,
if it is part of all others that hold the position. -/
theorem signature?_of_holds (h : file.InOrder) {pos : Nat}
    (hmem : function ∈ preorderAll file.tree.children) (hfunction : function.isFunction = true)
    (hholds : holds pos function = true)
    (hpart : ∃ part ∈ preorderAll function.children, holds pos part = true)
    (hinnermost : ∀ other ∈ preorderAll file.tree.children, other.isFunction = true →
      holds pos other = true → function ∈ other.preorder) :
    (visibleAt file pos).signature? = some (.ofFunction file function) := by
  obtain ⟨outer, inner, hpath⟩ := List.append_of_mem (h.laid.mem_pathIn_iff.mpr ⟨hmem, hholds⟩)
  have hchain : (pathIn pos pos file.tree.children).Pairwise fun a b =>
      b ∈ preorderAll a.children := h.laid.pairwise_pathIn
  rw [hpath, List.pairwise_append, List.pairwise_cons] at hchain
  obtain ⟨_, ⟨hinner, _⟩, houter⟩ := hchain
  have hne : inner ≠ [] := by
    rintro rfl
    obtain ⟨part, hpart, hpos⟩ := hpart
    have hpartMem := Tree.mem_preorderAll_of_mem hpart _ hmem
    have hon := h.laid.mem_pathIn_iff.mpr ⟨hpartMem, hpos⟩
    rw [hpath, List.mem_append, List.mem_singleton] at hon
    refine Tree.not_mem_preorder hpart ?_
    rw [Tree.preorder_eq, List.mem_cons]
    rcases hon with hon | rfl
    · exact .inr (houter part hon function (List.mem_cons_self ..))
    · exact .inl rfl
  have hnone : inner.dropLast.reverse.find? (·.isFunction) = none := by
    rw [List.find?_eq_none]
    intro other hother hkind
    have hother := (List.dropLast_sublist inner).subset (List.mem_reverse.mp hother)
    have hon := h.laid.mem_pathIn_iff.mp (hpath ▸ List.mem_append_right outer
      (List.mem_cons_of_mem function hother))
    exact Tree.not_mem_preorder (hinner other hother) (hinnermost other hon.1 hkind hon.2)
  have hancestors : ancestorsAt file pos =
      inner.dropLast.reverse ++ function :: (file.tree :: outer).reverse := by
    rw [ancestorsAt, ← SourceFile.pathTo, SourceFile.pathTo_eq, hpath, ← List.cons_append,
      List.dropLast_append_of_ne_nil (List.cons_ne_nil _ _), List.dropLast_cons_of_ne_nil hne]
    simp
  have hfind : (ancestorsAt file pos).find? (·.isFunction) = some function := by
    rw [hancestors, List.find?_append, hnone, Option.none_or, List.find?_cons_of_pos hfunction]
  exact congrArg (Option.map (Signature.ofFunction file)) hfind

section

variable (h : file.InOrder) (hnode : node ∈ preorderAll file.tree.children)
include h hnode

/-- A function that holds the beginning of a node encloses the node or begins with it. -/
theorem holds_start_cases {other : Tree} (hmem : other ∈ preorderAll file.tree.children)
    (hholds : holds node.start other = true) :
    node ∈ preorderAll other.children ∨ other ∈ node.preorder ∧ other.start = node.start := by
  have hbounds := h.laid.node_bounds node hnode
  have hpos := Syntax.holds_iff.mp hholds
  rcases h.laid.nested_or_apart other hmem node hnode with hpart | hpart | hapart | hapart
  · have hstart : other.start = node.start := by
      rw [Tree.preorder_eq, List.mem_cons] at hpart
      rcases hpart with rfl | hpart
      · rfl
      · have := (h.laid.node_children node hnode).node_bounds other hpart
        omega
    exact .inr ⟨hpart, hstart⟩
  · rw [Tree.preorder_eq, List.mem_cons] at hpart
    rcases hpart with rfl | hpart
    · exact .inr ⟨Tree.mem_preorder_self _, rfl⟩
    · exact .inl hpart
  · omega
  · omega

/-- The signature at the beginning of a node is that of the innermost function around it, if no
function begins where the node does. -/
theorem signature?_of_encloses (hfunction : Encloses file node function)
    (hplain : ∀ other ∈ node.preorder, other.isFunction = true → other.start ≠ node.start) :
    (visibleAt file node.start).signature? = some (.ofFunction file function) := by
  have hbounds := (h.laid.node_children function hfunction.mem).node_bounds node hfunction.around
  refine signature?_of_holds h hfunction.mem hfunction.isFunction
    (Syntax.holds_iff.mpr (by omega))
    ⟨node, hfunction.around, Syntax.holds_iff.mpr (by omega)⟩ fun other hmem hkind hholds => ?_
  rcases holds_start_cases h hnode hmem hholds with haround | ⟨hpart, hstart⟩
  · exact hfunction.innermost other hmem hkind haround
  · exact absurd hstart (hplain other hpart hkind)

/-- Where a function begins with a node, the signature is that of the function. -/
theorem signature?_of_leads (hfunction : Leads node function) :
    (visibleAt file node.start).signature? = some (.ofFunction file function) := by
  have hmem : function ∈ preorderAll file.tree.children := by
    have hpart := hfunction.mem
    rw [Tree.preorder_eq, List.mem_cons] at hpart
    rcases hpart with rfl | hpart
    · exact hnode
    · exact Tree.mem_preorderAll_of_mem hpart _ hnode
  have hbounds := h.laid.node_bounds function hmem
  obtain ⟨part, hpart, hstart⟩ := hfunction.part
  have hpartBounds := (h.laid.node_children function hmem).bounds part hpart
  have hsame := hfunction.start
  refine signature?_of_holds h hmem hfunction.isFunction (Syntax.holds_iff.mpr (by omega))
    ⟨part, mem_preorderAll.mpr ⟨part, hpart, Tree.mem_preorder_self part⟩,
      Syntax.holds_iff.mpr (by omega)⟩ fun other hother hkind hholds => ?_
  rcases holds_start_cases h hnode hother hholds with haround | ⟨hpart, hstart⟩
  · -- The function is part of the node, which is part of the other one.
    have hinside := hfunction.mem
    rw [Tree.preorder_eq, List.mem_cons] at hinside ⊢
    rcases hinside with rfl | hinside
    · exact .inr haround
    · exact .inr (Tree.mem_preorderAll_of_mem hinside _ haround)
  · exact hfunction.innermost other hpart hkind hstart

end

end Scope

end

end GoContracts

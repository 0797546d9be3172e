import GoContracts.Proofs.Scope.Lexical
import GoContracts.Proofs.Syntax.Bodies

/-!
# The way to a position

The nodes that hold a position form a path from the root to the smallest one. A traversal from the
root enters exactly these nodes.
-/

namespace GoContracts

open Syntax (Tree Laid)
open Syntax.Tree (preorder preorderAll pathTo pathIn)
open Lexical (holds descend descendAmong Surroundings)

namespace Syntax

variable {pos : Nat} {t : Tree}

/-- A tree holds the positions from its start to its end. -/
theorem holds_iff : holds pos t = true ↔ t.start ≤ pos ∧ pos < t.stop := by
  simp [holds]

private theorem Tree.pathIn_cons_of_lt (hlt : t.start < t.stop) (trees : List Tree) :
    pathIn pos pos (t :: trees) =
      if t.stop ≤ pos then pathIn pos pos trees
      else if pos < t.start then [] else pathTo pos pos t := by
  have hskip : (decide (t.stop < pos) || if t.start = t.stop then decide (t.stop < pos)
      else decide (t.stop ≤ pos)) = decide (t.stop ≤ pos) := by
    rw [if_neg (Nat.ne_of_lt hlt), Bool.eq_iff_iff]
    simp
    omega
  rw [pathIn, hskip]
  simp

namespace Laid

variable {lo hi : Nat} {trees : List Tree}

/-- No path leads to a position before the trees. -/
theorem pathIn_eq_nil (h : Laid lo hi trees) (hpos : pos < lo) : pathIn pos pos trees = [] := by
  cases trees with
  | nil => rw [pathIn]
  | cons t trees =>
    obtain ⟨hlo, hlt, _⟩ := h.bounds t (List.mem_cons_self ..)
    rw [Tree.pathIn_cons_of_lt hlt, if_neg (by omega), if_pos (by omega)]

/-- The path leads into the tree that holds the position. -/
theorem pathIn_cons (h : Laid lo hi (t :: trees)) : pathIn pos pos (t :: trees) =
    if holds pos t then pathTo pos pos t else pathIn pos pos trees := by
  obtain ⟨-, hlt, -⟩ := h.bounds t (List.mem_cons_self ..)
  rw [Tree.pathIn_cons_of_lt hlt]
  by_cases hbehind : t.stop ≤ pos
  · rw [if_pos hbehind, if_neg (by rw [holds_iff]; omega)]
  rw [if_neg hbehind]
  by_cases hbefore : pos < t.start
  · have hrest : pathIn pos pos trees = [] := by
      cases h with
      | cons _ _ _ _ _ more =>
        exact more.pathIn_eq_nil (Nat.lt_trans hbefore hlt)
    rw [if_pos hbefore, if_neg (by rw [holds_iff]; omega), hrest]
  · rw [if_neg hbefore, if_pos (by rw [holds_iff]; omega)]

/-- The nodes on the path are nodes of the trees and hold the position. -/
theorem mem_pathIn (h : Laid lo hi trees) :
    ∀ u ∈ pathIn pos pos trees, u ∈ preorderAll trees ∧ holds pos u = true := by
  induction h with
  | nil => simp [pathIn]
  | @cons lo hi label role? start stop children trees hlo hlt inside front bare more ihi ihm =>
    intro u hu
    rw [(Laid.cons hlo hlt inside front bare more).pathIn_cons] at hu
    rw [preorderAll, List.mem_append]
    split at hu
    · next hholds =>
      rw [pathTo] at hu
      rw [preorder]
      rcases List.mem_cons.mp hu with rfl | hu
      · exact ⟨.inl (List.mem_cons_self ..), hholds⟩
      · exact ⟨.inl (List.mem_cons_of_mem _ (ihi u hu).1), (ihi u hu).2⟩
    · exact ⟨.inr (ihm u hu).1, (ihm u hu).2⟩

/-- Where no path leads, no tree holds the position. -/
theorem not_holds_of_pathIn_eq_nil (h : Laid lo hi trees) (hnil : pathIn pos pos trees = []) :
    ∀ t ∈ trees, ¬holds pos t := by
  induction h with
  | nil => simp
  | @cons lo hi label role? start stop children trees hlo hlt inside front bare more _ ihm =>
    rw [(Laid.cons hlo hlt inside front bare more).pathIn_cons] at hnil
    split at hnil
    · rw [pathTo] at hnil
      exact absurd hnil (List.cons_ne_nil _ _)
    · next hholds => exact List.forall_mem_cons.mpr ⟨hholds, ihm hnil⟩

/-- The path goes on as long as a part of its last node holds the position. -/
theorem not_holds_of_getLast? (h : Laid lo hi trees) {last : Tree}
    (hlast : (pathIn pos pos trees).getLast? = some last) : ∀ c ∈ last.children, ¬holds pos c := by
  induction h with
  | nil => simp [pathIn] at hlast
  | @cons lo hi label role? start stop children trees hlo hlt inside front bare more ihi ihm =>
    rw [(Laid.cons hlo hlt inside front bare more).pathIn_cons] at hlast
    split at hlast
    · rw [pathTo, List.getLast?_cons] at hlast
      cases hpath : (pathIn pos pos children).getLast? with
      | none =>
        rw [hpath] at hlast
        obtain rfl := Option.some.inj hlast
        exact inside.not_holds_of_pathIn_eq_nil (List.getLast?_eq_none_iff.mp hpath)
      | some deepest =>
        rw [hpath] at hlast
        obtain rfl := Option.some.inj hlast
        exact ihi hpath
    · exact ihm hlast

/-- The path to the beginning of a node ends in a node that begins there. -/
theorem exists_getLast?_pathIn (h : Laid lo hi trees) {s : Tree} (hs : s ∈ preorderAll trees) :
    ∃ last, (pathIn s.start s.start trees).getLast? = some last ∧ last.start = s.start := by
  induction h with
  | nil => simp [preorderAll] at hs
  | @cons lo hi label role? start stop children trees hlo hlt inside front bare more ihi ihm =>
    rw [preorderAll, preorder, List.mem_append, List.mem_cons] at hs
    rw [(Laid.cons hlo hlt inside front bare more).pathIn_cons, pathTo]
    rcases hs with (rfl | hs) | hs
    · rw [if_pos (holds_iff.mpr ⟨Nat.le_refl start, hlt⟩), Tree.start]
      cases hpath : (pathIn start start children).getLast? with
      | none =>
        rw [List.getLast?_eq_none_iff.mp hpath]
        exact ⟨_, rfl, rfl⟩
      | some last =>
        obtain ⟨hmem, hholds⟩ := inside.mem_pathIn last (List.mem_of_getLast? hpath)
        have hbounds := inside.node_bounds last hmem
        refine ⟨last, by rw [List.getLast?_cons, hpath]; rfl, ?_⟩
        have := (holds_iff.mp hholds).1
        omega
    · obtain ⟨last, hlast, hstart⟩ := ihi hs
      have hbounds := inside.node_bounds s hs
      have hwithin : start ≤ s.start ∧ s.start < stop := by omega
      rw [if_pos (holds_iff.mpr hwithin)]
      exact ⟨last, by rw [List.getLast?_cons, hlast]; rfl, hstart⟩
    · have hbounds := more.node_bounds s hs
      rw [if_neg fun hholds => Nat.not_lt.mpr hbounds.1 (holds_iff.mp hholds).2]
      exact ihm hs

/-- A traversal enters the nodes on the path one after the other. -/
theorem descendAmong_eq (h : Laid lo hi trees) (file : SourceFile) (s : Surroundings) :
    descendAmong file pos s trees =
      (pathIn pos pos trees).foldl (Surroundings.enter file pos) s := by
  induction h generalizing s with
  | nil => rw [descendAmong, pathIn, List.foldl_nil]
  | @cons lo hi label role? start stop children trees hlo hlt inside front bare more ihi ihm =>
    rw [descendAmong, (Laid.cons hlo hlt inside front bare more).pathIn_cons]
    split
    · rw [descend, pathTo, List.foldl_cons, ihi]
    · exact ihm s

end Laid

end Syntax

namespace SourceFile

variable {file : SourceFile} {pos : Nat}

/-- The nodes of a file that hold a position, from the root down. -/
def pathTo (file : SourceFile) (pos : Nat) : List Tree := file.tree.pathTo pos pos

/-- The path to a position begins at the root. -/
theorem pathTo_eq : file.pathTo pos = file.tree :: pathIn pos pos file.tree.children := by
  rw [pathTo]
  cases file.tree with
  | mk => rw [Tree.pathTo]; rfl

end SourceFile

end GoContracts

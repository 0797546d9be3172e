import GoContracts.Proofs.Weaving.Demands
import Mathlib.Data.List.Nodup

/-!
# Insertions of guards

The edits that insert guards, with the directives that the guards belong to. The guards of a
directive go into one insertion, at the statement that the directive is placed at.
-/

namespace GoContracts.Injection

open Syntax (Tree)

/-- An edit that inserts guards at a statement. -/
structure Insertion where
  statement : Tree
  /-- Whether the guards go behind the statement. -/
  behind : Bool
  /-- The directives whose guards go there, in order. -/
  demands : List Demand

namespace Insertion

/-- The edit of an insertion. -/
def edit (file : SourceFile) (insertion : Insertion) : Edit :=
  let guards := insertion.demands.flatMap (·.guards)
  if insertion.behind then insertAfter file insertion.statement guards
  else insertBefore file insertion.statement guards

/-- The guards of a directive in an insertion. -/
def guardsOf (insertion : Insertion) (anchor : Anchor) : List Guard :=
  (insertion.demands.filter (·.placed.anchor = anchor)).flatMap (·.guards)

end Insertion

/-- The insertions before statements. -/
def insertionsBefore (demands : List Demand) : List Insertion :=
  ((demands.filterMap statementAfter?).eraseDupsBy fun a b => a.start == b.start).map
    fun statement => ⟨statement, false, demands.filter fun demand =>
      (statementAfter? demand).any (·.start = statement.start)⟩

/-- The insertion after an assignment. -/
def insertionBehind? (demand : Demand) : Option Insertion :=
  match demand.placed.placement with
  | .after assignment _ => some ⟨assignment, true, [demand]⟩
  | _ => none

/-- The insertions after assignments. -/
def insertionsBehind (demands : List Demand) : List Insertion :=
  demands.filterMap insertionBehind?

/-- The insertions of all guards. -/
def insertions (demands : List Demand) : List Insertion :=
  insertionsBefore demands ++ insertionsBehind demands

variable {file : SourceFile} {demands : List Demand}

/-- The guards before statements are inserted by these insertions and no others. -/
theorem guardsBefore_eq (file : SourceFile) (demands : List Demand) :
    guardsBefore file demands = (insertionsBefore demands).map (·.edit file) := by
  rw [guardsBefore, insertionsBefore, List.map_map]
  rfl

/-- The guards after assignments are inserted by these insertions and no others. -/
theorem guardsAfter_eq (file : SourceFile) (demands : List Demand) :
    guardsAfter file demands = (insertionsBehind demands).map (·.edit file) := by
  rw [guardsAfter, insertionsBehind, List.map_filterMap]
  refine List.filterMap_congr fun demand _ => ?_
  unfold insertionBehind?
  cases demand.placed.placement <;> simp [Insertion.edit]

/-! ### The insertion of a directive -/

/-- Of the items with equal keys the first one stays. -/
theorem filter_eraseDupsBy {α : Type} (key : α → Nat) (k : Nat) (items : List α) :
    (items.eraseDupsBy fun a b => key a == key b).filter (key · = k) =
      (items.find? (key · = k)).toList := by
  induction hn : items.length using Nat.strongRecOn generalizing items with
  | ind n ih =>
    cases items with
    | nil => rfl
    | cons a items =>
      have hlt : (items.filter fun b => (key b == key a) = false).length < n := by
        rw [← hn, List.length_cons]
        exact Nat.lt_succ_of_le (List.length_filter_le _ _)
      have hrest := ih _ hlt _ rfl
      rw [List.eraseDupsBy_cons]
      by_cases ha : key a = k
      · have hnone : (items.filter fun b => (key b == key a) = false).find? (key · = k) = none := by
          rw [List.find?_eq_none]
          intro b hb
          have hne : ¬key b = key a := by simpa using (List.mem_filter.mp hb).2
          simpa [ha] using hne
        rw [List.filter_cons_of_pos (by simpa using ha), hrest, hnone]
        have hfind : (a :: items).find? (key · = k) = some a :=
          List.find?_cons_of_pos (by simpa using ha)
        rw [hfind]
        rfl
      · have hfind : (a :: items).find? (key · = k) = items.find? (key · = k) :=
          List.find?_cons_of_neg (by simpa using ha)
        rw [List.filter_cons_of_neg (by simpa using ha), hrest, hfind, List.find?_filter]
        congr 2
        funext b
        by_cases hb : key b = k
        · have hne : ¬k = key a := fun h => ha h.symm
          simp [hb, hne]
        · simp [hb]

/-- The insertions that hold guards of a directive. -/
def holding (insertions : List Insertion) (anchor : Anchor) : List Insertion :=
  insertions.filter fun insertion => !(insertion.guardsOf anchor).isEmpty

/-- The guards of a directive in an insertion before a statement. -/
theorem guardsOf_filter {anchor : Anchor} {demand : Demand}
    (h : demands.filter (·.placed.anchor = anchor) = [demand]) (statement : Tree) (behind : Bool)
    (p : Demand → Bool) :
    Insertion.guardsOf ⟨statement, behind, demands.filter p⟩ anchor =
      if p demand then demand.guards else [] := by
  have hcomm : (demands.filter p).filter (·.placed.anchor = anchor) = [demand].filter p := by
    rw [← h, List.filter_filter, List.filter_filter]
    exact List.filter_congr fun d _ => Bool.and_comm _ _
  rw [Insertion.guardsOf, hcomm]
  cases hp : p demand <;> simp [hp]

/-- An insertion holds guards of the given demands only. -/
theorem demands_subset {insertion : Insertion} (h : insertion ∈ insertions demands) :
    insertion.demands ⊆ demands := by
  rcases List.mem_append.mp h with h | h
  · obtain ⟨statement, _, rfl⟩ := List.mem_map.mp h
    exact List.filter_subset_self _
  · obtain ⟨demand, hdemand, hinsertion⟩ := List.mem_filterMap.mp h
    unfold insertionBehind? at hinsertion
    split at hinsertion
    · obtain rfl := Option.some.inj hinsertion
      exact fun d hd => List.mem_singleton.mp hd ▸ hdemand
    · simp at hinsertion

section

variable {anchor : Anchor} {demand : Demand}
  (h : demands.filter (·.placed.anchor = anchor) = [demand])
include h

/-- Among the insertions before statements, those at the statement of a directive hold its
guards. -/
theorem holding_insertionsBefore (hne : demand.guards ≠ []) :
    holding (insertionsBefore demands) anchor =
      (((demands.filterMap statementAfter?).eraseDupsBy fun a b => a.start == b.start).filter
        fun statement => (statementAfter? demand).any (·.start = statement.start)).map
        fun statement => ⟨statement, false, demands.filter fun demand =>
          (statementAfter? demand).any (·.start = statement.start)⟩ := by
  rw [holding, insertionsBefore, List.filter_map]
  congr 1
  refine List.filter_congr fun statement _ => ?_
  rw [Function.comp_apply, guardsOf_filter h]
  cases (statementAfter? demand).any (·.start = statement.start) <;> simp [hne]

/-- Among the insertions after assignments, that of a directive holds its guards. -/
theorem holding_insertionsBehind (hne : demand.guards ≠ []) :
    holding (insertionsBehind demands) anchor = (insertionBehind? demand).toList := by
  have hone : ∀ d ∈ demands, (insertionBehind? d).filter
        (fun insertion => !(insertion.guardsOf anchor).isEmpty) =
      if d.placed.anchor = anchor then insertionBehind? d else none := by
    intro d hd
    unfold insertionBehind?
    split
    · by_cases hanchor : d.placed.anchor = anchor
      · have hmem : d ∈ demands.filter (·.placed.anchor = anchor) :=
          List.mem_filter.mpr ⟨hd, decide_eq_true hanchor⟩
        rw [h, List.mem_singleton] at hmem
        subst hmem
        simp [Insertion.guardsOf, hanchor, hne]
      · simp [Insertion.guardsOf, hanchor]
    · simp
  rw [holding, insertionsBehind, List.filter_filterMap, List.filterMap_congr hone]
  have hfilter := List.filterMap_filter (p := fun d : Demand => d.placed.anchor = anchor)
    (f := insertionBehind?) (l := demands)
  simp only [decide_eq_true_eq] at hfilter
  rw [← hfilter, h, List.filterMap_cons, List.filterMap_nil]
  cases insertionBehind? demand <;> rfl

/-- No insertion holds guards of a directive that has none. -/
theorem holding_of_guards_eq_nil (hnil : demand.guards = []) :
    holding (insertions demands) anchor = [] := by
  rw [holding, List.filter_eq_nil_iff]
  intro insertion hinsertion
  have hguards : insertion.guardsOf anchor = [] := by
    rw [Insertion.guardsOf, List.flatMap_eq_nil_iff]
    intro d hd
    obtain ⟨hmem, hanchor⟩ := List.mem_filter.mp hd
    have hown : d ∈ demands.filter (·.placed.anchor = anchor) :=
      List.mem_filter.mpr ⟨demands_subset hinsertion hmem, hanchor⟩
    rw [h, List.mem_singleton] at hown
    rw [hown, hnil]
  simp [hguards]

/-- The guards of a directive that is placed before a statement go into one insertion there. -/
theorem holding_of_before (hne : demand.guards ≠ []) {statement : Tree}
    (hplacement : demand.placed.placement = .before statement)
    (honly : ∀ other ∈ demands.filterMap statementAfter?, other.start = statement.start →
      other = statement) :
    ∃ insertion, holding (insertions demands) anchor = [insertion] ∧ insertion.behind = false ∧
      insertion.statement = statement ∧ insertion.guardsOf anchor = demand.guards := by
  have hafter : statementAfter? demand = some statement := by
    rw [statementAfter?, hplacement]
  have hbehind : insertionBehind? demand = none := by
    rw [insertionBehind?, hplacement]
  have hmem : demand ∈ demands := by
    have hsingle : demand ∈ demands.filter (·.placed.anchor = anchor) := by simp [h]
    exact List.mem_of_mem_filter hsingle
  have hfind : (demands.filterMap statementAfter?).find? (·.start = statement.start) =
      some statement := by
    have hstatement : statement ∈ demands.filterMap statementAfter? :=
      List.mem_filterMap.mpr ⟨demand, hmem, hafter⟩
    have hsome : ((demands.filterMap statementAfter?).find?
        (·.start = statement.start)).isSome = true :=
      List.find?_isSome.mpr ⟨statement, hstatement, by simp⟩
    obtain ⟨other, hother⟩ := Option.isSome_iff_exists.mp hsome
    rw [hother, honly other (List.mem_of_find?_eq_some hother)
      (by simpa using List.find?_some hother)]
  have hrepresentative := filter_eraseDupsBy Tree.start statement.start
    (demands.filterMap statementAfter?)
  rw [hfind] at hrepresentative
  refine ⟨⟨statement, false, demands.filter fun d =>
    (statementAfter? d).any (·.start = statement.start)⟩, ?_, rfl, rfl, ?_⟩
  · rw [insertions, holding, List.filter_append, ← holding, ← holding,
      holding_insertionsBefore h hne, holding_insertionsBehind h hne, hbehind, hafter]
    simp only [Option.any_some, eq_comm (a := statement.start)]
    rw [hrepresentative]
    rfl
  · rw [guardsOf_filter h, hafter]
    simp

/-- The guard of a directive that is placed at an assignment goes into one insertion behind it. -/
theorem holding_of_after (hne : demand.guards ≠ []) {assignment : Tree} {error : ErrorTarget}
    (hplacement : demand.placed.placement = .after assignment error) :
    ∃ insertion, holding (insertions demands) anchor = [insertion] ∧ insertion.behind = true ∧
      insertion.statement = assignment ∧ insertion.guardsOf anchor = demand.guards := by
  have hafter : statementAfter? demand = none := by
    rw [statementAfter?, hplacement]
  have hbehind : insertionBehind? demand = some ⟨assignment, true, [demand]⟩ := by
    rw [insertionBehind?, hplacement]
  have hanchor : demand.placed.anchor = anchor := by
    have hsingle : demand ∈ demands.filter (·.placed.anchor = anchor) := by simp [h]
    exact of_decide_eq_true (List.mem_filter.mp hsingle).2
  refine ⟨⟨assignment, true, [demand]⟩, ?_, rfl, rfl, ?_⟩
  · rw [insertions, holding, List.filter_append, ← holding, ← holding,
      holding_insertionsBefore h hne, holding_insertionsBehind h hne, hbehind, hafter]
    simp
  · simp [Insertion.guardsOf, hanchor]

end

end GoContracts.Injection

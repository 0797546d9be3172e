import GoContracts.Proofs.Weaving.Outcome
import GoContracts.Proofs.Weaving.Removal
import GoContracts.Proofs.Weaving.Renames

/-!
# Guards are kept

Whatever comments surround the statements of a file, no insertion of guards and no renaming is left
out. The guards before a statement stand in the order of their comments, behind the statement before
it in its body; a guard after an assignment stands before the statement behind it.
-/

namespace GoContracts

open Syntax (Tree Token Seated Kind)
open Text (isBlank)

/-! ### In the order of the comments -/

namespace Placement

variable {p : Package} {file : SourceFile}

/-- Of two directives before statements the first one has the first comment. -/
def InTurn (x y : Placed) : Prop :=
  ∀ s t, x.placement = .before s → y.placement = .before t → x.anchor.start < y.anchor.start

private theorem beforeStatement_ne {anchor : Anchor} {statement other : Tree} :
    beforeStatement p file anchor statement ≠ .before other := by
  unfold beforeStatement atAssignment
  split
  · split <;> simp
  · simp

private theorem behindCode_ne {bodies : List Body} {anchor : Anchor} {other : Tree} :
    behindCode p file bodies anchor ≠ .before other := by
  unfold behindCode atAssignment
  split
  · split <;> simp
  · simp

private theorem pairwise_placeGap {statement : Tree} {held? : Option Anchor} {anchors : List Anchor}
    (hheld : ∀ held, held? = some held → held.directive.keyword = .must)
    (h : anchors.Pairwise fun a b => a.start < b.start) :
    (placeGap p file statement held? anchors).Pairwise InTurn := by
  induction anchors generalizing held? with
  | nil => cases held? <;> simp [placeGap]
  | cons anchor anchors ih =>
    obtain ⟨hfirst, hrest⟩ := List.pairwise_cons.mp h
    rw [placeGap_cons]
    split
    · next hcheck =>
      have hmust : anchor.directive.keyword = .must := of_decide_eq_true hcheck
      refine List.pairwise_append.mpr ⟨by cases held? <;> simp,
        ih (fun held hsome => Option.some.inj hsome ▸ hmust) hrest, fun x hx y _ s t hs _ => ?_⟩
      obtain ⟨held, _, rfl⟩ := Option.map_eq_some_iff.mp (Option.mem_toList.mp hx)
      simp at hs
    · refine List.pairwise_cons.mpr ⟨fun y hy s t _ ht => ?_, ih hheld hrest⟩
      rcases placeGap_cases hheld y hy with ⟨hrequire, _⟩ | ⟨_, hopen | ⟨line, hignored⟩⟩
      · have hmem := (map_anchor_placeGap statement held? anchors).subset (List.mem_map_of_mem hy)
        rcases List.mem_append.mp hmem with hheldMem | hmem
        · have := hheld _ (Option.mem_toList.mp hheldMem)
          rw [hrequire] at this
          simp at this
        · exact hfirst _ hmem
      · exact absurd (hopen.symm.trans ht) beforeStatement_ne
      · rw [hignored] at ht
        simp at ht

private theorem pairwise_placeAmong {statements : List Tree} {anchors : List Anchor}
    (h : anchors.Pairwise fun a b => a.start < b.start) :
    (placeAmong p file statements anchors).Pairwise InTurn := by
  induction statements generalizing anchors with
  | nil =>
    refine List.pairwise_map.mpr (h.imp fun _ s _ hs => ?_)
    simp at hs
  | cons statement statements ih =>
    rw [placeAmong, List.pairwise_append]
    have hsplit := h
    rw [← List.takeWhile_append_dropWhile (p := (·.start < statement.start)) (l := anchors),
      List.pairwise_append] at hsplit
    refine ⟨pairwise_placeGap (fun held hsome => absurd hsome (by simp)) hsplit.1, ih hsplit.2.1,
      fun x hx y hy _ _ _ _ => hsplit.2.2 _ ?_ _ ?_⟩
    · exact (map_anchor_placeGap statement none _).subset (List.mem_map_of_mem hx)
    · exact (map_anchor_placeAmong statements _).subset (List.mem_map_of_mem hy)

/-- The directives before one statement are placed in the order of their comments. -/
theorem pairwise_placements (h : file.InOrder) :
    (file.placements p).Pairwise fun x y => ∀ s t, x.placement = .before s →
      y.placement = .before t → s.start = t.start → x.anchor.start < y.anchor.start := by
  unfold SourceFile.placements
  rw [List.partition_eq_filter_filter]
  dsimp only
  have hbodies := h.nodup_statements
  rw [List.map_flatMap, List.nodup_flatMap] at hbodies
  have hsorted : ∀ body : Body, ((file.anchors.filter (not ∘ isTrailing)).filter
      fun anchor => holdsComment body anchor.start).Pairwise fun a b => a.start < b.start :=
    fun body => (h.pairwise_anchors.filter _).filter _
  have hstatement : ∀ (body : Body), ∀ x ∈ placeAmong p file body.statements
      ((file.anchors.filter (not ∘ isTrailing)).filter fun anchor =>
        holdsComment body anchor.start), ∀ s, x.placement = .before s → s ∈ body.statements := by
    intro body x hx s hs
    rcases placeAmong_cases (hsorted body) x hx with hignored | ⟨statement, hfind, hcases⟩
    · exact absurd (hs.symm.trans hignored) (by simp)
    rcases hcases with ⟨_, hbefore⟩ | ⟨_, hopen | ⟨line, hignored⟩⟩
    · obtain rfl := Placement.before.inj (hs.symm.trans hbefore)
      exact List.mem_of_find?_eq_some hfind
    · exact absurd (hopen.symm.trans hs) beforeStatement_ne
    · exact absurd (hs.symm.trans hignored) (by simp)
  rw [List.pairwise_append, List.pairwise_append, List.pairwise_flatMap]
  refine ⟨⟨?_, ⟨fun body _ => ?_, ?_⟩, ?_⟩, ?_, ?_⟩
  · refine List.pairwise_of_forall_mem_list fun x hx y _ s _ hs _ _ => ?_
    obtain ⟨anchor, _, rfl⟩ := List.mem_map.mp hx
    simp at hs
  · exact (pairwise_placeAmong (hsorted body)).imp fun hturn s t hs ht _ => hturn s t hs ht
  · refine hbodies.2.imp fun hdisjoint x hx y hy s t hs ht hst => ?_
    exact absurd (hst ▸ List.mem_map_of_mem (hstatement _ y hy t ht))
      (hdisjoint (List.mem_map_of_mem (hstatement _ x hx s hs)))
  · intro x hx y _ s _ hs _ _
    obtain ⟨anchor, _, rfl⟩ := List.mem_map.mp hx
    simp at hs
  · refine List.pairwise_of_forall_mem_list fun x hx y _ s _ hs _ _ => ?_
    obtain ⟨anchor, _, rfl⟩ := List.mem_map.mp hx
    exact absurd hs behindCode_ne
  · intro x _ y hy _ t _ ht _
    obtain ⟨anchor, _, rfl⟩ := List.mem_map.mp hy
    exact absurd ht behindCode_ne

end Placement

/-! ### How guards are spelled -/

namespace Guard

/-- A guard as an `if` statement: a line with its condition, one for each of its statements, and one
with the closing brace. -/
def spelled (indent : String) (guard : Guard) : String :=
  indent ++ "if " ++ guard.condition ++ " \x7b\n" ++
    String.join (guard.action.statements.map fun statement => indent ++ "\t" ++
      statement ++ "\n") ++
    indent ++ "\x7d"

private theorem render_eq_spelled (indent : String) (guard : Guard) :
    guard.render indent = guard.spelled indent := by
  have hlines (first last : String) (statements : List String) :
      "\n".intercalate (first :: statements ++ [last]) =
        first ++ "\n" ++ String.join (statements.map (· ++ "\n")) ++ last := by
    induction statements generalizing first with
    | nil => simp [String.join]
    | cons statement statements ih =>
      rw [List.cons_append, List.cons_append, String.intercalate_cons_cons, ← List.cons_append, ih,
        List.map_cons, String.join_cons]
      simp only [String.append_assoc]
  have hopens : " \x7b\n" = " \x7b" ++ "\n" := rfl
  rw [render, lines, hlines, spelled, List.map_map, hopens]
  simp only [String.append_assoc, Function.comp_def]

/-- Guards one after the other, each on lines of its own. -/
def spelledAll (indent : String) (guards : List Guard) : String :=
  "\n".intercalate (guards.map (spelled indent))

private theorem renderAll_eq_spelledAll (indent : String) (guards : List Guard) :
    renderAll indent guards = spelledAll indent guards :=
  congrArg _ (List.map_congr_left fun guard _ => render_eq_spelled indent guard)

end Guard

namespace Injection

variable {p : Package} {file : SourceFile} {statement : Tree} {guards : List Guard}

/-! ### Edits that no removal reaches into -/

/-- An edit of at most one character that no removal of a directive reaches into. -/
structure Clear (file : SourceFile) (e : Edit) : Prop where
  le : e.start ≤ e.stop
  short : e.stop ≤ e.start + 1
  within : e.stop ≤ Text.size file.text
  apart : ∀ anchor ∈ file.anchors, Edit.Apart (strip file anchor) e

private theorem clear_insert (h : file.OnTokens) {pos : Nat} (text : String)
    (hsize : pos ≤ Text.size file.text)
    (hspares : ∀ u e, Removes file.text u e → e.Spares pos) : Clear file (.insert pos text) := by
  refine ⟨Nat.le_refl _, Nat.le_succ _, hsize, fun anchor hanchor => ?_⟩
  obtain ⟨u, hremoves⟩ := removes_strip h hanchor
  exact (hspares u _ hremoves).symm

private theorem clear_insertBefore (h : file.OnTokens)
    (hseated : Seated (Token.readAll file.text) statement) :
    Clear file (insertBefore file statement guards) := by
  obtain ⟨v, hv, hsolid, hstart⟩ := hseated.start
  have hboundary := (Token.boundaries hv).1
  unfold insertBefore
  dsimp only
  rw [hstart]
  split
  · next hstarts =>
    exact clear_insert h _ (Text.lineStart_run hboundary).boundary.le_size fun u e hremoves =>
      hremoves.spares_lineStart hv hsolid hstarts
  · refine clear_insert h _ hboundary.le_size fun u e hremoves => ?_
    rcases hremoves.start_clear hv hsolid with hlt | hle
    · exact .inl (Nat.le_of_lt hlt)
    · exact .inr hle

/-- An assignment is no clause, so it ends with a name, literal or symbol. -/
theorem exists_last_of_isAssignment (hseated : Seated (Token.readAll file.text) statement)
    (hassignment : Placement.isAssignment statement = true) :
    ∃ v ∈ Token.readAll file.text, v.IsSolid ∧ statement.stop = v.stop := by
  obtain ⟨v, hv, hstop, hsolid | ⟨_, hscope⟩⟩ := hseated.stop
  · exact ⟨v, hv, hsolid, hstop⟩
  · rw [Placement.isAssignment] at hassignment
    cases hkind : statement.kind? with
    | none => simp [hkind] at hscope
    | some k =>
      rw [hkind, Option.any_some] at hassignment hscope
      cases k <;> simp [Kind.isAssignment, Kind.isScope] at hassignment hscope

private theorem clear_insertAfter (h : file.OnTokens) (hnull : '\x00' ∉ file.text.toList)
    (hseated : Seated (Token.readAll file.text) statement)
    (hassignment : Placement.isAssignment statement = true) :
    Clear file (insertAfter file statement guards) := by
  obtain ⟨v, hv, hsolid, hstop⟩ := exists_last_of_isAssignment hseated hassignment
  have hboundary := (Token.boundaries hv).2
  unfold insertAfter
  dsimp only
  rw [hstop]
  split
  · next hremark =>
    have hends := endsInRemark hnull hv hremark
    exact clear_insert h _ (Text.lineEnd_run hboundary).boundary.le_size fun u e hremoves =>
      hends.spares hremoves hv hsolid
  · exact clear_insert h _ hboundary.le_size fun u e hremoves => hremoves.spares_stop hv hsolid

private theorem clear_rename (h : file.OnTokens) {e : Edit}
    (he : e ∈ (file.namings p).flatMap rename) :
    Clear file e := by
  obtain ⟨naming, hnaming, he⟩ := List.mem_flatMap.mp he
  obtain ⟨⟨v, hv, hsolid, hstart⟩, hstop⟩ := marks_of_mem_rename h hnaming he
  refine ⟨by omega, by omega, ?_, fun anchor hanchor => ?_⟩
  · have := Token.stop_le_size hv
    have := (Token.ordered_readAll file.text).1 v hv
    omega
  · obtain ⟨u, hremoves⟩ := removes_strip h hanchor
    have := hremoves.start_clear hv hsolid
    rw [Edit.Apart]
    omega

/-! ### Where guards stand -/

/-- The guards at a statement as they are spelled one after the other, between blanks. -/
def SpellsGuards (file : SourceFile) (statement : Tree) (guards : List Guard)
    (text : String) : Prop :=
  ∃ before after, (∀ c ∈ before.toList ++ after.toList, isBlank c = true) ∧
    text = before ++ Guard.spelledAll (Text.indentAt file.text statement.start) guards ++ after

/-- The guards of an insertion stand between the statements of its body: before the statement that
they belong to or behind it, with no other statement in between. Each guard is spelled out. Before a
statement they stand in the order of their comments. -/
structure StandsAt (file : SourceFile) (insertion : Insertion) : Prop where
  body : ∃ body ∈ Body.all file.tree, ∃ earlier later,
    body.statements = earlier ++ insertion.statement :: later ∧
    if insertion.behind then
      insertion.statement.stop ≤ (insertion.edit file).start ∧
        ∀ next ∈ later, (insertion.edit file).start ≤ next.start
    else (∀ previous ∈ earlier, previous.stop ≤ (insertion.edit file).start) ∧
      (insertion.edit file).start ≤ insertion.statement.start
  empty : (insertion.edit file).stop = (insertion.edit file).start
  text : SpellsGuards file insertion.statement (insertion.demands.flatMap (·.guards))
    (insertion.edit file).text
  inTurn : insertion.demands.Pairwise fun a b => a.placed.anchor.start < b.placed.anchor.start

/-- The guards before a statement are inserted before it. -/
theorem Insertion.edit_of_before {insertion : Insertion} (h : insertion.behind = false) :
    insertion.edit file = insertBefore file insertion.statement
      (insertion.demands.flatMap (·.guards)) := by
  unfold Insertion.edit
  dsimp only
  rw [h, if_neg Bool.false_ne_true]

/-- The guards behind a statement are inserted behind it. -/
theorem Insertion.edit_of_behind {insertion : Insertion} (h : insertion.behind = true) :
    insertion.edit file = insertAfter file insertion.statement
      (insertion.demands.flatMap (·.guards)) := by
  unfold Insertion.edit
  dsimp only
  rw [h, if_pos rfl]

private theorem isBlank_of_mem_indentAt {s : String} {pos : Nat} {c : Char}
    (hc : c ∈ (Text.indentAt s pos).toList) : isBlank c = true := by
  rw [Text.indentAt, String.toList_ofList] at hc
  exact (Text.isBlank_of_isIndent (List.all_eq_true.mp List.all_takeWhile c hc)).1

/-- What is inserted before a statement spells the guards. -/
theorem spellsGuards_insertBefore (file : SourceFile) (statement : Tree) (guards : List Guard) :
    (insertBefore file statement guards).stop = (insertBefore file statement guards).start ∧
      SpellsGuards file statement guards (insertBefore file statement guards).text := by
  unfold insertBefore SpellsGuards
  rw [← Guard.renderAll_eq_spelledAll]
  dsimp only
  split
  · exact ⟨rfl, "", "\n", by simp; decide, by simp [Edit.insert]⟩
  · refine ⟨rfl, "\n", "\n" ++ Text.indentAt file.text statement.start, fun c hc => ?_, ?_⟩
    · rw [String.toList_append, List.mem_append, List.mem_append] at hc
      rcases hc with hc | hc | hc
      · exact (List.mem_singleton.mp hc) ▸ by decide
      · exact (List.mem_singleton.mp hc) ▸ by decide
      · exact isBlank_of_mem_indentAt hc
    · simp only [Edit.insert, String.append_assoc]

/-- What is inserted behind a statement spells the guards. -/
theorem spellsGuards_insertAfter (file : SourceFile) (statement : Tree) (guards : List Guard) :
    (insertAfter file statement guards).stop = (insertAfter file statement guards).start ∧
      SpellsGuards file statement guards (insertAfter file statement guards).text := by
  unfold insertAfter SpellsGuards
  rw [← Guard.renderAll_eq_spelledAll]
  dsimp only
  split
  · exact ⟨rfl, "\n", "", by simp; decide, by simp [Edit.insert]⟩
  · refine ⟨rfl, "\n", "\n" ++ Text.indentAt file.text statement.start, fun c hc => ?_, ?_⟩
    · rw [String.toList_append, List.mem_append, List.mem_append] at hc
      rcases hc with hc | hc | hc
      · exact (List.mem_singleton.mp hc) ▸ by decide
      · exact (List.mem_singleton.mp hc) ▸ by decide
      · exact isBlank_of_mem_indentAt hc
    · simp only [Edit.insert, String.append_assoc]

/-- Guards before a statement are inserted behind the nodes before it. -/
theorem insertBefore_bounds (hseated : Seated (Token.readAll file.text) statement) :
    (insertBefore file statement guards).start ≤ statement.start ∧
      ∀ previous, Seated (Token.readAll file.text) previous → previous.stop ≤ statement.start →
        previous.stop ≤ (insertBefore file statement guards).start := by
  obtain ⟨w, hw, _, hstart⟩ := hseated.start
  unfold insertBefore
  dsimp only
  rw [hstart]
  split
  · next hstarts =>
    refine ⟨(Text.lineStart_run (Token.boundaries hw).1).le, fun previous hprevious hle => ?_⟩
    obtain ⟨v, hv, hstop, hend⟩ := hprevious.stop
    have hend : v.IsSolid ∨ v.lexeme = .newline := hend.imp_right (·.1)
    rw [hstop] at hle ⊢
    exact stop_le_lineStart hv hw hend hle hstarts
  · exact ⟨Nat.le_refl _, fun _ _ hle => hle⟩

/-- A guard after an assignment is inserted before the nodes behind it. -/
theorem insertAfter_bounds (hnull : '\x00' ∉ file.text.toList)
    (hseated : Seated (Token.readAll file.text) statement)
    (hassignment : Placement.isAssignment statement = true) :
    statement.stop ≤ (insertAfter file statement guards).start ∧
      ∀ next, Seated (Token.readAll file.text) next → statement.stop ≤ next.start →
        (insertAfter file statement guards).start ≤ next.start := by
  obtain ⟨v, hv, _, hstop⟩ := exists_last_of_isAssignment hseated hassignment
  unfold insertAfter
  dsimp only
  rw [hstop]
  split
  · next hremark =>
    refine ⟨(Text.lineEnd_run (Token.boundaries hv).2).le, fun next hnext hle => ?_⟩
    obtain ⟨w, hw, hsolid, hstart⟩ := hnext.start
    rw [hstart] at hle ⊢
    exact (endsInRemark hnull hv hremark).le_start hw hsolid hle
  · exact ⟨Nat.le_refl _, fun _ _ hle => hle⟩

/-- The statements of a body stand side by side. -/
theorem pairwise_statements (h : file.InOrder) {body : Body} (hbody : body ∈ Body.all file.tree) :
    body.statements.Pairwise fun a b => a.stop ≤ b.start := by
  rw [h.bodies_eq] at hbody
  obtain ⟨t, ht, hbody⟩ := List.mem_filterMap.mp hbody
  have hlaid := h.laid.node_children t ht
  obtain ⟨_, hsub, _⟩ := Body.of_eq_some hlaid.flat hbody
  exact hlaid.pairwise.sublist ((hsub.trans List.filter_sublist).trans (List.tail_sublist _))

section

variable {demands : List Demand} {reports : List Diagnostic} {insertion : Insertion}

section

variable (hwoven : Woven p file demands reports)
include hwoven

/-- What is inserted before a statement goes before one of a body. -/
theorem statement_of_before (hmem : insertion ∈ insertionsBefore demands) :
    insertion.behind = false ∧
      ∃ body ∈ Body.all file.tree, insertion.statement ∈ body.statements := by
  obtain ⟨statement, hstatement, rfl⟩ := List.mem_map.mp hmem
  obtain ⟨d, hd, hafter⟩ := List.mem_filterMap.mp (mem_of_mem_eraseDupsBy hstatement)
  have hjustified := hwoven.justified hd
  unfold Placement.Justified at hjustified
  unfold statementAfter? at hafter
  split at hafter
  · next hplacement =>
    obtain rfl := Option.some.inj hafter
    rw [hplacement] at hjustified
    exact ⟨rfl, List.mem_flatMap.mp hjustified.2.mem⟩
  · simp at hafter

/-- What is inserted behind a statement is one check behind an assignment of a body. -/
theorem statement_of_behind (hmem : insertion ∈ insertionsBehind demands) :
    insertion.behind = true ∧ Placement.isAssignment insertion.statement = true ∧
      (∃ body ∈ Body.all file.tree, insertion.statement ∈ body.statements) ∧
      ∃ demand, insertion.demands = [demand] := by
  obtain ⟨d, hd, hinsertion⟩ := List.mem_filterMap.mp hmem
  unfold insertionBehind? at hinsertion
  split at hinsertion
  · next assignment error hplacement =>
    obtain rfl := Option.some.inj hinsertion
    have hplaced : d.placed ∈ file.placements p := hwoven.placed ▸ List.mem_map_of_mem hd
    obtain ⟨hassignment, hmem⟩ :=
      Placement.mem_statements_of_after hwoven.inOrder hplaced hplacement
    exact ⟨rfl, hassignment, List.mem_flatMap.mp hmem, d, rfl⟩
  · simp at hinsertion

/-- Whether the guards of a directive are in the insertion at its statement. -/
def Inserted (demands : List Demand) (demand : Demand) : Prop :=
  match demand.placed.placement with
  | .before statement => ∃ insertion ∈ insertionsBefore demands,
      insertion.statement = statement ∧ demand ∈ insertion.demands
  | .after assignment _ => ∃ insertion ∈ insertionsBehind demands,
      insertion.statement = assignment ∧ insertion.demands = [demand]
  | .ignored _ => True

private theorem inserted {demand : Demand} (hdemand : demand ∈ demands) :
    Inserted demands demand := by
  unfold Inserted
  have hjustified := hwoven.justified hdemand
  unfold Placement.Justified at hjustified
  cases hplacement : demand.placed.placement with
  | before statement =>
    rw [hplacement] at hjustified
    have hafter : statementAfter? demand = some statement := by
      rw [statementAfter?, hplacement]
    have hmem : statement ∈ demands.filterMap statementAfter? :=
      List.mem_filterMap.mpr ⟨demand, hdemand, hafter⟩
    have hfilter := filter_eraseDupsBy Tree.start statement.start
      (demands.filterMap statementAfter?)
    obtain ⟨other, hother⟩ := Option.isSome_iff_exists.mp
      (List.find?_isSome (p := fun t : Tree => t.start = statement.start).mpr
        ⟨statement, hmem, by simp⟩)
    have hkept : other ∈ (demands.filterMap statementAfter?).eraseDupsBy
        fun a b => a.start == b.start := by
      refine List.mem_of_mem_filter (p := fun t : Tree => t.start = statement.start) ?_
      rw [hfilter, hother]
      exact List.mem_singleton_self other
    obtain rfl := hwoven.statement_eq hjustified.2.mem (mem_of_mem_eraseDupsBy hkept)
      (of_decide_eq_true (List.find?_some (p := fun t : Tree => t.start = statement.start) hother))
    refine ⟨_, List.mem_map_of_mem hkept, rfl, List.mem_filter.mpr ⟨hdemand, ?_⟩⟩
    rw [hafter]
    simp
  | after assignment error =>
    refine ⟨⟨assignment, true, [demand]⟩, List.mem_filterMap.mpr ⟨demand, hdemand, ?_⟩, rfl, rfl⟩
    rw [insertionBehind?, hplacement]
  | ignored cause => trivial

omit hwoven in
/-- No two insertions are made before one statement. -/
theorem pairwise_insertionsBefore (demands : List Demand) :
    (insertionsBefore demands).Pairwise fun a b => a.statement.start ≠ b.statement.start := by
  rw [insertionsBefore, List.pairwise_map]
  exact (pairwise_eraseDupsBy _ _).imp fun hne heq => by simp [heq] at hne

/-- The directives with guards before one statement come in the order of their comments. -/
theorem inTurn_of_before (hmem : insertion ∈ insertionsBefore demands) :
    insertion.demands.Pairwise fun a b => a.placed.anchor.start < b.placed.anchor.start := by
  obtain ⟨statement, _, rfl⟩ := List.mem_map.mp hmem
  have hturns := Placement.pairwise_placements (p := p) hwoven.inOrder
  rw [← hwoven.placed, List.pairwise_map] at hturns
  refine (hturns.filter _).imp_of_mem fun {a b} ha hb hturn => ?_
  have hbefore : ∀ {d : Demand}, d ∈ demands.filter (fun demand =>
      (statementAfter? demand).any (·.start = statement.start)) →
      ∃ t, d.placed.placement = .before t ∧ t.start = statement.start := by
    intro d hd
    obtain ⟨t, ht, hstart⟩ := (Option.any_eq_true _ _).mp (List.mem_filter.mp hd).2
    unfold statementAfter? at ht
    split at ht
    · next hplacement =>
      obtain rfl := Option.some.inj ht
      exact ⟨_, hplacement, of_decide_eq_true hstart⟩
    · simp at ht
  obtain ⟨s, hs, hsStart⟩ := hbefore ha
  obtain ⟨t, ht, htStart⟩ := hbefore hb
  exact hturn s t hs ht (hsStart.trans htStart.symm)

end

variable (h : file.OnTokens) (hwoven : Woven p file demands reports)
include h hwoven

private theorem clear_insertion (hnull : '\x00' ∉ file.text.toList)
    (hmem : insertion ∈ insertions demands) : Clear file (insertion.edit file) := by
  rcases List.mem_append.mp hmem with hmem | hmem
  · obtain ⟨hbehind, body, hbody, hstatement⟩ := statement_of_before hwoven hmem
    rw [Insertion.edit_of_before hbehind]
    exact clear_insertBefore h (h.statement hbody hstatement)
  · obtain ⟨hbehind, hassignment, ⟨body, hbody, hstatement⟩, _⟩ :=
      statement_of_behind hwoven hmem
    rw [Insertion.edit_of_behind hbehind]
    exact clear_insertAfter h hnull (h.statement hbody hstatement) hassignment

/-- The guards of an insertion stand at its statement. -/
theorem standsAt_insertion (hnull : '\x00' ∉ file.text.toList)
    (hmem : insertion ∈ insertions demands) : StandsAt file insertion := by
  rcases List.mem_append.mp hmem with hmem | hmem
  · obtain ⟨hbehind, body, hbody, hstatement⟩ := statement_of_before hwoven hmem
    obtain ⟨earlier, later, hsplit⟩ := List.append_of_mem hstatement
    have hordered := pairwise_statements hwoven.inOrder hbody
    rw [hsplit, List.pairwise_append] at hordered
    let guards := insertion.demands.flatMap (·.guards)
    obtain ⟨hstart, hprevious⟩ := @insertBefore_bounds file insertion.statement guards
      (h.statement hbody hstatement)
    obtain ⟨hempty, htext⟩ := spellsGuards_insertBefore file insertion.statement guards
    rw [← Insertion.edit_of_before hbehind] at hstart hprevious hempty htext
    refine ⟨⟨body, hbody, earlier, later, hsplit, ?_⟩, hempty, htext, inTurn_of_before hwoven hmem⟩
    rw [hbehind]
    refine ⟨fun previous hmem => ?_, hstart⟩
    exact hprevious previous (h.statement hbody (hsplit ▸ List.mem_append_left _ hmem))
      (hordered.2.2 previous hmem _ (List.mem_cons_self ..))
  · obtain ⟨hbehind, hassignment, ⟨body, hbody, hstatement⟩, demand, hdemand⟩ :=
      statement_of_behind hwoven hmem
    obtain ⟨earlier, later, hsplit⟩ := List.append_of_mem hstatement
    have hordered := pairwise_statements hwoven.inOrder hbody
    rw [hsplit, List.pairwise_append, List.pairwise_cons] at hordered
    let guards := insertion.demands.flatMap (·.guards)
    obtain ⟨hstop, hnext⟩ := @insertAfter_bounds file insertion.statement guards hnull
      (h.statement hbody hstatement) hassignment
    obtain ⟨hempty, htext⟩ := spellsGuards_insertAfter file insertion.statement guards
    rw [← Insertion.edit_of_behind hbehind] at hstop hnext hempty htext
    refine ⟨⟨body, hbody, earlier, later, hsplit, ?_⟩, hempty, htext, ?_⟩
    · rw [hbehind]
      refine ⟨hstop, fun next hmem => ?_⟩
      exact hnext next (h.statement hbody (hsplit ▸ by simp [hmem])) (hordered.2.1.1 next hmem)
    · rw [hdemand]
      exact List.pairwise_singleton _ _

/-! ### All edits -/

omit h hwoven in
/-- The edits that insert guards, name blanks and promote operators. -/
def written (file : SourceFile) (namings : List (Tree × ErrorTarget)) (demands : List Demand) :
    List Edit :=
  guardsBefore file demands ++ namings.flatMap rename ++ guardsAfter file demands

omit h hwoven in
/-- Imports are added in place of nothing. -/
theorem importEdit?_empty {needed : List String} {e : Edit}
    (he : file.importEdit? needed = some e) : e.start = e.stop := by
  unfold SourceFile.importEdit? at he
  split at he
  · simp at he
  · obtain rfl := Option.some.inj he
    unfold SourceFile.addImports
    split
    · unfold SourceFile.extendImportList
      dsimp only
      split <;> rfl
    · rfl
    · rfl

/-- No removal of a directive reaches into what is written. -/
theorem clear_written (hnull : '\x00' ∉ file.text.toList) {e : Edit}
    (he : e ∈ written file (file.namings p) demands) : Clear file e := by
  rw [written, guardsBefore_eq, guardsAfter_eq] at he
  rcases List.mem_append.mp he with he | he
  · rcases List.mem_append.mp he with he | he
    · obtain ⟨insertion, hmem, rfl⟩ := List.mem_map.mp he
      exact clear_insertion h hwoven hnull (List.mem_append_left _ hmem)
    · exact clear_rename h he
  · obtain ⟨insertion, hmem, rfl⟩ := List.mem_map.mp he
    exact clear_insertion h hwoven hnull (List.mem_append_right _ hmem)

/-- No two of the edits reach into each other. -/
theorem pairwise_written (hnull : '\x00' ∉ file.text.toList) :
    (written file (file.namings p) demands).Pairwise Edit.Apart := by
  have hempty : ∀ insertion ∈ insertions demands,
      (insertion.edit file).stop = (insertion.edit file).start := fun insertion hmem =>
    (standsAt_insertion h hwoven hnull hmem).empty
  have hinsertions : ∀ part : List Insertion, part ⊆ insertions demands →
      ∀ e : Edit, ∀ x ∈ part.map (·.edit file), e.start ≤ e.stop → e.stop ≤ e.start + 1 →
        Edit.Apart x e := by
    intro part hpart e x hx hle hshort
    obtain ⟨insertion, hmem, rfl⟩ := List.mem_map.mp hx
    have := hempty insertion (hpart hmem)
    rw [Edit.Apart]
    omega
  have hclear : ∀ e ∈ written file (file.namings p) demands, e.start ≤ e.stop ∧
      e.stop ≤ e.start + 1 := fun e he =>
    ⟨(clear_written h hwoven hnull he).le, (clear_written h hwoven hnull he).short⟩
  rw [written, guardsBefore_eq, guardsAfter_eq] at hclear ⊢
  have hbefore := hinsertions _ (List.subset_append_left (insertionsBefore demands) _)
  have hbehind := hinsertions _ (List.subset_append_right _ (insertionsBehind demands))
  rw [List.pairwise_append, List.pairwise_append]
  refine ⟨⟨?_, ?_, ?_⟩, ?_, ?_⟩
  · refine List.pairwise_of_forall_mem_list fun x hx y hy => ?_
    obtain ⟨hle, hshort⟩ := hclear y (List.mem_append_left _ (List.mem_append_left _ hy))
    exact hbefore y x hx hle hshort
  · refine (pairwise_renames h).imp_of_mem fun {a b} ha hb hne => ?_
    have := (clear_rename h ha).short
    have := (clear_rename h hb).short
    rw [Edit.Apart]
    omega
  · intro x hx y hy
    obtain ⟨hle, hshort⟩ := hclear y (List.mem_append_left _ (List.mem_append_right _ hy))
    exact hbefore y x hx hle hshort
  · refine List.pairwise_of_forall_mem_list fun x hx y hy => ?_
    obtain ⟨hle, hshort⟩ := hclear y (List.mem_append_right _ hy)
    exact hbehind y x hx hle hshort
  · intro x hx y hy
    obtain ⟨hle, hshort⟩ := hclear x (List.mem_append_left _ hx)
    exact (hbehind x y hy hle hshort).symm

omit h hwoven in
/-- The other edits are the removals and at most one insertion of imports. -/
theorem allEdits_eq (file : SourceFile) (namings : List (Tree × ErrorTarget))
    (demands : List Demand) : ∃ imports : Option Edit, (∀ i ∈ imports, i.start = i.stop) ∧
      allEdits file namings demands =
        file.anchors.map (strip file) ++ (written file namings demands ++ imports.toList) := by
  refine ⟨file.importEdit? (demands.flatMap fun demand => demand.guards.flatMap Guard.imports),
    fun i hi => importEdit?_empty hi, ?_⟩
  rw [allEdits, edits, written]
  simp only [List.append_assoc]

/-- Every insertion of guards and every renaming takes effect. -/
theorem takesEffect_written (hnull : '\x00' ∉ file.text.toList) {e : Edit}
    (he : e ∈ written file (file.namings p) demands) :
    Edit.TakesEffect file.text (allEdits file (file.namings p) demands) e := by
  have hclear := clear_written h hwoven hnull he
  refine Edit.takesEffect hclear.le hclear.within ?_
  obtain ⟨imports, himports, hall⟩ := allEdits_eq file (file.namings p) demands
  have hstrip : ∀ s ∈ file.anchors.map (strip file), s ≠ e := by
    rintro s hs rfl
    obtain ⟨anchor, hanchor, hse⟩ := List.mem_map.mp hs
    obtain ⟨u, hremoves⟩ := removes_strip h hanchor
    have hlt := hremoves.start_lt
    have := hclear.apart anchor hanchor
    rw [hse] at this hlt
    rw [Edit.Apart] at this
    omega
  have himport : ∀ i ∈ imports.toList, Edit.Apart e i := by
    intro i hi
    have := himports i (Option.mem_toList.mp hi)
    have := hclear.short
    rw [Edit.Apart]
    omega
  rw [hall, List.pairwise_append, List.pairwise_append]
  refine ⟨?_, ⟨?_, ?_, ?_⟩, ?_⟩
  · refine List.pairwise_of_forall_mem_list fun a ha b hb hor => ?_
    exact absurd hor (not_or.mpr ⟨hstrip a ha, hstrip b hb⟩)
  · exact (pairwise_written h hwoven hnull).imp fun {a b} (hapart : Edit.Apart a b)
      (_ : a = e ∨ b = e) => hapart
  · cases imports <;> simp
  · rintro a ha i hi (rfl | rfl)
    · exact himport i hi
    · have hi' := himport i hi
      have := himports i (Option.mem_toList.mp hi)
      have := (clear_written h hwoven hnull ha).short
      rw [Edit.Apart]
      omega
  · rintro s hs b hb (rfl | rfl)
    · exact absurd rfl (hstrip s hs)
    · obtain ⟨anchor, hanchor, rfl⟩ := List.mem_map.mp hs
      exact hclear.apart anchor hanchor

omit h hwoven in
private theorem edit_mem_written (file : SourceFile) (namings : List (Tree × ErrorTarget))
    (hmem : insertion ∈ insertions demands) :
      insertion.edit file ∈ written file namings demands := by
  rw [written, guardsBefore_eq, guardsAfter_eq]
  rcases List.mem_append.mp hmem with hmem | hmem
  · exact List.mem_append_left _ (List.mem_append_left _ (List.mem_map_of_mem hmem))
  · exact List.mem_append_right _ (List.mem_map_of_mem hmem)

/-- The edited text spells out the guards of an insertion. -/
theorem exists_spelledAll (hnull : '\x00' ∉ file.text.toList)
    (hmem : insertion ∈ insertions demands) :
    ∃ before after, (ofDemands file (file.namings p) demands).generated = before ++
      Guard.spelledAll (Text.indentAt file.text insertion.statement.start)
        (insertion.demands.flatMap (·.guards)) ++ after := by
  have hwritten := edit_mem_written file (file.namings p) hmem
  obtain ⟨imports, _, hall⟩ := allEdits_eq file (file.namings p) demands
  have hin : insertion.edit file ∈ allEdits file (file.namings p) demands :=
    hall ▸ List.mem_append_right _ (List.mem_append_left _ hwritten)
  obtain ⟨earlier, later, htakes⟩ :=
    (takesEffect_written h hwoven hnull hwritten).exists_eq hin
  obtain ⟨before, after, _, htext⟩ := (standsAt_insertion h hwoven hnull hmem).text
  refine ⟨earlier ++ before, after ++ later, ?_⟩
  rw [ofDemands, htakes, htext]
  simp only [String.append_assoc]

end

/-- Every guard is inserted and every target renamed, and the guards stand at their statements,
where the generated text spells them out. -/
def Retained (p : Package) (file : SourceFile) (injection : Injection) : Prop :=
  ∃ demands reports, injection = ofDemands file (file.namings p) demands ∧
    Woven p file demands reports ∧ (∀ d ∈ demands, Inserted demands d) ∧
    (insertionsBefore demands).Pairwise (fun a b => a.statement.start ≠ b.statement.start) ∧
    guardsBefore file demands = (insertionsBefore demands).map (·.edit file) ∧
    guardsAfter file demands = (insertionsBehind demands).map (·.edit file) ∧
    (∀ e ∈ written file (file.namings p) demands,
      Edit.TakesEffect file.text (allEdits file (file.namings p) demands) e) ∧
    ∀ insertion ∈ insertions demands, StandsAt file insertion ∧
      ∃ before after, injection.generated = before ++ Guard.spelledAll
        (Text.indentAt file.text insertion.statement.start)
        (insertion.demands.flatMap (·.guards)) ++ after

open Reporting (Gives value? gives_of_value?)

/-- No guard is lost in a text without null characters, which no source of the language holds. -/
theorem retained_of_inject {path text : String} {injection : Injection}
    {before after : List Diagnostic} (hvalid : (SourceFile.read path text).hasErrors = false)
    (hnull : '\x00' ∉ text.toList)
    (h : Gives ((SourceFile.read path text).inject? p) before (some injection) after) :
    Retained p (SourceFile.read path text) injection := by
  rw [SourceFile.read_eq_parse hvalid] at h ⊢
  obtain ⟨demands, reports, rfl, _, hwoven⟩ := exists_woven h
  have htokens := SourceFile.onTokens_parse path text
  refine ⟨demands, reports, rfl, hwoven, fun d hd => inserted hwoven hd,
    pairwise_insertionsBefore demands, guardsBefore_eq _ _, guardsAfter_eq _ _,
    fun e he => takesEffect_written htokens hwoven hnull he, fun insertion hmem => ?_⟩
  refine ⟨standsAt_insertion htokens hwoven hnull hmem, ?_⟩
  exact exists_spelledAll htokens hwoven hnull hmem

private theorem generated_eq_splice (file : SourceFile) (namings : List (Tree × ErrorTarget))
    (demands : List Demand) : (ofDemands file namings demands).generated =
      Edit.splice file.text 0
        ((allEdits file namings demands).insertionSort (Edit.ordered · · = true)) := by
  rw [ofDemands, Edit.applyAll, Edit.mergeSort_eq_insertionSort]

/-- An assignment with two directives before it on one line and one behind it. -/
def crowded : String :=
  "package p\n\nfunc g() error\n\nfunc f(a, b int) \x7b\n\t/* @require a > 0 */ // @require b
\t_ = g() // @must\n\tprintln(a)\n\x7d\n"

/-- `crowded` with its guards: two before the assignment and one behind it. -/
def crowdedGuarded : String :=
  "package p\n\nfunc g() error\n\nfunc f(a, b int) \x7b\n\t// @require b\n" ++
  "\tif !(a > 0) \x7b\n\t\tpanic(\"inco // require violation: a > 0 at /f.go:6\")\n\t\x7d\n" ++
  "\tif !(b) \x7b\n\t\tpanic(\"inco // require violation: b at /f.go:6\")\n\t\x7d\n" ++
  "\t_inco_err_7 := g()\n\tif _inco_err_7 != nil \x7b\n" ++
  "\t\tpanic(\"inco // must violation at /f.go:7: \" + _inco_err_7.Error())\n\t\x7d\n" ++
  "\tprintln(a)\n\x7d\n"

/-- An assignment between directives, with all the guards for it. -/
theorem retained_crowded : '\x00' ∉ crowded.toList ∧
    (SourceFile.read "/f.go" crowded).hasErrors = false ∧ ∃ injection after,
      Gives ((SourceFile.read "/f.go" crowded).inject? (alone (.read "/f.go" crowded))) []
        (some injection) after ∧ injection.generated = crowdedGuarded ∧
      Retained (alone (.read "/f.go" crowded)) (.read "/f.go" crowded) injection := by
  have hnull : '\x00' ∉ crowded.toList := by decide +kernel
  generalize hfile : SourceFile.read "/f.go" crowded = file
  have hfacts : file.hasErrors = false ∧ file.anchors.isEmpty = false ∧
      (value? (file.demands (alone file)) []).map (fun demands => Edit.splice file.text 0
        ((allEdits file (file.namings (alone file)) demands).insertionSort
          (Edit.ordered · · = true))) = some crowdedGuarded := by
    subst hfile
    decide +kernel
  obtain ⟨hvalid, hanchors, hgenerated⟩ := hfacts
  obtain ⟨demands, hdemands, htext⟩ := Option.map_eq_some_iff.mp hgenerated
  obtain ⟨after, hgives⟩ := gives_of_value? hdemands
  have hinject := gives_inject?.mpr ⟨by simpa using hanchors, demands, hgives, rfl⟩
  subst hfile
  refine ⟨hnull, hvalid, _, after, hinject, ?_, retained_of_inject hvalid hnull hinject⟩
  exact (generated_eq_splice _ _ _).trans htext

end Injection

end GoContracts

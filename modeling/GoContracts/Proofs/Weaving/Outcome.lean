import GoContracts.Proofs.Weaving.Insertions
import GoContracts.Proofs.Weaving.Placement

/-!
# What becomes of directives

No directive of a file is silently left out: its guards are inserted before one statement or behind
one assignment, or one report tells that it is without effect.
-/

namespace GoContracts.Injection

open Placement Reporting
open Syntax (Tree)

/-- What becomes of a directive. -/
inductive Outcome where
  /-- Its guards are inserted before the statement. -/
  | before (statement : Tree)
  /-- Its guard is inserted after the assignment. -/
  | behind (assignment : Tree)
  /-- It is reported to be without effect. -/
  | neglected (cause : Neglect)

/-- The causes that are reported for a directive. -/
def causes (reports : List Diagnostic) (anchor : Anchor) : List Neglect :=
  ((neglects reports).filter (·.1 = anchor)).map (·.2)

/-- Number of reports of directives without effect that name the given place. -/
def neglectsAt (reports : List Diagnostic) (location : String) : Nat :=
  (neglects reports).countP (·.1.location = location)

/-- Whether what is inserted into a file and what is reported show the outcome of a directive. -/
def Meets (p : Package) (file : SourceFile) (demands : List Demand) (reports : List Diagnostic)
    (anchor : Anchor) : Outcome → Prop
  | .before statement =>
    anchor.directive.keyword = .require ∧ Follows file anchor statement ∧
      ∃ insertion, holding (insertions demands) anchor = [insertion] ∧
        insertion.behind = false ∧ insertion.statement = statement ∧
        (∃ before after, Gives (Guard.precondition p anchor
          (.visibleAt file statement.start)) before
          (insertion.guardsOf anchor) after) ∧
        (insertion.guardsOf anchor).length = anchor.directive.guardCount ∧
        causes reports anchor = []
  | .behind assignment =>
    anchor.directive.keyword = .must ∧ Assigns file anchor assignment ∧
      ∃ insertion, holding (insertions demands) anchor = [insertion] ∧
        insertion.behind = true ∧ insertion.statement = assignment ∧
        (∃ guard name before after, insertion.guardsOf anchor = [guard] ∧
          Gives (Guard.errorCheck p anchor (.visibleAt file assignment.start) name) before guard
            after) ∧
        causes reports anchor = []
  | .neglected cause =>
    holding (insertions demands) anchor = [] ∧ causes reports anchor = [cause]

variable {p : Package} {file : SourceFile} {demands : List Demand} {reports : List Diagnostic}
  {anchor : Anchor}

/-- No directive has two outcomes. -/
theorem Meets.unique {outcome other : Outcome} (h : Meets p file demands reports anchor outcome)
    (h' : Meets p file demands reports anchor other) : other = outcome := by
  cases outcome with
  | before statement =>
    obtain ⟨_, _, insertion, hholding, hbehind, rfl, _⟩ := h
    cases other with
    | before _ =>
      obtain ⟨_, _, insertion', hholding', _, rfl, _⟩ := h'
      rw [hholding', List.singleton_inj] at hholding
      rw [hholding]
    | behind _ =>
      obtain ⟨_, _, insertion', hholding', hbehind', _⟩ := h'
      rw [hholding', List.singleton_inj] at hholding
      rw [← hholding, hbehind'] at hbehind
      simp at hbehind
    | neglected _ => simp [h'.1] at hholding
  | behind assignment =>
    obtain ⟨_, _, insertion, hholding, hbehind, rfl, _⟩ := h
    cases other with
    | before _ =>
      obtain ⟨_, _, insertion', hholding', hbehind', _⟩ := h'
      rw [hholding', List.singleton_inj] at hholding
      rw [← hholding, hbehind'] at hbehind
      simp at hbehind
    | behind _ =>
      obtain ⟨_, _, insertion', hholding', _, rfl, _⟩ := h'
      rw [hholding', List.singleton_inj] at hholding
      rw [hholding]
    | neglected _ => simp [h'.1] at hholding
  | neglected cause =>
    obtain ⟨hnone, hcause⟩ := h
    cases other with
    | before _ =>
      obtain ⟨_, _, insertion', hholding', _⟩ := h'
      simp [hnone] at hholding'
    | behind _ =>
      obtain ⟨_, _, insertion', hholding', _⟩ := h'
      simp [hnone] at hholding'
    | neglected _ =>
      have hcause' := h'.2
      rw [hcause, List.singleton_inj] at hcause'
      rw [hcause']

/-- A directive has no guards exactly if it is reported. -/
theorem Meets.isEmpty_holding {outcome : Outcome}
    (h : Meets p file demands reports anchor outcome) :
    (holding (insertions demands) anchor).isEmpty = !(causes reports anchor).isEmpty := by
  cases outcome with
  | before statement =>
    obtain ⟨_, _, insertion, hholding, _, _, _, _, hnone⟩ := h
    rw [hholding, hnone]
    rfl
  | behind assignment =>
    obtain ⟨_, _, insertion, hholding, _, _, _, hnone⟩ := h
    rw [hholding, hnone]
    rfl
  | neglected cause =>
    rw [h.1, h.2]
    rfl

/-! ### One outcome -/

/-- Of items with different keys one has a given key. -/
theorem filter_key_eq {α β : Type} [DecidableEq β] {key : α → β} {items : List α}
    (h : (items.map key).Nodup) {item : α} (hitem : item ∈ items) :
    items.filter (key · = key item) = [item] := by
  induction items with
  | nil => simp at hitem
  | cons a items ih =>
    rw [List.map_cons, List.nodup_cons] at h
    rcases List.mem_cons.mp hitem with rfl | hmem
    · rw [List.filter_cons_of_pos (by simp), List.cons_inj_right, List.filter_eq_nil_iff]
      intro b hb hkey
      exact h.1 (List.mem_map.mpr ⟨b, hb, of_decide_eq_true hkey⟩)
    · have hne : ¬key a = key item := fun hkey => h.1 (hkey ▸ List.mem_map_of_mem hmem)
      rw [List.filter_cons_of_neg (by simpa using hne), ih h.2 hmem]

/-- A placed directive has the cause reported that it was placed with. -/
theorem causes_eq {placed : List Placed} {x : Placed}
    (hreports : neglects reports = placed.filterMap neglect?)
    (hone : placed.filter (·.anchor = anchor) = [x]) :
    causes reports anchor = ((neglect? x).map (·.2)).toList := by
  have hfilter : ∀ y ∈ placed, (neglect? y).filter (·.1 = anchor) =
      if y.anchor = anchor then neglect? y else none := by
    intro y _
    unfold neglect?
    cases y.placement <;> by_cases h : y.anchor = anchor <;> simp [h]
  have hown := List.filterMap_filter (p := fun y : Placed => y.anchor = anchor)
    (f := neglect?) (l := placed)
  simp only [decide_eq_true_eq] at hown
  rw [causes, hreports, List.filter_filterMap, List.filterMap_congr hfilter, ← hown, hone,
    List.filterMap_cons, List.filterMap_nil]
  cases neglect? x <;> rfl

/-- The demands and reports of a file into which guards are woven. -/
structure Woven (p : Package) (file : SourceFile) (demands : List Demand)
    (reports : List Diagnostic) : Prop where
  inOrder : file.InOrder
  counts : ∀ anchor ∈ file.anchors, anchor.directive.keyword = .require →
    0 < anchor.directive.guardCount
  placed : demands.map (·.placed) = file.placements p
  guards : ∀ d ∈ demands, Demanded p file (file.namings p) d.placed d.guards
  neglected : neglects reports = (file.placements p).filterMap neglect?

/-- The demands of a file are those of its placed directives. -/
theorem woven_of_demands {path text : String} {before after : List Diagnostic}
    (h : Gives ((SourceFile.parse path text).demands p) before demands after) :
    ∃ reports, after = before ++ reports ∧
      Woven p (SourceFile.parse path text) demands reports := by
  obtain ⟨hplaced, hguards, reports, rfl, hreports⟩ := demands_spec h
  refine ⟨reports, rfl, SourceFile.inOrder_parse path text, ?_, hplaced, hguards, hreports⟩
  intro anchor hanchor hkeyword
  obtain ⟨comment, _, hanchor⟩ := List.mem_filterMap.mp hanchor
  obtain ⟨directive, hparse, rfl⟩ := Option.map_eq_some_iff.mp hanchor
  exact Directive.guardCount_pos hparse hkeyword

/-- Weaving succeeds with demands and reports for the placed directives. -/
theorem exists_woven {path text : String} {injection : Injection} {before after : List Diagnostic}
    (h : Gives ((SourceFile.parse path text).inject? p) before (some injection) after) :
    ∃ demands reports, injection = ofDemands (SourceFile.parse path text)
        ((SourceFile.parse path text).namings p) demands ∧ after = before ++ reports ∧
      Woven p (SourceFile.parse path text) demands reports := by
  obtain ⟨_, demands, hdemands, rfl⟩ := gives_inject?.mp h
  obtain ⟨reports, rfl, hwoven⟩ := woven_of_demands hdemands
  exact ⟨demands, reports, rfl, rfl, hwoven⟩

namespace Woven

variable {demand : Demand} (h : Woven p file demands reports)
include h

private theorem perm_anchors : (demands.map (·.placed.anchor)).Perm file.anchors := by
  have hperm := map_anchor_placements (p := p) h.inOrder
  rw [← h.placed, List.map_map] at hperm
  exact hperm

private theorem nodup_anchors : (demands.map (·.placed.anchor)).Nodup :=
  h.perm_anchors.nodup_iff.mpr h.inOrder.nodup_anchors

/-- Each demand has a placement that is justified. -/
theorem justified (hdemand : demand ∈ demands) : Justified file demand.placed :=
  justified_placements (p := p) h.inOrder _ (h.placed ▸ List.mem_map_of_mem hdemand)

private theorem causes_anchor (hdemand : demand ∈ demands) :
    causes reports demand.placed.anchor = ((neglect? demand.placed).map (·.2)).toList := by
  refine causes_eq h.neglected ?_
  have hnodup : ((file.placements p).map (·.anchor)).Nodup := by
    rw [← h.placed, List.map_map]
    exact h.nodup_anchors
  exact filter_key_eq hnodup (h.placed ▸ List.mem_map_of_mem hdemand)

/-- Guards before statements that begin at one place are before one statement. -/
theorem statement_eq {statement other : Tree}
    (hstatement : statement ∈ (Body.all file.tree).flatMap (·.statements))
    (hother : other ∈ demands.filterMap statementAfter?) (hstart : other.start = statement.start) :
    other = statement := by
  obtain ⟨d, hd, hafter⟩ := List.mem_filterMap.mp hother
  have hjustified := h.justified hd
  unfold Justified at hjustified
  unfold statementAfter? at hafter
  split at hafter
  · next hplacement =>
    obtain rfl := Option.some.inj hafter
    rw [hplacement] at hjustified
    exact List.inj_on_of_nodup_map h.inOrder.nodup_statements hjustified.2.mem hstatement hstart
  · simp at hafter

/-- What is inserted and reported shows an outcome of each placed directive. -/
theorem exists_outcome (hdemand : demand ∈ demands) :
    ∃ outcome, Meets p file demands reports demand.placed.anchor outcome := by
  have hone := filter_key_eq h.nodup_anchors hdemand
  have hcauses := h.causes_anchor hdemand
  have hjustified := h.justified hdemand
  have hguards := h.guards demand hdemand
  unfold Justified at hjustified
  unfold Demanded at hguards
  unfold neglect? at hcauses
  cases hplacement : demand.placed.placement with
  | before statement =>
    rw [hplacement] at hjustified hguards hcauses
    obtain ⟨hkeyword, hfollows⟩ := hjustified
    obtain ⟨before, after, hgives⟩ := hguards
    have hlength := Guard.length_of_precondition hgives
    have hne : demand.guards ≠ [] := by
      have hpos := h.counts _ (h.perm_anchors.subset (List.mem_map_of_mem hdemand)) hkeyword
      exact List.ne_nil_of_length_pos (hlength ▸ hpos)
    obtain ⟨insertion, hholding, hbehind, hstatement, hinserted⟩ :=
      holding_of_before hone hne hplacement fun other hother => h.statement_eq hfollows.mem hother
    exact ⟨.before statement, hkeyword, hfollows, insertion, hholding, hbehind, hstatement,
      ⟨before, after, hinserted ▸ hgives⟩, hinserted ▸ hlength, hcauses⟩
  | after assignment error =>
    rw [hplacement] at hjustified hguards hcauses
    obtain ⟨hkeyword, hassigns⟩ := hjustified
    obtain ⟨guard, before, after, hguard, hgives⟩ := hguards
    have hne : demand.guards ≠ [] := by simp [hguard]
    obtain ⟨insertion, hholding, hbehind, hstatement, hinserted⟩ :=
      holding_of_after hone hne hplacement
    exact ⟨.behind assignment, hkeyword, hassigns, insertion, hholding, hbehind, hstatement,
      ⟨guard, _, before, after, hinserted.trans hguard, hgives⟩, hcauses⟩
  | ignored cause =>
    rw [hplacement] at hguards hcauses
    exact ⟨.neglected cause, holding_of_guards_eq_nil hone hguards, hcauses⟩

/-- A place is named by as many reports as directives without guards stand there. -/
theorem neglectsAt_eq (location : String) :
    neglectsAt reports location = file.anchors.countP fun anchor =>
      anchor.location = location && (holding (insertions demands) anchor).isEmpty := by
  rw [neglectsAt, h.neglected, ← h.placed, ← h.perm_anchors.countP_eq, List.countP_map,
    List.filterMap_map, List.countP_filterMap]
  refine List.countP_congr fun d hd => ?_
  obtain ⟨outcome, houtcome⟩ := h.exists_outcome hd
  simp only [Function.comp_apply]
  rw [houtcome.isEmpty_holding, h.causes_anchor hd]
  unfold neglect?
  cases d.placed.placement <;> simp

end Woven

/-- Each directive of a file has one outcome in what is inserted and reported. A place is named by
as many reports of directives without effect as directives without guards stand there. -/
def Accounted (p : Package) (file : SourceFile) (injection : Injection)
    (before after : List Diagnostic) : Prop :=
  ∃ demands reports, injection = ofDemands file (file.namings p) demands ∧
    after = before ++ reports ∧
    guardsBefore file demands = (insertionsBefore demands).map (·.edit file) ∧
    guardsAfter file demands = (insertionsBehind demands).map (·.edit file) ∧
    (∀ anchor ∈ file.anchors, ∃! outcome, Meets p file demands reports anchor outcome) ∧
    ∀ location, neglectsAt reports location = file.anchors.countP fun anchor =>
      anchor.location = location && (holding (insertions demands) anchor).isEmpty

/-- No directive of a valid file is silently left out. -/
theorem accounted_of_inject {path text : String} {injection : Injection}
    {before after : List Diagnostic} (hvalid : (SourceFile.read path text).hasErrors = false)
    (h : Gives ((SourceFile.read path text).inject? p) before (some injection) after) :
    Accounted p (SourceFile.read path text) injection before after := by
  rw [SourceFile.read_eq_parse hvalid] at h ⊢
  obtain ⟨demands, reports, rfl, rfl, hwoven⟩ := exists_woven h
  refine ⟨demands, reports, rfl, rfl, guardsBefore_eq _ _, guardsAfter_eq _ _, ?_,
    hwoven.neglectsAt_eq⟩
  intro anchor hanchor
  obtain ⟨demand, hdemand, rfl⟩ := List.mem_map.mp (hwoven.perm_anchors.symm.subset hanchor)
  obtain ⟨outcome, houtcome⟩ := hwoven.exists_outcome hdemand
  exact ⟨outcome, houtcome, fun other hother => houtcome.unique hother⟩

/-- A function with a directive for its statement and one behind the last statement. -/
def twoDirectives : String :=
  "package p\n\nfunc f(a int) \x7b\n\t// @require a > 0\n\t_ = a\n\t// @must\n\x7d\n"

/-- A file with a directive for a statement and one behind the last statement. -/
theorem accounted_twoDirectives :
    ∃ injection after, Gives ((SourceFile.read "/f.go" twoDirectives).inject?
        (alone (.read "/f.go" twoDirectives))) [] (some injection) after ∧
      (SourceFile.read "/f.go" twoDirectives).hasErrors = false ∧
      Accounted (alone (.read "/f.go" twoDirectives)) (.read "/f.go" twoDirectives) injection []
        after := by
  have hvalid : (SourceFile.read "/f.go" twoDirectives).hasErrors = false := by decide +kernel
  have hvalue : (value? ((SourceFile.read "/f.go" twoDirectives).inject?
      (alone (.read "/f.go" twoDirectives))) []).join.isSome = true := by
    decide +kernel
  obtain ⟨injection, hinjection⟩ := Option.isSome_iff_exists.mp hvalue
  obtain ⟨after, hgives⟩ := gives_of_value? (Option.join_eq_some_iff.mp hinjection)
  exact ⟨injection, after, hgives, hvalid, accounted_of_inject hvalid hgives⟩

/-- Two directives on one line, outside all lists of statements. -/
def sharedLine : SourceFile :=
  .read "/f.go" "package p\n\n/* @require a *//* @require b */\n"

/-- The reports of both directives on one line name the same place. -/
theorem sharedLine_named_twice :
    ¬∀ p path text injection demands before reports, (SourceFile.read path text).hasErrors = false →
      Gives ((SourceFile.read path text).inject? p) before (some injection) (before ++ reports) →
      Gives ((SourceFile.read path text).demands p) before demands (before ++ reports) →
      ∀ anchor ∈ (SourceFile.read path text).anchors,
        (∃ statement, Meets p (.read path text) demands reports anchor (.before statement)) ∨
        (∃ assignment, Meets p (.read path text) demands reports anchor (.behind assignment)) ∨
        holding (insertions demands) anchor = [] ∧ neglectsAt reports anchor.location = 1 := by
  intro h
  have hvalid : sharedLine.hasErrors = false := by decide +kernel
  have hanchor : sharedLine.anchors.any (·.location = "/f.go:3") = true := by decide +kernel
  obtain ⟨anchor, hmem, hlocation⟩ := List.any_eq_true.mp hanchor
  rw [decide_eq_true_eq] at hlocation
  have hrun : (match (sharedLine.demands (alone sharedLine)).run.run [] with
      | (.ok demands, reports) =>
        (insertions demands).isEmpty && neglectsAt reports "/f.go:3" == 2
      | _ => false) = true := by
    decide +kernel
  split at hrun
  · next demands reports hgives =>
    simp only [Bool.and_eq_true, List.isEmpty_iff, beq_iff_eq] at hrun
    have hnone : holding (insertions demands) anchor = [] := by
      rw [hrun.1]
      rfl
    have hinject := gives_inject?.mpr ⟨List.ne_nil_of_mem hmem, demands, hgives, rfl⟩
    rcases h _ _ _ _ demands [] reports hvalid hinject hgives anchor hmem with ⟨_, hbefore⟩ |
      ⟨_, hbehind⟩ | hone
    · obtain ⟨_, _, insertion, hholding, _⟩ := hbefore
      simp [hnone] at hholding
    · obtain ⟨_, _, insertion, hholding, _⟩ := hbehind
      simp [hnone] at hholding
    · rw [hlocation, hrun.2] at hone
      simp at hone
  · simp at hrun

end GoContracts.Injection

import GoContracts.Proofs.Weaving.Identifiers

/-!
# The variables that guards check

The guard behind an assignment compares with `nil` a variable that stands among the targets of that
assignment in the generated text. All guards of one assignment check the same variable. A blank is
renamed at most once, and the blanks of one body get different names.
-/

namespace GoContracts

open Syntax (Tree Token Kind)
open Text (CharAt Boundary Between)

variable {p : Package} {file : SourceFile}

/-! ### Lines -/

namespace Text

variable {s : String} {pos next : Nat} {c : Char}

/-- What begins a line stands before all that is no blank on that line. -/
theorem le_of_startsLine (h : Boundary s pos) (hstarts : startsLine s pos = true)
    (hc : CharAt s next c) (hsolid : isBlank c = false) (hrow : rowAt s next = rowAt s pos) :
    pos ≤ next := by
  by_contra hlt
  have hle := lineStart_le hc.boundary h (by omega) hrow
  have hblank : isBlank c = true := (startsLine_iff h).mp hstarts next c hc hle (by omega)
  rw [hsolid] at hblank
  exact Bool.false_ne_true hblank

end Text

namespace Placement

variable {body : Body} {a a' : Tree} {x x' : Anchor}

private theorem line_eq (hx : x ∈ file.anchors) : x.line = Text.rowAt file.text x.start + 1 := by
  obtain ⟨comment, _, hanchor⟩ := List.mem_filterMap.mp hx
  obtain ⟨directive, _, rfl⟩ := Option.map_eq_some_iff.mp hanchor
  rfl

/-- At most one directive begins a line. -/
theorem eq_of_startsLine (h : file.OnTokens) (hx : x ∈ file.anchors) (hx' : x' ∈ file.anchors)
    (hinline : x.inline = false) (hinline' : x'.inline = false) (hline : x.line = x'.line) :
    x = x' := by
  obtain ⟨u, hu, hcomment, hstart, _, hown⟩ := h.anchor hx
  obtain ⟨w, hw, hcomment', hstart', _, hown'⟩ := h.anchor hx'
  rw [hinline, Eq.comm, Bool.not_eq_false'] at hown
  rw [hinline', Eq.comm, Bool.not_eq_false'] at hown'
  rw [line_eq hx, line_eq hx', hstart, hstart', Nat.add_right_cancel_iff] at hline
  have hslash := (Token.charAt_comment hu hcomment).1
  have hslash' := (Token.charAt_comment hw hcomment').1
  have hle := Text.le_of_startsLine hslash.boundary hown hslash' (by decide) hline.symm
  have hge := Text.le_of_startsLine hslash'.boundary hown' hslash (by decide) hline
  have hstarts : (file.anchors.map Anchor.start).Nodup :=
    List.pairwise_map.mpr (h.inOrder.pairwise_anchors.imp fun hlt => Nat.ne_of_lt hlt)
  exact List.inj_on_of_nodup_map hstarts hx hx' (by omega)

/-- A statement that is in two bodies is in one. -/
theorem eq_of_mem_statements (h : file.InOrder) {other : Body} (hbody : body ∈ Body.all file.tree)
    (hother : other ∈ Body.all file.tree) (hmem : a ∈ body.statements)
    (hmem' : a ∈ other.statements) : body = other := by
  have hnodup := h.nodup_statements
  rw [List.map_flatMap, List.nodup_flatMap] at hnodup
  by_contra hne
  have hapart := List.Pairwise.forall_of_forall_of_flip
    (R := fun b c : Body => b ≠ c → ∀ t ∈ b.statements, t ∉ c.statements)
    (fun _ _ hne => absurd rfl hne)
    (hnodup.2.imp fun hdisjoint (_ : _ ≠ _) t ht ht' =>
      hdisjoint (List.mem_map_of_mem ht) (List.mem_map_of_mem ht'))
    (hnodup.2.imp fun {b c} hdisjoint (_ : c ≠ b) t (ht : t ∈ c.statements)
      (ht' : t ∈ b.statements) => hdisjoint (List.mem_map_of_mem ht') (List.mem_map_of_mem ht))
  exact hapart hbody hother hne a hmem hmem'

/-- A directive that begins a line and one behind code on that line apply to one assignment, if they
apply to assignments of one body. -/
theorem eq_of_follows (h : file.OnTokens) (hbody : body ∈ Body.all file.tree)
    (hmem : a ∈ body.statements) (hmem' : a' ∈ body.statements) (hx : x ∈ file.anchors)
    (hassignment : isAssignment a = true) (hinline : x.inline = false)
    (hfollows : Follows file x a)
    (htrails : assignmentOnLine? file (Body.all file.tree) x.line = some a') : a = a' := by
  obtain ⟨home, hhome, _, _, hfind⟩ := hfollows
  obtain rfl := eq_of_mem_statements h.inOrder hbody hhome hmem (List.mem_of_find?_eq_some hfind)
  obtain ⟨u, hu, hcomment, hstart, _, hown⟩ := h.anchor hx
  rw [hinline, Eq.comm, Bool.not_eq_false'] at hown
  obtain ⟨v, hv, hsolid, hfirst⟩ := (h.statement hbody hmem).start
  obtain ⟨w, hw, hsolid', hfirst'⟩ := (h.statement hbody hmem').start
  have hrow : Text.rowAt file.text a'.start = Text.rowAt file.text x.start := by
    have hline := List.find?_some htrails
    rw [Bool.and_eq_true, decide_eq_true_eq, line_eq hx, Nat.add_right_cancel_iff] at hline
    exact hline.2
  -- The assignment behind which the other directive stands begins behind this directive.
  have hafter : x.start < a'.start := by
    obtain ⟨c, hc, hblank⟩ := Token.charAt_start hw hsolid'.1 hsolid'.2.2
    rw [← hfirst'] at hc
    have hle := Text.le_of_startsLine (Token.boundaries hu).1 hown hc hblank (hstart ▸ hrow)
    refine Nat.lt_of_le_of_ne (hstart ▸ hle) fun heq => ?_
    have hne : u ≠ w := fun hsame => hsolid'.2.1 (hsame ▸ hcomment)
    have := (Token.ordered_readAll file.text).1 u hu
    have := (Token.ordered_readAll file.text).1 w hw
    have := Token.apart_of_ne hu hw hne
    omega
  obtain ⟨hbehind, earlier, later, hsplit, hnone⟩ := List.find?_eq_some_iff_append.mp hfind
  rw [decide_eq_true_eq] at hbehind
  have hlater : a' ∈ a :: later := by
    rw [hsplit] at hmem'
    refine (List.mem_append.mp hmem').resolve_left fun hin => ?_
    have := hnone a' hin
    simp only [Bool.not_eq_true', decide_eq_false_iff_not] at this
    exact this hafter
  rcases List.mem_cons.mp hlater with rfl | hlater
  · rfl
  -- The statement between the two is on the line as well, and it comes first.
  have hpairs := Injection.pairwise_statements h.inOrder hbody
  rw [hsplit, List.pairwise_append, List.pairwise_cons] at hpairs
  have hlt := h.inOrder.laid.node_bounds a
    (SourceFile.OnTokens.mem_of_mem_statements h.inOrder hbody hmem).1
  have hle := hpairs.2.1.1 a' hlater
  have hboundary := (Token.boundaries hv).1
  have hboundary' := (Token.boundaries hw).1
  rw [← hfirst] at hboundary
  rw [← hfirst'] at hboundary'
  have hlow := Text.rowAt_le (Token.boundaries hu).1 hboundary (hstart ▸ Nat.le_of_lt hbehind)
  have hhigh := Text.rowAt_le hboundary hboundary' (by omega)
  rw [← hstart] at hlow
  have hpred : (isAssignment a && Text.rowAt file.text a.start + 1 = x.line) = true := by
    rw [hassignment, Bool.true_and, decide_eq_true_eq, line_eq hx]
    omega
  obtain ⟨before, after, hbodies⟩ := List.append_of_mem hbody
  have hcut : (Body.all file.tree).flatMap (·.statements) =
      (before.flatMap (·.statements) ++ (earlier ++ [a])) ++
        (later ++ after.flatMap (·.statements)) := by
    rw [hbodies, List.flatMap_append, List.flatMap_cons, hsplit]
    simp
  have hnodup := h.inOrder.nodup_statements.of_map
  rw [assignmentOnLine?, hcut, List.find?_append] at htrails
  rw [hcut, List.nodup_append'] at hnodup
  have hsome := List.find?_isSome (p := fun statement : Tree => isAssignment statement &&
    Text.rowAt file.text statement.start + 1 = x.line).mpr
      ⟨a, show a ∈ before.flatMap (·.statements) ++ (earlier ++ [a]) by simp, hpred⟩
  obtain ⟨b, hb⟩ := Option.isSome_iff_exists.mp hsome
  rw [hb, Option.some_or] at htrails
  obtain rfl := Option.some.inj htrails
  exact absurd (List.mem_append_left _ hlater) (hnodup.2.2 (List.mem_of_find?_eq_some hb))

/-- Two directives on one line that apply to assignments of one body apply to one assignment. -/
theorem eq_of_line_eq (h : file.OnTokens) (hbody : body ∈ Body.all file.tree)
    (hmem : a ∈ body.statements) (hmem' : a' ∈ body.statements) (hx : x ∈ file.anchors)
    (hx' : x' ∈ file.anchors) (hassigns : Assigns file x a) (hassigns' : Assigns file x' a')
    (hline : x.line = x'.line) : a = a' := by
  obtain ⟨hassignment, hplace⟩ := hassigns
  obtain ⟨hassignment', hplace'⟩ := hassigns'
  cases hinline : x.inline <;> cases hinline' : x'.inline <;>
    simp only [hinline, hinline', if_pos, Bool.false_eq_true, if_false] at hplace hplace'
  · obtain rfl := eq_of_startsLine h hx hx' hinline hinline' hline
    obtain ⟨home, _, hholds, _, hfind⟩ := hplace
    obtain ⟨home', hhome', hholds', honly, hfind'⟩ := hplace'
    obtain rfl := honly home ‹_› hholds
    exact Option.some.inj (hfind.symm.trans hfind')
  · exact eq_of_follows h hbody hmem hmem' hx hassignment hinline hplace (hline ▸ hplace')
  · exact (eq_of_follows h hbody hmem' hmem hx' hassignment' hinline' hplace'
      (hline ▸ hplace)).symm
  · rw [hline] at hplace
    exact Option.some.inj (hplace.symm.trans hplace')

end Placement

namespace Injection

variable {demands : List Demand} {assignment : Tree} {error : ErrorTarget} {placed : Placed}

/-! ### One name for each target -/

/-- Each blank of a directive behind an assignment gets a name. -/
theorem isSome_find?_namings (hplaced : placed ∈ file.placements p)
    (hafter : placed.placement = .after assignment error) {blank : Tree}
    (hblank : error.blank? = some blank) :
    ((file.namings p).find? fun naming => naming.1.start = blank.start).isSome = true := by
  have hmem : (blank, error) ∈ (file.placements p).filterMap fun x => do
      let error ← errorTarget? x
      return (← error.blank?, error) := by
    refine List.mem_filterMap.mpr ⟨placed, hplaced, ?_⟩
    rw [errorTarget?, hafter]
    simp [hblank]
  have hfilter := filter_eraseDupsBy (fun naming : Tree × ErrorTarget => naming.1.start) blank.start
    ((file.placements p).filterMap fun x => do
      let error ← errorTarget? x
      return (← error.blank?, error))
  have hsome := List.find?_isSome (p := fun naming : Tree × ErrorTarget =>
    naming.1.start = blank.start).mpr ⟨_, hmem, by simp⟩
  obtain ⟨naming, hnaming⟩ := Option.isSome_iff_exists.mp hsome
  rw [hnaming] at hfilter
  have hin : naming ∈ (file.namings p).filter fun naming => naming.1.start = blank.start := by
    rw [SourceFile.namings, namings, hfilter]
    exact List.mem_singleton_self naming
  obtain ⟨hin, hstart⟩ := List.mem_filter.mp hin
  exact List.find?_isSome.mpr ⟨naming, hin, hstart⟩

/-- What a directive behind an assignment checks is the name that the selected target has in the
generated text, and that name is an identifier. -/
theorem errorName_eq_nameOf (h : file.OnTokens) (hplaced : placed ∈ file.placements p)
    (hafter : placed.placement = .after assignment error) :
    ∃ target, ErrorTarget.select? p (.visibleAt file assignment.start) assignment = some target ∧
      target ∈ Tree.preorderAll file.tree.children ∧
      errorName (file.namings p) error = nameOf file (file.namings p) target ∧
      Text.IsIdentifier (errorName (file.namings p) error).toList ∧
      errorName (file.namings p) error ≠ "_" := by
  have hof := Placement.of?_of_after h.inOrder hplaced hafter
  obtain ⟨target, hselect, htarget⟩ := Option.map_eq_some_iff.mp hof
  obtain ⟨htargets, hidentifier⟩ := ErrorTarget.mem_of_select? hselect
  obtain ⟨body, hbody, hmem⟩ := List.mem_flatMap.mp
    (Placement.mem_statements_of_after h.inOrder hplaced hafter).2
  have hassignment := (SourceFile.OnTokens.mem_of_mem_statements h.inOrder hbody hmem).1
  have hnode := Tree.mem_preorderAll_of_mem (ErrorTarget.mem_of_mem_targets htargets) _ hassignment
  refine ⟨target, hselect, hnode, ?_⟩
  dsimp only [Scope.visibleAt] at htarget
  split at htarget
  · next hblank =>
    have hname : error.blank? = some target := htarget ▸ rfl
    obtain ⟨naming, hfind⟩ :=
      Option.isSome_iff_exists.mp (isSome_find?_namings hplaced hafter hname)
    have herror : errorName (file.namings p) error = naming.2.errorName := by
      rw [errorName, hname]
      dsimp only
      rw [hfind]
      rfl
    obtain ⟨_, _, _, _, _, hplaceholder⟩ := errorName_of_mem_namings h.inOrder
      (show (naming.1, naming.2) ∈ _ from List.mem_of_find?_eq_some hfind)
    rw [herror]
    refine ⟨by rw [nameOf, hfind]; rfl, ?_⟩
    rw [hplaceholder]
    exact isIdentifier_placeholderName _
  · next hblank =>
    have herror : errorName (file.namings p) error = file.textOf target := by
      rw [errorName, ← htarget]
    -- A blank that begins there would be the target itself.
    have hnone : (file.namings p).find? (fun naming => naming.1.start = target.start) = none := by
      refine List.find?_eq_none.mpr fun naming hnaming hstart => hblank ?_
      obtain ⟨hmem', hword, htext⟩ := isIdentifier_of_mem_namings h hnaming
      have hsame : naming.1.start = target.start := of_decide_eq_true hstart
      have hstop := stop_eq_of_start_eq h hmem' hword hnode hidentifier hsame
      rw [← htext]
      unfold SourceFile.textOf
      rw [hsame, hstop]
    rw [herror]
    refine ⟨by rw [nameOf, hnone]; rfl, ?_, hblank⟩
    obtain ⟨u, hu, hword, hfirst, hlast⟩ := exists_word h hnode hidentifier
    rw [SourceFile.textOf, hfirst, hlast]
    exact Token.isIdentifier_of_word hu hword

private theorem placeholderName_injective {line line' : Nat}
    (h : Guard.placeholderName line = Guard.placeholderName line') : line = line' := by
  have hdigits : Nat.toDigits 10 line = Nat.toDigits 10 line' := by
    have hline : ∀ n : Nat, (toString n).toList = Nat.toDigits 10 n := fun n => Nat.toList_repr
    rw [← String.toList_inj, Guard.placeholderName, Guard.placeholderName, String.toList_append,
      String.toList_append, hline, hline] at h
    exact List.append_cancel_left h
  have hread := Nat.ofDigitChars_toDigits (b := 10) (n := line) (by decide) (by decide)
  rw [hdigits, Nat.ofDigitChars_toDigits (by decide) (by decide)] at hread
  exact hread.symm

/-- All directives behind one assignment check the same variable. -/
theorem errorName_eq (h : file.OnTokens) {placed' : Placed} {error' : ErrorTarget}
    (hplaced : placed ∈ file.placements p) (hplaced' : placed' ∈ file.placements p)
    (hafter : placed.placement = .after assignment error)
    (hafter' : placed'.placement = .after assignment error') :
    errorName (file.namings p) error = errorName (file.namings p) error' := by
  obtain ⟨target, hselect, _, hname, _⟩ := errorName_eq_nameOf h hplaced hafter
  obtain ⟨target', hselect', _, hname', _⟩ := errorName_eq_nameOf h hplaced' hafter'
  obtain rfl := Option.some.inj (hselect.symm.trans hselect')
  rw [hname, hname']

/-! ### All guards on errors -/

open Edit (Shows)
open Reporting (Gives gives_bind gives_pure value? gives_of_value?)

private theorem condition_of_errorCheck {anchor : Anchor} {scope : Scope} {name : String}
    {guard : Guard}
    {before after : List Diagnostic}
      (h : Gives (Guard.errorCheck p anchor scope name) before guard after) :
    guard.condition = name ++ " != nil" := by
  rw [Guard.errorCheck_eq] at h
  obtain ⟨values, mid, _, h⟩ := gives_bind.mp h
  obtain ⟨rfl, _⟩ := gives_pure.mp h
  rfl

/-- The one guard of a directive behind an assignment compares with `nil` an identifier that is no
blank, and that stands in the generated text in the place of a target of the assignment. -/
def ChecksTarget (p : Package) (file : SourceFile) (demands : List Demand)
    (demand : Demand) : Prop :=
  ∃ assignment error guard name target,
    demand.placed.placement = .after assignment error ∧ demand.guards = [guard] ∧
    guard.condition = name ++ " != nil" ∧ Text.IsIdentifier name.toList ∧ name ≠ "_" ∧
    target ∈ ErrorTarget.targets assignment ∧
    Shows file.text (applied file (file.namings p) demands) target.start target.stop name

/-- A directive behind the assignment gives the blank its name. -/
def Renames (p : Package) (file : SourceFile) (assignment blank : Tree) (name : String) : Prop :=
  ∃ error, (blank, error) ∈ file.namings p ∧ error.errorName = name ∧
    ∃ placed ∈ file.placements p, placed.placement = .after assignment error ∧
      error.blank? = some blank

/-- The variables that the guards on errors check are bound. -/
structure ErrorsBound (p : Package) (file : SourceFile) (demands : List Demand) : Prop where
  /-- What a guard checks is a target of its assignment. -/
  bound : ∀ d ∈ demands, d.placed.anchor.directive.keyword = .must → d.guards ≠ [] →
    ChecksTarget p file demands d
  /-- The guards behind one assignment check the same variable. -/
  shared : ∀ d ∈ demands, ∀ d' ∈ demands, ∀ assignment error error',
    d.placed.placement = .after assignment error → d'.placed.placement = .after assignment error' →
      d.guards.map (·.condition) = d'.guards.map (·.condition)
  /-- At most one edit reaches into an identifier among the targets of an assignment. -/
  once : ∀ body ∈ Body.all file.tree, ∀ assignment ∈ body.statements,
    ∀ target ∈ ErrorTarget.targets assignment, target.is .identifier = true →
      ((allEdits file (file.namings p) demands).filter fun e =>
        target.start < e.stop ∧ e.start < target.stop).length ≤ 1
  /-- Every blank that gets a name is a target of an assignment in a body. -/
  renamed : ∀ naming ∈ file.namings p, ∃ body ∈ Body.all file.tree, ∃ assignment ∈ body.statements,
    naming.1 ∈ ErrorTarget.targets assignment ∧
      Renames p file assignment naming.1 naming.2.errorName
  /-- Blanks of one body that get the same name are one blank. -/
  distinct : ∀ body ∈ Body.all file.tree, ∀ assignment ∈ body.statements,
    ∀ assignment' ∈ body.statements, ∀ blank blank' name, Renames p file assignment blank name →
      Renames p file assignment' blank' name → blank = blank'

section

variable {reports : List Diagnostic} (h : file.OnTokens) (hwoven : Woven p file demands reports)
  (hlist : ∀ list, file.importList? = some list →
    ∃ v ∈ Token.readAll file.text, list.stop - 1 = v.start)
include hwoven

/-- A directive behind an assignment has one guard, which checks the name of its error. -/
theorem guard_of_after {d : Demand} (hd : d ∈ demands)
    (hafter : d.placed.placement = .after assignment error) :
    ∃ guard, d.guards = [guard] ∧
      guard.condition = errorName (file.namings p) error ++ " != nil" := by
  have hguards := hwoven.guards d hd
  rw [Demanded, hafter] at hguards
  obtain ⟨guard, before, after, hone, hgives⟩ := hguards
  exact ⟨guard, hone, condition_of_errorCheck hgives⟩

include h hlist

private theorem checksTarget {d : Demand} (hd : d ∈ demands)
    (hkeyword : d.placed.anchor.directive.keyword = .must) (hne : d.guards ≠ []) :
    ChecksTarget p file demands d := by
  have hjustified := hwoven.justified hd
  have hguards := hwoven.guards d hd
  rw [Placement.Justified] at hjustified
  rw [Demanded] at hguards
  cases hplacement : d.placed.placement with
  | before statement =>
    rw [hplacement] at hjustified
    have := hjustified.1
    rw [hkeyword] at this
    simp at this
  | ignored cause =>
    rw [hplacement] at hguards
    exact absurd hguards hne
  | after assignment error =>
    have hplaced : d.placed ∈ file.placements p := hwoven.placed ▸ List.mem_map_of_mem hd
    obtain ⟨guard, hone, hcondition⟩ := guard_of_after hwoven hd hplacement
    obtain ⟨target, hselect, hnode, hname, hidentifier, hblank⟩ :=
      errorName_eq_nameOf h hplaced hplacement
    obtain ⟨htargets, hkind⟩ := ErrorTarget.mem_of_select? hselect
    refine ⟨assignment, error, guard, _, target, hplacement, hone, hcondition, hidentifier, hblank,
      htargets, ?_⟩
    rw [hname]
    exact shows_nameOf h hwoven hlist hnode hkind

private theorem errorsBound : ErrorsBound p file demands where
  bound d hd hkeyword hne := checksTarget h hwoven hlist hd hkeyword hne
  shared d hd d' hd' assignment error error' hafter hafter' := by
    have hplaced : ∀ d ∈ demands, d.placed ∈ file.placements p := fun d hd =>
      hwoven.placed ▸ List.mem_map_of_mem hd
    obtain ⟨guard, hone, hcondition⟩ := guard_of_after hwoven hd hafter
    obtain ⟨guard', hone', hcondition'⟩ := guard_of_after hwoven hd' hafter'
    rw [hone, hone', List.map_singleton, List.map_singleton, hcondition, hcondition',
      errorName_eq h (hplaced d hd) (hplaced d' hd') hafter hafter']
  once body hbody assignment hassignment target htarget hidentifier := by
    have hmem := (SourceFile.OnTokens.mem_of_mem_statements h.inOrder hbody hassignment).1
    have hnode := Tree.mem_preorderAll_of_mem (ErrorTarget.mem_of_mem_targets htarget) _ hmem
    obtain ⟨u, hu, hword, hstart, hstop⟩ := exists_word h hnode hidentifier
    rw [hstart, hstop]
    exact length_reaching_le h hwoven hlist hu hword
  renamed naming hnaming := by
    obtain ⟨placed, hplaced, assignment, hafter, hblank⟩ :=
      exists_of_mem_namings (show (naming.1, naming.2) ∈ _ from hnaming)
    obtain ⟨_, hmem⟩ := Placement.mem_statements_of_after h.inOrder hplaced hafter
    obtain ⟨body, hbody, hstatement⟩ := List.mem_flatMap.mp hmem
    have hselect := (ErrorTarget.of?_blank
      (Placement.of?_of_after h.inOrder hplaced hafter) hblank).1
    exact ⟨body, hbody, assignment, hstatement, (ErrorTarget.mem_of_select? hselect).1, naming.2,
      hnaming, rfl, placed, hplaced, hafter, hblank⟩
  distinct body hbody assignment hmem assignment' hmem' blank blank' name hrenames hrenames' := by
    obtain ⟨error, _, hname, placed, hplaced, hafter, hblank⟩ := hrenames
    obtain ⟨error', _, hname', placed', hplaced', hafter', hblank'⟩ := hrenames'
    have hof := Placement.of?_of_after h.inOrder hplaced hafter
    have hof' := Placement.of?_of_after h.inOrder hplaced' hafter'
    rw [ErrorTarget.errorName_of_blank hof hblank] at hname
    rw [ErrorTarget.errorName_of_blank hof' hblank', ← hname] at hname'
    have hanchor : ∀ {x : Placed}, x ∈ file.placements p → x.anchor ∈ file.anchors := fun hx =>
      (Placement.map_anchor_placements h.inOrder).subset (List.mem_map_of_mem hx)
    have hassigns : ∀ {x : Placed} {a : Tree} {e : ErrorTarget}, x ∈ file.placements p →
        x.placement = .after a e → Placement.Assigns file x.anchor a := by
      intro x a e hx hplacement
      have hjustified := Placement.justified_placements h.inOrder x hx
      rw [Placement.Justified, hplacement] at hjustified
      exact hjustified.2
    obtain rfl := Placement.eq_of_line_eq h hbody hmem hmem' (hanchor hplaced) (hanchor hplaced')
      (hassigns hplaced hafter) (hassigns hplaced' hafter') (placeholderName_injective hname').symm
    have hselect := (ErrorTarget.of?_blank hof hblank).1
    exact Option.some.inj (hselect.symm.trans (ErrorTarget.of?_blank hof' hblank').1)

end

/-- Every guard on an error in a valid file checks a variable that its assignment binds. -/
theorem errorsBound_of_inject {path text : String} {injection : Injection}
    {before after : List Diagnostic} (hvalid : (SourceFile.read path text).hasErrors = false)
    (h : Gives ((SourceFile.read path text).inject? p) before (some injection) after) :
    ∃ demands reports, injection = ofDemands (SourceFile.read path text)
        ((SourceFile.read path text).namings p) demands ∧
      Woven p (SourceFile.read path text) demands reports ∧
      injection.generated = Edit.splice (SourceFile.read path text).text 0
        (applied (SourceFile.read path text) ((SourceFile.read path text).namings p) demands) ∧
      ErrorsBound p (SourceFile.read path text) demands := by
  rw [SourceFile.read_eq_parse hvalid] at h ⊢
  obtain ⟨demands, reports, rfl, _, hwoven⟩ := exists_woven h
  refine ⟨demands, reports, rfl, hwoven, (Edit.splice_kept _ _ _).symm,
    errorsBound (SourceFile.onTokens_parse path text) hwoven fun list hlist => ?_⟩
  obtain ⟨v, hv, _, hclose⟩ := SourceFile.closing_importList hlist
  exact ⟨v, hv, hclose⟩

/-- An assignment with directives before and behind it, and one whose error has a name. -/
def twiceChecked : SourceFile :=
  .read "/f.go" "package p\n\nfunc g() (int, error)\n\nfunc f() \x7b\n\t// @must\n\t_, _ = g() // @must
\tn, err := g() // @must\n\tprintln(n, err)\n\x7d\n"

/-- The guards before and behind an assignment find the errors that they check bound. -/
theorem errorsBound_twiceChecked : ∃ injection after,
    Gives (twiceChecked.inject? (alone twiceChecked)) [] (some injection) after ∧
      ∃ demands reports,
        injection = ofDemands twiceChecked (twiceChecked.namings (alone twiceChecked)) demands ∧
        Woven (alone twiceChecked) twiceChecked demands reports ∧
        injection.generated = Edit.splice twiceChecked.text 0
          (applied twiceChecked (twiceChecked.namings (alone twiceChecked)) demands) ∧
        ErrorsBound (alone twiceChecked) twiceChecked demands := by
  have hvalid : twiceChecked.hasErrors = false := by decide +kernel
  have hvalue : (value? (twiceChecked.inject? (alone twiceChecked)) []).join.isSome = true := by
    decide +kernel
  obtain ⟨injection, hinjection⟩ := Option.isSome_iff_exists.mp hvalue
  obtain ⟨after, hgives⟩ := gives_of_value? (Option.join_eq_some_iff.mp hinjection)
  exact ⟨injection, after, hgives, errorsBound_of_inject hvalid hgives⟩

/-- An assignment that misses the name of its error. -/
def nameless : String :=
  "package p\n\nfunc g() (int, error) \x7b\n\treturn 0, nil\n\x7d\n
func f() \x7b\n\tx, := g() // @must\n\tprintln(x)\n\x7d\n"

private theorem nameless_conditions : (SourceFile.read "/f.go" nameless).anchors.isEmpty = false ∧
    (match ((SourceFile.read "/f.go" nameless).demands
      (alone (.read "/f.go" nameless))).run.run [] with
      | (.ok [d], []) => d.placed.anchor.directive.keyword == .must &&
        d.guards.map (·.condition) == [" != nil"]
      | _ => false) = true := by
  decide +kernel

/-- In a file that is recovered with an empty name, the guard may check no name at all. -/
theorem nameless_unbound :
    ¬∀ p path text injection demands before reports,
      Gives ((SourceFile.read path text).inject? p) before (some injection) (before ++ reports) →
      Gives ((SourceFile.read path text).demands p) before demands (before ++ reports) →
      ErrorsBound p (.read path text) demands := by
  intro h
  obtain ⟨hanchors, hrun⟩ := nameless_conditions
  generalize hp : alone (.read "/f.go" nameless) = p at hrun
  have hnameless := h p "/f.go" nameless
  generalize SourceFile.read "/f.go" nameless = file at hanchors hrun hnameless
  split at hrun
  · next d hdemands =>
    simp only [Bool.and_eq_true, beq_iff_eq] at hrun
    have hne : file.anchors ≠ [] := fun hnil => by simp [hnil] at hanchors
    have hinject := gives_inject?.mpr ⟨hne, [d], hdemands, rfl⟩
    have hbound := (hnameless _ [d] [] [] hinject hdemands).bound d (List.mem_singleton_self d)
      hrun.1 (fun hnil => by simp [hnil] at hrun)
    obtain ⟨_, _, guard, name, _, _, hguards, hcondition, ⟨first, rest, hname, _⟩, _⟩ := hbound
    rw [hguards, List.map_singleton, hcondition, List.singleton_inj] at hrun
    have hchars := congrArg String.toList hrun.2
    rw [String.toList_append, hname] at hchars
    exact absurd (congrArg List.length hchars) (by simp)
  · cases hrun

end Injection

end GoContracts

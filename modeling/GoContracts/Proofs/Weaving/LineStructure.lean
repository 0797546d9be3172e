import GoContracts.Proofs.Syntax.Grammar.ImportLists
import GoContracts.Proofs.Weaving.LineEdits

/-!
# The line structure of a weaving

Where every edit keeps the lines apart, the generated text consists of lines of the reference and of
lines that edits put in. Of the reference all lines are there but those of the directives that have
their lines to themselves.
-/

namespace GoContracts

open Syntax (Tree Token Seated Kind)
open Text (CharAt Boundary Between byteLength)
open Edit (LineWise)

namespace Injection

variable {p : Package} {file : SourceFile} {needed : List String} {demands : List Demand}
  {reports : List Diagnostic} {e : Edit}

/-! ### Imports -/

/-- What stands at the end of a node that is no clause is no newline. -/
theorem exists_lineEnd_of_seated {t : Tree} (hend : file.text.toList.getLast? = some '\n')
    (hseated : Seated (Token.readAll file.text) t) (hscope : t.kind?.any Kind.isScope = false) :
    ∃ a b, file.text.toList = a ++ '\n' :: b ∧ byteLength a = Text.lineEnd file.text t.stop ∧
      Weaves.beginsBehind true a = false := by
  obtain ⟨v, hv, hstop, hsolid | ⟨_, hclause⟩⟩ := hseated.stop
  · obtain ⟨last, c, hc, hlast, _, hblank⟩ := Token.charAt_last hv hsolid
    refine Text.exists_lineEnd hend hc ?_ (hlast.trans hstop.symm)
    rintro rfl
    exact absurd hblank (by decide)
  · rw [hscope] at hclause
    exact absurd hclause Bool.false_ne_true

/-- The declarations of a file that are no clauses end lines. -/
theorem exists_lineEnd_of_mem (h : file.OnTokens) (hend : file.text.toList.getLast? = some '\n')
    {t : Tree} {k : Kind} (hmem : t ∈ file.tree.namedChildren) (hkind : t.is k = true)
    (hk : k.isScope = false) (hcomment : k ≠ .comment) :
    ∃ a b, file.text.toList = a ++ '\n' :: b ∧ byteLength a = Text.lineEnd file.text t.stop ∧
      Weaves.beginsBehind true a = false := by
  have hlabel : t.label = .node k := of_decide_eq_true hkind
  have hnode : t ∈ Tree.preorderAll file.tree.children :=
    Tree.mem_preorderAll.mpr ⟨t, List.mem_of_mem_filter hmem, Tree.mem_preorder_self t⟩
  refine exists_lineEnd_of_seated hend (h.seated t hnode ?_) ?_
  · simpa [Tree.isComment, Tree.is, hlabel] using hcomment
  · simpa [Tree.kind?, hlabel] using hk

private theorem exists_importLines {paths : List String} (hne : paths ≠ []) :
    ∃ g, (String.join (paths.map SourceFile.importLine)).toList = g ++ ['\n'] ∧
      g.head? ≠ some '\n' := by
  have hlines : ∀ path : String,
      (SourceFile.importLine path).toList = '\t' :: '"' :: path.toList ++ ['"', '\n'] :=
        fun path => by
    simp [SourceFile.importLine]
  rw [String.toList_join]
  cases paths with
  | nil => exact absurd rfl hne
  | cons path paths =>
    induction paths generalizing path with
    | nil => exact ⟨'\t' :: '"' :: path.toList ++ ['"'], by simp [hlines], by simp⟩
    | cons next paths ih =>
      obtain ⟨g, hg, _⟩ := ih next (List.cons_ne_nil _ _)
      refine ⟨(SourceFile.importLine path).toList ++ g, ?_, by simp [hlines]⟩
      rw [List.append_assoc, ← hg]
      simp

/-- Imports go on lines of their own, if the list that they go into ends on a line of its own. -/
theorem lineWise_addImports (h : file.OnTokens) (hend : file.text.toList.getLast? = some '\n')
    (hpackage : file.packageName?.isSome = true)
    (hlist : ∀ list, file.importList? = some list → Boundary file.text (list.stop - 1) ∧
      Text.startsLine file.text (list.stop - 1) = true)
    {paths : List String} (hne : paths ≠ []) : LineWise file.text (file.addImports paths) := by
  unfold SourceFile.addImports
  split
  · next list hsome =>
    obtain ⟨hboundary, hstarts⟩ := hlist list hsome
    obtain ⟨a, b, hs, ha, hbegins⟩ := Text.exists_lineStart hboundary
    obtain ⟨g, hg, hfirst⟩ := exists_importLines hne
    rw [SourceFile.extendImportList, if_pos hstarts]
    exact .before hs ha.symm rfl rfl hg hfirst hbegins
  · next last _ hlast =>
    obtain ⟨hmem, hkind⟩ := List.mem_filter.mp (List.mem_of_getLast? hlast)
    obtain ⟨a, b, hs, ha, hbegins⟩ := exists_lineEnd_of_mem h hend hmem hkind rfl (by decide)
    obtain ⟨path, paths, rfl⟩ := List.exists_cons_of_ne_nil hne
    have htext : String.join ((path :: paths).map fun path => "\n" ++
      SourceFile.importClause path) =
        "\n" ++ (SourceFile.importClause path ++
          String.join (paths.map fun path => "\n" ++ SourceFile.importClause path)) := by
      rw [List.map_cons, String.join_cons, String.append_assoc]
    rw [htext]
    exact .behind hs ha.symm rfl rfl String.toList_append hbegins
  · obtain ⟨clause, hclause, _⟩ := Option.bind_eq_some_iff.mp
      (Option.some_get hpackage).symm
    have hkind := List.find?_some (p := fun t : Tree => t.is .packageClause) hclause
    obtain ⟨a, b, hs, ha, hbegins⟩ := exists_lineEnd_of_mem h hend
      (List.mem_of_find?_eq_some hclause) hkind rfl (by decide)
    refine .behind hs (ha.trans ?_).symm rfl rfl String.toList_append hbegins
    rw [SourceFile.afterPackageClause, hclause, Option.map_some, Option.getD_some]
    rfl

/-! ### All edits -/

/-- The packages that the guards of the demands use. -/
def imported (demands : List Demand) : List String :=
  demands.flatMap fun demand => demand.guards.flatMap Guard.imports

/-- Each edit removes a directive, writes code or adds imports. -/
theorem mem_allEdits {namings : List (Tree × ErrorTarget)} :
    e ∈ allEdits file namings demands ↔ (∃ anchor ∈ file.anchors, strip file anchor = e) ∨
      e ∈ written file namings demands ∨ file.importEdit? (imported demands) = some e := by
  rw [allEdits, edits, written, ← List.mem_map (f := strip file), ← Option.mem_toList]
  simp only [List.mem_append, imported]
  tauto

/-- Whether guards go before statements that begin their lines and behind assignments that only a
remark follows, and imports into a list that ends on a line of its own. -/
structure KeepsLines (p : Package) (file : SourceFile) (demands : List Demand) : Prop where
  before : ∀ placed ∈ file.placements p, ∀ statement, placed.placement = .before statement →
    Text.startsLine file.text statement.start = true
  behind : ∀ placed ∈ file.placements p, ∀ assignment error,
    placed.placement = .after assignment error →
      isRemark (Text.slice file.text assignment.stop
        (Text.lineEnd file.text assignment.stop)) = true
  imports : (file.importEdit? (imported demands)).isSome = true →
    ∀ list, file.importList? = some list → Text.startsLine file.text (list.stop - 1) = true

/-- Edits in place are the removals of directives that share their lines, and the names of
blanks. -/
theorem inPlace_rename {naming : Tree × ErrorTarget} (he : e ∈ rename naming) :
    e.inPlace = true := by
  rw [rename] at he
  rcases List.mem_cons.mp he with rfl | he
  · rfl
  · obtain ⟨operator, _, rfl⟩ := Option.map_eq_some_iff.mp (Option.mem_toList.mp he)
    rfl

/-- No imports are added in place. -/
theorem inPlace_importEdit (he : file.importEdit? needed = some e) : e.inPlace = false := by
  unfold SourceFile.importEdit? at he
  split at he
  · simp at he
  · obtain rfl := Option.some.inj he
    unfold SourceFile.addImports
    split
    · unfold SourceFile.extendImportList
      dsimp only
      split <;> rfl
    · rfl
    · rfl

/-- A directive is removed in place unless it stands alone on its lines. -/
theorem inPlace_strip (file : SourceFile) (anchor : Anchor) :
    (strip file anchor).inPlace = !standsAlone file anchor := by
  unfold strip
  cases standsAlone file anchor <;> rfl

section

variable (h : file.OnTokens) (hwoven : Woven p file demands reports)
  (hnull : '\x00' ∉ file.text.toList)
include h hnull

/-- The removal of a directive that has its lines to itself does not reach into other removals. -/
theorem apart_alone {a b : Anchor} (ha : a ∈ file.anchors) (hb : b ∈ file.anchors) (hne : a ≠ b)
    (halone : standsAlone file a = true) : Edit.Apart (strip file a) (strip file b) := by
  obtain ⟨u, hu⟩ := exists_holds h ha
  obtain ⟨w, hw⟩ := exists_holds h hb
  rw [standsAlone, Bool.and_eq_true, hu.start, hu.stop] at halone
  by_contra hoverlap
  rcases apart_tokens h ha hb hne hu hw with hle | hle
  · have hcrowds := crowds_of_not_apart hnull hu hw hle hoverlap
    have hends := (inline_of_crowds hnull hu hw hle hcrowds).2
    rw [halone.2] at hends
    exact Bool.false_ne_true hends.symm
  · have hcrowds := crowds_of_not_apart hnull hw hu hle fun hapart => hoverlap hapart.symm
    have hinline := (inline_of_crowds hnull hw hu hle hcrowds).1
    rw [hu.inline, halone.1] at hinline
    exact Bool.false_ne_true hinline

include hwoven

/-- An edit of guards or names that is not in place replaces nothing. -/
theorem empty_of_written (he : e ∈ written file (file.namings p) demands)
    (hplace : e.inPlace = false) : e.stop = e.start := by
  have hinsertion : ∀ insertion ∈ insertions demands,
      (insertion.edit file).stop = (insertion.edit file).start := fun insertion hmem =>
    (standsAt_insertion h hwoven hnull hmem).empty
  rw [written, guardsBefore_eq, guardsAfter_eq, List.mem_append, List.mem_append] at he
  rcases he with (he | he) | he
  · obtain ⟨insertion, hmem, rfl⟩ := List.mem_map.mp he
    exact hinsertion insertion (List.mem_append_left _ hmem)
  · obtain ⟨naming, _, he⟩ := List.mem_flatMap.mp he
    rw [inPlace_rename he] at hplace
    exact absurd hplace.symm Bool.false_ne_true
  · obtain ⟨insertion, hmem, rfl⟩ := List.mem_map.mp he
    exact hinsertion insertion (List.mem_append_right _ hmem)

/-- In the order in which they are applied, an edit of whole lines ends before the edits in place
behind it. -/
theorem pairwise_ordered :
    ((allEdits file (file.namings p) demands).mergeSort Edit.ordered).Pairwise fun a b =>
      a.inPlace = false → b.inPlace = true → a.stop ≤ b.start := by
  have hsorted := List.pairwise_mergeSort Edit.ordered_trans Edit.ordered_total
    (allEdits file (file.namings p) demands)
  refine hsorted.imp_of_mem fun {a b} ha hb hordered hlines hplace => ?_
  rw [Edit.ordered_iff] at hordered
  rw [List.mem_mergeSort, mem_allEdits] at ha hb
  rcases ha with ⟨x, hx, rfl⟩ | ha | ha
  · rw [inPlace_strip, Bool.not_eq_false'] at hlines
    obtain ⟨u, hu⟩ := exists_holds h hx
    have hlt := hu.removes.start_lt
    have hapart : Edit.Apart (strip file x) b := by
      rcases hb with ⟨y, hy, rfl⟩ | hb | hb
      · refine apart_alone h hnull hx hy ?_ hlines
        rintro rfl
        rw [inPlace_strip, hlines] at hplace
        exact Bool.false_ne_true hplace
      · exact (clear_written h hwoven hnull hb).apart x hx
      · rw [inPlace_importEdit hb] at hplace
        exact absurd hplace Bool.false_ne_true
    have hle := le_of_mem_allEdits h hwoven hnull (mem_allEdits.mpr hb)
    rw [Edit.Apart] at hapart
    omega
  · have := empty_of_written h hwoven hnull ha hlines
    omega
  · have := importEdit?_empty ha
    omega

private theorem lineWise_written (hend : file.text.toList.getLast? = some '\n')
    (hkeeps : KeepsLines p file demands) (he : e ∈ written file (file.namings p) demands) :
    LineWise file.text e ∧ e.dropped file.text = [] := by
  rw [written, guardsBefore_eq, guardsAfter_eq, List.mem_append, List.mem_append] at he
  rcases he with (he | he) | he
  · obtain ⟨insertion, hmem, rfl⟩ := List.mem_map.mp he
    have hempty := (standsAt_insertion h hwoven hnull (List.mem_append_left _ hmem)).empty
    refine ⟨?_, LineWise.dropped_of_eq hempty⟩
    obtain ⟨hbehind, body, hbody, hstatement⟩ := statement_of_before hwoven hmem
    rw [Insertion.edit_of_before hbehind]
    obtain ⟨v, hv, _, hstart⟩ := (h.statement hbody hstatement).start
    refine lineWise_insertBefore (hstart ▸ (Token.boundaries hv).1) ?_
    obtain ⟨statement, hfirst, rfl⟩ := List.mem_map.mp hmem
    obtain ⟨d, hd, hafter⟩ := List.mem_filterMap.mp (mem_of_mem_eraseDupsBy hfirst)
    unfold statementAfter? at hafter
    split at hafter
    · next hplacement =>
      obtain rfl := Option.some.inj hafter
      exact hkeeps.before _ (hwoven.placed ▸ List.mem_map_of_mem hd) _ hplacement
    · simp at hafter
  · obtain ⟨naming, _, hmem⟩ := List.mem_flatMap.mp he
    exact ⟨lineWise_rename h he, LineWise.dropped_of_inPlace (inPlace_rename hmem)⟩
  · obtain ⟨insertion, hmem, rfl⟩ := List.mem_map.mp he
    have hempty := (standsAt_insertion h hwoven hnull (List.mem_append_right _ hmem)).empty
    refine ⟨?_, LineWise.dropped_of_eq hempty⟩
    obtain ⟨hbehind, hassignment, ⟨body, hbody, hstatement⟩, _⟩ := statement_of_behind hwoven hmem
    rw [Insertion.edit_of_behind hbehind]
    refine lineWise_insertAfter hend (h.statement hbody hstatement) hassignment ?_
    obtain ⟨d, hd, hinsertion⟩ := List.mem_filterMap.mp hmem
    unfold insertionBehind? at hinsertion
    split at hinsertion
    · next hplacement =>
      obtain rfl := Option.some.inj hinsertion
      exact hkeeps.behind _ (hwoven.placed ▸ List.mem_map_of_mem hd) _ _ hplacement
    · simp at hinsertion

/-- The edits that are applied keep the lines apart. -/
theorem lineWise_applied (hend : file.text.toList.getLast? = some '\n')
    (hpackage : file.packageName?.isSome = true)
    (hclose : ∀ list, file.importList? = some list → Boundary file.text (list.stop - 1))
    (hkeeps : KeepsLines p file demands) (he : e ∈ allEdits file (file.namings p) demands) :
    LineWise file.text e := by
  rcases mem_allEdits.mp he with ⟨anchor, hanchor, rfl⟩ | he | he
  · exact (lineWise_strip h hnull hend hanchor).1
  · exact (lineWise_written h hwoven hnull hend hkeeps he).1
  · have hneeded : (file.importEdit? (imported demands)).isSome = true := by rw [he]; rfl
    have hlist := fun list hlist =>
      And.intro (hclose list hlist) (hkeeps.imports hneeded list hlist)
    unfold SourceFile.importEdit? at he
    split at he
    · simp at he
    · next hmissing =>
      obtain rfl := Option.some.inj he
      exact lineWise_addImports h hend hpackage hlist hmissing

/-- The lines that edits leave out are those of the directives that have their lines to themselves:
each of these is removed. -/
theorem mem_dropped_iff (hend : file.text.toList.getLast? = some '\n')
    (hkeeps : KeepsLines p file demands) (row : Nat) :
    row ∈ (applied file (file.namings p) demands).flatMap (Edit.dropped file.text) ↔
      row ∈ file.anchors.flatMap (strippedLines file) := by
  simp only [List.mem_flatMap]
  constructor
  · rintro ⟨e, he, hrow⟩
    have hmem := (Edit.kept_sublist _ _ _).subset he
    rw [List.mem_mergeSort, mem_allEdits] at hmem
    rcases hmem with ⟨anchor, hanchor, rfl⟩ | hmem | hmem
    · rw [(lineWise_strip h hnull hend hanchor).2] at hrow
      exact ⟨anchor, hanchor, hrow⟩
    · rw [(lineWise_written h hwoven hnull hend hkeeps hmem).2] at hrow
      simp at hrow
    · rw [LineWise.dropped_of_eq (importEdit?_empty hmem).symm] at hrow
      simp at hrow
  · rintro ⟨anchor, hanchor, hrow⟩
    refine ⟨_, strip_mem_applied h hwoven hnull hanchor fun other hother hcrowds => ?_,
      (lineWise_strip h hnull hend hanchor).2.symm ▸ hrow⟩
    -- A directive that is crowded shares its lines.
    unfold strippedLines at hrow
    split at hrow
    · next halone =>
      obtain ⟨u, hu⟩ := exists_holds h hother
      obtain ⟨w, hw⟩ := exists_holds h hanchor
      have hle : u.stop ≤ w.start := by
        have := hcrowds.2.1
        rw [hu.stop, hw.start] at this
        omega
      have hinline := (inline_of_crowds hnull hu hw hle hcrowds).1
      rw [standsAlone, Bool.and_eq_true, hw.start] at halone
      rw [hw.inline, halone.1] at hinline
      exact absurd hinline Bool.false_ne_true
    · simp at hrow

private theorem sideBySide_applied :
    Edit.SideBySide file.text 0 (applied file (file.namings p) demands) :=
  Edit.sideBySide_kept fun _ he => le_of_mem_allEdits h hwoven hnull (List.mem_mergeSort.mp he)

/-- The lines of the generated text are lines of the reference and lines of insertions. -/
theorem interleaves_applied (hend : file.text.toList.getLast? = some '\n')
    (hpackage : file.packageName?.isSome = true)
    (hclose : ∀ list, file.importList? = some list → Boundary file.text (list.stop - 1))
    (hkeeps : KeepsLines p file demands) :
    Interleaves (linesBut (file.anchors.flatMap (strippedLines file)) 0
        (Text.lines (Edit.applyInPlace file.text (allEdits file (file.namings p) demands))))
      ((applied file (file.namings p) demands).flatMap Edit.added)
      (Text.lines (Edit.applyAll file.text (allEdits file (file.namings p) demands))) := by
  have hlines : Edit.ByLines file.text true [] (applied file (file.namings p) demands) :=
    Edit.byLines rfl (sideBySide_applied h hwoven hnull) (fun e he =>
      lineWise_applied h hwoven hnull hend hpackage hclose hkeeps
        (List.mem_mergeSort.mp ((Edit.kept_sublist _ _ _).subset he))) fun _ => rfl
  have hinterleaves := (hlines.interleaves List.not_mem_nil fun _ => rfl).map String.ofList
  rw [List.nil_append, List.nil_append, ← linesBut_map, List.map_map,
    linesBut_congr fun row _ => mem_dropped_iff h hwoven hnull hend hkeeps row] at hinterleaves
  rw [Edit.applyInPlace_eq (fun e he => le_of_mem_allEdits h hwoven hnull he)
    (pairwise_ordered h hwoven hnull), Edit.applyAll,
    ← Edit.splice_kept _ _ ((allEdits file (file.namings p) demands).mergeSort Edit.ordered)]
  have hid : String.ofList ∘ String.toList = id := funext fun _ => String.ofList_toList
  rw [hid, List.map_id, ← Text.splitAt_eq, ← Text.splitAt_eq] at hinterleaves
  exact hinterleaves

end

open Reporting (Gives value? gives_of_value?)

/-- The generated text consists of the lines of the reference that are not stripped, in their order,
and of the lines that edits put in between them. -/
def LineStructure (p : Package) (file : SourceFile) (injection : Injection) : Prop :=
  ∃ demands reports, injection = ofDemands file (file.namings p) demands ∧
    Woven p file demands reports ∧
    Interleaves (linesBut injection.stripped 0 injection.reference)
      ((applied file (file.namings p) demands).flatMap Edit.added) (Text.lines injection.generated)

/-- Where guards and imports keep the lines apart, in a text that ends with a newline and holds no
null character, the generated text has the lines of the reference and the inserted ones. -/
theorem lineStructure_of_inject {path text : String} {injection : Injection}
    {before after : List Diagnostic} (hnull : '\x00' ∉ text.toList)
    (hend : text.toList.getLast? = some '\n')
    (hpackage : (SourceFile.parse path text).packageName?.isSome = true)
    (hkeeps : ∀ demands, Gives ((SourceFile.parse path text).demands p) before demands after →
      KeepsLines p (SourceFile.parse path text) demands)
    (h : Gives ((SourceFile.parse path text).inject? p) before (some injection) after) :
    LineStructure p (SourceFile.parse path text) injection := by
  obtain ⟨_, demands, hdemands, rfl⟩ := gives_inject?.mp h
  obtain ⟨reports, _, hwoven⟩ := woven_of_demands hdemands
  have htokens := SourceFile.onTokens_parse path text
  exact ⟨demands, reports, rfl, hwoven, interleaves_applied htokens hwoven hnull hend hpackage
    (fun list => SourceFile.boundary_importList) (hkeeps demands hdemands)⟩

/-- A file with a directive on a line of its own, one that shares a line, and a list of imports. -/
def sharedLines : String :=
  "package p\n\nimport (\n\t\"fmt\"\n)\n\nfunc g() error\n\nfunc f(a int) \x7b\n" ++
    "\t// @require -log a > 0\n\tfmt.Println(a)\n\t_ = g() // @must\n\x7d\n"

/-- Whether guards that are placed so keep the lines apart. -/
def onWholeLines (file : SourceFile) : Placement → Bool
  | .before statement => Text.startsLine file.text statement.start
  | .after assignment _ =>
    isRemark (Text.slice file.text assignment.stop (Text.lineEnd file.text assignment.stop))
  | .ignored _ => true

/-- A file with a directive on a line of its own and one that shares a line. -/
theorem lineStructure_sharedLines : '\x00' ∉ sharedLines.toList ∧
    sharedLines.toList.getLast? = some '\n' ∧
    (SourceFile.parse "/f.go" sharedLines).packageName?.isSome = true ∧
    (∀ demands, KeepsLines (alone (.parse "/f.go" sharedLines)) (.parse "/f.go" sharedLines)
      demands) ∧
    ∃ injection after,
      Gives ((SourceFile.parse "/f.go" sharedLines).inject? (alone (.parse "/f.go" sharedLines))) []
        (some injection) after ∧
      LineStructure (alone (.parse "/f.go" sharedLines)) (.parse "/f.go" sharedLines)
        injection := by
  have hvalue : (value? ((SourceFile.parse "/f.go" sharedLines).inject?
      (alone (.parse "/f.go" sharedLines))) []).join.isSome = true := by
    decide +kernel
  have htext : '\x00' ∉ sharedLines.toList ∧ sharedLines.toList.getLast? = some '\n' ∧
      (SourceFile.parse "/f.go" sharedLines).packageName?.isSome = true := by
    decide +kernel
  have hplaced : ∀ placed ∈ (SourceFile.parse "/f.go" sharedLines).placements
      (alone (.parse "/f.go" sharedLines)),
      onWholeLines (.parse "/f.go" sharedLines) placed.placement = true := by
    decide +kernel
  have hlist : ∀ list ∈ (SourceFile.parse "/f.go" sharedLines).importList?,
      Text.startsLine (SourceFile.parse "/f.go" sharedLines).text (list.stop - 1) = true := by
    decide +kernel
  have hkeeps : ∀ demands, KeepsLines (alone (.parse "/f.go" sharedLines))
      (.parse "/f.go" sharedLines) demands := fun demands =>
    { before := fun placed hmem statement hbefore => by
        have hstarts := hplaced placed hmem
        rw [hbefore] at hstarts
        exact hstarts
      behind := fun placed hmem assignment error hafter => by
        have hremark := hplaced placed hmem
        rw [hafter] at hremark
        exact hremark
      imports := fun _ list hsome => hlist list hsome }
  obtain ⟨hnull, hend, hpackage⟩ := htext
  obtain ⟨injection, hinjection⟩ := Option.isSome_iff_exists.mp hvalue
  obtain ⟨after, hgives⟩ := gives_of_value? (Option.join_eq_some_iff.mp hinjection)
  exact ⟨hnull, hend, hpackage, hkeeps, injection, after, hgives,
    lineStructure_of_inject hnull hend hpackage (fun demands _ => hkeeps demands) hgives⟩

end Injection

end GoContracts

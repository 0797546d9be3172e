import GoContracts.Proofs.Weaving.LineStructure

/-!
# Identifiers in the generated text

No edit reaches into an identifier but the one that renames it. So every identifier of a file stands
in the generated text in its place, between what the edits before it make of the text up to it and
what those behind it make of the rest, under its own name or a new one.
-/

namespace GoContracts

open Syntax (Tree Token Seated Kind)
open Text (CharAt Boundary Between)

namespace Edit

variable {s name : String} {edits earlier later : List Edit} {e : Edit} {start stop cursor : Nat}

/-- Whether an edit does not reach into a range. -/
def Misses (e : Edit) (start stop : Nat) : Prop := e.stop ≤ start ∨ stop ≤ e.start

/-- In the text that the edits make, a name stands in the place of a range. At most one of the edits
is made in the range, and puts the name there. -/
def Shows (s : String) (edits : List Edit) (start stop : Nat) (name : String) : Prop :=
  ∃ earlier own? later, edits = earlier ++ Option.toList own? ++ later ∧
    (∀ e ∈ earlier, e.stop ≤ start) ∧
    (∀ e ∈ own?, e.start = start ∧ e.stop = stop ∧ e.text = name) ∧
    (∀ e ∈ later, stop ≤ e.start) ∧
    splice s 0 edits = spliceTo s start 0 earlier ++ name ++ splice s stop later

/-- Between edits that end before a range and edits that begin behind it the range stays. -/
theorem splice_between (hside : SideBySide s cursor (earlier ++ later))
    (hfits : ∀ e ∈ earlier ++ later, Fits s e) (hcursor : Boundary s cursor)
    (hstart : Boundary s start) (hstop : Boundary s stop) (hle : cursor ≤ start)
    (hle' : start ≤ stop) (hearlier : ∀ e ∈ earlier, e.stop ≤ start)
    (hlater : ∀ e ∈ later, stop ≤ e.start) :
    splice s cursor (earlier ++ later) =
      spliceTo s start cursor earlier ++ Text.slice s start stop ++ splice s stop later := by
  induction earlier generalizing cursor with
  | nil =>
    rw [List.nil_append] at hside hfits ⊢
    have hbehind := hside.mono hlater
    have hfirst := hside.mono fun e he => Nat.le_trans hle' (hlater e he)
    rw [splice_of_le hfirst hfits hcursor hstart hle, splice_of_le hbehind hfits hstart hstop hle',
      spliceTo, String.append_assoc]
  | cons e earlier ih =>
    obtain ⟨hstopLe, hrest⟩ := List.forall_mem_cons.mp hearlier
    obtain ⟨hefits, hmore⟩ := List.forall_mem_cons.mp hfits
    obtain ⟨hfirst, hlt, hsize⟩ := hside.bounds e (List.mem_cons_self ..)
    have hkeep : ∀ limit, e.stop ≤ limit →
        ¬(decide (e.start < cursor) || decide (limit < e.stop)) = true := by
      intro limit hlimit
      simp
      omega
    rw [List.cons_append, splice, spliceTo, if_neg (hkeep _ hsize), if_neg (hkeep _ hstopLe),
      ih hside.tail hmore hefits.stop hstopLe hrest]
    simp only [String.append_assoc]

/-- Edits side by side that miss a range end before it or begin behind it. -/
theorem exists_split (hside : SideBySide s cursor edits) (h : ∀ e ∈ edits, e.Misses start stop) :
    ∃ earlier later, edits = earlier ++ later ∧ (∀ e ∈ earlier, e.stop ≤ start) ∧
      ∀ e ∈ later, stop ≤ e.start := by
  induction edits generalizing cursor with
  | nil => exact ⟨[], [], rfl, by simp, by simp⟩
  | cons e edits ih =>
    obtain ⟨hmisses, hrest⟩ := List.forall_mem_cons.mp h
    rcases hmisses with hstop | hstart
    · obtain ⟨earlier, later, rfl, hearlier, hlater⟩ := ih hside.tail hrest
      exact ⟨e :: earlier, later, rfl, List.forall_mem_cons.mpr ⟨hstop, hearlier⟩, hlater⟩
    · refine ⟨[], e :: edits, rfl, by simp, List.forall_mem_cons.mpr ⟨hstart, fun f hf => ?_⟩⟩
      have hle := (hside.bounds e (List.mem_cons_self ..)).2.1
      have := (List.pairwise_cons.mp hside.pairwise).1 f hf
      omega

/-- A range that no edit reaches into keeps its text. -/
theorem shows_of_misses (hside : SideBySide s 0 edits) (hfits : ∀ e ∈ edits, Fits s e)
    (hstart : Boundary s start) (hstop : Boundary s stop) (hle : start ≤ stop)
    (h : ∀ e ∈ edits, e.Misses start stop) :
      Shows s edits start stop (Text.slice s start stop) := by
  obtain ⟨earlier, later, rfl, hearlier, hlater⟩ := exists_split hside h
  exact ⟨earlier, none, later, by simp, hearlier, by simp, hlater,
    splice_between hside hfits (Text.boundary_zero s) hstart hstop (Nat.zero_le _) hle hearlier
      hlater⟩

/-- The range of an edit takes its text. -/
theorem shows_of_mem (hside : SideBySide s 0 edits) (he : e ∈ edits) :
    Shows s edits e.start e.stop e.text := by
  obtain ⟨_, hle, hsize⟩ := hside.bounds e he
  obtain ⟨earlier, later, rfl⟩ := List.append_of_mem he
  have hpairs := List.pairwise_append.mp hside.pairwise
  have hearlier : ∀ a ∈ earlier, a.stop ≤ e.start := fun a ha =>
    hpairs.2.2 a ha e (List.mem_cons_self ..)
  exact ⟨earlier, some e, later, by simp, hearlier, by simp,
    (List.pairwise_cons.mp hpairs.2.1).1, splice_append later (Nat.zero_le _) hle hsize hearlier⟩

end Edit

/-! ### Where edits begin and end -/

namespace Syntax.Token

variable {s : String} {u : Token} {pos : Nat} {c : Char}

/-- All characters of a word are parts of an identifier. -/
theorem between_of_word (hu : u ∈ readAll s) (hword : u.lexeme = .word) :
    Between s u.start u.stop (Text.isIdentifierPart · = true) := by
  obtain ⟨hstart, hstop⟩ := boundaries hu
  have hlt := (ordered_readAll s).1 u hu
  rw [← Text.forall_mem_slice hstart hstop (Nat.le_of_lt hlt)]
  obtain ⟨first, rest, hslice, hfirst, hrest⟩ := isIdentifier_of_word hu hword
  rw [hslice]
  exact List.forall_mem_cons.mpr ⟨Text.isIdentifierPart_of_isIdentifierStart hfirst, hrest⟩

end Syntax.Token

/-- A position at which a token or a line begins or ends. -/
inductive Text.Joint (s : String) : Nat → Prop
  | start {v : Token} (hv : v ∈ Token.readAll s) : Joint s v.start
  | stop {v : Token} (hv : v ∈ Token.readAll s) : Joint s v.stop
  | lineStart {pos : Nat} (h : Boundary s pos) : Joint s (lineStart s pos)
  | lineEnd {pos : Nat} (h : Boundary s pos) : Joint s (lineEnd s pos)

namespace Text.Joint

variable {s : String} {u : Token} {pos : Nat}

private theorem boundary (h : Joint s pos) : Boundary s pos := by
  cases h with
  | start hv => exact (Token.boundaries hv).1
  | stop hv => exact (Token.boundaries hv).2
  | lineStart h => exact (lineStart_run h).boundary
  | lineEnd h => exact (lineEnd_run h).boundary

/-- No newline stands in a word, so no line begins or ends in one. -/
theorem clear (h : Joint s pos) (hu : u ∈ Token.readAll s) (hword : u.lexeme = .word) :
    pos ≤ u.start ∨ u.stop ≤ pos := by
  have hpart := Token.between_of_word hu hword
  have hlt := (Token.ordered_readAll s).1 u hu
  have hline : ∀ at', CharAt s at' '\n' → at' < u.start ∨ u.stop ≤ at' := by
    intro at' hat
    by_contra hin
    exact absurd (hpart at' _ hat (by omega) (by omega)) (by decide +kernel)
  cases h with
  | @start v hv =>
    by_cases hne : u = v
    · exact .inl (hne ▸ Nat.le_refl _)
    · have := (Token.ordered_readAll s).1 v hv
      have := Token.apart_of_ne hu hv hne
      omega
  | @stop v hv =>
    by_cases hne : u = v
    · exact .inr (hne ▸ Nat.le_refl _)
    · have := (Token.ordered_readAll s).1 v hv
      have := Token.apart_of_ne hu hv hne
      omega
  | lineStart h =>
    rcases lineStart_cases h with hzero | ⟨prev, hprev, hnext⟩
    · omega
    · have := hline prev hprev
      omega
  | lineEnd h =>
    rcases lineEnd_cases h with hsize | hat
    · have := (Token.boundaries hu).2.le_size
      omega
    · have := hline _ hat
      omega

end Text.Joint

namespace Injection

open Edit (Fits SideBySide Shows)

variable {p : Package} {file : SourceFile} {statement t : Tree} {guards : List Guard}
  {demands : List Demand} {reports : List Diagnostic} {e : Edit} {u : Token} {needed : List String}

private theorem joint_insertBefore (hseated : Seated (Token.readAll file.text) statement) :
    Text.Joint file.text (insertBefore file statement guards).start := by
  obtain ⟨v, hv, _, hstart⟩ := hseated.start
  unfold insertBefore
  dsimp only
  rw [hstart]
  split
  · exact .lineStart (Token.boundaries hv).1
  · exact .start hv

private theorem joint_insertAfter (hseated : Seated (Token.readAll file.text) statement) :
    Text.Joint file.text (insertAfter file statement guards).start := by
  obtain ⟨v, hv, hstop, _⟩ := hseated.stop
  unfold insertAfter
  dsimp only
  rw [hstop]
  split
  · exact .lineEnd (Token.boundaries hv).2
  · exact .stop hv

/-- Imports are added at the end of a list of them, at the end of a line or at the beginning of the
text. -/
theorem joint_importEdit (h : file.OnTokens)
    (hlist : ∀ list, file.importList? = some list →
      ∃ v ∈ Token.readAll file.text, list.stop - 1 = v.start)
    (he : file.importEdit? needed = some e) : Text.Joint file.text e.start := by
  have hlineEnd : ∀ {t : Tree} {k : Kind}, t ∈ file.tree.namedChildren → t.is k = true →
      k ≠ .comment → Text.Joint file.text (Text.lineEnd file.text t.stop) := by
    intro t k hmem hkind hk
    have hlabel : t.label = .node k := of_decide_eq_true hkind
    have hnode : t ∈ Tree.preorderAll file.tree.children :=
      Tree.mem_preorderAll.mpr ⟨t, List.mem_of_mem_filter hmem, Tree.mem_preorder_self t⟩
    obtain ⟨v, hv, hstop, _⟩ := (h.seated t hnode (by simpa [Tree.isComment, Tree.is, hlabel])).stop
    rw [hstop]
    exact .lineEnd (Token.boundaries hv).2
  unfold SourceFile.importEdit? at he
  split at he
  · simp at he
  · obtain rfl := Option.some.inj he
    unfold SourceFile.addImports
    split
    · next list hsome =>
      obtain ⟨v, hv, hclose⟩ := hlist list hsome
      unfold SourceFile.extendImportList
      dsimp only
      rw [hclose]
      split
      · exact .lineStart (Token.boundaries hv).1
      · exact .start hv
    · next last _ hlast =>
      obtain ⟨hmem, hkind⟩ := List.mem_filter.mp (List.mem_of_getLast? hlast)
      exact hlineEnd hmem hkind (by decide)
    · dsimp only [Edit.insert]
      unfold SourceFile.afterPackageClause
      cases hclause : file.tree.namedChildren.find? (·.is .packageClause) with
      | none =>
        have hzero := (Text.lineStart_run (Text.boundary_zero file.text)).le
        rw [Option.map_none, Option.getD_none, ← Nat.le_zero.mp hzero]
        exact .lineStart (Text.boundary_zero _)
      | some clause =>
        rw [Option.map_some, Option.getD_some]
        exact hlineEnd (List.mem_of_find?_eq_some hclause)
          (List.find?_some (p := fun t : Tree => t.is .packageClause) hclause) (by decide)

section

variable (h : file.OnTokens) (hwoven : Woven p file demands reports)
  (hlist : ∀ list, file.importList? = some list →
    ∃ v ∈ Token.readAll file.text, list.stop - 1 = v.start)
include h hwoven hlist

/-- The other edits than removals and renamings insert something where a token or a line begins or
ends. -/
theorem exists_inserted : ∃ inserted : List Edit, (allEdits file (file.namings p) demands).Perm
      (file.anchors.map (strip file) ++ ((file.namings p).flatMap rename ++ inserted)) ∧
    ∀ e ∈ inserted, e.stop = e.start ∧ Text.Joint file.text e.start := by
  refine ⟨guardsBefore file demands ++ (guardsAfter file demands ++
    (file.importEdit? (imported demands)).toList), ?_, fun e he => ?_⟩
  · rw [allEdits, edits]
    simp only [List.append_assoc]
    exact (List.perm_append_comm_assoc _ _ _).append_left _
  · rw [guardsBefore_eq, guardsAfter_eq, List.mem_append, List.mem_append] at he
    rcases he with he | he | he
    · obtain ⟨insertion, hmem, rfl⟩ := List.mem_map.mp he
      obtain ⟨hbehind, body, hbody, hstatement⟩ := statement_of_before hwoven hmem
      rw [Insertion.edit_of_before hbehind]
      exact ⟨(spellsGuards_insertBefore _ _ _).1,
        joint_insertBefore (h.statement hbody hstatement)⟩
    · obtain ⟨insertion, hmem, rfl⟩ := List.mem_map.mp he
      obtain ⟨hbehind, _, ⟨body, hbody, hstatement⟩, _⟩ := statement_of_behind hwoven hmem
      rw [Insertion.edit_of_behind hbehind]
      exact ⟨(spellsGuards_insertAfter _ _ _).1,
        joint_insertAfter (h.statement hbody hstatement)⟩
    · have himport := Option.mem_toList.mp he
      exact ⟨(importEdit?_empty himport).symm, joint_importEdit h hlist himport⟩

private theorem cases_of_mem_allEdits (he : e ∈ allEdits file (file.namings p) demands) :
    (∃ anchor ∈ file.anchors, strip file anchor = e) ∨ e ∈ (file.namings p).flatMap rename ∨
      e.stop = e.start ∧ Text.Joint file.text e.start := by
  obtain ⟨inserted, hperm, hinserted⟩ := exists_inserted h hwoven hlist
  rw [hperm.mem_iff, List.mem_append, List.mem_append] at he
  exact he.imp List.mem_map.mp fun he => he.imp_right (hinserted e)

omit hwoven hlist in
/-- What goes with a directive ends where a character does. -/
theorem boundary_strip {anchor : Anchor} (hanchor : anchor ∈ file.anchors) :
    Boundary file.text (strip file anchor).stop := by
  obtain ⟨w, hw⟩ := exists_holds h hanchor
  have hlast := (Token.boundaries hw.mem).2
  rcases hw.strip_cases with ⟨_, _, _, hstop⟩ | ⟨_, _, _, hstop⟩ | ⟨_, _, hstop⟩
  · rw [hstop]
    rcases Text.lineEnd_cases hlast with hsize | hnew
    · rw [Nat.min_eq_right (by omega)]
      exact Text.boundary_size _
    · have hnext := hnew.boundary_next
      have hone : Char.utf8Size '\n' = 1 := rfl
      rw [hone] at hnext
      rwa [Nat.min_eq_left hnext.le_size]
  · rw [hstop]
    exact (Text.indentEnd_run hlast).boundary
  · rw [hstop]
    exact hlast

omit hwoven hlist in
/-- The character in the place of a renaming is an underscore or an equals sign. -/
theorem charAt_of_mem_rename {naming : Tree × ErrorTarget} (hnaming : naming ∈ file.namings p)
    (he : e ∈ rename naming) : e.start = naming.1.start ∧ CharAt file.text e.start '_' ∨
      CharAt file.text e.start '=' := by
  obtain ⟨assignment, hnames⟩ := exists_names h.inOrder (show (naming.1, naming.2) ∈ _ from hnaming)
  rw [rename] at he
  rcases List.mem_cons.mp he with rfl | he
  · exact .inl ⟨rfl, (hnames.blank_marks h).1.charAt⟩
  · obtain ⟨operator, hoperator, rfl⟩ := Option.map_eq_some_iff.mp (Option.mem_toList.mp he)
    exact .inr (hnames.operator_marks h hoperator).1.charAt

/-- Edits have an extent within the text. -/
theorem fits_of_mem (he : e ∈ allEdits file (file.namings p) demands) :
    Fits file.text e := by
  rcases cases_of_mem_allEdits h hwoven hlist he with ⟨anchor, hanchor, rfl⟩ | hrename |
    ⟨hempty, hjoint⟩
  · obtain ⟨w, hremoves⟩ := removes_strip h hanchor
    exact ⟨Nat.le_of_lt hremoves.start_lt, hremoves.boundary, boundary_strip h hanchor⟩
  · obtain ⟨naming, hnaming, he⟩ := List.mem_flatMap.mp hrename
    obtain ⟨_, hstop⟩ := marks_of_mem_rename h hnaming he
    obtain ⟨c, hc, hone⟩ : ∃ c, CharAt file.text e.start c ∧ c.utf8Size = 1 := by
      rcases charAt_of_mem_rename h hnaming he with ⟨_, hat⟩ | hat
      · exact ⟨_, hat, rfl⟩
      · exact ⟨_, hat, rfl⟩
    refine ⟨by omega, hc.boundary, ?_⟩
    rw [hstop, ← hone]
    exact hc.boundary_next
  · exact ⟨Nat.le_of_eq hempty.symm, hjoint.boundary, hempty ▸ hjoint.boundary⟩

/-- The edits that are applied stand side by side. -/
theorem sideBySide_of_applied :
    SideBySide file.text 0 (applied file (file.namings p) demands) :=
  Edit.sideBySide_kept fun _ he => (fits_of_mem h hwoven hlist (List.mem_mergeSort.mp he)).le

omit hwoven hlist in
private theorem misses_strip (hu : u ∈ Token.readAll file.text) (hword : u.lexeme = .word)
    {anchor : Anchor}
    (hanchor : anchor ∈ file.anchors) : (strip file anchor).Misses u.start u.stop := by
  have hsolid : u.IsSolid := ⟨by simp [hword], by simp [hword], by simp [hword]⟩
  obtain ⟨w, hremoves⟩ := removes_strip h hanchor
  have hlt := hremoves.start_lt
  rcases hremoves.start_clear hu hsolid with hbefore | hbehind
  · refine .inr ?_
    by_contra hin
    obtain ⟨c, hc⟩ := hremoves.boundary.exists_charAt (by
      have := hremoves.stop_le
      omega)
    have hpart : Text.isIdentifierPart c = true :=
      Token.between_of_word hu hword _ c hc (by omega) (by omega)
    have hblank : Text.isBlank c = false := by
      by_contra hblank
      rw [Token.isIdentifierPart_of_isBlank (Bool.not_eq_false _ ▸ hblank)] at hpart
      exact Bool.false_ne_true hpart
    have := hremoves.clear hu (hremoves.ne_of_isSolid hsolid) hc hblank (by omega) (by omega)
    omega
  · exact .inl hbehind

omit hwoven hlist in
private theorem misses_rename (hu : u ∈ Token.readAll file.text)
    (he : e ∈ (file.namings p).flatMap rename) (hne : e.start ≠ u.start) :
    e.Misses u.start u.stop := by
  obtain ⟨naming, hnaming, hmem⟩ := List.mem_flatMap.mp he
  obtain ⟨⟨v, hv, _, hstart⟩, hstop⟩ := marks_of_mem_rename h hnaming hmem
  have hsame : v ≠ u := fun hsame => hne (hsame ▸ hstart)
  have := (Token.ordered_readAll file.text).1 v hv
  have := Token.apart_of_ne hv hu hsame
  rw [Edit.Misses]
  omega

omit h hwoven hlist in
private theorem misses_of_joint (hu : u ∈ Token.readAll file.text) (hword : u.lexeme = .word)
    (hempty : e.stop = e.start) (hjoint : Text.Joint file.text e.start) :
    e.Misses u.start u.stop := by
  have := hjoint.clear hu hword
  rw [Edit.Misses]
  omega

/-- No edit reaches into a word but one that renames it. -/
theorem misses_or_mem_rename (hu : u ∈ Token.readAll file.text) (hword : u.lexeme = .word)
    (he : e ∈ allEdits file (file.namings p) demands) : e.Misses u.start u.stop ∨
      e ∈ (file.namings p).flatMap rename ∧ e.start = u.start := by
  rcases cases_of_mem_allEdits h hwoven hlist he with ⟨anchor, hanchor, rfl⟩ | hrename |
    ⟨hempty, hjoint⟩
  · exact .inl (misses_strip h hu hword hanchor)
  · by_cases hstart : e.start = u.start
    · exact .inr ⟨hrename, hstart⟩
    · exact .inl (misses_rename h hu hrename hstart)
  · exact .inl (misses_of_joint hu hword hempty hjoint)

/-- At most one edit reaches into a word. -/
theorem length_reaching_le (hu : u ∈ Token.readAll file.text) (hword : u.lexeme = .word) :
    ((allEdits file (file.namings p) demands).filter fun e =>
      u.start < e.stop ∧ e.start < u.stop).length ≤ 1 := by
  have hout : ∀ {part : List Edit}, (∀ e ∈ part, e.Misses u.start u.stop) →
      (part.filter fun e => u.start < e.stop ∧ e.start < u.stop) = [] := by
    intro part hpart
    refine List.filter_eq_nil_iff.mpr fun e he hin => ?_
    have hmisses := hpart e he
    rw [decide_eq_true_eq] at hin
    rw [Edit.Misses] at hmisses
    omega
  obtain ⟨inserted, hperm, hinserted⟩ := exists_inserted h hwoven hlist
  have hstrips : ∀ e ∈ file.anchors.map (strip file), e.Misses u.start u.stop := by
    intro e he
    obtain ⟨anchor, hanchor, rfl⟩ := List.mem_map.mp he
    exact misses_strip h hu hword hanchor
  rw [(hperm.filter _).length_eq, List.filter_append, List.filter_append, hout hstrips,
    hout fun e he => misses_of_joint hu hword (hinserted e he).1 (hinserted e he).2,
      List.nil_append,
    List.append_nil]
  have hpairs := (pairwise_renames (p := p) h).filter fun e => u.start < e.stop ∧ e.start < u.stop
  have hall : ∀ e ∈ ((file.namings p).flatMap rename).filter fun e =>
      u.start < e.stop ∧ e.start < u.stop, e.start = u.start := by
    intro e he
    obtain ⟨hmem, hin⟩ := List.mem_filter.mp he
    by_contra hstart
    have hmisses := misses_rename h hu hmem hstart
    rw [decide_eq_true_eq] at hin
    rw [Edit.Misses] at hmisses
    omega
  generalize ((file.namings p).flatMap rename).filter (fun e =>
    u.start < e.stop ∧ e.start < u.stop) = few at hpairs hall
  match few, hpairs, hall with
  | [], _, _ => exact Nat.zero_le _
  | [_], _, _ => exact Nat.le_refl _
  | a :: b :: _, hpairs, hall =>
    have hne := (List.pairwise_cons.mp hpairs).1 b (List.mem_cons_self ..)
    exact absurd ((hall a (by simp)).trans (hall b (by simp)).symm) hne

/-- The renaming of a blank is applied. -/
theorem mem_applied_of_mem_rename (hu : u ∈ Token.readAll file.text) (hword : u.lexeme = .word)
    (he : e ∈ (file.namings p).flatMap rename) (hstart : e.start = u.start) :
    e ∈ applied file (file.namings p) demands := by
  obtain ⟨inserted, hperm, _⟩ := exists_inserted h hwoven hlist
  have hmem : e ∈ allEdits file (file.namings p) demands :=
    hperm.mem_iff.mpr (List.mem_append_right _ (List.mem_append_left _ he))
  have hsort := List.mergeSort_perm (allEdits file (file.namings p) demands) Edit.ordered
  obtain ⟨earlier, later, hsorted, hnone⟩ := List.eq_append_cons_of_mem (hsort.mem_iff.mpr hmem)
  have horder := List.pairwise_mergeSort Edit.ordered_trans Edit.ordered_total
    (allEdits file (file.namings p) demands)
  have hlt := (Token.ordered_readAll file.text).1 u hu
  have hsize := (fits_of_mem h hwoven hlist hmem).stop.le_size
  rw [applied]
  rw [hsorted] at horder ⊢
  refine Edit.mem_kept later (Nat.zero_le _) hsize fun a ha => ?_
  have hin : a ∈ allEdits file (file.namings p) demands :=
    hsort.mem_iff.mp (hsorted ▸ List.mem_append_left _ ha)
  have hordered := (List.pairwise_append.mp horder).2.2 a ha e (List.mem_cons_self ..)
  rw [Edit.ordered_iff] at hordered
  rcases misses_or_mem_rename h hwoven hlist hu hword hin with hmisses | ⟨hrename, hsame⟩
  · rw [Edit.Misses] at hmisses
    omega
  · have hnodup : (((file.namings p).flatMap rename).map Edit.start).Nodup :=
      List.pairwise_map.mpr (pairwise_renames h)
    have heq := List.inj_on_of_nodup_map hnodup hrename he (hsame.trans hstart.symm)
    exact absurd (heq ▸ ha) hnone

/-! ### The name of an identifier -/

omit h hwoven hlist in
/-- The name that an identifier of the file has in the generated text. -/
def nameOf (file : SourceFile) (namings : List (Tree × ErrorTarget)) (t : Tree) : String :=
  ((namings.find? fun naming => naming.1.start = t.start).map (·.2.errorName)).getD (file.textOf t)

omit hwoven hlist in
/-- An identifier of the file is one word. -/
theorem exists_word (ht : t ∈ Tree.preorderAll file.tree.children)
    (hidentifier : t.is .identifier = true) :
    ∃ u ∈ Token.readAll file.text, u.lexeme = .word ∧ t.start = u.start ∧ t.stop = u.stop := by
  have hlabel : t.label = .node .identifier := of_decide_eq_true hidentifier
  exact (h.seated t ht (by simp [Tree.isComment, Tree.is, hlabel])).word hidentifier

omit hwoven hlist in
/-- Identifiers that begin at one place are one word. -/
theorem stop_eq_of_start_eq {t' : Tree} (ht : t ∈ Tree.preorderAll file.tree.children)
    (hword : t.is .identifier = true) (ht' : t' ∈ Tree.preorderAll file.tree.children)
    (hword' : t'.is .identifier = true) (hstart : t.start = t'.start) : t.stop = t'.stop := by
  obtain ⟨u, hu, _, hfirst, hlast⟩ := exists_word h ht hword
  obtain ⟨v, hv, _, hfirst', hlast'⟩ := exists_word h ht' hword'
  obtain rfl : u = v := by
    by_contra hne
    have := (Token.ordered_readAll file.text).1 u hu
    have := (Token.ordered_readAll file.text).1 v hv
    have := Token.apart_of_ne hu hv hne
    omega
  exact hlast.trans hlast'.symm

omit hwoven hlist in
/-- A blank that gets a name is an identifier of the file. -/
theorem isIdentifier_of_mem_namings {naming : Tree × ErrorTarget}
    (hnaming : naming ∈ file.namings p) : naming.1 ∈ Tree.preorderAll file.tree.children ∧
      naming.1.is .identifier = true ∧ file.textOf naming.1 = "_" := by
  obtain ⟨assignment, hnames⟩ := exists_names h.inOrder (show (naming.1, naming.2) ∈ _ from hnaming)
  exact ⟨Tree.mem_preorderAll_of_mem (hnames.blank_marks h).2 _ (hnames.mem_file h.inOrder),
    (ErrorTarget.mem_of_select? hnames.selected).2, hnames.text⟩

/-- An identifier stands in the generated text in its place, under the name that it has there. -/
theorem shows_nameOf (ht : t ∈ Tree.preorderAll file.tree.children)
    (hidentifier : t.is .identifier = true) :
    Shows file.text (applied file (file.namings p) demands) t.start t.stop
      (nameOf file (file.namings p) t) := by
  obtain ⟨u, hu, hword, hstart, hstop⟩ := exists_word h ht hidentifier
  have hside := sideBySide_of_applied h hwoven hlist
  unfold nameOf
  cases hfind : (file.namings p).find? fun naming => naming.1.start = t.start with
  | some naming =>
    have hnaming := List.mem_of_find?_eq_some hfind
    have hsame : naming.1.start = t.start :=
      of_decide_eq_true (List.find?_some (p := fun naming : Tree × ErrorTarget =>
        naming.1.start = t.start) hfind)
    obtain ⟨hmem, hblank, _⟩ := isIdentifier_of_mem_namings h hnaming
    have hend := stop_eq_of_start_eq h hmem hblank ht hidentifier hsame
    have hrename : Edit.replace naming.1.start naming.1.stop naming.2.errorName ∈
        (file.namings p).flatMap rename :=
      List.mem_flatMap.mpr ⟨naming, hnaming, List.mem_cons_self ..⟩
    have happlied := mem_applied_of_mem_rename h hwoven hlist hu hword hrename (hsame.trans hstart)
    have hshows := Edit.shows_of_mem hside happlied
    simp only [Edit.replace, hsame, hend] at hshows
    exact hshows
  | none =>
    have hfits : ∀ e ∈ applied file (file.namings p) demands, Fits file.text e := fun e he =>
      fits_of_mem h hwoven hlist (List.mem_mergeSort.mp ((Edit.kept_sublist _ _ _).subset he))
    obtain ⟨hfirst, hlast⟩ := Token.boundaries hu
    have hlt := (Token.ordered_readAll file.text).1 u hu
    rw [Option.map_none, Option.getD_none, SourceFile.textOf, hstart, hstop]
    refine Edit.shows_of_misses hside hfits hfirst hlast (Nat.le_of_lt hlt) fun e he => ?_
    have hmem := List.mem_mergeSort.mp ((Edit.kept_sublist _ _ _).subset he)
    refine (misses_or_mem_rename h hwoven hlist hu hword hmem).resolve_right ?_
    rintro ⟨hrename, hsame⟩
    obtain ⟨naming, hnaming, hedit⟩ := List.mem_flatMap.mp hrename
    rcases charAt_of_mem_rename h hnaming hedit with ⟨hplace, _⟩ | hat
    · have hnone := List.find?_eq_none.mp hfind naming hnaming
      exact hnone (decide_eq_true (hplace.symm.trans (hsame.trans hstart.symm)))
    · have hpart := Token.between_of_word hu hword _ _ (hsame ▸ hat) (Nat.le_refl _) hlt
      exact absurd hpart (by decide +kernel)

omit h hwoven hlist in
/-- A name that stands for a blank goes on with a letter. -/
theorem toList_placeholderName (line : Nat) : ∃ rest,
    (Guard.placeholderName line).toList = '_' :: 'i' :: rest ∧
      ∀ c ∈ rest, Text.isIdentifierPart c = true := by
  have hline : (toString line).toList = Nat.toDigits 10 line := Nat.toList_repr
  refine ⟨['n', 'c', 'o', '_', 'e', 'r', 'r', '_'] ++ Nat.toDigits 10 line, ?_, fun c hc => ?_⟩
  · rw [Guard.placeholderName, String.toList_append, hline]
    rfl
  · rcases List.mem_append.mp hc with hc | hc
    · have hall : ['n', 'c', 'o', '_', 'e', 'r', 'r', '_'].all Text.isIdentifierPart = true := by
        decide +kernel
      exact List.all_eq_true.mp hall c hc
    · have hdigit := Nat.isDigit_of_mem_toDigits (by decide) (by decide) hc
      simp [Text.isIdentifierPart, hdigit]

omit h hwoven hlist in
/-- The name of a placeholder is an identifier and not blank. -/
theorem isIdentifier_placeholderName (line : Nat) :
    Text.IsIdentifier (Guard.placeholderName line).toList ∧ Guard.placeholderName line ≠ "_" := by
  obtain ⟨rest, htext, hrest⟩ := toList_placeholderName line
  refine ⟨⟨'_', _, htext, by decide +kernel, List.forall_mem_cons.mpr ⟨by decide +kernel, hrest⟩⟩,
    fun heq => ?_⟩
  rw [heq] at htext
  simp at htext

end

end Injection

end GoContracts

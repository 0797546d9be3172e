import GoContracts.Proofs.LineMarker.Matching
import GoContracts.Proofs.Weaving.Identifiers
import GoContracts.Proofs.Weaving.OneAtATime

/-!
# The lines of the reference

An edit in place puts in as many newlines as it takes out, however many lines its range has a part
of. So the reference has the lines of the file, and where no such edit touches a line, it has the
line itself: what has a number in the reference has that number in the file.
-/

namespace GoContracts

open Syntax (Tree Token)
open Text (CharAt Boundary byteLength isBlank lines rowAt)

namespace Edit

variable {s text : String} {a m b : List Char} {e : Edit} {es : List Edit} {cursor : Nat}

/-- Whether an edit cuts no character of a text and puts in as many newlines as it takes out. -/
structure KeepsRows (s : String) (e : Edit) : Prop extends Fits s e where
  rows : e.text.toList.count '\n' = (Text.slice s e.start e.stop).toList.count '\n'

/-- Whether the line with the given number, counted from zero, has a part in the range of an
edit. -/
def Touches (s : String) (e : Edit) (row : Nat) : Prop :=
  rowAt s e.start ≤ row ∧ row ≤ rowAt s e.stop

private theorem keepsRows_of_lineWise (h : LineWise s e) (hplace : e.inPlace = true) :
    KeepsRows s e := by
  cases h with
  | inPlace hs hstart hstop _ hcount =>
    refine ⟨⟨by omega, ⟨_, _, hs.trans (List.append_assoc ..), hstart.symm⟩,
      ⟨_, _, hs, (Text.byteLength_append ..).trans hstop.symm⟩⟩, ?_⟩
    rw [hstart, hstop, slice_middle hs, hcount]
  | removal _ _ _ hother => exact absurd (hother.symm.trans hplace) Bool.false_ne_true
  | before _ _ _ hother => exact absurd (hother.symm.trans hplace) Bool.false_ne_true
  | behind _ _ _ hother => exact absurd (hother.symm.trans hplace) Bool.false_ne_true

/-- What is replaced by as many newlines keeps the lines before and behind it. -/
theorem lines_replaceIn (htext : text.toList = a ++ m ++ b) (hstart : e.start = byteLength a)
    (hstop : e.stop = byteLength a + byteLength m)
    (hcount : e.text.toList.count '\n' = m.count '\n') :
    (lines (replaceIn e text)).length = (lines text).length ∧
      ∀ row, row < a.count '\n' ∨ a.count '\n' + m.count '\n' < row →
        (lines (replaceIn e text))[row]? = (lines text)[row]? := by
  have hmade := replaceIn_eq htext hstart hstop
  rw [lines, lines, Text.splitAt_eq, Text.splitAt_eq, hmade, htext]
  refine ⟨?_, fun row hrow => ?_⟩
  · rw [List.length_map, List.length_map, Text.length_splitChars, Text.length_splitChars]
    simp only [List.count_append, hcount]
  · rw [List.getElem?_map, List.getElem?_map, Text.getElem?_splitChars_middle hcount a b hrow]

/-- Edits that keep the number of newlines keep the number of lines and change no line but those
that they touch. -/
theorem lines_replaceEach (hside : SideBySide s cursor es) (hkeep : ∀ e ∈ es, KeepsRows s e) :
    (lines (replaceEach s es)).length = (lines s).length ∧
      ∀ row, (∀ e ∈ es, ¬e.Touches s row) →
        (lines (replaceEach s es))[row]? = (lines s)[row]? := by
  induction es generalizing cursor with
  | nil => exact ⟨rfl, fun _ _ => rfl⟩
  | cons e es ih =>
    obtain ⟨he, hrest⟩ := List.forall_mem_cons.mp hkeep
    obtain ⟨hlength, hsame⟩ := ih hside.tail hrest
    obtain ⟨a, m, b, hs, hstart, hstop, hslice⟩ := he.start.exists_cut he.stop he.le
    have hbehind : (replaceEach s es).toList = a ++ m ++ (splice s e.stop es).toList := by
      rw [replaceEach_eq hside.tail (fun f hf => (hrest f hf).toFits) he.stop, String.toList_append,
        ← hstop, ← Text.byteLength_append, slice_prefix hs]
    have hcount : e.text.toList.count '\n' = m.count '\n' := by
      rw [he.rows, hslice, String.toList_ofList]
    obtain ⟨hlength', hsame'⟩ := lines_replaceIn hbehind hstart.symm hstop.symm hcount
    refine ⟨hlength'.trans hlength, fun row huntouched => ?_⟩
    obtain ⟨hclear, hothers⟩ := List.forall_mem_cons.mp huntouched
    refine (hsame' row ?_).trans (hsame row hothers)
    rw [Touches, ← hstop, ← hstart, ← Text.byteLength_append, rowAt_prefix hs,
      rowAt_prefix (hs.trans (List.append_assoc ..)), List.count_append] at hclear
    omega

end Edit

namespace Text

variable {s : String} {pos start stop row : Nat}

/-- Whether a range has a part on a line on which nothing but blanks stands outside the range. -/
structure Covers (s : String) (start stop row : Nat) : Prop where
  first : rowAt s start ≤ row
  last : row ≤ rowAt s stop
  blank : ∀ pos c, CharAt s pos c → rowAt s pos = row → pos < start ∨ stop ≤ pos → isBlank c = true

private theorem rowAt_lt_length (h : Boundary s pos) : rowAt s pos < (lines s).length := by
  have hle := rowAt_le h (boundary_size s) h.le_size
  have hsize : rowAt s (size s) = s.toList.count '\n' := by
    rw [rowAt, ← toList_slice, Edit.slice_all]
  rw [lines, splitAt_eq, List.length_map, length_splitChars]
  omega

/-- A range covers its lines if it begins and ends a line but for blanks. -/
theorem covers_of_lines (h : Boundary s start) (h' : Boundary s stop)
    (hstarts : startsLine s start = true) (hends : endsLine s stop = true)
    (hfirst : rowAt s start ≤ row) (hlast : row ≤ rowAt s stop) : Covers s start stop row := by
  refine ⟨hfirst, hlast, fun pos c hc hrow hout => ?_⟩
  rcases hout with hbefore | hbehind
  · have hle := rowAt_le hc.boundary h (Nat.le_of_lt hbefore)
    exact (startsLine_iff h).mp hstarts pos c hc
      (lineStart_le hc.boundary h (Nat.le_of_lt hbefore) (by omega)) hbefore
  · have hle := rowAt_le h' hc.boundary hbehind
    rcases Nat.lt_or_eq_of_le (le_lineEnd h' hc.boundary hbehind (by omega)) with hlt | heq
    · exact (endsLine_iff h').mp hends pos c hc hbehind hlt
    · -- At the end of a line stands a newline.
      rcases lineEnd_cases h' with hsize | hnew
      · have := hc.boundary_next.le_size
        have := c.utf8Size_pos
        omega
      · rw [heq] at hc
        rw [hc.unique hnew]
        decide

end Text

namespace Injection

open Edit (KeepsRows SideBySide)
open LineMarker (Entry entries matchedIndex?)
open Reporting (Gives value? gives_of_value?)

variable {p : Package} {file : SourceFile} {demands : List Demand} {e : Edit}

/-- The edits in place that are applied to make the reference, in their order. -/
def appliedInPlace (file : SourceFile) (namings : List (Tree × ErrorTarget))
    (demands : List Demand) : List Edit :=
  Edit.kept file.text 0 (((allEdits file namings demands).filter
    (·.inPlace)).mergeSort Edit.ordered)

/-- The lines of the shadow: the generated ones and the markers between them. -/
def shadowEntries (injection : Injection) : List Entry :=
  entries (matchedIndex? injection.reference injection.stripped (lines injection.generated))
    (lines injection.generated)

/-- The lines of the reference are aligned with those of the file, of which the edits given are made
in place. -/
structure Aligned (file : SourceFile) (edits : List Edit) (injection : Injection) : Prop where
  length : injection.reference.length = (lines file.text).length
  stripped : ∀ row ∈ injection.stripped, row < (lines file.text).length ∧
    ∃ anchor ∈ file.anchors, standsAlone file anchor = true ∧
      Text.Covers file.text anchor.start anchor.stop row
  untouched : ∀ row, (∀ e ∈ edits, ¬e.Touches file.text row) →
    injection.reference[row]? = (lines file.text)[row]?
  rendered : shadow file injection =
    "\n".intercalate (injection.shadowEntries.map (Entry.render file.path))
  markers : ∀ index, .marker index ∈ injection.shadowEntries → index < (lines file.text).length

private theorem inPlace_insertBefore (statement : Tree) (guards : List Guard) :
    (insertBefore file statement guards).inPlace = false := by
  unfold insertBefore
  dsimp only
  split <;> rfl

private theorem inPlace_insertAfter (statement : Tree) (guards : List Guard) :
    (insertAfter file statement guards).inPlace = false := by
  unfold insertAfter
  dsimp only
  split <;> rfl

/-- Edits in place cut directives that share their lines, or rename. -/
theorem cases_of_inPlace {namings : List (Tree × ErrorTarget)}
    (he : e ∈ allEdits file namings demands) (hplace : e.inPlace = true) :
    (∃ anchor ∈ file.anchors, standsAlone file anchor = false ∧ strip file anchor = e) ∨
      e ∈ namings.flatMap rename := by
  rcases mem_allEdits.mp he with ⟨anchor, hanchor, rfl⟩ | he | he
  · rw [inPlace_strip, Bool.not_eq_true'] at hplace
    exact .inl ⟨anchor, hanchor, hplace, rfl⟩
  · rw [written, List.mem_append, List.mem_append] at he
    rcases he with (he | he) | he
    · obtain ⟨statement, _, rfl⟩ := List.mem_map.mp he
      exact absurd ((inPlace_insertBefore ..).symm.trans hplace) Bool.false_ne_true
    · exact .inr he
    · obtain ⟨demand, _, he⟩ := List.mem_filterMap.mp he
      split at he
      · obtain rfl := Option.some.inj he
        exact absurd ((inPlace_insertAfter ..).symm.trans hplace) Bool.false_ne_true
      · cases he
  · exact absurd ((inPlace_importEdit he).symm.trans hplace) Bool.false_ne_true

/-- A directive that shares its lines leaves their newlines. -/
theorem keepsRows_strip (h : file.OnTokens) {anchor : Anchor} (hanchor : anchor ∈ file.anchors)
    (hshared : standsAlone file anchor = false) : KeepsRows file.text (strip file anchor) := by
  obtain ⟨u, hremoves⟩ := removes_strip h hanchor
  refine ⟨⟨Nat.le_of_lt hremoves.start_lt, hremoves.boundary, boundary_strip h hanchor⟩, ?_⟩
  rw [(strip_of_shared hshared).2, Text.count_newlinesOf]

private theorem keepsRows_of_inPlace (h : file.OnTokens)
    (he : e ∈ allEdits file (file.namings p) demands) (hplace : e.inPlace = true) :
    KeepsRows file.text e := by
  rcases cases_of_inPlace he hplace with ⟨anchor, hanchor, hshared, rfl⟩ | hrename
  · exact keepsRows_strip h hanchor hshared
  · exact Edit.keepsRows_of_lineWise (lineWise_rename h hrename) hplace

private theorem lines_reference (h : file.OnTokens) :
    (ofDemands file (file.namings p) demands).reference.length = (lines file.text).length ∧
      ∀ row, (∀ e ∈ appliedInPlace file (file.namings p) demands, ¬e.Touches file.text row) →
        (ofDemands file (file.namings p) demands).reference[row]? = (lines file.text)[row]? := by
  have hkeep : ∀ e ∈ (allEdits file (file.namings p) demands).filter (·.inPlace),
      KeepsRows file.text e := fun e he =>
    have ⟨hmem, hplace⟩ := List.mem_filter.mp he
    keepsRows_of_inPlace h hmem hplace
  have hkept : ∀ e ∈ appliedInPlace file (file.namings p) demands, KeepsRows file.text e :=
    fun e he => hkeep e (List.mem_mergeSort.mp ((Edit.kept_sublist _ _ _).subset he))
  have hside : SideBySide file.text 0 (appliedInPlace file (file.namings p) demands) :=
    Edit.sideBySide_kept fun e he => (hkeep e (List.mem_mergeSort.mp he)).le
  have hmade : Edit.applyInPlace file.text (allEdits file (file.namings p) demands) =
      Edit.replaceEach file.text (appliedInPlace file (file.namings p) demands) :=
    Edit.applyAll_eq (fun e he => (hkeep e he).le) fun e he _ => (hkeep e he).toFits
  simp only [ofDemands, hmade]
  exact Edit.lines_replaceEach hside hkept

private theorem stripped_ofDemands (namings : List (Tree × ErrorTarget)) :
    (ofDemands file namings demands).stripped = file.anchors.flatMap (strippedLines file) := rfl

private theorem covers_of_mem_strippedLines (h : file.OnTokens) {anchor : Anchor} {row : Nat}
    (hanchor : anchor ∈ file.anchors) (hrow : row ∈ strippedLines file anchor) :
    row < (lines file.text).length ∧ standsAlone file anchor = true ∧
      Text.Covers file.text anchor.start anchor.stop row := by
  obtain ⟨u, hu⟩ := exists_holds h hanchor
  obtain ⟨hstart, hstop⟩ := Token.boundaries hu.mem
  rw [← hu.start] at hstart
  rw [← hu.stop] at hstop
  unfold strippedLines at hrow
  split at hrow
  · next halone =>
    have hends := halone
    rw [standsAlone, Bool.and_eq_true] at hends
    have hrange := List.mem_range'_1.mp hrow
    have hlast := Text.rowAt_lt_length hstop
    exact ⟨by omega, halone,
      Text.covers_of_lines hstart hstop hends.1 hends.2 hrange.1 (by omega)⟩
  · cases hrow

/-- Every marker has the number of a line of the reference. -/
theorem lt_of_marker {injection : Injection} {index : Nat}
    (h : .marker index ∈ injection.shadowEntries) : index < injection.reference.length := by
  obtain ⟨g, hg⟩ := LineMarker.exists_of_marker_mem h
  obtain ⟨_, b, _, hb, _⟩ := (LineMarker.found injection.reference injection.stripped
    (lines injection.generated)).corresponds g index hg
  exact (List.getElem?_eq_some_iff.mp hb).1

/-- The lines of the reference are aligned with those of the file. -/
theorem aligned_of_inject {path text : String} {injection : Injection}
    {before after : List Diagnostic}
    (h : Gives ((SourceFile.parse path text).inject? p) before (some injection) after) :
    ∃ demands, Gives ((SourceFile.parse path text).demands p) before demands after ∧
      injection =
        ofDemands (.parse path text) ((SourceFile.parse path text).namings p) demands ∧
      Aligned (.parse path text)
        (appliedInPlace (.parse path text) ((SourceFile.parse path text).namings p) demands)
        injection := by
  obtain ⟨_, demands, hdemands, rfl⟩ := gives_inject?.mp h
  have htokens := SourceFile.onTokens_parse path text
  obtain ⟨hlength, huntouched⟩ := @lines_reference p (.parse path text) demands htokens
  refine ⟨demands, hdemands, rfl, hlength, fun row hrow => ?_, huntouched,
    LineMarker.insertAll_eq _ _ _ _, fun index hindex => hlength ▸ lt_of_marker hindex⟩
  obtain ⟨anchor, hanchor, hrow⟩ := List.mem_flatMap.mp hrow
  obtain ⟨hlt, halone, hcovers⟩ := covers_of_mem_strippedLines htokens hanchor hrow
  exact ⟨hlt, anchor, hanchor, halone, hcovers⟩

/-- A file with a directive over two lines of their own, and one that begins on the line of an
assignment and ends on the next one. -/
def spannedLines : String :=
  "package p\n\nfunc g() error\n\nfunc f(a int) \x7b\n" ++
    "\t/* @require -log\n\t   a > 0 */\n\tprintln(a)\n\t_ = g() /* @must\n\t*/\n\x7d\n"

/-- A file with a directive over two lines and one that begins on the line of an assignment. -/
theorem aligned_spannedLines : ∃ injection after,
    Gives ((SourceFile.parse "/f.go" spannedLines).inject? (alone (.parse "/f.go" spannedLines))) []
      (some injection) after ∧
    injection.stripped = [5, 6] ∧
    ∃ demands, Aligned (.parse "/f.go" spannedLines)
      (appliedInPlace (.parse "/f.go" spannedLines)
        ((SourceFile.parse "/f.go" spannedLines).namings (alone (.parse "/f.go" spannedLines)))
        demands) injection := by
  -- One evaluation, so that the text is parsed once.
  obtain ⟨hvalue, hstripped⟩ : (value? ((SourceFile.parse "/f.go" spannedLines).inject?
      (alone (.parse "/f.go" spannedLines))) []).join.isSome = true ∧
      (SourceFile.parse "/f.go" spannedLines).anchors.flatMap
        (strippedLines (.parse "/f.go" spannedLines)) = [5, 6] := by
    decide +kernel
  obtain ⟨injection, hinjection⟩ := Option.isSome_iff_exists.mp hvalue
  obtain ⟨after, hgives⟩ := gives_of_value? (Option.join_eq_some_iff.mp hinjection)
  obtain ⟨demands, _, hmade, haligned⟩ := aligned_of_inject hgives
  have hrows : injection.stripped = [5, 6] := by rw [hmade, stripped_ofDemands, hstripped]
  exact ⟨injection, after, hgives, hrows, demands, haligned⟩

end Injection

end GoContracts

import GoContracts.Proofs.Weaving.Crowding
import GoContracts.Proofs.Weaving.WholeLines

/-!
# The edits of a weaving and the lines

In a text that ends with a newline the removal of a directive keeps the lines apart. So do guards
before a statement that begins its line, guards behind an assignment that ends its line, and the
names of blanks.
-/

namespace GoContracts

open Text (CharAt Boundary Between byteLength isBlank)
open Weaves (beginsBehind)

variable {s : String} {pos last : Nat} {c : Char}

/-! ### Where lines begin and end -/

namespace Text

/-- A line begins the text or stands behind a newline. -/
theorem exists_lineStart (h : Boundary s pos) : ∃ a b, s.toList = a ++ b ∧
    byteLength a = lineStart s pos ∧ beginsBehind true a = true := by
  obtain ⟨a, b, hs, ha⟩ := (lineStart_run h).boundary
  refine ⟨a, b, hs, ha, ?_⟩
  rcases lineStart_cases h with hzero | ⟨prev, ⟨x, y, hs', hx⟩, hnext⟩
  · obtain rfl : a = [] := by
      by_contra hne
      have := byteLength_pos hne
      omega
    rfl
  · have hnew : Char.utf8Size '\n' = 1 := rfl
    have hcut : s.toList = (x ++ ['\n']) ++ y := by
      rw [hs', List.append_assoc, List.singleton_append]
    obtain ⟨rfl, _⟩ := Edit.cut_unique hs hcut (by
      rw [byteLength_append, byteLength_cons, byteLength_nil]
      omega)
    simp [beginsBehind]

/-- Positions without a newline between them are on one line. -/
theorem rowAt_eq {start stop : Nat} (h : Boundary s start) (h' : Boundary s stop)
    (hle : start ≤ stop) (hline : Between s start stop (· != '\n')) :
    rowAt s stop = rowAt s start := by
  obtain ⟨a, m, b, hs, rfl, rfl, _⟩ := h.exists_cut h' hle
  have hcount : m.count '\n' = 0 := List.count_eq_zero.mpr fun hmem =>
    absurd ((between_iff hs).mp hline _ hmem) (by decide)
  rw [← byteLength_append, Edit.rowAt_prefix hs,
    Edit.rowAt_prefix (hs.trans (List.append_assoc a m b)), List.count_append, hcount, Nat.add_zero]

private theorem rowAt_lineStart (h : Boundary s pos) : rowAt s (lineStart s pos) = rowAt s pos :=
  have hrun := lineStart_run h
  (rowAt_eq hrun.boundary h hrun.le hrun.run).symm

private theorem rowAt_lineEnd (h : Boundary s pos) : rowAt s (lineEnd s pos) = rowAt s pos :=
  have hrun := lineEnd_run h
  rowAt_eq h hrun.boundary hrun.le hrun.run

/-- The newlines of a text are all that it has. -/
theorem count_newlinesOf (s : String) : (newlinesOf s).toList.count '\n' = s.toList.count '\n' := by
  rw [newlinesOf, String.toList_ofList, List.count_filter (by decide)]

/-- Between positions on one line no newline stands. -/
theorem between_of_rowAt_eq {start stop : Nat} (h : Boundary s start) (h' : Boundary s stop)
    (hle : start ≤ stop) (hrow : rowAt s stop = rowAt s start) :
    Between s start stop (· != '\n') := by
  obtain ⟨a, m, b, hs, rfl, rfl, _⟩ := h.exists_cut h' hle
  rw [← byteLength_append, Edit.rowAt_prefix hs,
    Edit.rowAt_prefix (hs.trans (List.append_assoc a m b)), List.count_append] at hrow
  have hcount : m.count '\n' = 0 := by omega
  refine (between_iff hs).mpr fun c hc => ?_
  rw [bne_iff_ne]
  rintro rfl
  exact List.count_eq_zero.mp hcount hc

/-- A later position is not in an earlier row. -/
theorem rowAt_le {start stop : Nat} (h : Boundary s start) (h' : Boundary s stop)
    (hle : start ≤ stop) : rowAt s start ≤ rowAt s stop := by
  obtain ⟨a, m, b, hs, rfl, rfl, _⟩ := h.exists_cut h' hle
  rw [← byteLength_append, Edit.rowAt_prefix hs,
    Edit.rowAt_prefix (hs.trans (List.append_assoc a m b)), List.count_append]
  exact Nat.le_add_right _ _

/-- A position on the line of a later one stands behind the start of that line. -/
theorem lineStart_le {start stop : Nat} (h : Boundary s start) (h' : Boundary s stop)
    (hle : start ≤ stop) (hrow : rowAt s start = rowAt s stop) : lineStart s stop ≤ start := by
  rcases lineStart_cases h' with hzero | ⟨prev, hprev, hnext⟩
  · omega
  · have hrun := (lineStart_run h').le
    by_contra hlt
    exact absurd (between_of_rowAt_eq h h' hle hrow.symm prev '\n' hprev (by omega) (by omega))
      (by decide)

/-- A position on the line of an earlier one stands before the end of that line. -/
theorem le_lineEnd {start stop : Nat} (h : Boundary s start) (h' : Boundary s stop)
    (hle : start ≤ stop) (hrow : rowAt s start = rowAt s stop) : stop ≤ lineEnd s start := by
  rcases lineEnd_cases h with hsize | hnew
  · rw [hsize]
    exact h'.le_size
  · by_contra hlt
    exact absurd (between_of_rowAt_eq h h' hle hrow.symm _ '\n' hnew (lineEnd_run h).le (by omega))
      (by decide)

/-- A character stands before each boundary but the first one. -/
theorem exists_last {start stop : Nat} (h : Boundary s start) (h' : Boundary s stop)
    (hlt : start < stop) : ∃ pos c, CharAt s pos c ∧ start ≤ pos ∧ pos + c.utf8Size = stop := by
  cases hlast : (slice s start stop).toList.getLast? with
  | none =>
    have := (behind_cut h h' (Nat.le_of_lt hlt)).2
    rw [List.getLast?_eq_none_iff.mp hlast, byteLength_nil] at this
    omega
  | some c =>
    obtain ⟨pos, hc⟩ := charAt_of_getLast? h h' (Nat.le_of_lt hlt) hlast
    exact ⟨pos, c, hc⟩

/-- In a text that ends with a newline a line that is not empty ends with one. -/
theorem exists_lineEnd (hend : s.toList.getLast? = some '\n') (h : CharAt s last c) (hc : c ≠ '\n')
    (hpos : last + c.utf8Size = pos) : ∃ a b, s.toList = a ++ '\n' :: b ∧
      byteLength a = lineEnd s pos ∧ beginsBehind true a = false := by
  have hnew : Char.utf8Size '\n' = 1 := rfl
  have hlt := c.utf8Size_pos
  have hboundary : Boundary s pos := hpos ▸ h.boundary_next
  have hrun := lineEnd_run hboundary
  have hle := hrun.le
  -- No newline ends where the run of the line begins or inside it.
  have hnone : ∀ x y, s.toList = x ++ '\n' :: y → byteLength x + 1 ≤ lineEnd s pos →
      byteLength x + 1 < pos := by
    intro x y hs hwithin
    have hat : CharAt s (byteLength x) '\n' := ⟨x, y, hs, rfl⟩
    by_contra hge
    by_cases hin : pos ≤ byteLength x
    · exact absurd (hrun.run _ _ hat hin (by omega)) (by decide)
    · exact hc (h.unique_next hat (by omega)).2
  have hat : CharAt s (lineEnd s pos) '\n' := by
    rcases lineEnd_cases hboundary with hsize | hat
    · obtain ⟨x, hs⟩ := List.getLast?_eq_some_iff.mp hend
      have hlength : size s = byteLength x + 1 := by simp [size_eq, hs, hnew]
      have := hnone x [] hs (by omega)
      omega
    · exact hat
  obtain ⟨a, b, hs, ha⟩ := hat
  refine ⟨a, b, hs, ha, Weaves.beginsBehind_of_getLast?_ne ?_ fun hlast => ?_⟩
  · rintro rfl
    rw [byteLength_nil] at ha
    omega
  · obtain ⟨x, rfl⟩ := List.getLast?_eq_some_iff.mp hlast
    rw [byteLength_append, byteLength_cons, byteLength_nil] at ha
    have := hnone x ('\n' :: b) (by simp [hs]) (by omega)
    omega

end Text

namespace Injection

open Syntax (Tree Token Seated)
open Edit (LineWise)

variable {p : Package} {file : SourceFile} {anchor : Anchor} {u : Token} {statement : Tree}
  {guards : List Guard} {demands : List Demand} {e : Edit}

/-! ### Removals -/

/-- No newline is the last character of a comment. -/
theorem comment_end (hnull : '\x00' ∉ s.toList) (hu : u ∈ Token.readAll s)
    (hcomment : u.lexeme = .comment) :
    ∃ last c, CharAt s last c ∧ c ≠ '\n' ∧ last + c.utf8Size = u.stop := by
  obtain ⟨hfirst, hlast⟩ := Token.boundaries hu
  obtain ⟨last, c, hc, hle, hstop⟩ :=
    Text.exists_last hfirst hlast ((Token.ordered_readAll s).1 u hu)
  refine ⟨last, c, hc, ?_, hstop⟩
  rcases comment_last hnull hu hcomment with ⟨_, hline⟩ | ⟨slash, hslash, hend, _⟩
  · have := c.utf8Size_pos
    exact hline last c hc hle (by omega)
  · have hmark : Char.utf8Size '/' = 1 := rfl
    rw [(hc.unique_next hslash (by omega)).2]
    decide

/-- A comment that has its lines to itself goes with them. -/
theorem lineWise_alone (h : Holds file u anchor) (hnull : '\x00' ∉ file.text.toList)
    (hend : file.text.toList.getLast? = some '\n') (halone : standsAlone file anchor = true) :
    LineWise file.text (strip file anchor) ∧
      (strip file anchor).dropped file.text = strippedLines file anchor := by
  obtain ⟨hfirst, hlast⟩ := Token.boundaries h.mem
  have hpos := (Token.ordered_readAll file.text).1 u h.mem
  have hnew : Char.utf8Size '\n' = 1 := rfl
  obtain ⟨a, b, hs, ha, hbegins⟩ := Text.exists_lineStart hfirst
  obtain ⟨last, c, hc, hne, hstop⟩ := comment_end hnull h.mem h.comment
  obtain ⟨x, y, hs', hx, _⟩ := Text.exists_lineEnd hend hc hne hstop
  have hle := (Text.lineStart_run hfirst).le
  have hle' := (Text.lineEnd_run hlast).le
  obtain ⟨k, rfl, rfl⟩ := Text.exists_middle (hs.symm.trans hs') (by omega)
  have hcut : file.text.toList = a ++ (k ++ ['\n']) ++ y := by simp [hs]
  have hsize : Text.size file.text = byteLength (a ++ k) + 1 + byteLength y := by
    rw [Text.size_eq, hs', Text.byteLength_append, Text.byteLength_cons, hnew]
    omega
  have hstrip : strip file anchor =
    .remove (byteLength a) (byteLength a + byteLength (k ++ ['\n'])) := by
    rw [strip, if_pos halone, h.start, h.stop, ← ha, ← hx, Nat.min_eq_left (by omega),
      Text.byteLength_append, Text.byteLength_append, Text.byteLength_cons, hnew,
      Text.byteLength_nil, Nat.add_assoc]
  have hrows : Text.rowAt file.text u.stop = a.count '\n' + k.count '\n' := by
    rw [← Text.rowAt_lineEnd hlast, ← hx, Edit.rowAt_prefix hs', List.count_append]
  rw [hstrip, strippedLines, if_pos halone, h.start, h.stop]
  refine ⟨.removal hcut rfl rfl rfl rfl hbegins, ?_⟩
  rw [LineWise.dropped_of_lines hcut rfl rfl rfl, ← Text.rowAt_lineStart hfirst, ← ha,
    Edit.rowAt_prefix hs, hrows, List.count_append, List.count_singleton_self]
  dsimp only
  rw [Nat.add_assoc, Nat.add_sub_cancel_left]

/-- In the place of a comment that shares its lines its newlines stay. -/
theorem strip_of_shared (hshared : standsAlone file anchor = false) :
    (strip file anchor).inPlace = true ∧ (strip file anchor).text =
      Text.newlinesOf (Text.slice file.text (strip file anchor).start
        (strip file anchor).stop) := by
  rw [strip, if_neg (by simp [hshared])]
  exact ⟨rfl, rfl⟩

/-- A comment that shares its lines goes without a newline. -/
theorem lineWise_shared (h : Holds file u anchor) (hnull : '\x00' ∉ file.text.toList)
    (hshared : standsAlone file anchor = false) :
    LineWise file.text (strip file anchor) ∧
      (strip file anchor).dropped file.text = strippedLines file anchor := by
  have hremoves := h.removes
  have hlt := hremoves.start_lt
  have hslash := (Token.charAt_comment h.mem h.comment).1
  obtain ⟨hplace, htext⟩ := strip_of_shared hshared
  obtain ⟨hboundary, hlast⟩ : Boundary file.text (strip file anchor).stop ∧
      ∀ pos, CharAt file.text pos '\n' → pos + 1 ≠ (strip file anchor).stop := by
    have hfinal : ∀ pos, CharAt file.text pos '\n' → pos + 1 ≠ u.stop := by
      intro pos hc hstop
      obtain ⟨last, c, hc', hne, hend⟩ := comment_end hnull h.mem h.comment
      exact hne (hc'.unique_next hc (hend.trans hstop.symm)).2
    have hend := (Token.boundaries h.mem).2
    rcases h.strip_cases with ⟨hstarts, hends, _⟩ | ⟨_, _, _, hstop⟩ | ⟨_, _, hstop⟩
    · rw [standsAlone, h.start, h.stop, hstarts, hends] at hshared
      simp at hshared
    · have hindent := Text.indentEnd_run hend
      rw [hstop]
      refine ⟨hindent.boundary, fun pos hc hnext => ?_⟩
      by_cases hin : u.stop ≤ pos
      · exact absurd (hindent.run pos _ hc hin (by omega)) (by decide)
      · have := hindent.le
        exact hfinal pos hc (by omega)
    · rw [hstop]
      exact ⟨hend, hfinal⟩
  refine ⟨?_, by rw [LineWise.dropped_of_inPlace hplace, strippedLines, if_neg (by simp [hshared])]⟩
  obtain ⟨a, m, b, hs, ha, hm, hslice⟩ :=
    hremoves.boundary.exists_cut hboundary (Nat.le_of_lt hlt)
  refine .inPlace hs ha.symm hm.symm hplace ?_ ?_ fun hnew => ?_
  · rw [htext, hslice, Text.count_newlinesOf, String.toList_ofList]
  · obtain ⟨c, hc, hhead⟩ := Text.exists_head? hremoves.boundary hboundary hlt
    rw [hslice, String.toList_ofList] at hhead
    refine ⟨c, hhead, ?_⟩
    rcases Nat.lt_or_eq_of_le hremoves.start_le with hbefore | heq
    · exact (hremoves.before _ c hc (Nat.le_refl _) hbefore).2
    · rw [heq] at hc
      rw [hc.unique hslash]
      decide
  · rw [← String.toList_ofList (l := m), ← hslice] at hnew
    obtain ⟨pos, hc, _, hend⟩ :=
      Text.charAt_of_getLast? hremoves.boundary hboundary (Nat.le_of_lt hlt) hnew
    exact hlast pos hc hend

/-- The removal of a directive keeps the lines apart, and the lines that it leaves out are those of
its comment. -/
theorem lineWise_strip (h : file.OnTokens) (hnull : '\x00' ∉ file.text.toList)
    (hend : file.text.toList.getLast? = some '\n') (hanchor : anchor ∈ file.anchors) :
    LineWise file.text (strip file anchor) ∧
      (strip file anchor).dropped file.text = strippedLines file anchor := by
  obtain ⟨u, hu⟩ := exists_holds h hanchor
  cases halone : standsAlone file anchor with
  | true => exact lineWise_alone hu hnull hend halone
  | false => exact lineWise_shared hu hnull halone

/-! ### Insertions -/

/-- Guards do not begin with a newline. -/
theorem head?_renderAll (pos : Nat) (guards : List Guard) :
    (Guard.renderAll (Text.indentAt s pos) guards).toList.head? ≠ some '\n' := by
  have hindent : ∀ rest : List Char,
      ((Text.indentAt s pos).toList ++ 'i' :: rest).head? ≠ some '\n' := by
    intro rest hhead
    rw [Text.indentAt, String.toList_ofList] at hhead
    cases hrun : (Text.part s (Text.lineStart s pos) (Text.lineEnd s pos)).takeWhile
        Text.isIndent with
    | nil => simp [hrun] at hhead
    | cons c cs =>
      have hc : c ∈ (Text.part s (Text.lineStart s pos) (Text.lineEnd s pos)).takeWhile
          Text.isIndent := hrun ▸ List.mem_cons_self ..
      rw [hrun, List.cons_append, List.head?_cons, Option.some.injEq] at hhead
      have := List.all_eq_true.mp List.all_takeWhile c hc
      rw [hhead] at this
      exact absurd this (by decide)
  have hjoin : ∀ (line : String) (lines : List String) (rest : List Char),
      line.toList = (Text.indentAt s pos).toList ++ 'i' :: rest →
        ∃ more, ("\n".intercalate (line :: lines)).toList =
          (Text.indentAt s pos).toList ++ 'i' :: more := by
    intro line lines rest hline
    cases lines with
    | nil => exact ⟨rest, by simp [hline]⟩
    | cons next lines => exact ⟨rest ++ '\n' :: ("\n".intercalate (next :: lines)).toList, by
        simp [String.toList_intercalate, hline]⟩
  cases guards with
  | nil => simp [Guard.renderAll]
  | cons guard guards =>
    have hopening : (Text.indentAt s pos ++ "if " ++ guard.condition ++ " \x7b").toList =
        (Text.indentAt s pos).toList ++ 'i' :: ("f " ++ guard.condition ++ " \x7b").toList := by
      simp
    obtain ⟨rest, hrest⟩ := hjoin _ ((guard.action.statements.map fun statement =>
      Text.indentAt s pos ++ "\t" ++ statement) ++ [Text.indentAt s pos ++ "\x7d"]) _ hopening
    obtain ⟨more, hmore⟩ := hjoin (guard.render (Text.indentAt s pos))
      (guards.map (Guard.render (Text.indentAt s pos))) rest hrest
    rw [Guard.renderAll, List.map_cons, hmore]
    exact hindent more

/-- Guards go before the line of a statement that begins it. -/
theorem lineWise_insertBefore (hboundary : Boundary file.text statement.start)
    (hstarts : Text.startsLine file.text statement.start = true) :
    LineWise file.text (insertBefore file statement guards) := by
  obtain ⟨a, b, hs, ha, hbegins⟩ := Text.exists_lineStart hboundary
  rw [insertBefore, if_pos hstarts]
  exact .before hs ha.symm rfl rfl String.toList_append (head?_renderAll _ _) hbegins

/-- A guard goes behind the line of an assignment that only a remark follows there. -/
theorem lineWise_insertAfter (hend : file.text.toList.getLast? = some '\n')
    (hseated : Seated (Token.readAll file.text) statement)
    (hassignment : Placement.isAssignment statement = true)
    (hremark : isRemark (Text.slice file.text statement.stop
      (Text.lineEnd file.text statement.stop)) = true) :
    LineWise file.text (insertAfter file statement guards) := by
  obtain ⟨v, hv, hsolid, hstop⟩ := exists_last_of_isAssignment hseated hassignment
  obtain ⟨last, c, hc, hlast, _, hblank⟩ := Token.charAt_last hv hsolid
  have hne : c ≠ '\n' := by
    rintro rfl
    exact absurd hblank (by decide)
  obtain ⟨a, b, hs, ha, hbegins⟩ := Text.exists_lineEnd hend hc hne (hlast.trans hstop.symm)
  rw [insertAfter, if_pos hremark]
  exact .behind hs ha.symm rfl rfl String.toList_append hbegins

/-! ### Names of blanks -/

private theorem newline_notMem_placeholderName (line : Nat) :
    '\n' ∉ (Guard.placeholderName line).toList := by
  have hdigits : '\n' ∉ Nat.toDigits 10 line := fun hmem =>
    absurd (Nat.isDigit_of_mem_toDigits (by decide) (by decide) hmem) (by decide)
  have hline : (toString line).toList = Nat.toDigits 10 line := Nat.toList_repr
  rw [Guard.placeholderName, String.toList_append, hline]
  simp [hdigits]

/-- A single character is replaced within its line. -/
theorem lineWise_replace {text : String} (hc : CharAt file.text pos c) (hne : c ≠ '\n')
    (hsize : c.utf8Size = 1) (htext : '\n' ∉ text.toList) :
    LineWise file.text (.replace pos (pos + 1) text) := by
  obtain ⟨a, b, hs, rfl⟩ := hc
  have hcut : file.text.toList = a ++ [c] ++ b := by
    rw [hs, List.append_assoc, List.singleton_append]
  refine .inPlace hcut rfl ?_ rfl ?_ ⟨c, rfl, hne⟩ (by simpa using hne)
  · rw [Text.byteLength_cons, hsize, Text.byteLength_nil]
    rfl
  · rw [Edit.replace, List.count_eq_zero.mpr htext, List.count_singleton, if_neg
      (by simpa using hne)]

/-- To rename a blank leaves the lines as they are. -/
theorem lineWise_rename (h : file.OnTokens) (he : e ∈ (file.namings p).flatMap rename) :
    LineWise file.text e := by
  obtain ⟨naming, hnaming, he⟩ := List.mem_flatMap.mp he
  obtain ⟨assignment, hnames⟩ := exists_names h.inOrder (show (naming.1, naming.2) ∈ _ from hnaming)
  rw [rename] at he
  rcases List.mem_cons.mp he with rfl | he
  · obtain ⟨hmark, _⟩ := hnames.blank_marks h
    obtain ⟨placed, _, _, _, _, hname⟩ :=
      errorName_of_mem_namings h.inOrder (show (naming.1, naming.2) ∈ _ from hnaming)
    rw [hmark.stop, hname]
    exact lineWise_replace hmark.charAt (by decide) rfl (newline_notMem_placeholderName _)
  · obtain ⟨operator, hoperator, rfl⟩ := Option.map_eq_some_iff.mp (Option.mem_toList.mp he)
    obtain ⟨hmark, _⟩ := hnames.operator_marks h hoperator
    rw [hmark.stop]
    exact lineWise_replace hmark.charAt (by decide) rfl (by decide)

end Injection

end GoContracts

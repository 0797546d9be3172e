import GoContracts.Proofs.Syntax.Seats
import GoContracts.Weaving.Injection

/-!
# What goes with a directive

The comment of a directive is removed together with blanks around it and nothing else. So a removal
neither touches a name, literal or symbol nor reaches across a place where guards are inserted.
-/

namespace GoContracts

open Syntax (Tree Token Seated Kind)
open Text (CharAt Boundary Between isBlank)

/-- The range of an edit holds a comment and blanks around it. It begins on the first line of the
comment, and a newline behind the comment ends it if it begins with the line. -/
structure Removes (s : String) (u : Token) (e : Edit) : Prop where
  mem : u ∈ Token.readAll s
  comment : u.lexeme = .comment
  start_le : e.start ≤ u.start
  le_stop : u.stop ≤ e.stop
  stop_le : e.stop ≤ Text.size s
  boundary : Boundary s e.start
  before : Between s e.start u.start fun c => isBlank c = true ∧ c ≠ '\n'
  behind : ∀ pos c, CharAt s pos c → u.stop ≤ pos → pos < e.stop →
    isBlank c = true ∧ (c = '\n' → pos + 1 = e.stop ∧ e.start = Text.lineStart s u.start)

/-- Whether a position is not strictly inside the range of an edit. -/
def Edit.Spares (e : Edit) (pos : Nat) : Prop := pos ≤ e.start ∨ e.stop ≤ pos

namespace Removes

variable {s : String} {u v : Token} {e : Edit} {pos : Nat} {c : Char}

/-- What removes a comment is not empty. -/
theorem start_lt (h : Removes s u e) : e.start < e.stop := by
  have := (Token.ordered_readAll s).1 u h.mem
  have := h.start_le
  have := h.le_stop
  omega

/-- No character of another token that is no blank is removed. -/
theorem clear (h : Removes s u e) (hv : v ∈ Token.readAll s) (hne : v ≠ u) (hc : CharAt s pos c)
    (hsolid : isBlank c = false) (hle : v.start ≤ pos) (hlt : pos < v.stop) :
    pos < e.start ∨ e.stop ≤ pos := by
  by_contra hin
  obtain ⟨hstart, hstop⟩ := not_or.mp hin
  rcases Token.apart_of_ne hv h.mem hne with hbefore | hbehind
  · have := (h.before pos c hc (by omega) (by omega)).1
    simp [hsolid] at this
  · have := (h.behind pos c hc (by omega) (by omega)).1
    simp [hsolid] at this

/-- What is no comment is not removed. -/
theorem ne_of_isSolid (h : Removes s u e) (hsolid : v.IsSolid) : v ≠ u := by
  rintro rfl
  exact hsolid.2.1 h.comment

/-- A removal does not reach into a name, literal or symbol from the front. -/
theorem start_clear (h : Removes s u e) (hv : v ∈ Token.readAll s) (hsolid : v.IsSolid) :
    v.start < e.start ∨ e.stop ≤ v.start := by
  obtain ⟨c, hc, hblank⟩ := Token.charAt_start hv hsolid.1 hsolid.2.2
  exact h.clear hv (h.ne_of_isSolid hsolid) hc hblank (Nat.le_refl _)
    ((Token.ordered_readAll s).1 v hv)

/-- A removal does not begin or end inside the last character of a name, literal or symbol. -/
theorem spares_stop (h : Removes s u e) (hv : v ∈ Token.readAll s) (hsolid : v.IsSolid) :
    e.Spares v.stop := by
  obtain ⟨last, c, hc, hstop, hle, hblank⟩ := Token.charAt_last hv hsolid
  have hpos := c.utf8Size_pos
  rcases h.clear hv (h.ne_of_isSolid hsolid) hc hblank hle (by omega) with hlt | hle
  · have := hc.next_le h.boundary hlt
    exact .inl (by omega)
  · exact .inr (by omega)

/-! ### Line starts -/

/-- A removal does not reach across the start of a line whose first token is a name, literal or
symbol. -/
theorem spares_lineStart (h : Removes s u e) (hv : v ∈ Token.readAll s) (hsolid : v.IsSolid)
    (hstarts : Text.startsLine s v.start = true) : e.Spares (Text.lineStart s v.start) := by
  have hboundary := (Token.boundaries hv).1
  have hblank := (Text.startsLine_iff hboundary).mp hstarts
  have hrun := Text.lineStart_run hboundary
  rcases Text.lineStart_cases hboundary with hzero | ⟨prev, hprev, hnext⟩
  · exact .inl (by omega)
  by_contra hin
  obtain ⟨hstart, hstop⟩ := not_or.mp hin
  have hafter := hprev.next_le h.boundary
  have hnew : Char.utf8Size '\n' = 1 := rfl
  by_cases hbefore : prev < u.start
  · exact (h.before prev _ hprev (by omega) hbefore).2 rfl
  by_cases hbehind : u.stop ≤ prev
  · have := ((h.behind prev _ hprev hbehind (by omega)).2 rfl).1
    omega
  -- The newline stands in a block comment, whose closing mark is on the line of the token.
  rcases (Token.charAt_comment h.mem h.comment).2 with ⟨hline, _⟩ | ⟨_, last, hlast, hend, _⟩
  · exact hline prev _ hprev (by omega) (by omega) rfl
  · have hle := hrun.le
    have hne := h.ne_of_isSolid hsolid
    have hlastNe : last ≠ prev := by
      rintro rfl
      exact absurd (hlast.unique hprev) (by decide)
    rcases Token.apart_of_ne hv h.mem hne with hlt | hlt
    · have := (Token.ordered_readAll s).1 v hv
      omega
    · have := hblank last _ hlast (by omega) (by omega)
      exact absurd this (by decide)

end Removes

/-! ### Line ends -/

/-- Behind a position only a line comment stands on the line, or nothing but blanks. -/
def EndsInRemark (s : String) (pos : Nat) : Prop :=
  Between s pos (Text.lineEnd s pos) (isBlank · = true) ∨
    ∃ r ∈ Token.readAll s, r.lexeme = .comment ∧ pos ≤ r.start ∧ r.stop = Text.lineEnd s pos ∧
      Between s pos r.start (isBlank · = true)

private theorem cases_of_isRemark {m : List Char}
    (h : Injection.isRemark (String.ofList m) = true) :
    (∀ c ∈ m, isBlank c = true) ∨
      ∃ x y, m = x ++ '/' :: '/' :: y ∧ ∀ c ∈ x, isBlank c = true := by
  have hm : m.takeWhile isBlank ++ m.dropWhile isBlank = m := List.takeWhile_append_dropWhile
  have hx : ∀ c ∈ m.takeWhile isBlank, isBlank c = true := fun c hc =>
    List.all_eq_true.mp List.all_takeWhile c hc
  have hprefix : Text.stripWhile isBlank m <+: m.dropWhile isBlank := by
    rw [Text.stripWhile, Text.dropEndWhile]
    have := List.reverse_prefix.mpr
      (List.dropWhile_suffix isBlank (l := (m.dropWhile isBlank).reverse))
    rwa [List.reverse_reverse] at this
  unfold Injection.isRemark at h
  rw [Text.trim, String.toList_ofList, String.toList_ofList] at h
  split at h
  · next hnil =>
    have hcount := Text.countP_stripWhile isBlank m
    rw [hnil, List.countP_nil] at hcount
    refine .inl fun c hc => ?_
    simpa using List.countP_eq_zero.mp hcount.symm c hc
  · next y hslashes =>
    rw [hslashes] at hprefix
    obtain ⟨z, hz⟩ := hprefix
    refine .inr ⟨m.takeWhile isBlank, y ++ z, ?_, hx⟩
    rw [← List.cons_append, ← List.cons_append, hz, hm]
  · simp at h

/-- A text without null characters ends each line comment at the end of its line. -/
theorem endsInRemark {s : String} {v : Token} (hnull : '\x00' ∉ s.toList)
    (hv : v ∈ Token.readAll s)
    (h : Injection.isRemark (Text.slice s v.stop (Text.lineEnd s v.stop)) = true) :
    EndsInRemark s v.stop := by
  have hboundary := (Token.boundaries hv).2
  have hrun := Text.lineEnd_run hboundary
  obtain ⟨a, m, b, hs, ha, hend, hslice⟩ := hboundary.exists_cut hrun.boundary hrun.le
  rw [hslice] at h
  rcases cases_of_isRemark h with hblank | ⟨x, y, rfl, hblank⟩
  · refine .inl ?_
    rw [← hend, ← ha]
    exact (Text.between_iff hs).mpr hblank
  -- The tokens before the first slash are blanks of one character each.
  have hslash : Char.utf8Size '/' = 1 := rfl
  have hfirst : CharAt s (v.stop + Text.byteLength x) '/' :=
    ⟨a ++ x, '/' :: y ++ b, by simp [hs], by rw [Text.byteLength_append, ha]⟩
  have hsecond : CharAt s (v.stop + Text.byteLength x + 1) '/' :=
    ⟨a ++ x ++ ['/'], y ++ b, by simp [hs], by
      rw [Text.byteLength_append, Text.byteLength_append, ha, Text.byteLength_cons, hslash]
      rfl⟩
  have hspace : Between s v.stop (v.stop + Text.byteLength x) (isBlank · = true) := by
    rw [← ha]
    exact (Text.between_iff (m := x) (b := '/' :: '/' :: y ++ b) (by simp [hs])).mpr hblank
  have hlength := Text.byteLength_append x ('/' :: '/' :: y)
  rw [Text.byteLength_cons, Text.byteLength_cons, hslash] at hlength
  obtain ⟨r, hr, hnew, hle, hlt⟩ := Token.exists_mem_readAll hfirst (by decide) (by decide)
  have hbehind : v.stop ≤ r.start := by
    by_cases hvr : v = r
    · subst hvr
      omega
    rcases Token.apart_of_ne hv hr hvr with hle | hle
    · exact hle
    · have := (Token.ordered_readAll s).1 v hv
      omega
  have hstart : r.start = v.stop + Text.byteLength x := by
    by_contra hne
    obtain ⟨c, hc⟩ := (Token.boundaries hr).1.exists_charAt (by
      have := hfirst.boundary.le_size
      omega)
    have hstop := Token.stop_of_isBlank hr hc (hspace _ c hc hbehind (by omega))
    have := hc.next_le hfirst.boundary (by omega)
    omega
  rw [← hstart] at hfirst hsecond hspace
  have hcomment := Token.lexeme_of_charAt hr hfirst hsecond
  refine .inr ⟨r, hr, hcomment, hbehind, ?_, hspace⟩
  rcases (Token.charAt_comment hr hcomment).2 with ⟨hline, hfinal⟩ | ⟨hblock, _⟩
  · have hnew : r.stop = Text.size s ∨ CharAt s r.stop '\n' := by
      rcases hfinal with hsize | hnew | ⟨c, d, hs', _⟩
      · exact .inl hsize
      · exact .inr hnew
      · exact absurd (hs' ▸ by simp) hnull
    have hinside := (Token.boundaries hr).2.le_size
    refine Nat.le_antisymm ?_ ?_
    · by_contra hlt
      rcases Text.lineEnd_cases hboundary with hsize | hat
      · omega
      · exact hline _ _ hat (by omega) (by omega) rfl
    · by_contra hlt
      rcases hnew with hsize | hat
      · have := hrun.boundary.le_size
        omega
      · exact absurd (hrun.run _ _ hat (by omega) (by omega)) (by decide)
  · exact absurd (hblock.unique hsecond) (by decide)

namespace EndsInRemark

variable {s : String} {v w : Token}

/-- A token behind such a position stands behind its line. -/
theorem le_start (h : EndsInRemark s v.stop) (hw : w ∈ Token.readAll s)
    (hsolid : w.IsSolid) (hle : v.stop ≤ w.start) : Text.lineEnd s v.stop ≤ w.start := by
  obtain ⟨c, hc, hblank⟩ := Token.charAt_start hw hsolid.1 hsolid.2.2
  by_contra hlt
  rcases h with hrest | ⟨r, hr, hcomment, _, hstop, hspace⟩
  · have := hrest _ c hc hle (by omega)
    simp [hblank] at this
  · have hne : w ≠ r := by
      rintro rfl
      exact hsolid.2.1 hcomment
    have hpos := (Token.ordered_readAll s).1 w hw
    rcases Token.apart_of_ne hw hr hne with hbefore | hbehind
    · have := hspace _ c hc hle (by omega)
      simp [hblank] at this
    · omega

/-- A removal does not reach across the end of a line that ends in a remark. -/
theorem spares {u : Token} {e : Edit} (h : EndsInRemark s v.stop) (hremoves : Removes s u e)
    (hv : v ∈ Token.readAll s) (hsolid : v.IsSolid) : e.Spares (Text.lineEnd s v.stop) := by
  have hboundary := (Token.boundaries hv).2
  have hrun := Text.lineEnd_run hboundary
  have hrunLe := hrun.le
  rcases Text.lineEnd_cases hboundary with hsize | hnew
  · have := hremoves.stop_le
    exact .inr (by omega)
  by_contra hin
  obtain ⟨hstart, hstop⟩ := not_or.mp hin
  have hle := hremoves.start_le
  by_cases hbefore : Text.lineEnd s v.stop < u.start
  · exact (hremoves.before _ _ hnew (by omega) hbefore).2 rfl
  have hslash := (Token.charAt_comment hremoves.mem hremoves.comment).1
  have hcolumn : Text.lineEnd s v.stop ≠ u.start := by
    intro heq
    rw [heq] at hnew
    exact absurd (hnew.unique hslash) (by decide)
  have hapart := Token.apart_of_ne hv hremoves.mem (hremoves.ne_of_isSolid hsolid)
  have hposv := (Token.ordered_readAll s).1 v hv
  by_cases hbehind : u.stop ≤ Text.lineEnd s v.stop
  · -- The comment stands on the line alone, so the token before the line end stands before it.
    obtain ⟨hend, hfirst⟩ := (hremoves.behind _ _ hnew hbehind (by omega)).2 rfl
    obtain ⟨last, c, hc, hlast, hcle, hblank⟩ := Token.charAt_last hv hsolid
    have hpos := c.utf8Size_pos
    rcases hremoves.clear hv (hremoves.ne_of_isSolid hsolid) hc hblank hcle (by omega) with
      hlt | hle
    · have hnext := hc.next_le hremoves.boundary hlt
      rcases Text.lineStart_cases (Token.boundaries hremoves.mem).1 with hzero |
        ⟨prev, hprev, hline⟩
      · omega
      · have hne : last ≠ prev := by
          rintro rfl
          obtain rfl := hc.unique hprev
          exact absurd hblank (by decide)
        have hprevBehind : v.stop ≤ prev := by
          by_contra hlt
          have := hprev.next_le (Token.boundaries hv).2 (by omega)
          have hat := hc.next_le hprev.boundary
          have hback := hprev.next_le hc.boundary
          omega
        exact absurd (hrun.run prev _ hprev hprevBehind (by omega)) (by decide)
    · omega
  · -- The newline stands in a block comment, which would begin in the remark.
    have hstartBehind : v.stop ≤ u.start := by omega
    rcases h with hrest | ⟨r, hr, hcomment, _, hrstop, hspace⟩
    · exact absurd (hrest _ _ hslash hstartBehind (by omega)) (by decide)
    · have hne : u ≠ r := by
        rintro rfl
        omega
      rcases Token.apart_of_ne hremoves.mem hr hne with hle | hle
      · exact absurd (hspace _ _ hslash hstartBehind (by
          have := (Token.ordered_readAll s).1 u hremoves.mem
          omega)) (by decide)
      · omega

end EndsInRemark

/-- A node stands before the line that begins with a token behind it. -/
theorem stop_le_lineStart {s : String} {v w : Token} (hv : v ∈ Token.readAll s)
    (hw : w ∈ Token.readAll s) (hend : v.IsSolid ∨ v.lexeme = .newline) (hle : v.stop ≤ w.start)
    (hstarts : Text.startsLine s w.start = true) : v.stop ≤ Text.lineStart s w.start := by
  have hboundary := (Token.boundaries hw).1
  have hblank := (Text.startsLine_iff hboundary).mp hstarts
  have hrun := Text.lineStart_run hboundary
  by_contra hlt
  have hlast : ∃ last c, CharAt s last c ∧ last + c.utf8Size = v.stop ∧
      (isBlank c = false ∨ c = '\n') := by
    rcases hend with hsolid | hnew
    · obtain ⟨last, c, hc, hstop, _, hsolid⟩ := Token.charAt_last hv hsolid
      exact ⟨last, c, hc, hstop, .inl hsolid⟩
    · obtain ⟨hc, hstop⟩ := Token.charAt_newline hv hnew
      exact ⟨_, _, hc, hstop.symm, .inr rfl⟩
  obtain ⟨last, c, hc, hstop, hkind⟩ := hlast
  have hlineLe : Text.lineStart s w.start ≤ last := by
    by_contra hgt
    have := hc.next_le hrun.boundary (by omega)
    omega
  have hpos := c.utf8Size_pos
  rcases hkind with hsolid | rfl
  · have := hblank _ c hc hlineLe (by omega)
    simp [hsolid] at this
  · exact absurd (hrun.run _ _ hc hlineLe (by omega)) (by decide)

/-! ### The removal of a directive -/

namespace Injection

variable {file : SourceFile} {anchor : Anchor} {u : Token}

/-- The comment that holds a directive. -/
structure Holds (file : SourceFile) (u : Token) (anchor : Anchor) : Prop where
  mem : u ∈ Token.readAll file.text
  comment : u.lexeme = .comment
  start : anchor.start = u.start
  stop : anchor.stop = u.stop
  inline : anchor.inline = !Text.startsLine file.text u.start

/-- Each directive is held by a comment. -/
theorem exists_holds (h : file.OnTokens) (hanchor : anchor ∈ file.anchors) :
    ∃ u, Holds file u anchor :=
  let ⟨u, hu, hcomment, hstart, hstop, hinline⟩ := h.anchor hanchor
  ⟨u, hu, hcomment, hstart, hstop, hinline⟩

/-- A comment goes with its lines, with what indents the code behind it, or with the blanks before
it. -/
theorem Holds.strip_cases (h : Holds file u anchor) :
    (Text.startsLine file.text u.start = true ∧ Text.endsLine file.text u.stop = true ∧
      (strip file anchor).start = Text.lineStart file.text u.start ∧
      (strip file anchor).stop = min (Text.lineEnd file.text u.stop + 1) (Text.size file.text)) ∨
    (Text.startsLine file.text u.start = true ∧ Text.endsLine file.text u.stop = false ∧
      (strip file anchor).start = u.start ∧
      (strip file anchor).stop = Text.indentEnd file.text u.stop) ∨
    (Text.startsLine file.text u.start = false ∧
      (strip file anchor).start = Text.indentStart file.text u.start ∧
      (strip file anchor).stop = u.stop) := by
  unfold strip standsAlone
  rw [h.inline, h.start, h.stop]
  cases hstarts : Text.startsLine file.text u.start with
  | false => exact .inr (.inr ⟨rfl, rfl, rfl⟩)
  | true =>
    cases hends : Text.endsLine file.text u.stop with
    | false => exact .inr (.inl ⟨rfl, rfl, rfl, rfl⟩)
    | true => exact .inl ⟨rfl, rfl, rfl, rfl⟩

/-- The removal of a directive removes its comment and blanks around it. -/
theorem Holds.removes (h : Holds file u anchor) : Removes file.text u (strip file anchor) := by
  obtain ⟨hfirst, hlast⟩ := Token.boundaries h.mem
  have hlineStart := Text.lineStart_run hfirst
  have hlineEnd := Text.lineEnd_run hlast
  rcases h.strip_cases with ⟨hstarts, hends, hstart, hstop⟩ | ⟨_, _, hstart, hstop⟩ |
    ⟨_, hstart, hstop⟩
  · have hbefore := (Text.startsLine_iff hfirst).mp hstarts
    have hbehind := (Text.endsLine_iff hlast).mp hends
    have hend := hlineEnd.boundary.le_size
    have hlineEndLe := hlineEnd.le
    have hsize := hlast.le_size
    refine ⟨h.mem, h.comment, hstart ▸ hlineStart.le, by omega, by omega,
      hstart ▸ hlineStart.boundary, fun pos c hc hle hlt => ?_, fun pos c hc hle hlt => ?_⟩
    · rw [hstart] at hle
      exact ⟨hbefore pos c hc hle hlt, bne_iff_ne.mp (hlineStart.run pos c hc hle hlt)⟩
    · by_cases hin : pos < Text.lineEnd file.text u.stop
      · exact ⟨hbehind pos c hc hle hin, fun hnew =>
          absurd hnew (bne_iff_ne.mp (hlineEnd.run pos c hc hle hin))⟩
      · obtain rfl : pos = Text.lineEnd file.text u.stop := by omega
        rcases Text.lineEnd_cases hlast with hsize | hnew
        · omega
        · obtain rfl := hc.unique hnew
          exact ⟨by decide, fun _ => ⟨by omega, hstart⟩⟩
  · have hindent := Text.indentEnd_run hlast
    refine ⟨h.mem, h.comment, Nat.le_of_eq hstart, hstop ▸ hindent.le,
      hstop ▸ hindent.boundary.le_size, hstart ▸ hfirst, fun pos c hc hle hlt => ?_,
      fun pos c hc hle hlt => ?_⟩
    · omega
    · rw [hstop] at hlt
      obtain ⟨hblank, hnew⟩ := Text.isBlank_of_isIndent (hindent.run pos c hc hle hlt)
      exact ⟨hblank, fun heq => absurd heq hnew⟩
  · have hindent := Text.indentStart_run hfirst
    refine ⟨h.mem, h.comment, hstart ▸ hindent.le, Nat.le_of_eq hstop.symm,
      hstop ▸ hlast.le_size, hstart ▸ hindent.boundary, fun pos c hc hle hlt => ?_,
      fun pos c hc hle hlt => ?_⟩
    · rw [hstart] at hle
      exact Text.isBlank_of_isIndent (hindent.run pos c hc hle hlt)
    · omega

/-- To remove a directive removes its comment. -/
theorem removes_strip (h : file.OnTokens) (hanchor : anchor ∈ file.anchors) :
    ∃ u, Removes file.text u (strip file anchor) :=
  let ⟨u, hu⟩ := exists_holds h hanchor
  ⟨u, hu.removes⟩

end Injection

end GoContracts

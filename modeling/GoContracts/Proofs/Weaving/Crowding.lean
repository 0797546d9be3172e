import GoContracts.Proofs.Weaving.Retention

/-!
# Directives side by side

The comments of two directives are removed both, unless one of them begins a line and only spaces
and tabs stand between the two: these go with the first one, and the second one stays.
-/

namespace GoContracts

open Syntax (Tree Token)
open Text (CharAt Boundary Between isBlank isIndent)

namespace Injection

variable {file : SourceFile} {a b anchor : Anchor} {u w : Token}

/-- Whether a directive begins its line and only spaces and tabs stand between it and another. -/
def Crowds (file : SourceFile) (a b : Anchor) : Prop :=
  a.inline = false ∧ a.stop < b.start ∧ Between file.text a.stop b.start (isIndent · = true)

/-- What stands before the end of a comment that something follows on its line is its closing
slash, and it is no newline anyway. -/
theorem comment_last {s : String} (hnull : '\x00' ∉ s.toList) (hu : u ∈ Token.readAll s)
    (hcomment : u.lexeme = .comment) :
    (CharAt s u.stop '\n' ∨ u.stop = Text.size s) ∧ Between s u.start u.stop (· ≠ '\n') ∨
      ∃ last, CharAt s last '/' ∧ last + 1 = u.stop ∧ u.start < last := by
  rcases (Token.charAt_comment hu hcomment).2 with ⟨hline, hend⟩ | ⟨_, hlast⟩
  · refine .inl ⟨?_, hline⟩
    rcases hend with hsize | hnew | ⟨x, y, hs, _⟩
    · exact .inr hsize
    · exact .inl hnew
    · exact absurd (hs ▸ by simp) hnull
  · exact .inr hlast

/-- A comment does not begin its line if a comment ends on the line before it. -/
theorem startsLine_behind {s : String} (hnull : '\x00' ∉ s.toList) (hu : u ∈ Token.readAll s)
    (hcomment : u.lexeme = .comment) (hw : w ∈ Token.readAll s) (hcomment' : w.lexeme = .comment)
    (hle : u.stop ≤ w.start) (hline : Between s u.stop w.start (· ≠ '\n')) :
    Text.startsLine s w.start = false ∧ ∃ last, CharAt s last '/' ∧ last + 1 = u.stop := by
  have hslash := (Token.charAt_comment hw hcomment').1
  have hfirst := hslash.boundary
  rcases comment_last hnull hu hcomment with ⟨hnew | hsize, _⟩ | ⟨last, hlast, hend, _⟩
  · rcases Nat.lt_or_eq_of_le hle with hlt | heq
    · exact absurd rfl (hline _ _ hnew (Nat.le_refl _) hlt)
    · exact absurd (hslash.unique (heq ▸ hnew)) (by decide)
  · have := (Token.ordered_readAll s).1 w hw
    have := Token.stop_le_size hw
    omega
  · refine ⟨?_, last, hlast, hend⟩
    by_contra hstarts
    have hblank := (Text.startsLine_iff hfirst).mp (Bool.not_eq_false _ ▸ hstarts)
    refine absurd (hblank last _ hlast ?_ (by omega)) (by decide)
    by_contra hgt
    have hrun := (Text.lineStart_run hfirst).le
    rcases Text.lineStart_cases hfirst with hzero | ⟨prev, hprev, hnext⟩
    · omega
    · by_cases hsame : prev = last
      · rw [hsame] at hprev
        exact absurd (hprev.unique hlast) (by decide)
      · exact hline prev _ hprev (by omega) (by omega) rfl

section

variable (hnull : '\x00' ∉ file.text.toList) (ha : Holds file u a) (hb : Holds file w b)
  (hle : u.stop ≤ w.start)
include hnull ha hb hle

/-- If the removals of two directives overlap, they share blanks between the comments. -/
theorem between_of_not_apart (h : ¬Edit.Apart (strip file a) (strip file b)) :
    u.stop ≤ (strip file b).start ∧ (strip file b).start < (strip file a).stop ∧
      (strip file a).stop ≤ w.start := by
  have hra := ha.removes
  have hrb := hb.removes
  have hposu := (Token.ordered_readAll file.text).1 u ha.mem
  have hposw := (Token.ordered_readAll file.text).1 w hb.mem
  have hne : u ≠ w := by
    rintro rfl
    omega
  rw [Edit.Apart, not_or, Nat.not_le, Nat.not_le] at h
  have hslash := (Token.charAt_comment hb.mem hb.comment).1
  have hstop : (strip file a).stop ≤ w.start := by
    have hclear := hra.clear hb.mem hne.symm hslash (by decide) (Nat.le_refl _) hposw
    have := hra.start_le
    omega
  refine ⟨?_, h.1, hstop⟩
  by_contra hlt
  rcases comment_last hnull ha.mem ha.comment with ⟨hnew | hsize, _⟩ | ⟨last, hlast, hend, hafter⟩
  · have hcolumn : u.stop ≠ w.start := by
      intro heq
      rw [heq] at hnew
      exact absurd (hnew.unique hslash) (by decide)
    exact (hrb.before _ _ hnew (by omega) (by omega)).2 rfl
  · have := hslash.boundary.le_size
    have := Token.stop_le_size hb.mem
    omega
  · have hclear := hrb.clear ha.mem hne hlast (by decide) (by omega) (by omega)
    have := hrb.le_stop
    have hmark : Char.utf8Size '/' = 1 := rfl
    have hnext := hlast.next_le hrb.boundary
    omega

/-- The removals of two directives overlap only if the first one crowds the second. -/
theorem crowds_of_not_apart (h : ¬Edit.Apart (strip file a) (strip file b)) : Crowds file a b := by
  have hra := ha.removes
  have hrb := hb.removes
  obtain ⟨hbstart, hoverlap, hastop⟩ := between_of_not_apart hnull ha hb hle h
  have hlastu := (Token.boundaries ha.mem).2
  have hfirstw := (Token.boundaries hb.mem).1
  have hposu := (Token.ordered_readAll file.text).1 u ha.mem
  rcases ha.strip_cases with ⟨_, _, _, hstop⟩ | ⟨hstarts, _, _, hstop⟩ | ⟨_, _, hstop⟩
  · have := Token.stop_le_size hb.mem
    have := (Token.ordered_readAll file.text).1 w hb.mem
    rcases Text.lineEnd_cases hlastu with hsize | hnew
    · omega
    · exact absurd rfl (hrb.before _ _ hnew (by omega) (by omega)).2
  · have hindentu := Text.indentEnd_run hlastu
    rcases hb.strip_cases with ⟨_, _, hstart, _⟩ | ⟨_, _, hstart, _⟩ | ⟨_, hstart, _⟩
    · rcases Text.lineStart_cases hfirstw with hzero | ⟨prev, hprev, hnext⟩
      · omega
      · by_cases hbehind : u.stop ≤ prev
        · have := hindentu.run prev _ hprev hbehind (by omega)
          exact absurd this (by decide)
        · have hprevu : prev + 1 = u.stop := by omega
          rcases comment_last hnull ha.mem ha.comment with ⟨_, hline⟩ | ⟨last, hlast, hend, _⟩
          · exact absurd rfl (hline prev _ hprev (by omega) (by omega))
          · obtain rfl : last = prev := by omega
            exact absurd (hlast.unique hprev) (by decide)
    · omega
    · have hindentw := Text.indentStart_run hfirstw
      refine ⟨by rw [ha.inline, hstarts]; rfl, by rw [ha.stop, hb.start]; omega, ?_⟩
      rw [ha.stop, hb.start]
      intro pos c hc hlo hhi
      by_cases hin : pos < (strip file a).stop
      · exact hindentu.run pos c hc hlo (by omega)
      · exact hindentw.run pos c hc (by omega) hhi
  · omega

/-- A directive that is crowded stands behind a block comment on its line. -/
theorem inline_of_crowds (h : Crowds file a b) : b.inline = true ∧
    Text.endsLine file.text u.stop = false := by
  obtain ⟨_, hlt, hspace⟩ := h
  rw [ha.stop, hb.start] at hlt hspace
  have hlastu := (Token.boundaries ha.mem).2
  have hfirstw := (Token.boundaries hb.mem).1
  have hslash := (Token.charAt_comment hb.mem hb.comment).1
  constructor
  · rw [hb.inline, (startsLine_behind hnull ha.mem ha.comment hb.mem hb.comment hle
      fun pos c hc hlo hhi => (Text.isBlank_of_isIndent (hspace pos c hc hlo hhi)).2).1]
    rfl
  · by_contra hends
    have hblank := (Text.endsLine_iff hlastu).mp (Bool.not_eq_false _ ▸ hends)
    have hbehind : w.start < Text.lineEnd file.text u.stop := by
      have hrun := Text.lineEnd_run hlastu
      rcases Text.lineEnd_cases hlastu with hsize | hnew
      · have := (Token.ordered_readAll file.text).1 w hb.mem
        have := Token.stop_le_size hb.mem
        omega
      · by_contra hge
        by_cases hsame : Text.lineEnd file.text u.stop = w.start
        · rw [hsame] at hnew
          exact absurd (hnew.unique hslash) (by decide)
        · exact absurd (hspace _ _ hnew hrun.le (by omega)) (by decide)
    exact absurd (hblank _ _ hslash hle hbehind) (by decide)

/-- The removal of a directive reaches into the removal of one that it crowds. -/
theorem overlap_of_crowds (h : Crowds file a b) :
    (strip file a).start < (strip file b).start ∧
      (strip file b).start < (strip file a).stop := by
  obtain ⟨hinline, hends⟩ := inline_of_crowds hnull ha hb hle h
  obtain ⟨hstarts, hlt, hspace⟩ := h
  rw [ha.inline, Bool.not_eq_false'] at hstarts
  rw [hb.inline, Bool.not_eq_true'] at hinline
  rw [ha.stop, hb.start] at hlt hspace
  have hra := ha.removes
  have hrb := hb.removes
  have hlastu := (Token.boundaries ha.mem).2
  have hfirstw := (Token.boundaries hb.mem).1
  have hposu := (Token.ordered_readAll file.text).1 u ha.mem
  obtain ⟨hstarta, hstopa⟩ : (strip file a).start = u.start ∧
      (strip file a).stop = Text.indentEnd file.text u.stop := by
    rcases ha.strip_cases with ⟨_, hother, _⟩ | ⟨_, _, hstart, hstop⟩ | ⟨hother, _⟩
    · simp [hends] at hother
    · exact ⟨hstart, hstop⟩
    · simp [hstarts] at hother
  have hstartb : (strip file b).start = Text.indentStart file.text w.start := by
    rcases hb.strip_cases with ⟨hother, _⟩ | ⟨hother, _⟩ | ⟨_, hstart, _⟩
    · simp [hinline] at hother
    · simp [hinline] at hother
    · exact hstart
  have hstop : w.start ≤ (strip file a).stop := by
    have hrun := Text.indentEnd_run hlastu
    rw [hstopa]
    by_contra hgt
    rcases hrun.maximal with hsize | ⟨c, hc, hno⟩
    · have := hfirstw.le_size
      omega
    · have := hspace _ c hc hrun.le (by omega)
      simp [hno] at this
  have hstart : (strip file b).start ≤ u.stop := by
    have hrun := Text.indentStart_run hfirstw
    have hrunLe := hrun.le
    rw [hstartb]
    by_contra hgt
    rcases hrun.maximal with hzero | ⟨prev, c, hc, hnext, hno⟩
    · omega
    · have hbehind : u.stop ≤ prev := by
        by_contra hlt
        have := hc.next_le hlastu (by omega)
        omega
      have := hspace prev c hc hbehind (by
        have := c.utf8Size_pos
        omega)
      simp [hno] at this
  refine ⟨?_, by omega⟩
  -- The removal of the second comment does not reach over the first one.
  have hslash := (Token.charAt_comment ha.mem ha.comment).1
  have hne : u ≠ w := by
    rintro rfl
    omega
  have hclear := hrb.clear ha.mem hne hslash (by decide) (Nat.le_refl _) hposu
  have := hrb.le_stop
  have := (Token.ordered_readAll file.text).1 w hb.mem
  omega

end

/-! ### Which directives are removed -/

variable {p : Package} {demands : List Demand} {reports : List Diagnostic}

/-- The edits of a file that are applied, in their order. -/
def applied (file : SourceFile) (namings : List (Tree × ErrorTarget)) (demands : List Demand) :
    List Edit :=
  Edit.kept file.text 0 ((allEdits file namings demands).mergeSort Edit.ordered)

/-- Different directives are held by different comments. -/
theorem apart_tokens (h : file.OnTokens) (hanchor : a ∈ file.anchors) (hother : b ∈ file.anchors)
    (hne : a ≠ b) (ha : Holds file u a) (hb : Holds file w b) :
    u.stop ≤ w.start ∨ w.stop ≤ u.start := by
  refine Token.apart_of_ne ha.mem hb.mem ?_
  rintro rfl
  have hstart : a.start = b.start := ha.start.trans hb.start.symm
  have hstarts : file.anchors.Pairwise fun x y => x.start ≠ y.start :=
    h.inOrder.pairwise_anchors.imp fun hlt => Nat.ne_of_lt hlt
  exact hne (List.inj_on_of_nodup_map (List.pairwise_map.mpr hstarts) hanchor hother hstart)

/-- The edits that are applied stand side by side. -/
theorem pairwise_applied {namings : List (Tree × ErrorTarget)}
    (h : ∀ e ∈ allEdits file namings demands, e.start ≤ e.stop) :
    (applied file namings demands).Pairwise fun e e' => e.stop ≤ e'.start :=
  (Edit.pairwise_kept fun e he => h e ((List.mergeSort_perm (allEdits file namings demands)
    Edit.ordered).mem_iff.mp he)).2

private theorem apart_of_mem_applied {namings : List (Tree × ErrorTarget)} {e e' : Edit}
    (h : ∀ e ∈ allEdits file namings demands, e.start ≤ e.stop)
    (he : e ∈ applied file namings demands) (he' : e' ∈ applied file namings demands)
    (hne : e ≠ e') : Edit.Apart e e' :=
  List.Pairwise.forall_of_forall_of_flip (R := fun x y : Edit => x ≠ y → Edit.Apart x y)
    (fun _ _ hne => absurd rfl hne) ((pairwise_applied h).imp fun hle _ => .inl hle)
    ((pairwise_applied h).imp fun hle _ => .inr hle) he he' hne

section

variable (h : file.OnTokens) (hwoven : Woven p file demands reports)
  (hnull : '\x00' ∉ file.text.toList)
include h hwoven hnull

/-- Edits end behind their beginning. -/
theorem le_of_mem_allEdits {e : Edit} (he : e ∈ allEdits file (file.namings p) demands) :
    e.start ≤ e.stop := by
  obtain ⟨imports, himports, hall⟩ := allEdits_eq file (file.namings p) demands
  rw [hall, List.mem_append, List.mem_append] at he
  rcases he with he | he | he
  · obtain ⟨anchor, hanchor, rfl⟩ := List.mem_map.mp he
    obtain ⟨u, hremoves⟩ := removes_strip h hanchor
    exact Nat.le_of_lt hremoves.start_lt
  · exact (clear_written h hwoven hnull he).le
  · exact Nat.le_of_eq (himports e (Option.mem_toList.mp he))

/-- An edit that goes before the removal of a directive ends before it, unless its own directive
crowds the other one. -/
theorem stop_le_of_ordered {e : Edit} (he : e ∈ allEdits file (file.namings p) demands)
    (hb : b ∈ file.anchors) (hfree : ∀ a ∈ file.anchors, ¬Crowds file a b) (hne : e ≠ strip file b)
    (hordered : Edit.ordered e (strip file b) = true) : e.stop ≤ (strip file b).start := by
  obtain ⟨w, hw⟩ := exists_holds h hb
  have hlt := hw.removes.start_lt
  rw [Edit.ordered_iff] at hordered
  have hapart : Edit.Apart e (strip file b) → e.stop ≤ (strip file b).start := by
    intro hapart
    rw [Edit.Apart] at hapart
    omega
  obtain ⟨imports, himports, hall⟩ := allEdits_eq file (file.namings p) demands
  rw [hall, List.mem_append, List.mem_append] at he
  rcases he with he | he | he
  · obtain ⟨a, ha, rfl⟩ := List.mem_map.mp he
    obtain ⟨u, hu⟩ := exists_holds h ha
    have hab : a ≠ b := fun heq => hne (heq ▸ rfl)
    refine hapart ?_
    by_contra hoverlap
    rcases apart_tokens h ha hb hab hu hw with hle | hle
    · exact hfree a ha (crowds_of_not_apart hnull hu hw hle hoverlap)
    · have hcrowds := crowds_of_not_apart hnull hw hu hle fun hapart => hoverlap hapart.symm
      have := overlap_of_crowds hnull hw hu hle hcrowds
      omega
  · exact hapart ((clear_written h hwoven hnull he).apart b hb).symm
  · have := himports e (Option.mem_toList.mp he)
    omega

/-- A directive that none crowds is removed. -/
theorem strip_mem_applied (hb : b ∈ file.anchors)
    (hfree : ∀ a ∈ file.anchors, ¬Crowds file a b) :
    strip file b ∈ applied file (file.namings p) demands := by
  have hperm := List.mergeSort_perm (allEdits file (file.namings p) demands) Edit.ordered
  have hmem : strip file b ∈ allEdits file (file.namings p) demands := by
    obtain ⟨imports, _, hall⟩ := allEdits_eq file (file.namings p) demands
    rw [hall]
    exact List.mem_append_left _ (List.mem_map_of_mem hb)
  obtain ⟨earlier, later, hsorted, hnone⟩ := List.eq_append_cons_of_mem (hperm.mem_iff.mpr hmem)
  have horder := List.pairwise_mergeSort Edit.ordered_trans Edit.ordered_total
    (allEdits file (file.namings p) demands)
  obtain ⟨u, hremoves⟩ := removes_strip h hb
  rw [applied]
  rw [hsorted] at horder ⊢
  refine Edit.mem_kept later (Nat.zero_le _) hremoves.stop_le fun e he => ?_
  have hin : e ∈ allEdits file (file.namings p) demands :=
    hperm.mem_iff.mp (hsorted ▸ List.mem_append_left _ he)
  have hne : e ≠ strip file b := fun heq => hnone (heq ▸ he)
  exact stop_le_of_ordered h hwoven hnull hin hb hfree hne
    ((List.pairwise_append.mp horder).2.2 e he _ (List.mem_cons_self ..))

/-- A directive is removed exactly if none crowds it. -/
theorem strip_mem_applied_iff (hb : b ∈ file.anchors) :
    strip file b ∈ applied file (file.namings p) demands ↔
      ∀ a ∈ file.anchors, ¬Crowds file a b := by
  refine ⟨fun hmem a ha hcrowds => ?_, strip_mem_applied h hwoven hnull hb⟩
  obtain ⟨u, hu⟩ := exists_holds h ha
  obtain ⟨w, hw⟩ := exists_holds h hb
  have hle : u.stop ≤ w.start := by
    have := hcrowds.2.1
    rw [hu.stop, hw.start] at this
    omega
  have hoverlap := overlap_of_crowds hnull hu hw hle hcrowds
  have hfirst : strip file a ∈ applied file (file.namings p) demands := by
    refine strip_mem_applied h hwoven hnull ha fun x hx hother => ?_
    obtain ⟨v, hv⟩ := exists_holds h hx
    have hbefore : v.stop ≤ u.start := by
      have := hother.2.1
      rw [hv.stop, hu.start] at this
      omega
    have := (inline_of_crowds hnull hv hu hbefore hother).1
    rw [hcrowds.1] at this
    exact Bool.false_ne_true this
  have hapart := apart_of_mem_applied (fun e he => le_of_mem_allEdits h hwoven hnull he) hfirst hmem
    (fun heq => by rw [heq] at hoverlap; omega)
  have := hw.removes.start_lt
  rw [Edit.Apart] at hapart
  omega

end

end Injection

end GoContracts

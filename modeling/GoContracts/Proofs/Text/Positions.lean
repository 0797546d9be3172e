import GoContracts.Proofs.Text.Slices

/-!
# Characters at positions

Which characters stand between two positions of a text, and what this says about the ends of lines
and the runs of blanks around a position.
-/

namespace GoContracts.Text

/-- Whether the character `c` begins at a position. -/
def CharAt (s : String) (pos : Nat) (c : Char) : Prop :=
  ∃ a b, s.toList = a ++ c :: b ∧ byteLength a = pos

/-- Whether a position cuts no character. -/
def Boundary (s : String) (pos : Nat) : Prop := ∃ a b, s.toList = a ++ b ∧ byteLength a = pos

/-- Whether all characters that begin between two positions satisfy `P`. -/
def Between (s : String) (start stop : Nat) (P : Char → Prop) : Prop :=
  ∀ pos c, CharAt s pos c → start ≤ pos → pos < stop → P c

variable {s : String} {pos start stop : Nat} {c : Char}

/-! ### Boundaries -/

/-- A text begins at a boundary. -/
theorem boundary_zero (s : String) : Boundary s 0 := ⟨[], s.toList, rfl, rfl⟩

/-- A text ends at a boundary. -/
theorem boundary_size (s : String) : Boundary s (size s) :=
  ⟨s.toList, [], (List.append_nil _).symm, (size_eq s).symm⟩

/-- No boundary lies behind the text. -/
theorem Boundary.le_size (h : Boundary s pos) : pos ≤ size s := by
  obtain ⟨a, b, hs, rfl⟩ := h
  rw [size_eq, hs, byteLength_append]
  exact Nat.le_add_right _ _

/-- A character stands at a boundary. -/
theorem CharAt.boundary (h : CharAt s pos c) : Boundary s pos := by
  obtain ⟨a, b, hs, ha⟩ := h
  exact ⟨a, c :: b, hs, ha⟩

/-- Behind a character is a boundary. -/
theorem CharAt.boundary_next (h : CharAt s pos c) : Boundary s (pos + c.utf8Size) := by
  obtain ⟨a, b, hs, rfl⟩ := h
  exact ⟨a ++ [c], b, by simp [hs], by simp⟩

/-- A character reaches no further than the next boundary. -/
theorem CharAt.next_le (h : CharAt s pos c) {next : Nat} (hnext : Boundary s next)
    (hlt : pos < next) : pos + c.utf8Size ≤ next := by
  obtain ⟨a, b, hs, rfl⟩ := h
  obtain ⟨x, y, hs', rfl⟩ := hnext
  obtain ⟨m, rfl, hm⟩ := exists_middle (hs.symm.trans hs') (Nat.le_of_lt hlt)
  cases m with
  | nil => simp at hlt
  | cons d m =>
    obtain ⟨rfl, _⟩ := List.cons.inj hm
    rw [byteLength_append, byteLength_cons]
    omega

/-- One character stands at a position. -/
theorem CharAt.unique {d : Char} (h : CharAt s pos c) (h' : CharAt s pos d) : c = d := by
  obtain ⟨a, b, hs, ha⟩ := h
  obtain ⟨x, y, hs', hx⟩ := h'
  obtain ⟨m, rfl, hm⟩ := exists_middle (hs.symm.trans hs') (by omega)
  rw [byteLength_append] at hx
  have hnil : m = [] := by
    by_contra hne
    have := byteLength_pos hne
    omega
  subst hnil
  exact (List.cons.inj hm).1

/-- Two characters that end at the same place are one. -/
theorem CharAt.unique_next {next : Nat} {d : Char} (h : CharAt s pos c) (h' : CharAt s next d)
    (hend : pos + c.utf8Size = next + d.utf8Size) : pos = next ∧ c = d := by
  have hc := c.utf8Size_pos
  have hd := d.utf8Size_pos
  have hle := fun hlt => h.next_le h'.boundary hlt
  have hge := fun hlt => h'.next_le h.boundary hlt
  obtain rfl : pos = next := by
    rcases Nat.lt_trichotomy pos next with hlt | heq | hlt
    · have := hle hlt
      omega
    · exact heq
    · have := hge hlt
      omega
  exact ⟨rfl, h.unique h'⟩

/-- At each boundary but the last stands a character. -/
theorem Boundary.exists_charAt (h : Boundary s pos) (hlt : pos < size s) : ∃ c, CharAt s pos c := by
  obtain ⟨a, b, hs, rfl⟩ := h
  cases b with
  | nil => simp [size_eq, hs] at hlt
  | cons c b => exact ⟨c, a, b, hs, rfl⟩

/-- Two boundaries cut a text in three. -/
theorem Boundary.exists_cut (h : Boundary s start) (h' : Boundary s stop) (hle : start ≤ stop) :
    ∃ a m b, s.toList = a ++ m ++ b ∧ byteLength a = start ∧
      byteLength a + byteLength m = stop ∧ slice s start stop = String.ofList m := by
  obtain ⟨a, d, hs, rfl⟩ := h
  obtain ⟨x, b, hs', rfl⟩ := h'
  obtain ⟨m, rfl, rfl⟩ := exists_middle (hs.symm.trans hs') hle
  refine ⟨a, m, b, hs', rfl, (byteLength_append a m).symm, ?_⟩
  have hslice := slice_ofList a m b
  rwa [← hs', String.ofList_toList, ← byteLength_append] at hslice

/-! ### Slices -/

private theorem mem_of_charAt {a m b : List Char} (hs : s.toList = a ++ m ++ b) (h : CharAt s pos c)
    (hle : byteLength a ≤ pos) (hlt : pos < byteLength a + byteLength m) : c ∈ m := by
  obtain ⟨x, y, hs', rfl⟩ := h
  rw [hs, List.append_assoc] at hs'
  obtain ⟨n, rfl, hn⟩ := exists_middle hs' hle
  rw [byteLength_append] at hlt
  obtain ⟨k, rfl, hk⟩ := exists_middle hn.symm (by omega)
  cases k with
  | nil => simp at hlt
  | cons d k =>
    obtain ⟨rfl, _⟩ := List.cons.inj hk
    simp

private theorem charAt_of_mem {a m b : List Char} (hs : s.toList = a ++ m ++ b) (hc : c ∈ m) :
    ∃ pos, CharAt s pos c ∧ byteLength a ≤ pos ∧ pos < byteLength a + byteLength m := by
  obtain ⟨x, y, rfl⟩ := List.append_of_mem hc
  refine ⟨byteLength (a ++ x), ⟨a ++ x, y ++ b, by simp [hs], rfl⟩, ?_, ?_⟩
  · rw [byteLength_append]
    exact Nat.le_add_right _ _
  · have := c.utf8Size_pos
    rw [byteLength_append, byteLength_append, byteLength_cons]
    omega

/-- What holds of the characters of a middle part holds of the characters at its positions. -/
theorem between_iff {a m b : List Char} (hs : s.toList = a ++ m ++ b) {P : Char → Prop} :
    Between s (byteLength a) (byteLength a + byteLength m) P ↔ ∀ c ∈ m, P c := by
  constructor
  · intro h c hc
    obtain ⟨pos, hat, hle, hlt⟩ := charAt_of_mem hs hc
    exact h pos c hat hle hlt
  · intro h pos c hat hle hlt
    exact h c (mem_of_charAt hs hat hle hlt)

/-- The characters of a slice are those between its ends. -/
theorem forall_mem_slice (h : Boundary s start) (h' : Boundary s stop) (hle : start ≤ stop)
    {P : Char → Prop} : (∀ c ∈ (slice s start stop).toList, P c) ↔ Between s start stop P := by
  obtain ⟨a, m, b, hs, rfl, rfl, hslice⟩ := h.exists_cut h' hle
  rw [between_iff hs, hslice, String.toList_ofList]

private theorem all_part (h : Boundary s start) (h' : Boundary s stop) (hle : start ≤ stop) :
    (part s start stop).all isBlank = true ↔ Between s start stop (isBlank · = true) := by
  rw [← toList_slice, ← forall_mem_slice h h' hle, List.all_eq_true]

/-- A text of one character stands where that character does. -/
theorem charAt_of_slice (h : Boundary s start) (h' : Boundary s stop) (hle : start ≤ stop)
    (hslice : slice s start stop = String.ofList [c]) :
    CharAt s start c ∧ stop = start + c.utf8Size := by
  obtain ⟨a, m, b, hs, rfl, rfl, hm⟩ := h.exists_cut h' hle
  obtain rfl : m = [c] := String.ofList_injective (hm.symm.trans hslice)
  exact ⟨⟨a, b, by simp [hs], rfl⟩, by simp⟩

/-- The characters of a text behind a position. -/
def behind (s : String) (pos : Nat) : List Char := (slice s pos (size s)).toList

/-- Behind the length of a first part stands the rest. -/
theorem behind_eq {a b : List Char} (hs : s.toList = a ++ b) : behind s (byteLength a) = b := by
  have hsize : size s = byteLength a + byteLength b := by
    rw [size_eq, hs, byteLength_append]
  have hslice := slice_ofList a b []
  rw [List.append_nil, ← hs, String.ofList_toList, ← hsize] at hslice
  rw [behind, hslice, String.toList_ofList]

/-- A boundary splits the text. -/
theorem Boundary.exists_behind (h : Boundary s pos) :
    ∃ a, s.toList = a ++ behind s pos ∧ byteLength a = pos := by
  obtain ⟨a, b, hs, rfl⟩ := h
  exact ⟨a, by rw [behind_eq hs, hs], rfl⟩

/-- Behind a position stands first what reaches up to a second one. -/
theorem behind_cut (h : Boundary s start) (h' : Boundary s stop) (hle : start ≤ stop) :
    behind s start = (slice s start stop).toList ++ behind s stop ∧
      start + byteLength (slice s start stop).toList = stop := by
  obtain ⟨a, m, b, hs, rfl, rfl, hslice⟩ := h.exists_cut h' hle
  rw [hslice, String.toList_ofList, ← byteLength_append, behind_eq hs,
    behind_eq (hs.trans (List.append_assoc a m b))]
  exact ⟨rfl, rfl⟩

/-- Two slices side by side are one slice. -/
theorem slice_append {mid : Nat} (h : Boundary s start) (hmid : Boundary s mid)
    (h' : Boundary s stop) (hle : start ≤ mid) (hle' : mid ≤ stop) :
    (slice s start stop).toList = (slice s start mid).toList ++ (slice s mid stop).toList := by
  have hwhole := (behind_cut h h' (Nat.le_trans hle hle')).1
  rw [(behind_cut h hmid hle).1, (behind_cut hmid h' hle').1, ← List.append_assoc] at hwhole
  exact (List.append_cancel_right hwhole).symm

/-- What stands last before a position. -/
theorem charAt_of_getLast? (h : Boundary s start) (h' : Boundary s stop) (hle : start ≤ stop)
    (hc : (slice s start stop).toList.getLast? = some c) :
    ∃ pos, CharAt s pos c ∧ start ≤ pos ∧ pos + c.utf8Size = stop := by
  obtain ⟨a, m, b, hs, rfl, rfl, hslice⟩ := h.exists_cut h' hle
  rw [hslice, String.toList_ofList] at hc
  obtain ⟨inner, rfl⟩ := List.getLast?_eq_some_iff.mp hc
  refine ⟨byteLength (a ++ inner), ⟨a ++ inner, b, by simp [hs], rfl⟩, ?_, ?_⟩
  · rw [byteLength_append]
    exact Nat.le_add_right _ _
  · simp [Nat.add_assoc]

/-- The first character behind a boundary stands at it. -/
theorem charAt_of_head? (h : Boundary s pos) (hc : (behind s pos).head? = some c) :
    CharAt s pos c := by
  obtain ⟨a, hs, ha⟩ := h.exists_behind
  obtain ⟨rest, hrest⟩ := List.head?_eq_some_iff.mp hc
  exact ⟨a, rest, hrest ▸ hs, ha⟩

/-- What stands first behind a position. -/
theorem exists_head? (h : Boundary s start) (h' : Boundary s stop) (hlt : start < stop) :
    ∃ c, CharAt s start c ∧ (slice s start stop).toList.head? = some c := by
  obtain ⟨hcut, hlength⟩ := behind_cut h h' (Nat.le_of_lt hlt)
  cases hslice : (slice s start stop).toList with
  | nil =>
    rw [hslice, byteLength_nil] at hlength
    omega
  | cons c rest => exact ⟨c, charAt_of_head? h (by rw [hcut, hslice]; rfl), rfl⟩

/-- Nothing stands between a boundary and itself. -/
theorem slice_self (h : Boundary s pos) : (slice s pos pos).toList = [] := by
  by_contra hne
  have := byteLength_pos hne
  have := (behind_cut h h (Nat.le_refl pos)).2
  omega

/-! ### Runs of characters -/

/-- The longest run of characters that satisfy `p` and end at a position. -/
structure RunBefore (s : String) (p : Char → Bool) (start pos : Nat) : Prop where
  le : start ≤ pos
  boundary : Boundary s start
  run : Between s start pos (p · = true)
  maximal : start = 0 ∨ ∃ prev c, CharAt s prev c ∧ prev + c.utf8Size = start ∧ p c = false

/-- The longest run of characters that satisfy `p` and begin at a position. -/
structure RunBehind (s : String) (p : Char → Bool) (pos stop : Nat) : Prop where
  le : pos ≤ stop
  boundary : Boundary s stop
  run : Between s pos stop (p · = true)
  maximal : stop = size s ∨ ∃ c, CharAt s stop c ∧ p c = false

private theorem runBehind (h : Boundary s pos) (p : Char → Bool) :
    RunBehind s p pos (pos + byteLength ((part s pos (size s)).takeWhile p)) := by
  obtain ⟨a, m, b, hs, rfl, hsize, hslice⟩ := h.exists_cut (boundary_size s) h.le_size
  have hb : b = [] := by
    by_contra hne
    have := byteLength_pos hne
    rw [size_eq, hs, byteLength_append, byteLength_append] at hsize
    omega
  subst hb
  rw [← toList_slice, hslice, String.toList_ofList]
  have hcut : s.toList = a ++ m.takeWhile p ++ m.dropWhile p := by
    rw [List.append_assoc, List.takeWhile_append_dropWhile, hs, List.append_nil]
  refine ⟨Nat.le_add_right _ _, ⟨_, _, hcut, byteLength_append _ _⟩,
    (between_iff hcut).mpr fun c hc => List.all_eq_true.mp List.all_takeWhile c hc, ?_⟩
  cases hrest : m.dropWhile p with
  | nil =>
    refine .inl ?_
    rw [size_eq, hcut, hrest, List.append_nil, byteLength_append]
  | cons c rest =>
    have hhead := List.head?_dropWhile_not p m
    rw [hrest] at hhead hcut
    exact .inr ⟨c, ⟨_, rest, hcut, byteLength_append _ _⟩, by simpa using hhead⟩

private theorem runBefore (h : Boundary s pos) (p : Char → Bool) :
    RunBefore s p (pos - byteLength ((part s 0 pos).reverse.takeWhile p)) pos := by
  obtain ⟨a, m, b, hs, ha, rfl, hslice⟩ := (boundary_zero s).exists_cut h (Nat.zero_le _)
  have hnil : a = [] := by
    by_contra hne
    have := byteLength_pos hne
    omega
  subst hnil
  rw [byteLength_nil, Nat.zero_add] at *
  rw [← toList_slice, hslice, String.toList_ofList,
    ← List.reverse_reverse (m.reverse.takeWhile p)]
  have hm : m = (m.reverse.dropWhile p).reverse ++ (m.reverse.takeWhile p).reverse := by
    rw [← List.reverse_append, List.takeWhile_append_dropWhile, List.reverse_reverse]
  have hlength : byteLength m = byteLength (m.reverse.dropWhile p).reverse +
      byteLength (m.reverse.takeWhile p).reverse := by
    rw [← byteLength_append, ← hm]
  have hreverse : byteLength (m.reverse.takeWhile p).reverse.reverse =
      byteLength (m.reverse.takeWhile p).reverse := byteLength_reverse _
  have hstart : byteLength m - byteLength (m.reverse.takeWhile p).reverse.reverse =
      byteLength (m.reverse.dropWhile p).reverse := by
    omega
  have hcut : s.toList =
      (m.reverse.dropWhile p).reverse ++ (m.reverse.takeWhile p).reverse ++ b := by
    rw [← hm, hs, List.nil_append]
  rw [hstart]
  refine ⟨by omega, ⟨_, _, hcut.trans (List.append_assoc _ _ _), rfl⟩, ?_, ?_⟩
  · rw [hlength]
    exact (between_iff hcut).mpr fun c hc =>
      List.all_eq_true.mp List.all_takeWhile c (List.mem_reverse.mp hc)
  · cases hrest : m.reverse.dropWhile p with
    | nil => exact .inl rfl
    | cons c rest =>
      have hhead := List.head?_dropWhile_not p m.reverse
      rw [hrest] at hhead hcut
      refine .inr ⟨_, c, ⟨rest.reverse, (m.reverse.takeWhile p).reverse ++ b, ?_, rfl⟩, ?_,
        by simpa using hhead⟩
      · rw [hcut, List.reverse_cons]
        simp
      · rw [List.reverse_cons, byteLength_append]
        simp

/-! ### Lines -/

/-- A line begins behind the last newline. -/
theorem lineStart_run (h : Boundary s pos) :
    RunBefore s (· != '\n') (lineStart s pos) pos := runBefore h _

/-- A line ends before the next newline. -/
theorem lineEnd_run (h : Boundary s pos) : RunBehind s (· != '\n') pos (lineEnd s pos) :=
  runBehind h _

/-- The indentation before a position goes as far as possible. -/
theorem indentStart_run (h : Boundary s pos) : RunBefore s isIndent (indentStart s pos) pos :=
  runBefore h _

/-- The indentation behind a position goes as far as possible. -/
theorem indentEnd_run (h : Boundary s pos) : RunBehind s isIndent pos (indentEnd s pos) :=
  runBehind h _

/-- A line begins where the text does or behind a newline. -/
theorem lineStart_cases (h : Boundary s pos) :
    lineStart s pos = 0 ∨ ∃ prev, CharAt s prev '\n' ∧ prev + 1 = lineStart s pos := by
  rcases (lineStart_run h).maximal with hzero | ⟨prev, c, hc, hnext, hnew⟩
  · exact .inl hzero
  · obtain rfl : c = '\n' := by simpa using hnew
    exact .inr ⟨prev, hc, hnext⟩

/-- A line ends where the text does or before a newline. -/
theorem lineEnd_cases (h : Boundary s pos) :
    lineEnd s pos = size s ∨ CharAt s (lineEnd s pos) '\n' := by
  rcases (lineEnd_run h).maximal with hsize | ⟨c, hc, hnew⟩
  · exact .inl hsize
  · obtain rfl : c = '\n' := by simpa using hnew
    exact .inr hc

/-- A position starts its line if only blanks stand before it. -/
theorem startsLine_iff (h : Boundary s pos) :
    startsLine s pos = true ↔ Between s (lineStart s pos) pos (isBlank · = true) :=
  all_part (lineStart_run h).boundary h (lineStart_run h).le

/-- A position ends its line if only blanks stand behind it. -/
theorem endsLine_iff (h : Boundary s pos) :
    endsLine s pos = true ↔ Between s pos (lineEnd s pos) (isBlank · = true) :=
  all_part h (lineEnd_run h).boundary (lineEnd_run h).le

/-- Indentation is blank and no newline. -/
theorem isBlank_of_isIndent (h : isIndent c = true) : isBlank c = true ∧ c ≠ '\n' := by
  rw [isIndent, Bool.or_eq_true, decide_eq_true_eq, decide_eq_true_eq] at h
  rcases h with rfl | rfl <;> decide

end GoContracts.Text

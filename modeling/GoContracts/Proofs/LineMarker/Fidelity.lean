import GoContracts.Proofs.LineMarker.Matching

/-!
# When line markers tell the truth

Markers are placed by the text of lines alone. Which line of the reference a generated line carries
is known where the text is generated; this file says when the texts give the same answer.
-/

namespace GoContracts.LineMarker

variable {reference : List String} {stripped : List Nat} {lines : List String}
  {carried? : Nat → Option Nat} {g r : Nat}

/-! ### The line that is due -/

/-- The line of the reference that is due at generated line `g` if line `c` is due at the first one:
the line behind the last one that a generated line before belongs to. -/
def dueFrom (c : Nat) (index? : Nat → Option Nat) : Nat → Nat
  | 0 => c
  | g + 1 => ((index? g).map (· + 1)).getD (dueFrom c index? g)

/-- The line of the reference that is due at generated line `g`. -/
def due (index? : Nat → Option Nat) (g : Nat) : Nat := dueFrom 0 index? g

/-- The first line from line `c` of the reference on that was not stripped. -/
def nextKept? (reference : List String) (stripped : List Nat) (c : Nat) : Option Nat :=
  (List.range' c (reference.length - c)).find? (!stripped.contains ·)

/-- Whether line `r` of the reference reads like the given line. -/
def reads (reference : List String) (line : String) (r : Nat) : Bool :=
  (reference[r]?).any (corresponds line)

/-- The line of the reference that a generated line is taken for where line `c` is due. -/
def takenFor? (reference : List String) (stripped : List Nat) (c : Nat) (line : String) :
    Option Nat :=
  if reads reference line c then some c
  else (nextKept? reference stripped c).filter (reads reference line)

private theorem dropStripped_eq (reference : List String) (stripped : List Nat) (c : Nat) :
    dropStripped stripped (linesFrom reference c) =
      ((nextKept? reference stripped c).map (linesFrom reference)).getD [] := by
  generalize hn : reference.length - c = n
  induction n generalizing c with
  | zero =>
    have hnil : linesFrom reference c = [] := by
      simp [linesFrom, List.drop_eq_nil_of_le (Nat.le_of_sub_eq_zero hn)]
    rw [hnil, nextKept?, hn]
    rfl
  | succ n ih =>
    have hlt : c < reference.length := by omega
    have hcons : linesFrom reference c = (reference[c], c) :: linesFrom reference (c + 1) := by
      rw [linesFrom, List.drop_eq_getElem_cons hlt, List.zipIdx_cons, linesFrom]
    rw [nextKept?, hn, List.range'_succ, List.find?_cons]
    cases hs : stripped.contains c with
    | true =>
      have hrest := ih (c + 1) (by omega)
      rw [nextKept?, show reference.length - (c + 1) = n by omega] at hrest
      rw [hcons, dropStripped, List.dropWhile_cons_of_pos (by simpa using hs)]
      exact hrest
    | false =>
      rw [hcons, dropStripped, List.dropWhile_cons_of_neg (by simpa using hs), ← hcons]
      rfl

private theorem getElem?_linesFrom {reference : List String} {c : Nat} {line : String}
    (h : reference[c]? = some line) :
    linesFrom reference c = (line, c) :: linesFrom reference (c + 1) := by
  obtain ⟨hlt, rfl⟩ := List.getElem?_eq_some_iff.mp h
  rw [linesFrom, List.drop_eq_getElem_cons hlt, List.zipIdx_cons, linesFrom]

/-- A line is taken for the line that is due, or else for the first one that was not stripped. -/
theorem matching_eq_takenFor (reference : List String) (stripped : List Nat) (c : Nat)
    (line : String) :
    (matching? stripped (linesFrom reference c) line).map (·.2.1) =
      takenFor? reference stripped c line := by
  unfold takenFor?
  cases hc : reference[c]? with
  | none =>
    have hle := List.getElem?_eq_none_iff.mp hc
    have hnil : linesFrom reference c = [] := by simp [linesFrom, List.drop_eq_nil_of_le hle]
    have hnext : nextKept? reference stripped c = none := by
      rw [nextKept?, Nat.sub_eq_zero_of_le hle]
      rfl
    rw [hnil, hnext, reads, hc]
    rfl
  | some next =>
    have hlines := getElem?_linesFrom hc
    have hdrop := dropStripped_eq reference stripped c
    unfold matching?
    rw [hlines] at hdrop ⊢
    simp only [hdrop, reads, hc, Option.any_some]
    by_cases hline : corresponds line next = true
    · rw [if_pos hline, if_pos hline]
      rfl
    · rw [if_neg hline, if_neg hline]
      cases hr : nextKept? reference stripped c with
      | none => rfl
      | some r =>
        have hlt : r < reference.length := by
          have hmem := List.mem_of_find?_eq_some hr
          rw [List.mem_range'_1] at hmem
          omega
        have hget : reference[r]? = some reference[r] := List.getElem?_eq_getElem hlt
        rw [Option.map_some, Option.getD_some, getElem?_linesFrom hget]
        by_cases hkept : corresponds line reference[r] = true
        · simp [hkept, reads, hget, Option.filter_some]
        · simp [hkept, reads, hget, Option.filter_some]

private theorem dueFrom_succ (c : Nat) (index? : Nat → Option Nat) (g : Nat) :
    dueFrom c index? (g + 1) =
      dueFrom (((index? 0).map (· + 1)).getD c) (fun i => index? (i + 1)) g := by
  induction g with
  | zero => rfl
  | succ g ih => rw [dueFrom, ih, dueFrom]

private theorem matched_eq_takenFor (reference : List String) (stripped : List Nat) (c : Nat)
    {line : String} (h : lines[g]? = some line) :
    ((matched stripped (linesFrom reference c) lines)[g]?).join =
      takenFor? reference stripped
        (dueFrom c (fun i => ((matched stripped (linesFrom reference c) lines)[i]?).join) g)
        line := by
  induction lines generalizing c g with
  | nil => simp at h
  | cons first lines ih =>
    have htaken := matching_eq_takenFor reference stripped c first
    cases hm : matching? stripped (linesFrom reference c) first with
    | none =>
      rw [matched_cons_none hm]
      rw [hm] at htaken
      cases g with
      | zero =>
        obtain rfl := Option.some.inj h
        exact htaken
      | succ g =>
        rw [dueFrom_succ]
        simpa using ih c (by simpa using h)
    | some x =>
      obtain ⟨skips, r, after⟩ := x
      rw [matched_cons_some hm]
      rw [hm] at htaken
      cases g with
      | zero =>
        obtain rfl := Option.some.inj h
        exact htaken
      | succ g =>
        rw [dueFrom_succ]
        simpa using ih (r + 1) (by simpa using h)

/-- Every generated line is taken for a line by what is due there. -/
theorem matchedIndex_eq_takenFor {line : String} (h : lines[g]? = some line) :
    matchedIndex? reference stripped lines g =
      takenFor? reference stripped (due (matchedIndex? reference stripped lines) g) line := by
  have := matched_eq_takenFor reference stripped 0 h
  rw [linesFrom_zero] at this
  exact this

/-! ### Truth -/

/-- Every line has the number of the line that it carries, as every line that carries one is taken
for it and no other line is taken for one. -/
structure Faithful (reference : List String) (stripped : List Nat) (lines : List String)
    (carried? : Nat → Option Nat) : Prop where
  reported : ∀ g r, g < lines.length → carried? g = some r →
    (numbered 1 (entries (matchedIndex? reference stripped lines) lines))[g]? = some (r + 1)
  regained : ∀ g r, g < lines.length → carried? g = some r →
    matchedIndex? reference stripped lines g = some r
  untaken : ∀ g, g < lines.length → carried? g = none →
    matchedIndex? reference stripped lines g = none

/-- Texts alone tell which lines are carried: before a line that is carried only stripped lines are
left out, and they do not begin with one that reads like it; and a line that carries none reads
neither like the line due nor like the first one due that was not stripped. -/
structure Unambiguous (reference : List String) (stripped : List Nat) (lines : List String)
    (carried? : Nat → Option Nat) : Prop where
  complete : ∀ g r, g < lines.length → carried? g = some r →
    r = due carried? g ∨ nextKept? reference stripped (due carried? g) = some r
  first : ∀ g r line, lines[g]? = some line → carried? g = some r → r ≠ due carried? g →
    reads reference line (due carried? g) = false
  foreign : ∀ g line, lines[g]? = some line → carried? g = none →
    reads reference line (due carried? g) = false ∧
      ∀ r, nextKept? reference stripped (due carried? g) = some r →
        reads reference line r = false

/-- The line due depends on the lines before only. -/
private theorem due_congr {index? index?' : Nat → Option Nat} (h : ∀ i < g, index? i = index?' i) :
    due index? g = due index?' g := by
  unfold due
  induction g with
  | zero => rfl
  | succ g ih =>
    rw [dueFrom, dueFrom, h g (Nat.lt_succ_self g), ih fun i hi => h i (Nat.lt_succ_of_lt hi)]

/-- Lines are taken for those that they carry exactly if each of them, as far as what is due goes,
would be. -/
theorem matchedIndex_eq_iff :
    (∀ g < lines.length, matchedIndex? reference stripped lines g = carried? g) ↔
      ∀ g line, lines[g]? = some line →
        takenFor? reference stripped (due carried? g) line = carried? g := by
  constructor
  · intro h g line hline
    obtain ⟨hg, _⟩ := List.getElem?_eq_some_iff.mp hline
    rw [← h g hg, matchedIndex_eq_takenFor hline]
    congr 1
    exact due_congr fun i hi => (h i (Nat.lt_trans hi hg)).symm
  · intro h g hg
    induction g using Nat.strongRecOn with
    | ind g ih =>
      have hline : lines[g]? = some lines[g] := List.getElem?_eq_getElem hg
      have hdue : due (matchedIndex? reference stripped lines) g = due carried? g :=
        due_congr fun i hi => ih i hi (Nat.lt_trans hi hg)
      rw [matchedIndex_eq_takenFor hline, hdue, h g _ hline]

/-- A line is taken for an original one if it reads as the current or as the next one that is kept.
-/
theorem takenFor_eq_some {c : Nat} {line : String} (hr : reads reference line r = true) :
    takenFor? reference stripped c line = some r ↔
      (r = c ∨ nextKept? reference stripped c = some r) ∧
        (r ≠ c → reads reference line c = false) := by
  unfold takenFor?
  cases hc : reads reference line c with
  | true =>
    rw [if_pos rfl, Option.some.injEq]
    constructor
    · rintro rfl
      exact ⟨.inl rfl, fun h => absurd rfl h⟩
    · rintro ⟨_, h⟩
      by_contra hne
      exact absurd (h (Ne.symm hne)) (by simp)
  | false =>
    have hne : r ≠ c := by
      rintro rfl
      simp [hc] at hr
    rw [if_neg Bool.false_ne_true, Option.filter_eq_some_iff]
    simp [hne, hr]

/-- A line is taken for no original one if it reads as none of the two. -/
theorem takenFor_eq_none {c : Nat} {line : String} :
    takenFor? reference stripped c line = none ↔
      reads reference line c = false ∧
        ∀ r, nextKept? reference stripped c = some r → reads reference line r = false := by
  unfold takenFor?
  cases hc : reads reference line c with
  | true => simp
  | false =>
    rw [if_neg Bool.false_ne_true, Option.filter_eq_none_iff]
    simp

/-- The markers tell the truth exactly if the texts of the lines do. -/
theorem faithful_iff_unambiguous
    (hc : ∀ g r line, lines[g]? = some line → carried? g = some r →
      reads reference line r = true) :
    Faithful reference stripped lines carried? ↔
      Unambiguous reference stripped lines carried? := by
  have hfaithful : Faithful reference stripped lines carried? ↔
      ∀ g < lines.length, matchedIndex? reference stripped lines g = carried? g := by
    constructor
    · intro h g hg
      cases hr : carried? g with
      | none => exact h.untaken g hg hr
      | some r => exact h.regained g r hg hr
    · intro h
      exact {
        reported := fun g r hg hr => numbered_entries hg ((h g hg).trans hr)
        regained := fun g r hg hr => (h g hg).trans hr
        untaken := fun g hg hr => (h g hg).trans hr }
  rw [hfaithful, matchedIndex_eq_iff]
  constructor
  · intro h
    refine ⟨fun g r hg hr => ?_, fun g r line hline hr hne => ?_, fun g line hline hr => ?_⟩
    · have hline : lines[g]? = some lines[g] := List.getElem?_eq_getElem hg
      exact ((takenFor_eq_some (hc g r _ hline hr)).mp ((h g _ hline).trans hr)).1
    · exact ((takenFor_eq_some (hc g r line hline hr)).mp ((h g line hline).trans hr)).2 hne
    · exact takenFor_eq_none.mp ((h g line hline).trans hr)
  · intro h g line hline
    obtain ⟨hg, _⟩ := List.getElem?_eq_some_iff.mp hline
    cases hr : carried? g with
    | none => exact takenFor_eq_none.mpr (h.foreign g line hline hr)
    | some r =>
      exact (takenFor_eq_some (hc g r line hline hr)).mpr
        ⟨h.complete g r hg hr, h.first g r line hline hr⟩

end GoContracts.LineMarker

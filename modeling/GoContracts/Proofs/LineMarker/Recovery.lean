import GoContracts.Proofs.LineMarker.Fidelity

/-!
# Recovering an alignment

A generated text keeps some lines of the reference and has others inserted between them. If no line
reads like the one that is due in its place, the texts alone tell which lines were kept: those are
matched, no other is, and the markers stand where a gap ends.
-/

namespace GoContracts.LineMarker

variable {reference : List String} {stripped : List Nat}

/-! ### Interleavings -/

/-- A kept line with the lines that are inserted before it. -/
structure Kept where
  inserted : List String
  /-- The number of the line in the reference, counted from zero. -/
  index : Nat
  text : String

/-- Lines of a reference in order, some of them left out if they were stripped, with inserted lines
before, between and behind them. -/
structure Interleaving (reference : List String) (stripped : List Nat) where
  kept : List Kept
  /-- The lines inserted behind the last kept one. -/
  tail : List String
  increasing : kept.Pairwise (·.index < ·.index)
  unstripped : ∀ k ∈ kept, k.index ∉ stripped
  skipped : ∀ k ∈ kept, ∀ i < k.index, (∀ k' ∈ kept, k'.index ≠ i) → i ∈ stripped
  same : ∀ k ∈ kept, reads reference k.text k.index

/-- Kept lines with the inserted ones. -/
def linesOf : List Kept → List String → List String
  | [], tail => tail
  | k :: kept, tail => k.inserted ++ k.text :: linesOf kept tail

/-- For each of the lines the line of the reference that is kept there. -/
def indicesOf : List Kept → List String → List (Option Nat)
  | [], tail => tail.map fun _ => none
  | k :: kept, tail => k.inserted.map (fun _ => none) ++ some k.index :: indicesOf kept tail

/-- The lines with one marker at the end of each gap, which is at a kept line that has inserted ones
before it or is not line `c` of the reference, the one that is due. -/
def marked : Nat → List Kept → List String → List Entry
  | _, [], tail => tail.map .line
  | c, k :: kept, tail =>
    k.inserted.map .line ++ (if k.inserted = [] ∧ k.index = c then [] else [.marker k.index]) ++
      .line k.text :: marked (k.index + 1) kept tail

/-- A line reads neither like line `c` of the reference, which is due, nor like the first one from
there on that was not stripped. -/
def Foreign (reference : List String) (stripped : List Nat) (c : Nat) (line : String) : Prop :=
  reads reference line c = false ∧
    ∀ r ∈ nextKept? reference stripped c, reads reference line r = false

/-- Inserted lines are foreign where they stand, and a kept line behind stripped ones does not read
like the first of these. Line `c` of the reference is due at first. -/
def Discernible (reference : List String) (stripped : List Nat) :
    Nat → List Kept → List String → Prop
  | c, [], tail => ∀ line ∈ tail, Foreign reference stripped c line
  | c, k :: kept, tail =>
    (∀ line ∈ k.inserted, Foreign reference stripped c line) ∧
      (k.index ≠ c → reads reference k.text c = false) ∧
        Discernible reference stripped (k.index + 1) kept tail

instance (c : Nat) (line : String) : Decidable (Foreign reference stripped c line) :=
  inferInstanceAs (Decidable (_ ∧ _))

instance decidableDiscernible (c : Nat) (kept : List Kept) (tail : List String) :
    Decidable (Discernible reference stripped c kept tail) :=
  match kept with
  | [] => inferInstanceAs (Decidable (∀ line ∈ tail, Foreign reference stripped c line))
  | k :: kept =>
    have := decidableDiscernible (k.index + 1) kept tail
    inferInstanceAs (Decidable (_ ∧ _ ∧ _))

/-! ### What is matched -/

private theorem lt_length_of_reads {line : String} {r : Nat} (h : reads reference line r) :
    r < reference.length := by
  obtain ⟨next, hnext, -⟩ := (Option.any_eq_true ..).mp h
  exact (List.getElem?_eq_some_iff.mp hnext).1

/-- The first line that was not stripped is found behind stripped ones. -/
theorem nextKept?_eq_some {c r : Nat} (hle : c ≤ r) (hlt : r < reference.length)
    (hkept : r ∉ stripped) (hskipped : ∀ i, c ≤ i → i < r → i ∈ stripped) :
    nextKept? reference stripped c = some r := by
  rw [nextKept?, List.find?_range'_eq_some]
  refine ⟨by simpa using hkept, List.mem_range'_1.mpr ⟨hle, by omega⟩, fun i hi hir => ?_⟩
  simpa using hskipped i hi hir

private theorem matching?_of_foreign {c : Nat} {line : String}
    (h : Foreign reference stripped c line) :
    matching? stripped (linesFrom reference c) line = none := by
  have htaken := matching_eq_takenFor reference stripped c line
  rw [takenFor_eq_none.mpr h] at htaken
  exact Option.map_eq_none_iff.mp htaken

/-- Foreign lines are not matched and leave the line that is due. -/
theorem matched_append {c : Nat} {inserted : List String}
    (h : ∀ line ∈ inserted, Foreign reference stripped c line) (lines : List String) :
    matched stripped (linesFrom reference c) (inserted ++ lines) =
      inserted.map (fun _ => none) ++ matched stripped (linesFrom reference c) lines := by
  induction inserted with
  | nil => rfl
  | cons line inserted ih =>
    rw [List.forall_mem_cons] at h
    rw [List.cons_append, matched_cons_none (matching?_of_foreign h.1), ih h.2, List.map_cons,
      List.cons_append]

/-- A kept line is matched with its own line. -/
theorem matched_kept {c r : Nat} {line : String} (hnext : nextKept? reference stripped c = some r)
    (hsame : reads reference line r) (hfirst : r ≠ c → reads reference line c = false)
    (lines : List String) :
    matched stripped (linesFrom reference c) (line :: lines) =
      some r :: matched stripped (linesFrom reference (r + 1)) lines := by
  have htaken := matching_eq_takenFor reference stripped c line
  rw [(takenFor_eq_some hsame).mpr ⟨.inr hnext, hfirst⟩] at htaken
  obtain ⟨⟨skips, r', after⟩, hmatching, rfl⟩ := Option.map_eq_some_iff.mp htaken
  exact matched_cons_some hmatching lines

/-- Discernible lines are matched as they were kept, if line `c` of the reference is due. -/
theorem matched_linesOf {c : Nat} {kept : List Kept} {tail : List String}
    (hincreasing : kept.Pairwise (·.index < ·.index)) (hle : ∀ k ∈ kept, c ≤ k.index)
    (hunstripped : ∀ k ∈ kept, k.index ∉ stripped)
    (hskipped : ∀ k ∈ kept, ∀ i < k.index, c ≤ i → (∀ k' ∈ kept, k'.index ≠ i) → i ∈ stripped)
    (hsame : ∀ k ∈ kept, reads reference k.text k.index)
    (h : Discernible reference stripped c kept tail) :
    matched stripped (linesFrom reference c) (linesOf kept tail) = indicesOf kept tail := by
  induction kept generalizing c with
  | nil => simpa [linesOf, indicesOf, matched] using matched_append h []
  | cons k kept ih =>
    obtain ⟨hinserted, hfirst, hrest⟩ := h
    rw [List.forall_mem_cons] at hle hunstripped hsame
    rw [List.pairwise_cons] at hincreasing
    have hnext : nextKept? reference stripped c = some k.index := by
      refine nextKept?_eq_some hle.1 (lt_length_of_reads hsame.1) hunstripped.1 fun i hi hik => ?_
      refine hskipped k List.mem_cons_self i hik hi (List.forall_mem_cons.mpr ⟨by omega, ?_⟩)
      intro k' hk'
      have := hincreasing.1 k' hk'
      omega
    have hmatched := ih hincreasing.2 (fun k' hk' => hincreasing.1 k' hk') hunstripped.2
      (fun k' hk' i hi hki hother => hskipped k' (List.mem_cons_of_mem _ hk') i hi (by omega)
        (List.forall_mem_cons.mpr ⟨by omega, hother⟩)) hsame.2 hrest
    rw [linesOf, indicesOf, matched_append hinserted, matched_kept hnext hsame.1 hfirst, hmatched]

/-! ### What is marked -/

/-- Lines without a line of the reference have no markers. -/
theorem entriesFrom_append {index? : Nat → Option Nat} {inserted : List String} {k : Nat}
    (h : ∀ i < inserted.length, index? (k + i) = none) (lines : List String) :
    entriesFrom index? (inserted ++ lines) k =
      inserted.map .line ++ entriesFrom index? lines (k + inserted.length) := by
  induction inserted generalizing k with
  | nil => rfl
  | cons line inserted ih =>
    have hfirst := h 0 (by simp)
    have hrest := ih (k := k + 1) fun i hi => by
      rw [Nat.add_assoc, Nat.add_comm 1]
      exact h (i + 1) (by simpa using hi)
    rw [List.cons_append, entriesFrom_cons, hrest, entriesAt, show index? k = none from hfirst,
      List.length_cons, Nat.add_right_comm k 1, ← Nat.add_assoc]
    rfl

/-- Inserted lines leave no number for the line behind them. -/
theorem continued?_behind {index? : Nat → Option Nat} {k n c : Nat}
    (h : ∀ i < n, index? (k + i) = none) (hstate : continued? index? k = some c) :
    continued? index? (k + n) = if n = 0 then some c else none := by
  cases n with
  | zero => exact hstate
  | succ n => rw [← Nat.add_assoc, continued?, h n (Nat.lt_succ_self n)]; rfl

/-- A matching of the lines with those that were kept asks for a marker at the end of each gap. -/
theorem entriesFrom_linesOf {index? : Nat → Option Nat} {kept : List Kept} {tail : List String}
    {k c : Nat} (hindex : ∀ i, index? (k + i) = ((indicesOf kept tail)[i]?).join)
    (hstate : continued? index? k = some c) :
    entriesFrom index? (linesOf kept tail) k = marked c kept tail := by
  induction kept generalizing k c with
  | nil =>
    have hnone (i : Nat) (hi : i < tail.length) : index? (k + i) = none := by
      rw [hindex, indicesOf, List.getElem?_map, List.getElem?_eq_getElem hi]
      rfl
    simpa [linesOf, marked, entriesFrom] using entriesFrom_append hnone []
  | cons s kept ih =>
    have hnone (i : Nat) (hi : i < s.inserted.length) : index? (k + i) = none := by
      rw [hindex, indicesOf, List.getElem?_append_left (by simpa using hi), List.getElem?_map,
        List.getElem?_eq_getElem hi]
      rfl
    have hbehind (i : Nat) : index? (k + s.inserted.length + i) =
        ((some s.index :: indicesOf kept tail)[i]?).join := by
      rw [Nat.add_assoc, hindex, indicesOf, List.getElem?_append_right (by simp),
        List.length_map, Nat.add_sub_cancel_left]
    have hkept : index? (k + s.inserted.length) = some s.index := hbehind 0
    have hrest := ih (k := k + s.inserted.length + 1) (c := s.index + 1)
      (fun i => by rw [Nat.add_assoc, Nat.add_comm 1]; exact hbehind (i + 1))
      (by rw [continued?, hkept]; rfl)
    rw [linesOf, marked, entriesFrom_append hnone, entriesFrom_cons, hrest, entriesAt, hkept,
      continued?_behind hnone hstate]
    by_cases hgap : s.inserted = [] ∧ s.index = c
    · simp [hgap]
    · have hne : (if s.inserted.length = 0 then some c else none) ≠ some s.index := by
        intro heq
        split at heq
        · next hnil => exact hgap ⟨List.length_eq_zero_iff.mp hnil, (Option.some.inj heq).symm⟩
        · cases heq
      simp only [if_neg hgap, if_neg hne, List.append_assoc, List.cons_append, List.nil_append]

/-! ### Recovery -/

/-- Where lines are discernible exactly the kept ones are matched, each under its own number, and
one marker stands at the end of each gap. -/
theorem insertAll_recovers (m : Interleaving reference stripped) {generated : String}
    (hlines : Text.lines generated = linesOf m.kept m.tail)
    (h : Discernible reference stripped 0 m.kept m.tail) (path : String) :
    (∀ g, matchedIndex? reference stripped (Text.lines generated) g =
        ((indicesOf m.kept m.tail)[g]?).join) ∧
      insertAll path reference stripped generated =
        "\n".intercalate ((marked 0 m.kept m.tail).map (Entry.render path)) ∧
      ∀ g i : Nat, (indicesOf m.kept m.tail)[g]? = some (some i) →
        (numbered 1 (marked 0 m.kept m.tail))[g]? = some (i + 1) := by
  have hmatched := matched_linesOf m.increasing (fun _ _ => Nat.zero_le _) m.unstripped
    (fun k hk i hi _ => m.skipped k hk i hi) m.same h
  rw [linesFrom_zero] at hmatched
  have hindex (g : Nat) : matchedIndex? reference stripped (Text.lines generated) g =
      ((indicesOf m.kept m.tail)[g]?).join := by rw [matchedIndex?, hlines, hmatched]
  have hentries : entries (matchedIndex? reference stripped (Text.lines generated))
      (Text.lines generated) = marked 0 m.kept m.tail := by
    rw [hlines] at hindex ⊢
    exact entriesFrom_linesOf (k := 0) (fun i => by rw [Nat.zero_add, hindex]) rfl
  refine ⟨hindex, by rw [insertAll_eq, hentries], fun g i hi => ?_⟩
  rw [← hentries]
  have hg : matchedIndex? reference stripped (Text.lines generated) g = some i := by
    rw [hindex, hi]
    rfl
  obtain ⟨_, _, hline, -⟩ := (found reference stripped (Text.lines generated)).corresponds g i hg
  exact numbered_entries (List.getElem?_eq_some_iff.mp hline).1 hg

/-- A text that keeps lines 0, 2, 3 and 5. Two gaps have inserted lines, two have stripped ones. -/
def guarded : Interleaving ["a", "// x", "b", "c", "// y", "d"] [1, 4] where
  kept := [⟨[], 0, "a"⟩, ⟨["if", "\x7d"], 2, "\tb"⟩, ⟨[], 3, "c"⟩, ⟨[], 5, "d "⟩]
  tail := ["end"]
  increasing := by simp
  unstripped := by simp
  skipped := by decide
  same := by decide +kernel

/-- Three of the gaps end at a kept line: one with inserted and stripped lines, one with a stripped
line only. -/
theorem insertAll_recovers_guarded :
    (∀ g, matchedIndex? ["a", "// x", "b", "c", "// y", "d"] [1, 4]
        (Text.lines "a\nif\n\x7d\n\tb\nc\nd \nend") g =
        ((indicesOf guarded.kept guarded.tail)[g]?).join) ∧
      insertAll "/f.go" ["a", "// x", "b", "c", "// y", "d"] [1, 4]
          "a\nif\n\x7d\n\tb\nc\nd \nend" =
        "\n".intercalate ((marked 0 guarded.kept guarded.tail).map (Entry.render "/f.go")) ∧
      ∀ g i : Nat, (indicesOf guarded.kept guarded.tail)[g]? = some (some i) →
        (numbered 1 (marked 0 guarded.kept guarded.tail))[g]? = some (i + 1) :=
  insertAll_recovers guarded (by decide +kernel) (by decide +kernel) "/f.go"

end GoContracts.LineMarker

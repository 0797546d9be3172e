import GoContracts.Proofs.Text.Lines
import GoContracts.Proofs.Text.Positions
import GoContracts.Proofs.Weaving.Splicing

/-!
# Line by line

Some edits keep the lines of a text apart from each other: those that keep the number of lines,
those that leave out whole lines, and those that put in whole lines. What such edits make of a text
are the lines that the edits in place make of it, but for the ones that are left out, and between
them the lines that are put in.
-/

namespace GoContracts

/-- The items of two lists, those of each list in their order. -/
inductive Interleaves {α : Type} : List α → List α → List α → Prop
  | nil : Interleaves [] [] []
  | left {a : α} {as bs cs : List α} (h : Interleaves as bs cs) :
      Interleaves (a :: as) bs (a :: cs)
  | right {b : α} {as bs cs : List α} (h : Interleaves as bs cs) :
      Interleaves as (b :: bs) (b :: cs)

/-- An interleaving stays one under a function. -/
theorem Interleaves.map {α β : Type} (f : α → β) {as bs cs : List α} (h : Interleaves as bs cs) :
    Interleaves (as.map f) (bs.map f) (cs.map f) := by
  induction h with
  | nil => exact .nil
  | left _ ih => exact .left ih
  | right _ ih => exact .right ih

/-- The lines of a text, of which the first one has the number `row`, but for those whose numbers
are given. -/
def linesBut {α : Type} (rows : List Nat) (row : Nat) (lines : List α) : List α :=
  ((lines.zipIdx row).filter fun line => line.2 ∉ rows).map (·.1)

section

variable {α : Type} {rows more : List Nat} {row : Nat} {line : α} {lines : List α}

private theorem linesBut_cons_of_notMem (h : row ∉ rows) :
    linesBut rows row (line :: lines) = line :: linesBut rows (row + 1) lines := by
  rw [linesBut, List.zipIdx_cons, List.filter_cons_of_pos (by simpa using h), List.map_cons]
  rfl

private theorem linesBut_cons_of_mem (h : row ∈ rows) :
    linesBut rows row (line :: lines) = linesBut rows (row + 1) lines := by
  rw [linesBut, List.zipIdx_cons, List.filter_cons_of_neg (by simpa using h)]
  rfl

/-- Only the numbers of the lines matter. -/
theorem linesBut_congr (h : ∀ r, row ≤ r → (r ∈ rows ↔ r ∈ more)) :
    linesBut rows row lines = linesBut more row lines := by
  refine congrArg (List.map _) (List.filter_congr fun line hline => ?_)
  exact decide_eq_decide.mpr (not_congr (h line.2 (List.le_snd_of_mem_zipIdx hline)))

/-- The lines that are left stay under a function. -/
theorem linesBut_map {β : Type} (f : α → β) :
    linesBut rows row (lines.map f) = (linesBut rows row lines).map f := by
  rw [linesBut, linesBut, List.zipIdx_map, List.filter_map, List.map_map, List.map_map]
  rfl

end

/-! ### Texts from texts -/

/-- A text `made` of another one, `kept`, by copying characters, leaving out whole lines, of which
`rows` are the numbers, and putting in whole lines, which are `added`. Whole lines go only where
`fresh` says that a line begins. -/
inductive Weaves : Bool → Nat → List Char → List Nat → List (List Char) → List Char → Prop
  | done {fresh : Bool} {row : Nat} : Weaves fresh row [] [] [] []
  | copy {fresh : Bool} {row : Nat} {c : Char} {kept made : List Char} {rows : List Nat}
      {added : List (List Char)} (hc : c ≠ '\n') (h : Weaves false row kept rows added made) :
      Weaves fresh row (c :: kept) rows added (c :: made)
  | newline {fresh : Bool} {row : Nat} {kept made : List Char} {rows : List Nat}
      {added : List (List Char)} (h : Weaves true (row + 1) kept rows added made) :
      Weaves fresh row ('\n' :: kept) rows added ('\n' :: made)
  | drop {row : Nat} {line kept made : List Char} {rows : List Nat} {added : List (List Char)}
      (hline : '\n' ∉ line) (h : Weaves true (row + 1) kept rows added made) :
      Weaves true row (line ++ '\n' :: kept) (row :: rows) added made
  | add {row : Nat} {line kept made : List Char} {rows : List Nat} {added : List (List Char)}
      (hline : '\n' ∉ line) (h : Weaves true row kept rows added made) :
      Weaves true row kept rows (line :: added) (line ++ '\n' :: made)

namespace Weaves

variable {fresh : Bool} {row : Nat} {kept made : List Char} {rows : List Nat}
  {added : List (List Char)}

/-- The lines that are left out come behind. -/
theorem le_of_mem (h : Weaves fresh row kept rows added made) :
    ∀ r ∈ rows, row ≤ r ∧ (fresh = false → row < r) := by
  induction h with
  | done => simp
  | copy _ _ ih => exact fun r hr => ⟨(ih r hr).1, fun _ => (ih r hr).2 rfl⟩
  | newline _ ih => exact fun r hr => ⟨Nat.le_of_lt (ih r hr).1, fun _ => (ih r hr).1⟩
  | drop _ _ ih =>
    refine List.forall_mem_cons.mpr ⟨⟨Nat.le_refl _, by simp⟩, fun r hr => ?_⟩
    exact ⟨Nat.le_of_lt (ih r hr).1, by simp⟩
  | add _ _ ih => exact ih

/-- The lines of such a text. What stands before it on the first line is in no line that is put in
or left out. -/
theorem interleaves (h : Weaves fresh row kept rows added made) {opening : List Char}
    (hopening : '\n' ∉ opening) (hfresh : fresh = true → opening = []) :
    Interleaves (linesBut rows row (Text.splitChars '\n' (opening ++ kept))) added
      (Text.splitChars '\n' (opening ++ made)) := by
  induction h generalizing opening with
  | done =>
    rw [List.append_nil, Text.splitChars_of_not_mem hopening]
    exact .left .nil
  | @copy _ _ c kept made _ _ hc _ ih =>
    have hline : '\n' ∉ opening ++ [c] := by simp [hopening, Ne.symm hc]
    simpa using ih hline (by simp)
  | newline h ih =>
    have hrow := fun hmem => Nat.not_succ_le_self _ (h.le_of_mem _ hmem).1
    rw [Text.splitChars_append_cons, Text.splitChars_append_cons,
      Text.splitChars_of_not_mem hopening, List.singleton_append, List.singleton_append,
      linesBut_cons_of_notMem hrow]
    exact .left (ih List.not_mem_nil fun _ => rfl)
  | @drop row line kept made rows added hline h ih =>
    obtain rfl := hfresh rfl
    have hrows : ∀ r, row + 1 ≤ r → (r ∈ row :: rows ↔ r ∈ rows) := fun r hr => by
      rw [List.mem_cons, or_iff_right]
      omega
    rw [List.nil_append, Text.splitChars_append_cons, Text.splitChars_of_not_mem hline,
      List.singleton_append, linesBut_cons_of_mem (List.mem_cons_self ..), linesBut_congr hrows]
    exact ih List.not_mem_nil fun _ => rfl
  | add hline _ ih =>
    obtain rfl := hfresh rfl
    rw [List.nil_append, List.nil_append, Text.splitChars_append_cons,
      Text.splitChars_of_not_mem hline, List.singleton_append]
    exact .right (ih List.not_mem_nil fun _ => rfl)

/-- Whether a line begins behind the characters. -/
def beginsBehind (fresh : Bool) (cs : List Char) : Bool :=
  match cs.getLast? with
  | none => fresh
  | some c => c = '\n'

/-- Characters are passed part by part. -/
theorem beginsBehind_append (cs more : List Char) :
    beginsBehind fresh (cs ++ more) = beginsBehind (beginsBehind fresh cs) more := by
  unfold beginsBehind
  rw [List.getLast?_append]
  cases more.getLast? <;> rfl

/-- No line begins behind characters that end with no newline. -/
theorem beginsBehind_of_getLast?_ne {cs : List Char} (hne : cs ≠ [])
    (h : cs.getLast? ≠ some '\n') : beginsBehind fresh cs = false := by
  unfold beginsBehind
  split
  · next hnone => exact absurd (List.getLast?_eq_none_iff.mp hnone) hne
  · next c hc => exact decide_eq_false fun heq => h (heq ▸ hc)

/-- Characters are copied. -/
theorem copyAll {cs : List Char}
    (h : Weaves (beginsBehind fresh cs) (row + cs.count '\n') kept rows added made) :
    Weaves fresh row (cs ++ kept) rows added (cs ++ made) := by
  induction cs generalizing fresh row with
  | nil => exact h
  | cons c cs ih =>
    by_cases hc : c = '\n'
    · subst hc
      refine .newline (ih ?_)
      rw [List.count_cons_self, ← Nat.add_assoc, Nat.add_right_comm] at h
      convert h using 1
      unfold beginsBehind
      rw [List.getLast?_cons]
      cases cs.getLast? <;> simp
    · refine .copy hc (ih ?_)
      rw [List.count_cons_of_ne hc] at h
      convert h using 1
      unfold beginsBehind
      rw [List.getLast?_cons]
      cases cs.getLast? <;> simp [hc]

/-- Whole lines are the lines of a text with a newline behind it. -/
theorem flatMap_splitChars (cs : List Char) :
    (Text.splitChars '\n' cs).flatMap (· ++ ['\n']) = cs ++ ['\n'] := by
  induction cs with
  | nil => rfl
  | cons c cs ih =>
    rw [Text.splitChars]
    split
    · next hc => rw [List.flatMap_cons, ih, hc, List.nil_append, List.singleton_append,
        List.cons_append]
    · split
      · next hnone => exact absurd hnone (Text.splitChars_ne_nil _ _)
      · next line lines hlines =>
        rw [hlines, List.flatMap_cons] at ih
        rw [List.flatMap_cons, List.cons_append, List.cons_append, ih, List.cons_append]

private theorem length_splitChars (cs : List Char) :
    (Text.splitChars '\n' cs).length = (cs ++ ['\n']).count '\n' := by
  induction cs with
  | nil => rfl
  | cons c cs ih =>
    rw [Text.splitChars, List.cons_append]
    split
    · next hc => rw [List.length_cons, ih, hc, List.count_cons_self]
    · next hc =>
      rw [List.count_cons_of_ne hc, ← ih]
      split
      · next hnone => exact absurd hnone (Text.splitChars_ne_nil _ _)
      · next hlines => rw [hlines, List.length_cons, List.length_cons]

/-- Whole lines are left out. -/
theorem dropAll (cs : List Char)
    (h : Weaves true (row + (cs ++ ['\n']).count '\n') kept rows added made) :
    Weaves true row (cs ++ ['\n'] ++ kept)
      (List.range' row ((cs ++ ['\n']).count '\n') ++ rows) added made := by
  rw [← length_splitChars] at h ⊢
  rw [← flatMap_splitChars]
  have hlines : ∀ line ∈ Text.splitChars '\n' cs, '\n' ∉ line :=
    fun line hline => Text.not_mem_of_mem_splitChars hline
  generalize Text.splitChars '\n' cs = lines at h hlines
  induction lines generalizing row with
  | nil => exact h
  | cons line lines ih =>
    obtain ⟨hline, hrest⟩ := List.forall_mem_cons.mp hlines
    rw [List.length_cons, Nat.add_comm lines.length, ← Nat.add_assoc] at h
    rw [List.flatMap_cons, List.length_cons, List.range'_succ, List.cons_append]
    simpa using Weaves.drop hline (ih h hrest)

/-- Whole lines are put in. -/
theorem addAll (cs : List Char) (h : Weaves true row kept rows added made) :
    Weaves true row kept rows (Text.splitChars '\n' cs ++ added) (cs ++ ['\n'] ++ made) := by
  rw [← flatMap_splitChars]
  have hlines : ∀ line ∈ Text.splitChars '\n' cs, '\n' ∉ line :=
    fun line hline => Text.not_mem_of_mem_splitChars hline
  generalize Text.splitChars '\n' cs = lines at hlines
  induction lines with
  | nil => exact h
  | cons line lines ih =>
    obtain ⟨hline, hrest⟩ := List.forall_mem_cons.mp hlines
    rw [List.flatMap_cons]
    simpa using Weaves.add hline (ih hrest)

/-- At the end of a line whole lines are put in with a newline before each of them. -/
theorem addBehind (cs : List Char) {behind : List Char}
    (h : Weaves false row ('\n' :: kept) rows added ('\n' :: behind)) :
    Weaves fresh row ('\n' :: kept) rows (Text.splitChars '\n' cs ++ added)
      ('\n' :: cs ++ '\n' :: behind) := by
  cases h with
  | copy hc _ => exact absurd rfl hc
  | newline h => simpa using @Weaves.newline fresh _ _ _ _ _ (h.addAll cs)

end Weaves

end GoContracts

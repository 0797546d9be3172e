import GoContracts.Proofs.Text.Slices
import Mathlib.Data.List.Basic

/-!
# Lines and pieces of a text

Splitting a text into lines inverts joining lines that hold no newline. Splitting a text of two
parts with a separator between them splits the parts.
-/

namespace GoContracts.Text

/-- The pieces between separators are those of the standard library. -/
theorem splitChars_eq_splitOn (sep : Char) (cs : List Char) :
    splitChars sep cs = cs.splitOn sep := by
  induction cs with
  | nil => simp [splitChars]
  | cons c cs ih =>
    rw [List.splitOn_cons_eq_if_modifyHead, splitChars, ih]
    by_cases hc : c = sep
    · simp [hc]
    · simp only [hc, if_false, beq_iff_eq]
      cases hs : cs.splitOn sep with
      | nil => exact absurd hs (List.splitOn_ne_nil sep cs)
      | cons p ps => rfl

/-- No piece holds the separator. -/
theorem not_mem_of_mem_splitChars {sep : Char} {cs piece : List Char}
    (h : piece ∈ splitChars sep cs) : sep ∉ piece := by
  induction cs generalizing piece with
  | nil =>
    simp only [splitChars, List.mem_singleton] at h
    simp [h]
  | cons c cs ih =>
    rw [splitChars] at h
    by_cases hc : c = sep
    · simp only [hc, if_true, List.mem_cons] at h
      rcases h with rfl | h
      · simp
      · exact ih h
    · simp only [hc, if_false] at h
      cases hs : splitChars sep cs with
      | nil => exact absurd hs (splitChars_ne_nil sep cs)
      | cons p ps =>
        rw [hs] at h ih
        rcases List.mem_cons.mp h with rfl | h
        · simpa [Ne.symm hc] using ih (List.mem_cons_self ..)
        · exact ih (List.mem_cons_of_mem p h)

/-- A text has at least one line. -/
theorem lines_ne_nil (s : String) : lines s ≠ [] := by
  simp [lines, splitAt, splitChars_ne_nil]

/-- No line holds a newline. -/
theorem newline_not_mem_of_mem_lines {s line : String} (h : line ∈ lines s) :
    '\n' ∉ line.toList := by
  simp only [lines, splitAt, List.mem_map] at h
  obtain ⟨piece, hp, rfl⟩ := h
  simpa using not_mem_of_mem_splitChars hp

/-- The lines of joined lines are those that were joined. -/
theorem lines_intercalate {ls : List String} (hne : ls ≠ []) (h : ∀ l ∈ ls, '\n' ∉ l.toList) :
    lines ("\n".intercalate ls) = ls := by
  have hjoin : ("\n".intercalate ls).toList = ['\n'].intercalate (ls.map String.toList) := by
    rw [String.toList_intercalate]
    rfl
  rw [lines, splitAt_eq, splitChars_eq_splitOn, hjoin, List.splitOn_intercalate _
    (by simpa) (by simpa)]
  simp [List.map_map, Function.comp_def]

/-! ### Pieces -/

variable {sep : Char} {a b s piece : String}

/-- A separator splits what stands before it from what stands behind it. -/
theorem splitChars_append_cons (as bs : List Char) :
    splitChars sep (as ++ sep :: bs) = splitChars sep as ++ splitChars sep bs := by
  induction as with
  | nil => simp [splitChars]
  | cons c as ih =>
    rw [List.cons_append, splitChars, splitChars, ih]
    by_cases hc : c = sep
    · simp [hc]
    · simp only [hc, if_false]
      cases hs : splitChars sep as with
      | nil => exact absurd hs (splitChars_ne_nil sep as)
      | cons p ps => rfl

/-- The last piece of a text goes on with the first one of what stands behind it. -/
theorem exists_splitChars_append (as bs : List Char) : ∃ before last first behind,
    splitChars sep as = before ++ [last] ∧ splitChars sep bs = first :: behind ∧
      splitChars sep (as ++ bs) = before ++ (last ++ first) :: behind ∧
      before.length = as.count sep := by
  induction as with
  | nil =>
    obtain ⟨first, behind, hbs⟩ := List.exists_cons_of_ne_nil (splitChars_ne_nil sep bs)
    exact ⟨[], [], first, behind, rfl, hbs, hbs, rfl⟩
  | cons c as ih =>
    obtain ⟨before, last, first, behind, has, hbs, hboth, hlength⟩ := ih
    rw [List.cons_append, splitChars, splitChars, has, hboth]
    by_cases hc : c = sep
    · subst hc
      rw [if_pos rfl, if_pos rfl, List.count_cons_self]
      exact ⟨[] :: before, last, first, behind, rfl, hbs, rfl, by rw [List.length_cons, hlength]⟩
    · rw [if_neg hc, if_neg hc, List.count_cons_of_ne hc, ← hlength]
      cases before with
      | nil => exact ⟨[], c :: last, first, behind, rfl, hbs, rfl, rfl⟩
      | cons p before => exact ⟨(c :: p) :: before, last, first, behind, rfl, hbs, rfl, rfl⟩

/-- There is one piece more than there are separators. -/
theorem length_splitChars (cs : List Char) : (splitChars sep cs).length = cs.count sep + 1 := by
  obtain ⟨before, last, _, _, hcs, _, _, hlength⟩ := @exists_splitChars_append sep cs []
  rw [hcs, List.length_append, hlength, List.length_singleton]

private theorem getElem?_splitChars_left {as : List Char} {n : Nat} (h : n < as.count sep)
    (bs : List Char) : (splitChars sep (as ++ bs))[n]? = (splitChars sep as)[n]? := by
  obtain ⟨before, last, first, behind, has, _, hboth, hlength⟩ :=
    @exists_splitChars_append sep as bs
  rw [has, hboth, List.getElem?_append_left (by omega), List.getElem?_append_left (by omega)]

private theorem getElem?_splitChars_right {as : List Char} {n : Nat} (h : as.count sep < n)
    (bs : List Char) :
    (splitChars sep (as ++ bs))[n]? = (splitChars sep bs)[n - as.count sep]? := by
  obtain ⟨before, last, first, behind, _, hbs, hboth, hlength⟩ :=
    @exists_splitChars_append sep as bs
  obtain ⟨k, rfl⟩ : ∃ k, n = as.count sep + (k + 1) := ⟨n - as.count sep - 1, by omega⟩
  rw [hbs, hboth, List.getElem?_append_right (by omega), hlength, Nat.add_sub_cancel_left,
    List.getElem?_cons_succ, List.getElem?_cons_succ]

/-- A part of a text that is changed without changing the number of pieces changes no piece before
or behind it. -/
theorem getElem?_splitChars_middle {m m' : List Char} (hcount : m'.count sep = m.count sep)
    (as bs : List Char) {n : Nat} (h : n < as.count sep ∨ as.count sep + m.count sep < n) :
    (splitChars sep (as ++ m' ++ bs))[n]? = (splitChars sep (as ++ m ++ bs))[n]? := by
  rcases h with h | h
  · rw [List.append_assoc, List.append_assoc, getElem?_splitChars_left h,
      getElem?_splitChars_left h]
  · have hlt : (as ++ m).count sep < n := by rwa [List.count_append]
    have hlt' : (as ++ m').count sep < n := by rwa [List.count_append, hcount]
    rw [getElem?_splitChars_right hlt, getElem?_splitChars_right hlt', List.count_append,
      List.count_append, hcount]

/-- Characters without a separator are one piece. -/
theorem splitChars_of_not_mem {cs : List Char} (h : sep ∉ cs) : splitChars sep cs = [cs] := by
  induction cs with
  | nil => rfl
  | cons c cs ih =>
    rw [List.mem_cons, not_or] at h
    rw [splitChars, if_neg (Ne.symm h.1), ih h.2]

/-- A separator splits what stands before it from what stands behind it. -/
theorem splitAt_append_sep :
    splitAt sep (a ++ String.ofList [sep] ++ b) = splitAt sep a ++ splitAt sep b := by
  have hchars : (a ++ String.ofList [sep] ++ b).toList = a.toList ++ sep :: b.toList := by simp
  rw [splitAt_eq, hchars, splitChars_append_cons, List.map_append, splitAt_eq, splitAt_eq]

/-- A text without a separator is one piece. -/
theorem splitAt_of_not_mem (h : sep ∉ s.toList) : splitAt sep s = [s] := by
  rw [splitAt_eq, splitChars_of_not_mem h, List.map_singleton, String.ofList_toList]

/-- A text has at least one piece. -/
theorem splitAt_ne_nil : splitAt sep s ≠ [] := by simp [splitAt, splitChars_ne_nil]

/-- No piece has a separator. -/
theorem not_mem_of_mem_splitAt (h : piece ∈ splitAt sep s) : sep ∉ piece.toList := by
  obtain ⟨cs, hcs, rfl⟩ := List.mem_map.mp h
  simpa using not_mem_of_mem_splitChars hcs

private theorem mem_of_mem_splitChars {cs piece : List Char} {c : Char}
    (h : piece ∈ splitChars sep cs)
    (hc : c ∈ piece) : c ∈ cs := by
  induction cs generalizing piece with
  | nil =>
    obtain rfl : piece = [] := by simpa [splitChars] using h
    cases hc
  | cons first cs ih =>
    rw [splitChars] at h
    split at h
    · rcases List.mem_cons.mp h with rfl | h
      · cases hc
      · exact List.mem_cons_of_mem first (ih h hc)
    · cases hs : splitChars sep cs with
      | nil => exact absurd hs (splitChars_ne_nil sep cs)
      | cons head tail =>
        rw [hs] at h ih
        rcases List.mem_cons.mp h with rfl | h
        · rcases List.mem_cons.mp hc with rfl | hc
          · exact List.mem_cons_self ..
          · exact List.mem_cons_of_mem first (ih (List.mem_cons_self ..) hc)
        · exact List.mem_cons_of_mem first (ih (List.mem_cons_of_mem head h) hc)

/-- The characters of a piece are characters of the text. -/
theorem mem_of_mem_splitAt {c : Char} (h : piece ∈ splitAt sep s) (hc : c ∈ piece.toList) :
    c ∈ s.toList := by
  rw [splitAt_eq] at h
  obtain ⟨cs, hcs, rfl⟩ := List.mem_map.mp h
  rw [String.toList_ofList] at hc
  exact mem_of_mem_splitChars hcs hc

/-- A text that is a single empty piece is empty. -/
theorem splitAt_eq_singleton (h : splitAt sep s = [""]) : s = "" := by
  rw [splitAt_eq] at h
  obtain ⟨cs, hcs, hempty⟩ := List.map_eq_singleton_iff.mp h
  obtain rfl : cs = [] := by simpa using hempty
  refine String.toList_injective (List.eq_nil_iff_forall_not_mem.mpr fun c hc => ?_)
  cases htext : s.toList with
  | nil => simp [htext] at hc
  | cons first rest =>
    rw [htext, splitChars] at hcs
    split at hcs
    · exact splitChars_ne_nil sep rest (List.cons.inj hcs).2
    · split at hcs <;> cases (List.cons.inj hcs).1

end GoContracts.Text

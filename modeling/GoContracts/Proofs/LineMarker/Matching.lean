import GoContracts.Proofs.Text.Lines
import GoContracts.Weaving.LineMarker
import Mathlib.Data.List.Basic

/-!
# Matchings behind line markers

The lines of a marked text are the generated lines with markers between them. Which generated line
belongs to which line of the reference is a matching, and the markers are those that the matching
asks for: a reader who counts lines from the last marker finds every matched line under its number.
-/

namespace GoContracts.LineMarker

/-- A line of a marked text: a marker for a line of the reference, or a generated line. -/
inductive Entry where
  | marker (index : Nat)
  | line (text : String)
  deriving DecidableEq, Repr

/-- How an entry is written. -/
def Entry.render (path : String) : Entry → String
  | marker index => LineMarker.text path index
  | line text => text

/-- The numbers of the generated lines for a reader who counts from `n` and goes on from the number
of each marker. -/
def numbered : Nat → List Entry → List Nat
  | _, [] => []
  | _, .marker index :: entries => numbered (index + 1) entries
  | n, .line _ :: entries => n :: numbered (n + 1) entries

/-- A matching of generated lines with lines of a reference: corresponding lines have the same text
apart from blanks, the order is kept, and what is left out of the reference was stripped. -/
structure Matching (reference : List String) (stripped : List Nat) (lines : List String) where
  /-- The line of the reference that a generated line belongs to. Both count from zero. -/
  index? : Nat → Option Nat
  corresponds : ∀ g r, index? g = some r →
    ∃ a b, lines[g]? = some a ∧ reference[r]? = some b ∧ Text.trim a = Text.trim b
  increasing : ∀ g g' r r', index? g = some r → index? g' = some r' → g < g' → r < r'
  skipped : ∀ g r i, index? g = some r → i < r → (∀ g', index? g' ≠ some i) → i ∈ stripped

/-- The line of the reference whose number a generated line has without a marker before it, if the
line before it has its own number. -/
def continued? (index? : Nat → Option Nat) : Nat → Option Nat
  | 0 => some 0
  | g + 1 => (index? g).map (· + 1)

/-- Generated line `g`, with a marker before it if it is matched and does not carry on from the line
before it. -/
def entriesAt (index? : Nat → Option Nat) (line : String) (g : Nat) : List Entry :=
  match index? g with
  | none => [.line line]
  | some r => if continued? index? g = some r then [.line line] else [.marker r, .line line]

/-- The generated lines with the markers that a matching asks for. -/
def entries (index? : Nat → Option Nat) (lines : List String) : List Entry :=
  lines.zipIdx.flatMap fun (line, g) => entriesAt index? line g

/-! ### Counting from markers -/

/-- The generated lines from line `k` on with their markers. -/
def entriesFrom (index? : Nat → Option Nat) (lines : List String) (k : Nat) : List Entry :=
  (lines.zipIdx k).flatMap fun (line, g) => entriesAt index? line g

/-- The entries of a line come before those of the lines behind it. -/
theorem entriesFrom_cons (index? : Nat → Option Nat) (line : String) (lines : List String)
    (k : Nat) : entriesFrom index? (line :: lines) k =
      entriesAt index? line k ++ entriesFrom index? lines (k + 1) := by
  simp only [entriesFrom, List.zipIdx_cons, List.flatMap_cons]

/-- A reader who has the right number for a line that carries on reads every matched line under its
number. -/
private theorem getElem?_numbered (index? : Nat → Option Nat) (lines : List String) (k n : Nat)
    (hn : ∀ r, continued? index? k = some r → n = r + 1) (i r : Nat) (hi : i < lines.length)
    (hr : index? (k + i) = some r) :
    (numbered n (entriesFrom index? lines k))[i]? = some (r + 1) := by
  induction lines generalizing k n i with
  | nil => simp at hi
  | cons line lines ih =>
    rw [entriesFrom_cons]
    -- What is counted for the first line, and from where the count goes on behind it.
    have first : ∃ n', numbered n (entriesAt index? line k ++ entriesFrom index? lines (k + 1)) =
        n' :: numbered (n' + 1) (entriesFrom index? lines (k + 1)) ∧
        ∀ s, index? k = some s → n' = s + 1 := by
      unfold entriesAt
      cases hk : index? k with
      | none => exact ⟨n, by simp [numbered], by simp⟩
      | some s =>
        simp only
        split
        · next hc => exact ⟨n, by simp [numbered], by simp [hn s hc]⟩
        · exact ⟨s + 1, by simp [numbered], by simp⟩
    obtain ⟨n', hnum, hn'⟩ := first
    rw [hnum]
    cases i with
    | zero => simp [hn' r hr]
    | succ i =>
      rw [List.getElem?_cons_succ]
      apply ih (k + 1) (n' + 1)
      · intro s hs
        simp only [continued?, Option.map_eq_some_iff] at hs
        obtain ⟨u, hu, rfl⟩ := hs
        rw [hn' u hu]
      · simpa using hi
      · rw [← hr]
        congr 1
        omega

/-- Every matched line has the number of the line that it belongs to. -/
theorem numbered_entries {index? : Nat → Option Nat} {lines : List String} {g r : Nat}
    (hg : g < lines.length) (hr : index? g = some r) :
    (numbered 1 (entries index? lines))[g]? = some (r + 1) :=
  getElem?_numbered index? lines 0 1 (by simp [continued?]) g r hg (by simpa using hr)

private theorem no_adjacent_markers (index? : Nat → Option Nat) (lines : List String)
    (k i a b : Nat)
    (ha : (entriesFrom index? lines k)[i]? = some (.marker a)) :
    (entriesFrom index? lines k)[i + 1]? ≠ some (.marker b) := by
  induction lines generalizing k i with
  | nil => simp [entriesFrom] at ha
  | cons line lines ih =>
    rw [entriesFrom_cons] at ha ⊢
    have shape : (∃ s, entriesAt index? line k = [.marker s, .line line]) ∨
        entriesAt index? line k = [.line line] := by
      unfold entriesAt
      cases index? k with
      | none => exact .inr rfl
      | some s =>
        simp only
        split
        · exact .inr rfl
        · exact .inl ⟨s, rfl⟩
    rcases shape with ⟨s, hs⟩ | hs
    · rw [hs] at ha ⊢
      match i with
      | 0 => simp
      | 1 => simp at ha
      | i + 2 => exact ih (k + 1) i (by simpa using ha)
    · rw [hs] at ha ⊢
      cases i with
      | zero => simp at ha
      | succ i => exact ih (k + 1) i (by simpa using ha)

/-! ### The matching that is found -/

/-- For each generated line the line of the reference that it is taken for. -/
def matched (stripped : List Nat) : List Numbered → List String → List (Option Nat)
  | _, [] => []
  | rest, line :: lines =>
    match matching? stripped rest line with
    | some (_, index, after) => some index :: matched stripped after lines
    | none => none :: matched stripped rest lines

/-- The line of the reference that generated line `g` is taken for. -/
def matchedIndex? (reference : List String) (stripped : List Nat) (lines : List String) (g : Nat) :
    Option Nat :=
  ((matched stripped reference.zipIdx lines)[g]?).join

/-- The lines of the reference from line `c` on. -/
def linesFrom (reference : List String) (c : Nat) : List Numbered :=
  (reference.drop c).zipIdx c

private theorem linesFrom_eq_cons {reference : List String} {c : Nat} {x : Numbered}
    {rest : List Numbered} (h : linesFrom reference c = x :: rest) :
    reference[c]? = some x.1 ∧ x.2 = c ∧ rest = linesFrom reference (c + 1) := by
  unfold linesFrom at h ⊢
  cases hd : reference.drop c with
  | nil => simp [hd] at h
  | cons a as =>
    have hc : reference[c]? = some a := by
      rw [← List.head?_drop, hd, List.head?_cons]
    have hs : reference.drop (c + 1) = as := by
      rw [← List.tail_drop, hd, List.tail_cons]
    rw [hd, List.zipIdx_cons] at h
    injection h with hx hrest
    subst hx
    exact ⟨hc, rfl, by rw [hs, hrest]⟩

/-- From the first line on there are all lines. -/
theorem linesFrom_zero (reference : List String) :
    linesFrom reference 0 = reference.zipIdx := by
  simp [linesFrom]

/-- What is left behind stripped lines begins with the first line that is not stripped. -/
private theorem dropStripped_linesFrom (reference : List String) (stripped : List Nat) (c : Nat) :
    ∃ r, c ≤ r ∧ dropStripped stripped (linesFrom reference c) = linesFrom reference r ∧
      (∀ j, c ≤ j → j < r → j ∈ stripped) ∧
      (linesFrom reference r ≠ [] → r ∉ stripped) := by
  generalize hm : reference.length - c = n
  induction n generalizing c with
  | zero =>
    have hnil : linesFrom reference c = [] := by
      simp [linesFrom, List.drop_eq_nil_of_le (show reference.length ≤ c by omega)]
    exact ⟨c, Nat.le_refl c, by rw [hnil]; rfl, by omega, fun h => absurd hnil h⟩
  | succ n ih =>
    cases hf : linesFrom reference c with
    | nil => exact ⟨c, Nat.le_refl c, by rw [hf]; rfl, by omega, fun h => absurd hf h⟩
    | cons x rest =>
      obtain ⟨_, hx, hrest⟩ := linesFrom_eq_cons hf
      by_cases hs : c ∈ stripped
      · obtain ⟨r, hcr, hr, hskip, hend⟩ := ih (c + 1) (by omega)
        refine ⟨r, by omega, ?_, ?_, hend⟩
        · rw [dropStripped, List.dropWhile_cons_of_pos (by simpa [hx] using hs), ← hr, ← hrest,
            dropStripped]
        · intro j hcj hjr
          rcases Nat.eq_or_lt_of_le hcj with rfl | hlt
          · exact hs
          · exact hskip j hlt hjr
      · refine ⟨c, Nat.le_refl c, ?_, by omega, fun _ => hs⟩
        rw [dropStripped, List.dropWhile_cons_of_neg (by simpa [hx] using hs), hf]

/-- Where a line corresponds: to the line of the reference that is due, or, if that differs from it
and stripped lines begin there, to the first line behind them. -/
private theorem matching_linesFrom {reference : List String} {stripped : List Nat} {c : Nat}
    {line : String} {skips : Bool} {r : Nat} {after : List Numbered}
    (h : matching? stripped (linesFrom reference c) line = some (skips, r, after)) :
    c ≤ r ∧ (skips = true ↔ r ≠ c) ∧ after = linesFrom reference (r + 1) ∧
      (∃ b, reference[r]? = some b ∧ Text.trim line = Text.trim b) ∧
      ∀ j, c ≤ j → j < r → j ∈ stripped := by
  unfold matching? at h
  cases hf : linesFrom reference c with
  | nil => simp [hf] at h
  | cons x rest =>
    obtain ⟨next, index⟩ := x
    obtain ⟨hget, hindex, hrest⟩ := linesFrom_eq_cons hf
    simp only at hindex
    subst hindex
    simp only [hf] at h
    by_cases hc : corresponds line next = true
    · simp only [hc, if_true, Option.some.injEq, Prod.mk.injEq] at h
      obtain ⟨rfl, rfl, rfl⟩ := h
      exact ⟨Nat.le_refl _, by simp, hrest, ⟨next, hget, by simpa [corresponds] using hc⟩, by omega⟩
    · simp only [hc, if_false, Bool.false_eq_true] at h
      obtain ⟨s, hcs, hdrop, hskip, hend⟩ := dropStripped_linesFrom reference stripped index
      rw [hf] at hdrop
      cases hs : linesFrom reference s with
      | nil => simp [hdrop, hs] at h
      | cons y behind =>
        obtain ⟨hgetS, hindexS, hbehind⟩ := linesFrom_eq_cons hs
        simp only [hdrop, hs, Option.ite_none_right_eq_some, Option.some.injEq, Prod.mk.injEq] at h
        obtain ⟨hy, rfl, rfl, rfl⟩ := h
        rw [hindexS] at *
        refine ⟨hcs, ?_, hbehind, ⟨y.1, hgetS, by simpa [corresponds] using hy⟩, hskip⟩
        -- The line that is due differs, so the line behind the stripped ones is another one.
        simp only [true_iff]
        rintro rfl
        rw [hgetS, Option.some.injEq] at hget
        simp only at hget
        exact hc (by rw [← hget]; exact hy)

/-- A line that is matched moves the reference behind its match. -/
theorem matched_cons_some {reference : List String} {stripped : List Nat} {c : Nat}
    {line : String} {skips : Bool} {r : Nat} {after : List Numbered}
    (h : matching? stripped (linesFrom reference c) line = some (skips, r, after))
    (lines : List String) : matched stripped (linesFrom reference c) (line :: lines) =
      some r :: matched stripped (linesFrom reference (r + 1)) lines := by
  rw [matched, h, ← (matching_linesFrom h).2.2.1]

/-- A line that is not matched leaves the reference where it is. -/
theorem matched_cons_none {reference : List String} {stripped : List Nat} {c : Nat}
    {line : String} (h : matching? stripped (linesFrom reference c) line = none)
    (lines : List String) : matched stripped (linesFrom reference c) (line :: lines) =
      none :: matched stripped (linesFrom reference c) lines := by
  rw [matched, h]

/-- A line is taken for a line of the same text that is not left behind yet. -/
private theorem matched_corresponds {reference : List String} {stripped : List Nat}
    {lines : List String} {c g r : Nat}
    (h : (matched stripped (linesFrom reference c) lines)[g]? = some (some r)) :
    c ≤ r ∧ ∃ a b, lines[g]? = some a ∧ reference[r]? = some b ∧ Text.trim a = Text.trim b := by
  induction lines generalizing c g with
  | nil => simp [matched] at h
  | cons line lines ih =>
    cases hm : matching? stripped (linesFrom reference c) line with
    | none =>
      rw [matched_cons_none hm] at h
      cases g with
      | zero => simp at h
      | succ g => exact ih (by simpa using h)
    | some x =>
      obtain ⟨skips, s, after⟩ := x
      obtain ⟨hcs, _, _, ⟨b, hb, htrim⟩, _⟩ := matching_linesFrom hm
      rw [matched_cons_some hm] at h
      cases g with
      | zero =>
        simp only [List.getElem?_cons_zero, Option.some.injEq] at h
        subst h
        exact ⟨hcs, line, b, rfl, hb, htrim⟩
      | succ g =>
        obtain ⟨hsr, hlines⟩ := ih (by simpa using h)
        exact ⟨by omega, hlines⟩

/-- Later lines are taken for later lines. -/
private theorem matched_increasing {reference : List String} {stripped : List Nat}
    {lines : List String} {c g g' r r' : Nat}
    (h : (matched stripped (linesFrom reference c) lines)[g]? = some (some r))
    (h' : (matched stripped (linesFrom reference c) lines)[g']? = some (some r')) (hlt : g < g') :
    r < r' := by
  induction lines generalizing c g g' with
  | nil => simp [matched] at h
  | cons line lines ih =>
    obtain ⟨g', rfl⟩ : ∃ n, g' = n + 1 := ⟨g' - 1, by omega⟩
    cases hm : matching? stripped (linesFrom reference c) line with
    | none =>
      rw [matched_cons_none hm] at h h'
      cases g with
      | zero => simp at h
      | succ g => exact ih (by simpa using h) (by simpa using h') (by omega)
    | some x =>
      obtain ⟨skips, s, after⟩ := x
      rw [matched_cons_some hm] at h h'
      cases g with
      | zero =>
        simp only [List.getElem?_cons_zero, Option.some.injEq] at h
        have hle := (matched_corresponds (by simpa using h')).1
        omega
      | succ g => exact ih (by simpa using h) (by simpa using h') (by omega)

/-- What is left out before a line that is taken for one was stripped. -/
private theorem matched_skipped {reference : List String} {stripped : List Nat}
    {lines : List String} {c g r i : Nat}
    (h : (matched stripped (linesFrom reference c) lines)[g]? = some (some r)) (hci : c ≤ i)
    (hir : i < r)
    (hi : ∀ g' : Nat, (matched stripped (linesFrom reference c) lines)[g']? ≠ some (some i)) :
    i ∈ stripped := by
  induction lines generalizing c g with
  | nil => simp [matched] at h
  | cons line lines ih =>
    cases hm : matching? stripped (linesFrom reference c) line with
    | none =>
      rw [matched_cons_none hm] at h hi
      cases g with
      | zero => simp at h
      | succ g => exact ih (by simpa using h) hci fun g' => by simpa using hi (g' + 1)
    | some x =>
      obtain ⟨skips, s, after⟩ := x
      obtain ⟨_, _, _, _, hskip⟩ := matching_linesFrom hm
      rw [matched_cons_some hm] at h hi
      rcases Nat.lt_trichotomy i s with hlt | rfl | hgt
      · exact hskip i hci hlt
      · exact absurd rfl (hi 0)
      · cases g with
        | zero =>
          simp only [List.getElem?_cons_zero, Option.some.injEq] at h
          omega
        | succ g => exact ih (by simpa using h) hgt fun g' => by simpa using hi (g' + 1)

/-- The matching behind the markers. -/
def found (reference : List String) (stripped : List Nat) (lines : List String) :
    Matching reference stripped lines where
  index? := matchedIndex? reference stripped lines
  corresponds g r h := by
    rw [matchedIndex?, Option.join_eq_some_iff, ← linesFrom_zero] at h
    exact (matched_corresponds h).2
  increasing g g' r r' h h' hlt := by
    rw [matchedIndex?, Option.join_eq_some_iff, ← linesFrom_zero] at h h'
    exact matched_increasing h h' hlt
  skipped g r i h hir hi := by
    rw [matchedIndex?, Option.join_eq_some_iff, ← linesFrom_zero] at h
    refine matched_skipped h (Nat.zero_le i) hir fun g' hg' => hi g' ?_
    rw [matchedIndex?, Option.join_eq_some_iff, ← linesFrom_zero]
    exact hg'

/-! ### The text with markers -/

/-- The lines written from line `k` on are those that the matching asks for. What counts as inserted
before is a line without a number of its own. -/
private theorem mark_eq_render (path : String) (reference : List String) (stripped : List Nat)
    (index? : Nat → Option Nat) (lines : List String) (k c : Nat) (inserted : Bool)
    (hindex : ∀ i, i < lines.length →
      index? (k + i) = ((matched stripped (linesFrom reference c) lines)[i]?).join)
    (hstate : continued? index? k = if inserted then none else some c) :
    mark path stripped (linesFrom reference c) inserted lines =
      (entriesFrom index? lines k).map (Entry.render path) := by
  induction lines generalizing k c inserted with
  | nil => simp [mark, entriesFrom]
  | cons line lines ih =>
    have hk := hindex 0 (by simp)
    rw [Nat.add_zero] at hk
    have later (i : Nat) (hi : i < lines.length) := hindex (i + 1) (by simpa using hi)
    rw [entriesFrom_cons, List.map_append]
    cases hm : matching? stripped (linesFrom reference c) line with
    | none =>
      rw [matched_cons_none hm] at hk later
      simp only [List.getElem?_cons_zero, Option.join_some] at hk
      have hrest := ih (k + 1) c true
        (fun i hi => by rw [← Nat.add_right_comm, Nat.add_assoc, later i hi]; simp)
        (by simp [continued?, hk])
      rw [mark, hm, entriesAt, hk, hrest]
      rfl
    | some x =>
      obtain ⟨skips, r, after⟩ := x
      obtain ⟨hcr, hskips, hafter, _, _⟩ := matching_linesFrom hm
      rw [matched_cons_some hm] at hk later
      simp only [List.getElem?_cons_zero, Option.join_some] at hk
      have hrest := ih (k + 1) (r + 1) false
        (fun i hi => by rw [← Nat.add_right_comm, Nat.add_assoc, later i hi]; simp)
        (by simp [continued?, hk])
      -- A marker is written unless the line before has its own number and nothing is skipped.
      have hcond : continued? index? k = some r ↔ (inserted || skips) = false := by
        rw [hstate, Bool.or_eq_false_iff, ← Bool.not_eq_true skips, hskips, not_not]
        cases inserted with
        | true => simp
        | false => simp [eq_comm]
      simp only [mark, hm, entriesAt, hk, hafter, hrest]
      by_cases hb : (inserted || skips) = true
      · have hc : continued? index? k ≠ some r := by
          rw [Ne, hcond, hb]
          simp
        simp [hb, hc, Entry.render]
      · rw [Bool.not_eq_true] at hb
        simp [hb, hcond.mpr hb, Entry.render]

private theorem newline_not_mem_text {path : String} (h : '\n' ∉ path.toList) (index : Nat) :
    '\n' ∉ (text path index).toList := by
  have hdigits : '\n' ∉ Nat.toDigits 10 (index + 1) := by
    intro hmem
    have hdigit := Nat.isDigit_of_mem_toDigits (by decide) (by decide) hmem
    simp at hdigit
  simp [text, h, hdigits]

private theorem entries_ne_nil (index? : Nat → Option Nat) {lines : List String}
    (h : lines ≠ []) : entries index? lines ≠ [] := by
  obtain ⟨line, rest, rfl⟩ := List.exists_cons_of_ne_nil h
  simp only [entries, List.zipIdx_cons, List.flatMap_cons, ne_eq, List.append_eq_nil_iff, not_and]
  intro hnil
  unfold entriesAt at hnil
  cases h0 : index? 0 with
  | none => simp [h0] at hnil
  | some r =>
    simp only [h0] at hnil
    split at hnil <;> simp at hnil

private theorem mem_entries {index? : Nat → Option Nat} {lines : List String} {text : String}
    (h : Entry.line text ∈ entries index? lines) : text ∈ lines := by
  simp only [entries, List.mem_flatMap] at h
  obtain ⟨⟨line, g⟩, hmem, hentry⟩ := h
  have hline : text = line := by
    unfold entriesAt at hentry
    cases hg : index? g with
    | none => simpa [hg] using hentry
    | some r =>
      simp only [hg] at hentry
      split at hentry <;> simpa using hentry
  rw [hline]
  exact List.fst_mem_of_mem_zipIdx hmem

/-- Markers are written for matched lines. -/
theorem exists_of_marker_mem {index? : Nat → Option Nat} {lines : List String} {index : Nat}
    (h : Entry.marker index ∈ entries index? lines) : ∃ g, index? g = some index := by
  simp only [entries, List.mem_flatMap] at h
  obtain ⟨⟨line, g⟩, _, hentry⟩ := h
  unfold entriesAt at hentry
  cases hg : index? g with
  | none => simp [hg] at hentry
  | some r =>
    simp only [hg] at hentry
    split at hentry
    · simp at hentry
    · obtain rfl : index = r := by simpa using hentry
      exact ⟨g, hg⟩

/-- The marked text has the entries that the found matching asks for. -/
theorem insertAll_eq (path : String) (reference : List String) (stripped : List Nat)
    (generated : String) :
    insertAll path reference stripped generated =
      "\n".intercalate ((entries (matchedIndex? reference stripped (Text.lines generated))
        (Text.lines generated)).map (Entry.render path)) := by
  have hmark := mark_eq_render path reference stripped
    (matchedIndex? reference stripped (Text.lines generated)) (Text.lines generated) 0 0 false
    (fun i _ => by rw [Nat.zero_add, linesFrom_zero, matchedIndex?]) (by simp [continued?])
  rw [linesFrom_zero] at hmark
  rw [insertAll, hmark]
  rfl

/-- The lines of the marked text are the entries that the found matching asks for. -/
theorem lines_insertAll {path : String} (hpath : '\n' ∉ path.toList) (reference : List String)
    (stripped : List Nat) (generated : String) :
    Text.lines (insertAll path reference stripped generated) =
      (entries (matchedIndex? reference stripped (Text.lines generated))
        (Text.lines generated)).map (Entry.render path) := by
  rw [insertAll_eq, Text.lines_intercalate]
  · rw [ne_eq, List.map_eq_nil_iff]
    exact entries_ne_nil _ (Text.lines_ne_nil generated)
  · intro line hline
    obtain ⟨entry, hentry, rfl⟩ := List.mem_map.mp hline
    cases entry with
    | marker index => exact newline_not_mem_text hpath index
    | line text => exact Text.newline_not_mem_of_mem_lines (mem_entries hentry)

/-- The marked text holds the generated lines in order and the markers that a matching asks for, no
two of them adjacent, and counting from the last marker gives each matched line its number. -/
theorem insertAll_resynchronizes {path : String} (hpath : '\n' ∉ path.toList)
    (reference : List String) (stripped : List Nat) (generated : String) :
    ∃ m : Matching reference stripped (Text.lines generated),
      let written := entries m.index? (Text.lines generated)
      Text.lines (insertAll path reference stripped generated) = written.map (Entry.render path) ∧
        (∀ g r, m.index? g = some r → (numbered 1 written)[g]? = some (r + 1)) ∧
        ∀ i a b, written[i]? = some (.marker a) → written[i + 1]? ≠ some (.marker b) := by
  refine ⟨found reference stripped (Text.lines generated),
    lines_insertAll hpath reference stripped generated, ?_, ?_⟩
  · intro g r hr
    obtain ⟨a, _, ha, _⟩ := (found reference stripped (Text.lines generated)).corresponds g r hr
    obtain ⟨hg, _⟩ := List.getElem?_eq_some_iff.mp ha
    exact numbered_entries hg hr
  · intro i a b ha
    exact no_adjacent_markers _ _ 0 i a b ha

/-- An inserted line and a stripped one: the line behind them is found again, under its number. -/
theorem insertAll_resynchronizes_behind_inserted_line :
    insertAll "/f.go" ["a", "// gone", "b"] [1] "a\nx\nb" = "a\nx\n//line /f.go:3\nb" ∧
    ∃ m : Matching ["a", "// gone", "b"] [1] (Text.lines "a\nx\nb"),
      let written := entries m.index? (Text.lines "a\nx\nb")
      Text.lines (insertAll "/f.go" ["a", "// gone", "b"] [1] "a\nx\nb") =
          written.map (Entry.render "/f.go") ∧
        (∀ g r, m.index? g = some r → (numbered 1 written)[g]? = some (r + 1)) ∧
        ∀ i a b, written[i]? = some (.marker a) → written[i + 1]? ≠ some (.marker b) :=
  ⟨by decide +kernel, insertAll_resynchronizes (by decide) _ _ _⟩

end GoContracts.LineMarker

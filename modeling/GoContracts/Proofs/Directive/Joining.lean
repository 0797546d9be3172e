import GoContracts.Proofs.Directive.Invariant

/-!
# Splitting inverts joining

Parts that stand alone are given back when they are joined with commas, whatever blanks stand around
them. The parts of any text are given back too: only the last of them can leave a literal or a
bracket open, and nothing stands behind it.
-/

namespace GoContracts

open Text (isBlank stripWhile Pads Trimmed)

namespace Nesting

variable {s : Nesting} {a b cs padded : List Char} {c : Char}

/-! ### Blanks around a text -/

private theorem closed_blanks (h : ∀ c ∈ cs, isBlank c = true) : Closed cs :=
    (complete_blanks h).isClosed

private theorem Closed.pad (h : Closed cs) (hpad : Pads padded cs) : Closed padded := by
  obtain ⟨a, b, rfl, ha, hb⟩ := hpad
  exact ((closed_blanks ha).append h).append (closed_blanks hb)

/-- The mark that ends the literal of a scan, if it is in one, is not a blank. -/
def Marked (s : Nesting) : Prop := ∀ q, s.quote? = some q → isBlank q = false

private theorem Marked.next (h : s.Marked) : (s.next c).Marked := by
  obtain ⟨depth, quote?, escaped⟩ := s
  intro q hq
  cases quote? with
  | some mark =>
    -- A literal keeps its mark until it ends.
    have hmark : mark = q := by
      simp only [Nesting.next] at hq
      split at hq
      · simpa using hq
      · split at hq
        · simpa using hq
        · split at hq
          · cases hq
          · simpa using hq
    exact hmark ▸ h mark rfl
  | none =>
    simp only [Nesting.next] at hq
    split at hq
    · obtain rfl : '"' = q := by simpa using hq
      rfl
    · obtain rfl : '\'' = q := by simpa using hq
      rfl
    · obtain rfl : '`' = q := by simpa using hq
      rfl
    all_goals cases hq

private theorem Marked.scan (h : s.Marked) : (scan s cs).Marked := by
  induction cs generalizing s with
  | nil => exact h
  | cons c cs ih => exact ih h.next

/-- A blank ends no literal. -/
theorem quote?_next_blank (h : s.Marked) (hc : isBlank c = true) :
    (s.next c).quote? = s.quote? := by
  cases hquote : s.quote? with
  | none => rw [next_blank hquote hc, hquote]
  | some q =>
    have hq : c ≠ q := by
      rintro rfl
      simp [h c hquote] at hc
    simp only [Nesting.next, hquote, if_neg hq]
    split
    · rfl
    · split
      · rfl
      · exact hquote

private theorem quote?_scan_blanks (h : s.Marked) (hcs : ∀ c ∈ cs, isBlank c = true) :
    (scan s cs).quote? = s.quote? := by
  induction cs generalizing s with
  | nil => rfl
  | cons c cs ih =>
    obtain ⟨hc, hcs⟩ := List.forall_mem_cons.mp hcs
    rw [scan_cons, ih h.next hcs, quote?_next_blank h hc]

/-- A text whose padded form is closed is closed. -/
theorem Closed.of_pads (h : Closed padded) (hpad : Pads padded cs) : Closed cs := by
  obtain ⟨a, b, rfl, ha, hb⟩ := hpad
  have hbefore : scan {} a = {} := scan_blanks rfl ha
  have hmarked : (scan {} cs).Marked := Marked.scan fun q hq => by cases hq
  have hscan := h.scan_eq
  rw [scan_append, scan_append, hbefore] at hscan
  have houtside : (scan {} cs).quote? = none := by
    rw [← quote?_scan_blanks hmarked hb, hscan]
  rw [scan_blanks houtside hb] at hscan
  refine closed_of_scan_eq hscan ?_
  have hrest := h.unseparated.left.right
  rwa [hbefore] at hrest

/-! ### Trimmed parts -/

/-- Trimming separated parts and dropping the empty ones leaves separated parts, if it leaves
any. -/
theorem Separated.trim {parts : List (List Char)} (h : Separated {} parts)
    (hne : (parts.map (stripWhile isBlank)).filter (!·.isEmpty) ≠ []) :
    Separated {} ((parts.map (stripWhile isBlank)).filter (!·.isEmpty)) := by
  induction parts with
  | nil => exact absurd rfl hne
  | cons part more ih =>
    rw [List.map_cons, List.filter_cons] at hne ⊢
    cases h with
    | last h =>
      split at hne
      · next hpart =>
        rw [if_pos hpart]
        exact .last h.strip
      · exact absurd rfl hne
    | cons h hscan hmore =>
      split at hne
      · next hpart =>
        rw [if_pos hpart]
        have hclosed : Closed (stripWhile isBlank part) :=
          (closed_of_scan_eq hscan h).of_pads (Text.pads_stripWhile part)
        by_cases hrest : (more.map (stripWhile isBlank)).filter (!·.isEmpty) = []
        · rw [hrest]
          exact .last hclosed.unseparated
        · exact .cons hclosed.unseparated hclosed.scan_eq (ih hmore hrest)
      · next hpart =>
        rw [if_neg hpart]
        exact ih hmore hne

end Nesting

/-! ### Joined parts -/

variable {parts : List (List Char)}

private theorem Text.Trimmed.stripWhile_of_pads {padded cs : List Char} (h : Trimmed cs)
    (hpad : Pads padded cs) : stripWhile isBlank padded = cs := by
  obtain ⟨a, b, rfl, ha, hb⟩ := hpad
  exact h.stripWhile_padded ha hb

/-- Splitting the parts of a text again gives back those parts. -/
theorem topLevelParts_rejoin (text : List Char) :
    topLevelParts ([','].intercalate (topLevelParts text)) = topLevelParts text := by
  by_cases hparts : topLevelParts text = []
  · rw [hparts]
    rfl
  · have hseparated : Nesting.Separated {} (topLevelParts text) :=
      (Nesting.separated_pieces fun _ => rfl).trim hparts
    have hsame : (topLevelParts text).map (stripWhile isBlank) = topLevelParts text :=
      (List.map_congr_left fun part hpart =>
        (topLevelParts_of_mem hpart).2.1.stripWhile_eq).trans (List.map_id' _)
    rw [topLevelParts, hseparated.pieces_join, hsame, List.filter_eq_self]
    intro part hpart
    simpa using (topLevelParts_of_mem hpart).1

private theorem closed_of_pads {padded : List (List Char)} (h : List.Forall₂ Pads padded parts)
    (hparts : ∀ part ∈ parts, Trimmed part ∧ Nesting.Closed part) :
    (∀ part ∈ padded, Nesting.Closed part) ∧ padded.map (stripWhile isBlank) = parts := by
  induction h with
  | nil => simp
  | cons hpad _ ih =>
    obtain ⟨⟨htrimmed, hclosed⟩, hmore⟩ := List.forall_mem_cons.mp hparts
    obtain ⟨hrest, hstrip⟩ := ih hmore
    exact ⟨List.forall_mem_cons.mpr ⟨hclosed.pad hpad, hrest⟩,
      by rw [List.map_cons, htrimmed.stripWhile_of_pads hpad, hstrip]⟩

/-- Splitting inverts joining: closed parts come back without the blanks put around them, and the
parts of any text come back as they are. -/
theorem topLevelParts_inverts_join :
    (∀ parts padded : List (List Char),
      (∀ part ∈ parts, part ≠ [] ∧ Trimmed part ∧ Nesting.Closed part) →
      List.Forall₂ Pads padded parts → topLevelParts ([','].intercalate padded) = parts) ∧
    ∀ text, topLevelParts ([','].intercalate (topLevelParts text)) = topLevelParts text := by
  refine ⟨fun parts padded hparts hpads => ?_, topLevelParts_rejoin⟩
  obtain ⟨hclosed, hstrip⟩ := closed_of_pads hpads fun part hpart => (hparts part hpart).2
  exact topLevelParts_join hclosed hstrip fun part hpart => (hparts part hpart).1

/-- The first list has brackets that close before they open and commas inside literals; the last
part of the second text leaves both a bracket and a literal open. -/
theorem topLevelParts_inverts_join_literals :
    topLevelParts "\tf(a, b) ,)(,  \"x, \\\"y\" ,',' ".toList =
      ["f(a, b)".toList, ")(".toList, "\"x, \\\"y\"".toList, "','".toList] ∧
    topLevelParts "a,f(b , \"c, d".toList = topLevelParts " a,, f(b , \"c, d ".toList := by
  refine ⟨topLevelParts_inverts_join.1
    ["f(a, b)".toList, ")(".toList, "\"x, \\\"y\"".toList, "','".toList]
    ["\tf(a, b) ".toList, ")(".toList, "  \"x, \\\"y\" ".toList, "',' ".toList] ?_ ?_, ?_⟩
  · have hclosed : ∀ part ∈
        ["f(a, b)".toList, ")(".toList, "\"x, \\\"y\"".toList, "','".toList], part ≠ [] ∧
          (part.head?.all (!isBlank ·) && part.getLast?.all (!isBlank ·)) = true ∧
          Nesting.Closed part := by
      decide +kernel
    exact fun part hpart => (hclosed part hpart).imp_right fun h => ⟨.of_ends h.1, h.2⟩
  · have hspace : ∀ c ∈ [' '], isBlank c = true := List.all_eq_true.mp rfl
    exact .cons ⟨['\t'], [' '], rfl, List.all_eq_true.mp rfl, hspace⟩
      (.cons ⟨[], [], rfl, by simp, by simp⟩
        (.cons ⟨[' ', ' '], [' '], rfl, List.all_eq_true.mp rfl, hspace⟩
          (.cons ⟨[], [' '], rfl, by simp, hspace⟩ .nil)))
  · have hparts : topLevelParts " a,, f(b , \"c, d ".toList =
        ["a".toList, "f(b , \"c, d".toList] := by
      decide +kernel
    have h := topLevelParts_inverts_join.2 " a,, f(b , \"c, d ".toList
    rwa [hparts] at h ⊢

end GoContracts

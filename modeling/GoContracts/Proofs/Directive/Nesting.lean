import GoContracts.Directive.Nesting
import GoContracts.Proofs.Text.Slices
import GoContracts.Text.Quoted
import Mathlib.Data.List.Infix

/-!
# Splitting joined parts

A text whose brackets and literals are complete leaves a scan where it was. Splitting at separating
commas gives back such parts when they were joined, and the partner of a parenthesis before them is
the one behind them.
-/

namespace GoContracts

open Text (isBlank)
open Text.Quoted (isBody)

namespace Nesting

variable {s : Nesting} {a b cs : List Char} {c : Char}

/-- The state after a text. -/
def scan (s : Nesting) (cs : List Char) : Nesting := cs.foldl next s

/-- Nothing is scanned. -/
@[simp] theorem scan_nil : scan s [] = s := rfl

/-- One character is scanned before the rest. -/
@[simp] theorem scan_cons : scan s (c :: cs) = scan (s.next c) cs := rfl

/-- A text is scanned part by part. -/
@[simp] theorem scan_append : scan s (a ++ b) = scan (scan s a) b := List.foldl_append

/-! ### Depth -/

/-- The same state with `d` more brackets open. -/
def deepen (s : Nesting) (d : Int) : Nesting := { s with depth := s.depth + d }

private theorem next_deepen (d : Int) : (s.deepen d).next c = (s.next c).deepen d := by
  obtain ⟨depth, quote?, escaped⟩ := s
  cases quote? with
  | some q =>
    by_cases hescaped : escaped = true
    · simp [next, deepen, hescaped]
    by_cases hslash : c = '\\' ∧ q ≠ '`'
    · simp [next, deepen, hescaped, hslash]
    by_cases hmark : c = q
    · subst hmark
      simp [next, deepen, hescaped, hslash]
    · simp [next, deepen, hescaped, hslash, hmark]
  | none =>
    simp only [next, deepen]
    split <;> simp <;> omega

/-- A blank outside literals changes nothing. -/
theorem next_blank (hs : s.quote? = none) (hc : isBlank c = true) : s.next c = s := by
  simp only [next, hs]
  split
  all_goals first
    | rfl
    | exact absurd hc (by decide +revert)

/-- Blanks outside of literals open and close nothing. -/
theorem scan_blanks (hs : s.quote? = none) (hcs : ∀ c ∈ cs, isBlank c = true) : scan s cs = s := by
  induction cs with
  | nil => rfl
  | cons c cs ih =>
    rw [scan_cons, next_blank hs (hcs c (List.mem_cons_self ..)),
      ih fun d hd => hcs d (List.mem_cons_of_mem c hd)]

private theorem separates_iff : s.separates c = true ↔ c = ',' ∧ s.quote? = none ∧ s.depth = 0 := by
  simp [separates, Bool.and_eq_true, and_assoc]

/-- A separating comma leaves the scan where it was. -/
theorem next_of_separates (h : s.separates c = true) : s.next c = s := by
  obtain ⟨rfl, hquote, _⟩ := separates_iff.mp h
  simp [next, hquote]

/-! ### Escapes -/

/-- A scan outside literals has no escape pending. -/
def Settled (s : Nesting) : Prop := s.quote? = none → s.escaped = false

private theorem Settled.next (h : s.Settled) : (s.next c).Settled := by
  obtain ⟨depth, quote?, escaped⟩ := s
  intro hquote
  cases quote? with
  | some q =>
    -- A literal ends at its mark, which is not escaped.
    cases escaped with
    | true => cases hquote
    | false =>
      simp only [Nesting.next, Bool.false_eq_true, if_false] at hquote ⊢
      split at hquote
      · cases hquote
      · split at hquote <;> simp_all
  | none =>
    simp only [Nesting.next] at hquote ⊢
    split at hquote <;> simp_all [Settled]

private theorem Settled.scan (h : s.Settled) : (scan s cs).Settled := by
  induction cs generalizing s with
  | nil => exact h
  | cons c cs ih => exact ih h.next

/-- Behind a separating comma a scan is where it began. -/
theorem eq_of_separates (h : s.Settled) (hc : s.separates c = true) : s = {} := by
  obtain ⟨depth, quote?, escaped⟩ := s
  obtain ⟨_, hquote, hdepth⟩ := separates_iff.mp hc
  simp_all [Settled]

/-! ### Splitting -/

private theorem pieces_ne_nil (s : Nesting) (cs : List Char) : pieces s cs ≠ [] := by
  cases cs with
  | nil => simp [pieces]
  | cons c cs =>
    rw [pieces]
    split
    · simp
    · split <;> simp

/-- A separating comma ends the last piece. -/
theorem pieces_append_cons (h : (scan s a).separates c = true) (b : List Char) :
    pieces s (a ++ c :: b) = pieces s a ++ pieces (scan s a) b := by
  induction a generalizing s with
  | nil =>
    rw [scan_nil] at h ⊢
    rw [List.nil_append, pieces.eq_2, if_pos h, next_of_separates h]
    rfl
  | cons d a ih =>
    rw [scan_cons] at h ⊢
    rw [List.cons_append, pieces, pieces, ih h]
    split
    · rfl
    · cases hp : pieces (s.next d) a with
      | nil => exact absurd hp (pieces_ne_nil _ _)
      | cons p ps => rfl

/-- Whether no comma in the text separates in a scan that begins with `s`. -/
def Unseparated (s : Nesting) (cs : List Char) : Prop :=
  ∀ before after, cs = before ++ ',' :: after → (scan s before).separates ',' = false

private theorem Unseparated.tail (h : Unseparated s (c :: cs)) : Unseparated (s.next c) cs :=
  fun before after hcs => h (c :: before) after (by rw [hcs, List.cons_append])

private theorem Unseparated.head (h : Unseparated s (c :: cs)) : s.separates c = false := by
  by_cases hc : c = ','
  · rw [hc]
    exact h [] cs (by rw [hc, List.nil_append])
  · simp [separates, hc]

private theorem Unseparated.cons (hc : s.separates c = false) (h : Unseparated (s.next c) cs) :
    Unseparated s (c :: cs) := by
  intro before after hcs
  cases before with
  | nil =>
    rw [List.nil_append] at hcs
    rw [scan_nil, ← (List.cons.inj hcs).1, hc]
  | cons d before =>
    rw [List.cons_append] at hcs
    obtain ⟨rfl, hrest⟩ := List.cons.inj hcs
    exact h before after hrest

/-- Two parts without separators have none together. -/
theorem Unseparated.append (ha : Unseparated s a) (hb : Unseparated (scan s a) b) :
    Unseparated s (a ++ b) := by
  induction a generalizing s with
  | nil => exact hb
  | cons c a ih => exact .cons ha.head (ih ha.tail hb)

private theorem unseparated_of_notMem (h : ',' ∉ cs) : Unseparated s cs := by
  intro before after hcs
  exact absurd (by simp [hcs]) h

/-- A text without separators is one piece. -/
theorem pieces_eq_singleton (h : Unseparated s cs) : pieces s cs = [cs] := by
  induction cs generalizing s with
  | nil => rfl
  | cons c cs ih =>
    rw [pieces, h.head, if_neg Bool.false_ne_true, ih h.tail]

/-- The pieces with commas between them are the text. -/
theorem intercalate_pieces (s : Nesting) (cs : List Char) :
    [','].intercalate (pieces s cs) = cs := by
  induction cs generalizing s with
  | nil => rfl
  | cons c cs ih =>
    have hrest := ih (s.next c)
    rw [pieces]
    cases hp : pieces (s.next c) cs with
    | nil => exact absurd hp (pieces_ne_nil _ _)
    | cons p ps =>
      rw [hp] at hrest
      split
      · next hc =>
        rw [List.intercalate_cons_cons, hrest, (separates_iff.mp hc).1]
        rfl
      · cases ps with
        | nil =>
          rw [List.intercalate_singleton] at hrest ⊢
          rw [hrest]
        | cons q qs =>
          rw [List.intercalate_cons_cons] at hrest ⊢
          rw [← hrest, List.cons_append, List.cons_append]

/-- A text with separating commas has a last one. -/
theorem exists_last_comma (h : ¬ Unseparated s cs) :
    ∃ before last, cs = before ++ ',' :: last ∧ (scan s before).separates ',' = true ∧
      Unseparated (scan s before) last := by
  induction cs generalizing s with
  | nil => exact absurd (unseparated_of_notMem (by simp)) h
  | cons c cs ih =>
    by_cases htail : Unseparated (s.next c) cs
    · have hc : s.separates c = true := by
        by_contra hc
        exact h (.cons (by simpa using hc) htail)
      obtain rfl : c = ',' := (separates_iff.mp hc).1
      rw [next_of_separates hc] at htail
      exact ⟨[], cs, rfl, hc, htail⟩
    · obtain ⟨before, last, rfl, hcomma, hlast⟩ := ih htail
      exact ⟨c :: before, last, rfl, hcomma, hlast⟩

private theorem pieces_eq_singleton_iff : pieces s cs = [cs] ↔ Unseparated s cs := by
  refine ⟨fun h => ?_, pieces_eq_singleton⟩
  by_contra hcs
  obtain ⟨before, last, rfl, hcomma, hlast⟩ := exists_last_comma hcs
  have hlength := congrArg List.length h
  have hpos := List.length_pos_of_ne_nil (pieces_ne_nil s before)
  rw [pieces_append_cons hcomma, pieces_eq_singleton hlast, List.length_append,
    List.length_singleton, List.length_singleton] at hlength
  omega

/-- A text is cut at its last separating comma. -/
theorem splitLastComma?_append (h : (scan {} a).separates ',' = true)
    (hb : Unseparated (scan {} a) b) : splitLastComma? (a ++ ',' :: b) = some (a, b) := by
  have hjoin := intercalate_pieces {} a
  rw [splitLastComma?, pieces_append_cons h, pieces_eq_singleton hb, List.reverse_append]
  cases hp : (pieces {} a).reverse with
  | nil => exact absurd (List.reverse_eq_nil_iff.mp hp) (pieces_ne_nil _ _)
  | cons p ps =>
    rw [← List.reverse_eq_iff.mpr hp.symm] at hjoin
    exact congrArg (fun before => some (before, b)) hjoin

/-- A text is cut at no other place. -/
theorem of_splitLastComma? (h : splitLastComma? cs = some (a, b)) :
    cs = a ++ ',' :: b ∧ (scan {} a).separates ',' = true := by
  by_cases hcs : Unseparated {} cs
  · rw [splitLastComma?, pieces_eq_singleton hcs] at h
    exact absurd h (by simp)
  · obtain ⟨before, last, rfl, hcomma, hlast⟩ := exists_last_comma hcs
    rw [splitLastComma?_append hcomma hlast] at h
    obtain ⟨rfl, rfl⟩ : before = a ∧ last = b := by simpa using h
    exact ⟨rfl, hcomma⟩

/-- No comma inside a quoted literal separates. -/
theorem unseparated_body {escaped : Bool} (h : isBody escaped cs = true) :
    Unseparated { s with quote? := some '"', escaped } (cs ++ ['"']) := by
  have hinside : ∀ c, separates { s with quote? := some '"', escaped } c = false := by
    simp [separates]
  induction cs generalizing escaped with
  | nil => exact .cons (hinside '"') (unseparated_of_notMem (by simp))
  | cons c cs ih =>
    refine .cons (hinside c) ?_
    cases escaped with
    | true => simpa [next] using ih h (by simp [separates])
    | false =>
      rw [isBody] at h
      by_cases hslash : c = '\\'
      · rw [if_pos hslash] at h
        simpa [next, hslash] using ih h (by simp [separates])
      · rw [if_neg hslash, Bool.and_eq_true] at h
        have hmark : c ≠ '"' := by simpa using h.1
        simpa [next, hslash, hmark] using ih h.2 (by simp [separates])

/-- A literal has no separator. -/
theorem unseparated_literal (h : isBody false cs = true) : Unseparated {} ('"' :: cs ++ ['"']) :=
  .cons rfl (unseparated_body h)

/-! ### Closed texts -/

/-- Whether a scan of the text on its own ends outside literals and at depth zero, and no comma
separates. -/
structure Closed (cs : List Char) : Prop where
  outside : (scan {} cs).quote? = none
  level : (scan {} cs).depth = 0
  unseparated : Unseparated {} cs

/-- A scan of a closed text ends where it began. -/
theorem Closed.scan_eq (h : Closed cs) : scan {} cs = {} := by
  have hsettled : (scan {} cs).Settled := Settled.scan fun _ => rfl
  have hescaped := hsettled h.outside
  obtain ⟨hquote, hdepth, _⟩ := h
  generalize scan {} cs = s at hquote hdepth hescaped
  cases s
  simp_all

/-- A text that opens nothing and has no separator is closed. -/
theorem closed_of_scan_eq (h : scan {} cs = {}) (hcs : Unseparated {} cs) : Closed cs :=
  ⟨by rw [h], by rw [h], hcs⟩

instance : Decidable (Closed cs) :=
  decidable_of_iff ((scan {} cs).quote? = none ∧ (scan {} cs).depth = 0 ∧ pieces {} cs = [cs])
    ⟨fun h => ⟨h.1, h.2.1, pieces_eq_singleton_iff.mp h.2.2⟩,
      fun h => ⟨h.outside, h.level, pieces_eq_singleton_iff.mpr h.unseparated⟩⟩

/-- Two closed texts are closed together. -/
theorem Closed.append (ha : Closed a) (hb : Closed b) : Closed (a ++ b) :=
  closed_of_scan_eq (by rw [scan_append, ha.scan_eq, hb.scan_eq])
    (ha.unseparated.append (by rw [ha.scan_eq]; exact hb.unseparated))

/-! ### Complete texts -/

/-- Whether no beginning of the text closes more brackets than were opened in a scan that begins
with `s`. -/
def ClosesOnlyOpened (s : Nesting) (cs : List Char) : Prop :=
  ∀ before after, cs = before ++ after → 0 ≤ (scan s before).depth

/-- Two texts that close only what they open do so together. -/
theorem ClosesOnlyOpened.append (ha : ClosesOnlyOpened s a) (hb : ClosesOnlyOpened (scan s a) b) :
    ClosesOnlyOpened s (a ++ b) := by
  intro before after hcs
  rcases List.append_eq_append_iff.mp hcs with ⟨m, rfl, hm⟩ | ⟨m, hm, _⟩
  · rw [scan_append]
    exact hb m after hm
  · exact ha before m hm

/-- Whether brackets balance without ever closing more than were opened, literals are complete, and
no comma separates. -/
structure Complete (cs : List Char) : Prop where
  closed : scan {} cs = {}
  opened : ClosesOnlyOpened {} cs
  unseparated : Unseparated {} cs

/-- A complete text is closed. -/
theorem Complete.isClosed (h : Complete cs) : Closed cs := closed_of_scan_eq h.closed h.unseparated

/-- Two complete texts are complete together. -/
theorem Complete.append (ha : Complete a) (hb : Complete b) : Complete (a ++ b) where
  closed := (ha.isClosed.append hb.isClosed).scan_eq
  opened := ha.opened.append (by rw [ha.closed]; exact hb.opened)
  unseparated := (ha.isClosed.append hb.isClosed).unseparated

/-- Blanks are complete. -/
theorem complete_blanks (h : ∀ c ∈ cs, isBlank c = true) : Complete cs where
  closed := scan_blanks rfl h
  opened before after hcs := by
    rw [scan_blanks rfl fun c hc => h c (by rw [hcs]; exact List.mem_append_left _ hc)]
  unseparated := unseparated_of_notMem fun hcomma => absurd (h ',' hcomma) (by decide)

/-- Completeness looks at the beginnings of a text, of which there are finitely many. -/
theorem complete_iff : Complete cs ↔ scan {} cs = {} ∧
    ∀ before ∈ cs.inits, 0 ≤ (scan {} before).depth ∧
      (before ++ [','] ∈ cs.inits → (scan {} before).separates ',' = false) := by
  simp only [List.mem_inits]
  constructor
  · intro h
    refine ⟨h.closed, fun before hbefore => ⟨?_, ?_⟩⟩
    · obtain ⟨after, hcs⟩ := hbefore
      exact h.opened before after hcs.symm
    · rintro ⟨after, hcs⟩
      exact h.unseparated before after (by rw [← hcs, List.append_assoc, List.singleton_append])
  · rintro ⟨hclosed, h⟩
    refine ⟨hclosed, fun before after hcs => (h before ⟨after, hcs.symm⟩).1, ?_⟩
    intro before after hcs
    exact (h before ⟨',' :: after, hcs.symm⟩).2 ⟨after, by rw [hcs]; simp⟩

instance : Decidable (Complete cs) := decidable_of_iff' _ complete_iff

/-- A text that never closes more brackets than it has opened holds no partner of a parenthesis
before it. -/
theorem untilClose?_append (h : ClosesOnlyOpened s cs) (hs : 0 ≤ s.depth) (rest : List Char) :
    untilClose? (s.deepen 1) (cs ++ rest) =
      (untilClose? ((scan s cs).deepen 1) rest).map fun (inner, after) => (cs ++ inner, after) := by
  induction cs generalizing s with
  | nil => simp
  | cons c cs ih =>
    have hstep := h [c] cs rfl
    rw [scan_cons, scan_nil] at hstep
    have hopen : (s.deepen 1).closes c = false := by
      have hdepth : ((s.deepen 1).next c).depth ≠ 0 := by
        rw [next_deepen]
        change (s.next c).depth + 1 ≠ 0
        omega
      simp [closes, hdepth]
    have hrest := ih (s := s.next c) (fun before after hcs => by
      simpa using h (c :: before) after (by rw [hcs, List.cons_append])) hstep
    rw [List.cons_append, untilClose?, hopen, if_neg Bool.false_ne_true, next_deepen, hrest,
      Option.map_map, scan_cons]
    rfl

/-- The partner of a parenthesis stands behind the text that it encloses. -/
theorem splitParenthesis?_enclosed (hclosed : scan {} cs = {}) (hopened : ClosesOnlyOpened {} cs)
    (rest : List Char) : splitParenthesis? ('(' :: cs ++ ')' :: rest) = some (cs, rest) := by
  have hinner := untilClose?_append hopened (Int.le_refl 0) (')' :: rest)
  rw [hclosed] at hinner
  have hclose : untilClose? (deepen {} 1) (')' :: rest) = some ([], rest) := by
    rw [untilClose?, if_pos (by decide)]
  have hfound : untilClose? (deepen {} 1) (cs ++ ')' :: rest) = some (cs, rest) := by
    simpa [hclose] using hinner
  exact hfound

/-! ### Joined parts -/

/-- Whether the commas between the parts, and no others, separate in a scan of the joined parts that
begins with `s`. The last part may leave the scan anywhere. -/
inductive Separated : Nesting → List (List Char) → Prop
  | last {s : Nesting} {part : List Char} (h : Unseparated s part) : Separated s [part]
  | cons {s : Nesting} {part : List Char} {more : List (List Char)} (h : Unseparated s part)
      (hscan : scan s part = {}) (hmore : Separated {} more) : Separated s (part :: more)

private theorem Separated.ne_nil {parts : List (List Char)} (h : Separated s parts) : parts ≠
    [] := by
  cases h <;> simp

/-- No separated part has a separator. -/
theorem Separated.unseparated {parts : List (List Char)} (h : Separated {} parts) :
    ∀ part ∈ parts, Unseparated {} part := by
  induction parts with
  | nil => simp
  | cons part more ih =>
    cases h with
    | last h => simpa using h
    | cons h _ hmore => exact List.forall_mem_cons.mpr ⟨h, ih hmore⟩

/-- Closed parts are separated by the commas between them. -/
theorem separated_of_closed {parts : List (List Char)} (hne : parts ≠ [])
    (h : ∀ part ∈ parts, Closed part) : Separated {} parts := by
  induction parts with
  | nil => exact absurd rfl hne
  | cons part more ih =>
    obtain ⟨hpart, hmore⟩ := List.forall_mem_cons.mp h
    cases more with
    | nil => exact .last hpart.unseparated
    | cons next more => exact .cons hpart.unseparated hpart.scan_eq (ih (by simp) hmore)

/-- The pieces of any text are separated, whatever its last piece leaves open. -/
theorem separated_pieces (hs : s.Settled) : Separated s (pieces s cs) := by
  induction cs generalizing s with
  | nil => exact .last (unseparated_of_notMem (by simp))
  | cons c cs ih =>
    have hrest := ih (hs.next (c := c))
    rw [pieces]
    by_cases hc : s.separates c = true
    · rw [next_of_separates hc] at hrest ⊢
      obtain rfl := eq_of_separates hs hc
      rw [if_pos hc]
      exact .cons (unseparated_of_notMem (by simp)) rfl hrest
    · have hhead : s.separates c = false := by simpa using hc
      rw [if_neg hc]
      generalize pieces (s.next c) cs = parts at hrest
      cases hrest with
      | last h => exact .last (.cons hhead h)
      | cons h hscan hmore => exact .cons (.cons hhead h) hscan hmore

/-- The pieces of joined separated parts are those parts. -/
theorem Separated.pieces_join {parts : List (List Char)} (h : Separated s parts) :
    pieces s ([','].intercalate parts) = parts := by
  induction parts generalizing s with
  | nil => exact absurd rfl h.ne_nil
  | cons part more ih =>
    cases h with
    | last h => rw [List.intercalate_singleton, pieces_eq_singleton h]
    | cons h hscan hmore =>
      obtain ⟨next, rest, rfl⟩ := List.exists_cons_of_ne_nil hmore.ne_nil
      have hcomma : (scan s part).separates ',' = true := by
        rw [hscan]
        rfl
      rw [List.intercalate_cons_cons, List.append_assoc, List.singleton_append,
        pieces_append_cons hcomma, pieces_eq_singleton h, hscan, ih hmore, List.singleton_append]

/-- Joined complete texts are complete but for the commas between them. -/
theorem closed_join {parts : List (List Char)} (h : ∀ part ∈ parts, Complete part) :
    scan {} ([','].intercalate parts) = {} ∧ ClosesOnlyOpened {} ([','].intercalate parts) := by
  induction parts with
  | nil => exact ⟨rfl, (complete_blanks (by simp)).opened⟩
  | cons part parts ih =>
    obtain ⟨hpart, hparts⟩ := List.forall_mem_cons.mp h
    cases parts with
    | nil =>
      rw [List.intercalate_singleton]
      exact ⟨hpart.closed, hpart.opened⟩
    | cons next parts =>
      obtain ⟨hclosed, hopened⟩ := ih hparts
      have hcomma : ClosesOnlyOpened {} [','] := by
        intro before after hcs
        rcases List.append_eq_singleton_iff.mp hcs.symm with ⟨rfl, _⟩ | ⟨rfl, _⟩ <;> decide
      have hfirst : scan {} (part ++ [',']) = {} := by
        rw [scan_append, hpart.closed]
        rfl
      rw [List.intercalate_cons_cons]
      refine ⟨by rw [scan_append, hfirst, hclosed], ClosesOnlyOpened.append ?_ ?_⟩
      · exact hpart.opened.append (by rw [hpart.closed]; exact hcomma)
      · rw [hfirst]
        exact hopened

end Nesting

/-- The trimmed parts of joined closed texts with blanks around them are those texts. -/
theorem topLevelParts_join {parts padded : List (List Char)}
    (h : ∀ part ∈ padded, Nesting.Closed part)
    (htrim : padded.map (Text.stripWhile isBlank) = parts) (hne : ∀ part ∈ parts, part ≠ []) :
    topLevelParts ([','].intercalate padded) = parts := by
  have hfilter : parts.filter (!·.isEmpty) = parts := by
    rw [List.filter_eq_self]
    intro part hpart
    simpa using hne part hpart
  rw [topLevelParts]
  cases padded with
  | nil =>
    obtain rfl : [] = parts := htrim
    rfl
  | cons part more =>
    rw [(Nesting.separated_of_closed (by simp) h).pieces_join, htrim, hfilter]

end GoContracts

import GoContracts.Proofs.Directive.Nesting

/-!
# The partner of a parenthesis

Texts are cut into complete literals and the bare characters between them. Behind a parenthesis and
a balanced text stands its partner, and a partner is found where, for the first time, as many bare
brackets were closed as opened.
-/

namespace GoContracts

open Text (byteLength)

namespace Nesting

/-! ### Literals -/

/-- The marks that begin and end literals. -/
def literalMarks : List Char := ['"', '\'', '`']

/-- What may stand between two marks of a literal: any characters but the mark, and in all literals
but raw ones a backslash with whatever character it escapes. -/
inductive LiteralContent (mark : Char) : List Char → Prop
  | nil : LiteralContent mark []
  | plain {c : Char} {cs : List Char} (hmark : c ≠ mark) (hslash : c = '\\' → mark = '`')
      (more : LiteralContent mark cs) : LiteralContent mark (c :: cs)
  | escape {c : Char} {cs : List Char} (hraw : mark ≠ '`') (more : LiteralContent mark cs) :
      LiteralContent mark ('\\' :: c :: cs)

/-- Whether the text is one complete literal. -/
def IsLiteral (cs : List Char) : Prop :=
  ∃ mark ∈ literalMarks, ∃ content, LiteralContent mark content ∧ cs = mark :: content ++ [mark]

/-- A text made of complete literals and other characters, with those other characters. -/
inductive Bare : List Char → List Char → Prop
  | nil : Bare [] []
  | plain {c : Char} {cs bare : List Char} (hc : c ∉ literalMarks) (more : Bare cs bare) :
      Bare (c :: cs) (c :: bare)
  | literal {l cs bare : List Char} (hl : IsLiteral l) (more : Bare cs bare) : Bare (l ++ cs) bare

/-! ### Brackets -/

/-- The brackets with their partners. -/
def bracketPairs : List (Char × Char) := [('(', ')'), ('[', ']'), ('{', '}')]

/-- Whether the character is a bracket. -/
def isBracket (c : Char) : Bool := bracketPairs.any fun pair => c = pair.1 || c = pair.2

/-- Number of opening brackets of all three kinds. -/
def countOpening (cs : List Char) : Nat := cs.countP fun c => bracketPairs.any (·.1 = c)

/-- Number of closing brackets of all three kinds. -/
def countClosing (cs : List Char) : Nat := cs.countP fun c => bracketPairs.any (·.2 = c)

/-- Balanced text: literals, other characters and pairs of brackets around balanced text, in any
order. -/
inductive Balanced : List Char → Prop
  | nil : Balanced []
  | plain {c : Char} (hbracket : isBracket c = false) (hmark : c ∉ literalMarks) : Balanced [c]
  | literal {l : List Char} (hl : IsLiteral l) : Balanced l
  | enclosed {opening closing : Char} {cs : List Char} (hpair : (opening, closing) ∈ bracketPairs)
      (inner : Balanced cs) : Balanced (opening :: cs ++ [closing])
  | append {a b : List Char} (ha : Balanced a) (hb : Balanced b) : Balanced (a ++ b)

/-- Whether a closing parenthesis stands at byte `k`, outside literals, and closes as many brackets
as were opened, those of its own included. -/
def BalancesAt (text : List Char) (k : Nat) : Prop :=
  ∃ before after bare, text = before ++ ')' :: after ∧ byteLength before = k ∧ Bare before bare ∧
    countOpening (bare ++ [')']) = countClosing (bare ++ [')'])

/-- Whether the text begins with a parenthesis and byte `k` is the first one at which it
balances. -/
structure IsPartner (text : List Char) (k : Nat) : Prop where
  begins : text.head? = some '('
  balances : BalancesAt text k
  first : ∀ j < k, ¬ BalancesAt text j

variable {s : Nesting} {a b cs bare : List Char} {c mark : Char} {d : Int}

/-! ### Scans of literals -/

private theorem next_mark (h : c ∈ literalMarks) :
    next { depth := d } c = { depth := d, quote? := some c } := by
  simp only [literalMarks, List.mem_cons, List.not_mem_nil, or_false] at h
  rcases h with rfl | rfl | rfl <;> rfl

private theorem scan_content (h : LiteralContent mark cs) :
    scan { depth := d, quote? := some mark } cs = { depth := d, quote? := some mark } := by
  induction h with
  | nil => rfl
  | @plain c cs hmark hslash _ ih =>
    have hescape : ¬(c = '\\' ∧ mark ≠ '`') := fun h => h.2 (hslash h.1)
    have hstep : next { depth := d, quote? := some mark } c =
        { depth := d, quote? := some mark } := by
      simp [next, hescape, hmark]
    rw [scan_cons, hstep, ih]
  | @escape c cs hraw _ ih =>
    have hstep : next (next { depth := d, quote? := some mark } '\\') c =
        { depth := d, quote? := some mark } := by
      simp [next, hraw]
    rw [scan_cons, scan_cons, hstep, ih]

/-- A scan leaves a literal at its second mark. -/
theorem next_end (h : mark ∈ literalMarks) :
    next { depth := d, quote? := some mark } mark = { depth := d } := by
  simp only [literalMarks, List.mem_cons, List.not_mem_nil, or_false] at h
  rcases h with rfl | rfl | rfl <;> rfl

/-- A complete literal leaves a scan where it was. -/
theorem scan_literal (h : IsLiteral cs) : scan { depth := d } cs = { depth := d } := by
  obtain ⟨mark, hmark, content, hcontent, rfl⟩ := h
  rw [List.cons_append, scan_cons, scan_append, next_mark hmark, scan_content hcontent, scan_cons,
    scan_nil, next_end hmark]

/-- A scan that leaves the literal that it is in passes the mark that ends the literal. A pending
escape counts as the backslash before the text. -/
theorem exists_content {escaped : Bool} (hraw : escaped = true → mark ≠ '`')
    (h : (scan { depth := d, quote? := some mark, escaped } cs).quote? = none) :
    ∃ content rest, cs = content ++ mark :: rest ∧
      LiteralContent mark ((if escaped then ['\\'] else []) ++ content) := by
  induction cs generalizing escaped with
  | nil => cases h
  | cons c cs ih =>
    rw [scan_cons] at h
    cases escaped with
    | true =>
      obtain ⟨content, rest, rfl, hcontent⟩ := @ih false (by simp) h
      exact ⟨c :: content, rest, rfl, .escape (hraw rfl) hcontent⟩
    | false =>
      by_cases hslash : c = '\\' ∧ mark ≠ '`'
      · obtain ⟨rfl, hmark⟩ := hslash
        obtain ⟨content, rest, rfl, hcontent⟩ :=
          @ih true (fun _ => hmark) (by simpa [next, hmark] using h)
        exact ⟨'\\' :: content, rest, rfl, hcontent⟩
      · by_cases hmark : c = mark
        · exact ⟨[], cs, by rw [hmark, List.nil_append], .nil⟩
        · obtain ⟨content, rest, rfl, hcontent⟩ :=
            @ih false (by simp) (by simpa [next, hslash, hmark] using h)
          exact ⟨c :: content, rest, rfl,
            .plain hmark (fun hc => by_contra fun hq => hslash ⟨hc, hq⟩) hcontent⟩

/-! ### Scans of bare characters -/

/-- Outside literals only brackets make a difference. -/
theorem next_plain (h : c ∉ literalMarks) :
    next { depth := d } c = { depth := d + countOpening [c] - countClosing [c] } := by
  simp only [literalMarks, List.mem_cons, List.not_mem_nil, or_false, not_or] at h
  simp only [next]
  split
  · exact absurd rfl h.1
  · exact absurd rfl h.2.1
  · exact absurd rfl h.2.2
  · simp [countOpening, countClosing, bracketPairs]
  · simp [countOpening, countClosing, bracketPairs]
  · simp [countOpening, countClosing, bracketPairs]
  · simp [countOpening, countClosing, bracketPairs]
  · simp [countOpening, countClosing, bracketPairs]
  · simp [countOpening, countClosing, bracketPairs]
  · have hopening : countOpening [c] = 0 := by simp_all [countOpening, bracketPairs, eq_comm]
    have hclosing : countClosing [c] = 0 := by simp_all [countClosing, bracketPairs, eq_comm]
    simp [hopening, hclosing]

/-- A scan that begins outside literals counts the brackets among the bare characters. -/
theorem scan_bare (h : Bare cs bare) :
    scan { depth := d } cs = { depth := d + countOpening bare - countClosing bare } := by
  induction h generalizing d with
  | nil => simp [countOpening, countClosing]
  | @plain c cs bare hc _ ih =>
    have hopening : countOpening (c :: bare) = countOpening [c] + countOpening bare :=
      @List.countP_append _ _ [c] bare
    have hclosing : countClosing (c :: bare) = countClosing [c] + countClosing bare :=
      @List.countP_append _ _ [c] bare
    rw [scan_cons, next_plain hc, ih, hopening, hclosing]
    congr 1
    push_cast
    omega
  | literal hl _ ih => rw [scan_append, scan_literal hl, ih]

/-- A text at whose end a scan is outside literals is made of complete literals and bare
characters. -/
theorem exists_bare (h : (scan { depth := d } cs).quote? = none) : ∃ bare, Bare cs bare := by
  induction hlength : cs.length using Nat.strong_induction_on generalizing cs d with
  | _ n ih =>
    cases cs with
    | nil => exact ⟨[], .nil⟩
    | cons c cs =>
      rw [List.length_cons] at hlength
      by_cases hc : c ∈ literalMarks
      · rw [scan_cons, next_mark hc] at h
        obtain ⟨content, rest, rfl, hescaped⟩ := exists_content (by simp) h
        have hcontent : LiteralContent c content := hescaped
        have hliteral : IsLiteral (c :: content ++ [c]) := ⟨c, hc, content, hcontent, rfl⟩
        rw [scan_append, scan_content hcontent, scan_cons, next_end hc] at h
        obtain ⟨bare, hbare⟩ := ih rest.length (by simp at hlength; omega) h rfl
        exact ⟨bare, by simpa using Bare.literal hliteral hbare⟩
      · rw [scan_cons, next_plain hc] at h
        obtain ⟨bare, hbare⟩ := ih cs.length (by omega) h rfl
        exact ⟨c :: bare, .plain hc hbare⟩

/-- A scan closes the outermost parenthesis where the bare brackets balance. -/
theorem closes_iff_bare : (scan {} cs).closes ')' = true ↔
    ∃ bare, Bare cs bare ∧ countOpening (bare ++ [')']) = countClosing (bare ++ [')']) := by
  have hstep (bare : List Char) (h : Bare cs bare) : (scan {} cs).closes ')' = true ↔
      countOpening (bare ++ [')']) = countClosing (bare ++ [')']) := by
    have hopening : countOpening (bare ++ [')']) = countOpening bare := by
      simp [countOpening, bracketPairs]
    have hclosing : countClosing (bare ++ [')']) = countClosing bare + 1 := by
      simp [countClosing, bracketPairs]
    rw [scan_bare h, hopening, hclosing]
    simp only [closes, next, decide_true, Option.isNone_none, Bool.and_self, Bool.true_and,
      decide_eq_true_eq]
    omega
  constructor
  · intro h
    have houtside : (scan {} cs).quote? = none := by
      simp only [closes, Bool.and_eq_true, Option.isNone_iff_eq_none] at h
      exact h.1.2
    obtain ⟨bare, hbare⟩ := exists_bare houtside
    exact ⟨bare, hbare, (hstep bare hbare).mp h⟩
  · rintro ⟨bare, hbare, hcount⟩
    exact (hstep bare hbare).mpr hcount

/-! ### Balanced texts -/

private theorem closesOnlyOpened_nil (hs : 0 ≤ s.depth) : ClosesOnlyOpened s [] := by
  intro before after hcs
  obtain ⟨rfl, _⟩ := List.append_eq_nil_iff.mp hcs.symm
  exact hs

private theorem ClosesOnlyOpened.cons (hs : 0 ≤ s.depth) (h : ClosesOnlyOpened (s.next c) cs) :
    ClosesOnlyOpened s (c :: cs) := by
  intro before after hcs
  cases before with
  | nil => exact hs
  | cons e before =>
    obtain ⟨rfl, rfl⟩ := List.cons.inj hcs
    exact h before after rfl

/-- In a literal the depth stays. -/
theorem depth_next (h : s.quote?.isSome = true) : (s.next c).depth = s.depth := by
  obtain ⟨q, hq⟩ := Option.isSome_iff_exists.mp h
  simp only [next, hq]
  split
  · rfl
  · split
    · rfl
    · split <;> rfl

private theorem closesOnlyOpened_content (hd : 0 ≤ d) (h : LiteralContent mark cs) :
    ClosesOnlyOpened { depth := d, quote? := some mark } cs := by
  induction h with
  | nil => exact closesOnlyOpened_nil hd
  | @plain c cs hmark hslash _ ih =>
    have hescape : ¬(c = '\\' ∧ mark ≠ '`') := fun h => h.2 (hslash h.1)
    refine .cons hd ?_
    simpa [next, hescape, hmark] using ih
  | @escape c cs hraw _ ih =>
    refine .cons hd (.cons (by rwa [depth_next rfl]) ?_)
    simpa [next, hraw] using ih

private theorem closesOnlyOpened_literal (hd : 0 ≤ d) (h : IsLiteral cs) :
    ClosesOnlyOpened { depth := d } cs := by
  obtain ⟨mark, hmark, content, hcontent, rfl⟩ := h
  rw [List.cons_append]
  refine .cons hd ?_
  rw [next_mark hmark]
  refine (closesOnlyOpened_content hd hcontent).append ?_
  rw [scan_content hcontent]
  refine .cons hd ?_
  rw [next_end hmark]
  exact closesOnlyOpened_nil hd

/-- A balanced text leaves a scan where it was and closes no bracket that it has not opened. -/
theorem scan_balanced (h : Balanced cs) (hd : 0 ≤ d) :
    scan { depth := d } cs = { depth := d } ∧ ClosesOnlyOpened { depth := d } cs := by
  induction h generalizing d with
  | nil => exact ⟨rfl, closesOnlyOpened_nil hd⟩
  | @plain c hbracket hmark =>
    obtain ⟨hopening, hclosing⟩ : countOpening [c] = 0 ∧ countClosing [c] = 0 := by
      simp only [isBracket, bracketPairs, List.any_cons, List.any_nil, Bool.or_false,
        Bool.or_eq_false_iff, decide_eq_false_iff_not] at hbracket
      simp [countOpening, countClosing, bracketPairs, eq_comm (b := c), hbracket]
    have hstep : next { depth := d } c = { depth := d } := by
      simp [next_plain hmark, hopening, hclosing]
    refine ⟨hstep, .cons hd ?_⟩
    rw [hstep]
    exact closesOnlyOpened_nil hd
  | literal hl => exact ⟨scan_literal hl, closesOnlyOpened_literal hd hl⟩
  | @enclosed opening closing cs hpair _ ih =>
    obtain ⟨hscan, hopened⟩ := ih (d := d + 1) (by omega)
    obtain ⟨hopening, hclosing⟩ : next { depth := d } opening = { depth := d + 1 } ∧
        next { depth := d + 1 } closing = { depth := d } := by
      simp only [bracketPairs, List.mem_cons, Prod.mk.injEq, List.not_mem_nil, or_false] at hpair
      rcases hpair with ⟨rfl, rfl⟩ | ⟨rfl, rfl⟩ | ⟨rfl, rfl⟩ <;> simp [next]
    constructor
    · rw [List.cons_append, scan_cons, hopening, scan_append, hscan, scan_cons, hclosing, scan_nil]
    · rw [List.cons_append]
      refine .cons hd ?_
      rw [hopening]
      refine hopened.append ?_
      rw [hscan]
      refine .cons (by simp; omega) ?_
      rw [hclosing]
      exact closesOnlyOpened_nil hd
  | append _ _ iha ihb =>
    obtain ⟨hscan, hopened⟩ := iha hd
    obtain ⟨hscan', hopened'⟩ := ihb hd
    exact ⟨by rw [scan_append, hscan, hscan'], hopened.append (by rwa [hscan])⟩

/-! ### Searching -/

/-- The search stops at the first closing parenthesis of depth zero. -/
theorem untilClose?_eq_some_iff {inner rest : List Char} :
    untilClose? s cs = some (inner, rest) ↔ cs = inner ++ ')' :: rest ∧
      (scan s inner).closes ')' = true ∧
      ∀ before after, inner = before ++ ')' :: after → (scan s before).closes ')' = false := by
  -- The state is that of the scan up to here, so the induction takes it along with the text.
  induction cs generalizing s inner with
  | nil => simp [untilClose?]
  | cons c cs ih =>
    rw [untilClose?]
    by_cases hc : s.closes c = true
    · obtain rfl : c = ')' := by
        simp only [closes, Bool.and_eq_true, decide_eq_true_eq] at hc
        exact hc.1.1
      rw [if_pos hc]
      constructor
      · intro h
        obtain ⟨rfl, rfl⟩ := Prod.mk.inj (Option.some.inj h)
        exact ⟨rfl, hc, by simp⟩
      · rintro ⟨hcs, _, hfirst⟩
        cases inner with
        | nil => rw [(List.cons.inj hcs).2]
        | cons e inner =>
          obtain ⟨rfl, _⟩ := List.cons.inj hcs
          exact absurd hc (Bool.eq_false_iff.mp (hfirst [] inner rfl))
    · rw [if_neg hc]
      simp only [Option.map_eq_some_iff, Prod.mk.injEq, Prod.exists]
      constructor
      · rintro ⟨inner, rest, h, rfl, rfl⟩
        obtain ⟨rfl, hclose, hfirst⟩ := ih.mp h
        refine ⟨rfl, hclose, fun before after hinner => ?_⟩
        cases before with
        | nil => simpa [(List.cons.inj hinner).1] using hc
        | cons e before =>
          obtain ⟨rfl, htail⟩ := List.cons.inj hinner
          exact hfirst before after htail
      · rintro ⟨hcs, hclose, hfirst⟩
        cases inner with
        | nil =>
          obtain ⟨rfl, _⟩ := List.cons.inj hcs
          exact absurd hclose hc
        | cons e inner =>
          obtain ⟨rfl, htail⟩ := List.cons.inj hcs
          exact ⟨inner, rest, ih.mpr ⟨htail, hclose, fun before after hinner =>
            hfirst (c :: before) after (by rw [hinner, List.cons_append])⟩, rfl, rfl⟩

end Nesting

/-! ### Partners -/

open Nesting (Balanced BalancesAt IsLiteral IsPartner)

variable {text inner rest : List Char} {k : Nat}

private theorem splitParenthesis?_eq_some_iff : splitParenthesis? text = some (inner, rest) ↔
    text = '(' :: inner ++ ')' :: rest ∧ (Nesting.scan {} ('(' :: inner)).closes ')' = true ∧
      ∀ before after, inner = before ++ ')' :: after →
        (Nesting.scan {} ('(' :: before)).closes ')' = false := by
  cases text with
  | nil => simp [splitParenthesis?]
  | cons c cs =>
    by_cases hc : c = '('
    · subst hc
      rw [splitParenthesis?, Nesting.untilClose?_eq_some_iff]
      simp
    · simp [splitParenthesis?, hc]

private theorem balancesAt_iff : BalancesAt text k ↔ ∃ before after, text = before ++ ')' :: after ∧
    byteLength before = k ∧ (Nesting.scan {} before).closes ')' = true := by
  simp only [Nesting.closes_iff_bare, BalancesAt, ← exists_and_left]

/-- What is found is the first closing parenthesis at which the text balances. -/
theorem partnerPosition?_eq_some_iff : partnerPosition? text = some k ↔ IsPartner text k := by
  have hsize (cs : List Char) : byteLength ('(' :: cs) = byteLength cs + 1 :=
    Nat.add_comm 1 (byteLength cs)
  simp only [partnerPosition?, Option.map_eq_some_iff, Prod.exists, splitParenthesis?_eq_some_iff]
  constructor
  · rintro ⟨inner, rest, ⟨rfl, hclose, hfirst⟩, rfl⟩
    refine ⟨rfl, balancesAt_iff.mpr ⟨'(' :: inner, rest, rfl, hsize inner, hclose⟩, ?_⟩
    intro j hj hbalances
    obtain ⟨before, after, htext, rfl, hearlier⟩ := balancesAt_iff.mp hbalances
    obtain ⟨m, hm, hrest⟩ := Text.exists_middle htext.symm (by rw [hsize]; omega)
    cases before with
    | nil => exact absurd (List.cons.inj htext).1 (by decide)
    | cons e before =>
      obtain rfl : '(' = e := (List.cons.inj hm).1
      have hinner : inner = before ++ m := (List.cons.inj hm).2
      cases m with
      | nil =>
        rw [hinner, List.append_nil, hsize] at hj
        exact Nat.lt_irrefl _ hj
      | cons f m =>
        obtain ⟨rfl, _⟩ := List.cons.inj hrest
        exact absurd hearlier (Bool.eq_false_iff.mp (hfirst before m hinner))
  · rintro ⟨hbegins, hbalances, hfirst⟩
    obtain ⟨before, after, htext, rfl, hclose⟩ := balancesAt_iff.mp hbalances
    cases before with
    | nil => simp [htext] at hbegins
    | cons e inner =>
      obtain rfl : e = '(' := by simpa [htext] using hbegins
      refine ⟨inner, after, ⟨htext, hclose, fun earlier later hinner => ?_⟩, (hsize inner).symm⟩
      rw [Bool.eq_false_iff]
      intro hearlier
      have hlt : byteLength ('(' :: earlier) < byteLength ('(' :: inner) := by
        have hpos := Char.utf8Size_pos ')'
        rw [hsize, hsize, hinner, Text.byteLength_append, Text.byteLength_cons]
        omega
      exact hfirst _ hlt (balancesAt_iff.mpr
        ⟨'(' :: earlier, later ++ ')' :: after, by simp [htext, hinner], rfl, hearlier⟩)

/-- The partner of a parenthesis around balanced text is the one that stands behind it, and what is
found is always the first closing parenthesis outside literals at which as many brackets are closed
as opened. -/
theorem partnerPosition?_isPartner :
    (∀ inner rest, Balanced inner →
      partnerPosition? ('(' :: inner ++ ')' :: rest) = some (byteLength ('(' :: inner))) ∧
    ∀ text k, partnerPosition? text = some k ↔ IsPartner text k := by
  refine ⟨fun inner rest h => ?_, fun text k => partnerPosition?_eq_some_iff⟩
  obtain ⟨hscan, hopened⟩ := Nesting.scan_balanced h (Int.le_refl 0)
  rw [partnerPosition?, Nesting.splitParenthesis?_enclosed hscan hopened, Option.map_some]
  exact congrArg some (Nat.add_comm _ 1)

/-- A raw literal that ends in a backslash, a mark inside another literal, an escaped mark with a
parenthesis behind it, and more closing brackets after the partner. -/
theorem partnerPosition?_nestedLiterals :
    Balanced "[`a\\`]\x7b'\"'\x7d\"\\\")\"".toList ∧
      partnerPosition? "([`a\\`]\x7b'\"'\x7d\"\\\")\") )]".toList = some 17 ∧
      IsPartner "([`a\\`]\x7b'\"'\x7d\"\\\")\") )]".toList 17 := by
  have hraw : IsLiteral ['`', 'a', '\\', '`'] :=
    ⟨'`', by decide, ['a', '\\'],
      .plain (by decide) (by decide) (.plain (by decide) (fun _ => rfl) .nil), rfl⟩
  have hrune : IsLiteral ['\'', '"', '\''] :=
    ⟨'\'', by decide, ['"'], .plain (by decide) (by decide) .nil, rfl⟩
  have hstring : IsLiteral ['"', '\\', '"', ')', '"'] :=
    ⟨'"', by decide, ['\\', '"', ')'],
      .escape (by decide) (.plain (by decide) (by decide) .nil), rfl⟩
  have hbrackets : Balanced ['[', '`', 'a', '\\', '`', ']'] :=
    .enclosed (by decide) (.literal hraw)
  have hbraces : Balanced ['{', '\'', '"', '\'', '}'] := .enclosed (by decide) (.literal hrune)
  have hinner := (hbrackets.append hbraces).append (.literal hstring)
  have hfound := partnerPosition?_isPartner.1 _ [' ', ')', ']'] hinner
  exact ⟨hinner, hfound, (partnerPosition?_isPartner.2 _ _).mp hfound⟩

end GoContracts

import GoContracts.Proofs.Syntax.Joining
import GoContracts.Proofs.Syntax.SpelledTokens
import GoContracts.Proofs.Weaving.WholeLines

/-!
# Tokens around edits

An edit that begins and ends where no token is open leaves the tokens around it as they are, if the
characters that come to stand side by side do not go on into one word, number or comment.
-/

namespace GoContracts

open Syntax (Token Lexeme)
open Syntax.Token (sign signs readAll readFrom Whole Unclosed Foreign Halts Joins)
open Text (CharAt Boundary)

/-! ### The tokens of parts of a text -/

namespace Syntax.Token

variable {s : String} {pos start stop : Nat} {t : Token} {x z : List Char}

/-- Where the first token of a text may begin: behind its byte order mark. -/
def origin (s : String) : Nat := if s.toList.head? = some '\ufeff' then 3 else 0

/-- No token begins before the byte order mark ends. -/
theorem origin_le_start (ht : t ∈ readAll s) : origin s ≤ t.start := by
  by_cases hmark : s.toList.head? = some '\ufeff'
  · obtain ⟨rest, hs⟩ := List.head?_eq_some_iff.mp hmark
    rw [readAll_of_mark hs] at ht
    rw [origin, if_pos hmark]
    exact (bounds_of_mem ht).1
  · rw [origin, if_neg hmark]
    exact Nat.zero_le _

/-- The byte order mark ends at a boundary. -/
theorem boundary_origin (s : String) : Boundary s (origin s) := by
  rw [origin]
  split_ifs with hmark
  · obtain ⟨rest, hs⟩ := List.head?_eq_some_iff.mp hmark
    exact ⟨['\ufeff'], rest, hs, rfl⟩
  · exact Text.boundary_zero s

/-- Behind its first byte a text has no byte order mark any more. -/
theorem origin_le_of_pos (hboundary : Boundary s pos) (hpos : 0 < pos) : origin s ≤ pos := by
  rw [origin]
  split_ifs with hmark
  · obtain ⟨rest, hs⟩ := List.head?_eq_some_iff.mp hmark
    have hzero : CharAt s 0 '\ufeff' := ⟨[], rest, hs, rfl⟩
    exact hzero.next_le hboundary hpos
  · exact Nat.zero_le _

/-- The line of a token that only blanks stand before begins behind the byte order mark. -/
theorem origin_le_lineStart (ht : t ∈ readAll s) (hstarts : Text.startsLine s t.start = true) :
    origin s ≤ Text.lineStart s t.start := by
  have hboundary := (boundaries ht).1
  rcases Text.lineStart_cases hboundary with hzero | ⟨prev, _, hnext⟩
  · rw [origin]
    split_ifs with hmark
    · obtain ⟨rest, hs⟩ := List.head?_eq_some_iff.mp hmark
      have hthree := origin_le_start ht
      rw [origin, if_pos hmark] at hthree
      have := (Text.startsLine_iff hboundary).mp hstarts 0 _ ⟨[], rest, hs, rfl⟩
        (by omega) (by omega)
      exact absurd this (by decide)
    · exact Nat.zero_le _
  · exact origin_le_of_pos (Text.lineStart_run hboundary).boundary (by omega)

/-- The tokens that lie between two positions. -/
def within (ts : List Token) (start stop : Nat) : List Token :=
  ts.filter fun t => start ≤ t.start && t.stop ≤ stop

/-- The tokens between two positions begin and end there. -/
theorem mem_within {ts : List Token} :
    t ∈ within ts start stop ↔ t ∈ ts ∧ start ≤ t.start ∧ t.stop ≤ stop := by
  simp [within]

/-- A token is all that lies between its ends. -/
theorem within_token (ht : t ∈ readAll s) : within (readAll s) t.start t.stop = [t] := by
  have hordered := ordered_readAll s
  obtain ⟨earlier, later, hread⟩ := List.append_of_mem ht
  rw [hread] at hordered ⊢
  obtain ⟨_, hbehind, hbefore⟩ := List.pairwise_append.mp hordered.2
  have hlater := (List.pairwise_cons.mp hbehind).1
  have hlt := hordered.1
  rw [within, List.filter_append, List.filter_cons_of_pos (by simp), List.filter_eq_nil_iff.mpr,
    List.filter_eq_nil_iff.mpr, List.nil_append]
  · intro u hu
    have := hlater u hu
    have := hlt u (by simp [hu])
    simp only [Bool.and_eq_true, decide_eq_true_eq]
    omega
  · intro u hu
    have := hbefore u hu t (List.mem_cons_self ..)
    have := hlt u (by simp [hu])
    simp only [Bool.and_eq_true, decide_eq_true_eq]
    omega

/-- A text without a byte order mark is read from its start. -/
theorem readAll_of_head? (h : s.toList.head? ≠ some '\ufeff') :
    readAll s = readFrom 0 s.toList := by
  cases hs : s.toList with
  | nil =>
    rw [readAll, Text.chars_eq, hs]
  | cons c x =>
    rw [hs] at h
    exact readAll_of_ne hs fun hc => h (hc ▸ rfl)

/-- A text may be read from a place on where no token is open. -/
theorem readAll_from (hpos : Boundary s pos) (horigin : origin s ≤ pos)
    (hwhole : Whole (readAll s) pos) :
    ∃ before, readAll s = before ++ readFrom pos (Text.behind s pos) ∧
      ∀ t ∈ before, t.stop ≤ pos := by
  obtain ⟨a, hs, rfl⟩ := hpos.exists_behind
  by_cases hmark : s.toList.head? = some '\ufeff'
  · rw [origin, if_pos hmark] at horigin
    cases a with
    | nil => simp at horigin
    | cons c a =>
      obtain rfl : c = '\ufeff' := by
        rw [hs] at hmark
        exact Option.some.inj hmark
      have hlength : Text.byteLength ('\ufeff' :: a) = 3 + Text.byteLength a := rfl
      rw [readAll_of_mark hs, hlength] at hwhole ⊢
      exact ⟨_, readFrom_cut hwhole, fun t ht => (bounds_of_mem ht).2⟩
  · have hread := readAll_of_head? hmark
    have hzero := Nat.zero_add (Text.byteLength a)
    rw [hread, hs, ← hzero] at hwhole
    have hcut := readFrom_cut hwhole
    rw [hzero] at hcut
    exact ⟨readFrom 0 a, hread.trans ((congrArg (readFrom 0) hs).trans hcut), fun t ht =>
      hzero ▸ (bounds_of_mem ht).2⟩

section

variable (hpos : Boundary s pos) (horigin : origin s ≤ pos) (hwhole : Whole (readAll s) pos)
include hpos horigin hwhole

/-- The tokens from a position on. -/
theorem filter_from :
    (readAll s).filter (pos ≤ ·.start) = readFrom pos (Text.behind s pos) := by
  obtain ⟨before, hread, hbefore⟩ := readAll_from hpos horigin hwhole
  have hordered := (ordered_readAll s).1
  rw [hread] at hordered ⊢
  rw [List.filter_append, List.filter_eq_nil_iff.mpr, List.filter_eq_self.mpr, List.nil_append]
  · intro t ht
    exact decide_eq_true (bounds_of_mem ht).1
  · intro t ht
    have := hbefore t ht
    have := hordered t (List.mem_append_left _ ht)
    simp only [decide_eq_true_eq]
    omega

/-- A position that is inside no token of a text is inside no token of what stands behind a seam. -/
theorem whole_from {next : Nat} (hnext : Whole (readAll s) next) :
    Whole (readFrom pos (Text.behind s pos)) next := by
  rw [← filter_from hpos horigin hwhole]
  exact fun t ht => hnext t (List.mem_of_mem_filter ht)

/-- The tokens between two positions are those of the text between them. -/
theorem within_eq (hstop : Boundary s stop) (hnext : Whole (readAll s) stop) (hle : pos ≤ stop) :
    within (readAll s) pos stop = readFrom pos (Text.slice s pos stop).toList ∧
      readFrom pos (Text.behind s pos) =
        within (readAll s) pos stop ++ readFrom stop (Text.behind s stop) := by
  obtain ⟨hcut, hlength⟩ := Text.behind_cut hpos hstop hle
  have hrest := whole_from hpos horigin hwhole hnext
  have hread : readFrom pos (Text.behind s pos) =
      readFrom pos (Text.slice s pos stop).toList ++ readFrom stop (Text.behind s stop) := by
    generalize (Text.slice s pos stop).toList = x at hcut hlength ⊢
    subst hlength
    rw [hcut] at hrest ⊢
    exact readFrom_cut hrest
  have hordered := (ordered_readAll s).1
  have hfrom := filter_from hpos horigin hwhole
  have hmem : ∀ t ∈ readFrom pos (Text.behind s pos), t ∈ readAll s := fun t ht =>
    List.mem_of_mem_filter (hfrom.symm ▸ ht)
  have hfilter : within (readAll s) pos stop =
      (readFrom pos (Text.behind s pos)).filter (·.stop ≤ stop) := by
    rw [← hfrom, List.filter_filter, within]
    simp only [Bool.and_comm]
  rw [hread] at hmem
  have hsame : within (readAll s) pos stop = readFrom pos (Text.slice s pos stop).toList := by
    rw [hfilter, hread, List.filter_append, List.filter_eq_self.mpr, List.filter_eq_nil_iff.mpr,
      List.append_nil]
    · intro t ht
      have := hordered t (hmem t (List.mem_append_right _ ht))
      have := (bounds_of_mem ht).1
      simp only [decide_eq_true_eq]
      omega
    · intro t ht
      have := (bounds_of_mem ht).2
      simp only [decide_eq_true_eq]
      omega
  exact ⟨hsame, by rw [hsame, hread]⟩

end

/-- A word is read as one, if no letter or digit follows it. -/
theorem signs_word_append (h : Text.IsIdentifier x)
    (hz : ∀ d ∈ z.head?, Text.isIdentifierPart d = false) :
    signs (x ++ z) = (.word, String.ofList x) :: signs z := by
  rw [signs, readFrom_word h hz, List.map_cons, map_sign_readFrom]
  rfl

/-- An identifier is one word. -/
theorem signs_word (h : Text.IsIdentifier x) : signs x = [(.word, String.ofList x)] := by
  have hsigns := signs_word_append (z := []) h (by simp)
  rwa [List.append_nil, signs_nil] at hsigns

end Syntax.Token

/-! ### What comes to stand side by side -/

namespace Edit

variable {s : String} {e : Edit} {es : List Edit} {cursor : Nat} {before : List Char} {d : Char}

/-- Whether a character may go on with a word or a number. -/
def goesOn (c : Char) : Bool := Text.isIdentifierPart c || ".+-".toList.contains c

/-- Whether two characters side by side may belong to one word or number or begin a comment. -/
def Glued (c d : Char) : Prop := goesOn c = true ∧ goesOn d = true ∨ c = '/' ∧ (d = '/' ∨ d = '*')

instance (c d : Char) : Decidable (Glued c d) :=
  inferInstanceAs (Decidable (goesOn c = true ∧ goesOn d = true ∨ c = '/' ∧ (d = '/' ∨ d = '*')))

example : Glued 'r' 'y' := by decide +kernel

/-- Whether nothing is glued where an edit leaves no text. The first argument is the text that the
edits before the cursor make. -/
def Unglued (s : String) : List Char → Nat → List Edit → Prop
  | _, _, [] => True
  | before, cursor, e :: es =>
    (e.text = "" → ∀ c ∈ (before ++ (Text.slice s cursor e.start).toList).getLast?,
      ∀ d ∈ (splice s e.stop es).toList.head?, ¬Glued c d) ∧
    Unglued s (before ++ (Text.slice s cursor e.start).toList ++ e.text.toList) e.stop es

instance (before? behind? : Option Char) :
    Decidable (∀ c ∈ before?, ∀ d ∈ behind?, ¬Glued c d) :=
  have : DecidablePred fun c => ∀ d ∈ behind?, ¬Glued c d := fun _ =>
    Option.decidableForallMem behind?
  Option.decidableForallMem before?

instance decidableUnglued (s : String) : (before : List Char) → (cursor : Nat) → (es : List Edit) →
    Decidable (Unglued s before cursor es)
  | _, _, [] => isTrue trivial
  | before, cursor, e :: es =>
    have := decidableUnglued s (before ++ (Text.slice s cursor e.start).toList ++ e.text.toList)
      e.stop es
    inferInstanceAs (Decidable ((e.text = "" →
      ∀ c ∈ (before ++ (Text.slice s cursor e.start).toList).getLast?,
        ∀ d ∈ (splice s e.stop es).toList.head?, ¬Glued c d) ∧
      Unglued s (before ++ (Text.slice s cursor e.start).toList ++ e.text.toList) e.stop es))

/-- A character that no word, number or comment goes on with. -/
structure Plain (d : Char) : Prop where
  foreign : Foreign d
  part : Text.isIdentifierPart d = false
  slash : d ≠ '/'
  star : d ≠ '*'

/-- Nothing goes on with a character that separates tokens. -/
theorem Plain.of_separates (h : Syntax.Token.separates d = true) : Plain d :=
  let ⟨hforeign, hpart, hslash, hstar⟩ := Syntax.Token.foreign_of_separates h
  ⟨hforeign, hpart, hslash, hstar⟩

private theorem isDigit_or_isAlpha_of_isHexDigit (h : Syntax.Token.isHexDigit d = true) :
    d.isDigit = true ∨ d.isAlpha = true := by
  simp only [Syntax.Token.isHexDigit, Bool.or_eq_true, Bool.and_eq_true, decide_eq_true_eq,
    Char.le_def, UInt32.le_iff_toNat_le] at h
  have halpha : d.isAlpha = (decide ('A'.val ≤ d.val ∧ d.val ≤ 'Z'.val) ||
      (decide ('a'.val ≤ d.val) && decide (d.val ≤ 'z'.val))) := rfl
  simp only [halpha, Bool.or_eq_true, Bool.and_eq_true, decide_eq_true_eq, UInt32.le_iff_toNat_le]
  rcases h with (hdigit | ⟨hle, hge⟩) | ⟨hle, hge⟩
  · exact .inl hdigit
  · exact .inr (.inr ⟨hle, hge.trans (by decide)⟩)
  · exact .inr (.inl ⟨hle, hge.trans (by decide)⟩)

private theorem isDigit_of_isOctalDigit (h : Syntax.Token.isOctalDigit d = true) :
    d.isDigit = true := by
  simp only [Syntax.Token.isOctalDigit, Bool.and_eq_true, decide_eq_true_eq, Char.le_def,
    UInt32.le_iff_toNat_le] at h
  simp only [Char.isDigit, Bool.and_eq_true, decide_eq_true_eq, UInt32.le_iff_toNat_le, ge_iff_le]
  exact ⟨h.1, h.2.trans (by decide)⟩

private theorem foreign_of_goesOn (h : goesOn d = false) : Foreign d := by
  have hpart : ¬(d.isDigit = true ∨ d.isAlpha = true) := by
    rintro (hdigit | halpha)
    · simp [goesOn, Text.isIdentifierPart, hdigit] at h
    · simp [goesOn, Text.isIdentifierPart, Text.isIdentifierStart, halpha] at h
  have hdigit : d.isDigit = false := Bool.eq_false_iff.mpr fun hd => hpart (.inl hd)
  have hmarks : ∀ c ∈ ['0', '1', '_', '.', '+', '-', 'x', 'X', 'b', 'B', 'o', 'O', 'e', 'E', 'p',
      'P', 'i'], d ≠ c := by
    rintro c hc rfl
    have hall : ['0', '1', '_', '.', '+', '-', 'x', 'X', 'b', 'B', 'o', 'O', 'e', 'E', 'p', 'P',
        'i'].all goesOn = true := by decide +kernel
    rw [List.all_eq_true.mp hall d hc] at h
    exact absurd h (by decide)
  constructor
  · exact Bool.eq_false_iff.mpr fun hd => hpart (isDigit_or_isAlpha_of_isHexDigit hd)
  · exact hdigit
  · exact Bool.eq_false_iff.mpr fun hd => hpart (.inl (isDigit_of_isOctalDigit hd))
  · simp [Syntax.Token.isBinaryDigit, hmarks]
  · intro hd
    exact hmarks d (by simp only [List.mem_cons] at hd ⊢; tauto) rfl

/-- A text that can be read on its own, whatever stands behind it. -/
structure Legible (t : String) : Prop where
  known : ∀ u ∈ readFrom 0 t.toList, u.lexeme ≠ .unknown
  closed : ¬Unclosed (readFrom 0 t.toList)
  null : '\x00' ∉ t.toList
  comment : ∀ u ∈ readFrom 0 t.toList, u.lexeme = .comment → u.stop ≠ Text.byteLength t.toList

instance (t : String) : Decidable (Legible t) :=
  decidable_of_iff ((∀ u ∈ readFrom 0 t.toList, u.lexeme ≠ .unknown) ∧
      ¬Unclosed (readFrom 0 t.toList) ∧ '\x00' ∉ t.toList ∧
      ∀ u ∈ readFrom 0 t.toList, u.lexeme = .comment → u.stop ≠ Text.byteLength t.toList)
    ⟨fun ⟨hknown, hclosed, hnull, hcomment⟩ => ⟨hknown, hclosed, hnull, hcomment⟩,
      fun ⟨hknown, hclosed, hnull, hcomment⟩ => ⟨hknown, hclosed, hnull, hcomment⟩⟩

/-- What an edit may do so that the tokens around it stay. -/
inductive Neat (s : String) (e : Edit) : Prop
  /-- It leaves out what does not begin with a newline. -/
  | removal {first : Char} (htext : e.text = "") (hfirst : CharAt s e.start first)
      (hnew : first ≠ '\n')
  /-- It puts in a text of its own that nothing goes on with. -/
  | insertion (hne : e.text.toList ≠ []) (hlegible : Legible e.text)
      (hlast : ∀ d ∈ e.text.toList.getLast?, Plain d)
      (hhead : (∀ pos c, CharAt s pos c → pos + c.utf8Size = e.start → c = '\n') ∨
        ∃ c ∈ e.text.toList.head?, Plain c ∧ (c = '\n' ∨ ∃ d, CharAt s e.start d ∧ d ≠ '\n'))
  /-- It names a blank. -/
  | naming {rest : List Char} (htext : e.text.toList = '_' :: 'i' :: rest)
      (hrest : ∀ c ∈ rest, Text.isIdentifierPart c = true) (hd : CharAt s e.start '_')
      (hstop : e.stop = e.start + 1)
      (hend : ∀ d, CharAt s e.stop d → Text.isIdentifierPart d = false)

/-- The text behind the cursor begins with no character that a name goes on with. -/
theorem head?_splice (hside : SideBySide s cursor es) (hfits : ∀ e ∈ es, Fits s e)
    (hneat : ∀ e ∈ es, Neat s e) (hunglued : Unglued s before cursor es)
    (hcursor : Boundary s cursor) {last : Char} (hbefore : before.getLast? = some last)
    (hlast : Text.isIdentifierPart last = true)
    (hprevious : ∃ pos c, CharAt s pos c ∧ pos + c.utf8Size = cursor ∧ c ≠ '\n')
    (hend : ∀ d, CharAt s cursor d → Text.isIdentifierPart d = false) :
    ∀ d ∈ (splice s cursor es).toList.head?, Text.isIdentifierPart d = false := by
  cases es with
  | nil =>
    intro d hd
    exact hend d (Text.charAt_of_head? hcursor hd)
  | cons e es =>
    have hle := (hside.bounds e (List.mem_cons_self ..)).1
    have he := hfits e (List.mem_cons_self ..)
    rcases Nat.lt_or_eq_of_le hle with hlt | heq
    · have hmono : SideBySide s e.start (e :: es) := hside.mono fun f hf => by
        rcases List.mem_cons.mp hf with rfl | hf
        · exact Nat.le_refl _
        · have := (List.pairwise_cons.mp hside.pairwise).1 f hf
          have := he.le
          omega
      obtain ⟨c, hc, hhead⟩ := Text.exists_head? hcursor he.start hlt
      rw [splice_of_le hmono hfits hcursor he.start hle, String.toList_append, List.head?_append,
        hhead]
      intro d hd
      exact Option.some.inj hd ▸ hend c hc
    · subst heq
      rw [splice_cons hside]
      obtain ⟨hsame, _⟩ := hunglued
      rw [Text.slice_self hcursor, List.append_nil] at hsame
      cases hneat e (List.mem_cons_self ..) with
      | removal htext =>
        rw [htext, String.toList_empty, List.nil_append]
        intro d hd
        have hnot := hsame htext last hbefore d hd
        by_contra hpart
        exact hnot (.inl ⟨by simp [goesOn, hlast], by simp [goesOn, Bool.not_eq_false _ ▸ hpart]⟩)
      | insertion hne _ _ hhead =>
        rcases hhead with hnew | ⟨c, hc, hplain, _⟩
        · obtain ⟨pos, c, hat, hnext, hno⟩ := hprevious
          exact absurd (hnew pos c hat hnext) hno
        · rw [List.head?_append, hc]
          intro d hd
          exact Option.some.inj hd ▸ hplain.part
      | naming _ _ hd _ => exact absurd (hend '_' hd) (by decide +kernel)

/-! ### The tokens of an edited text -/

/-- An edit begins and ends where no token of the text is open. -/
structure OnSeams (s : String) (e : Edit) : Prop where
  origin : Syntax.Token.origin s ≤ e.start
  start : Whole (readAll s) e.start
  stop : Whole (readAll s) e.stop

instance (s : String) (e : Edit) : Decidable (OnSeams s e) :=
  decidable_of_iff (Syntax.Token.origin s ≤ e.start ∧ Whole (readAll s) e.start ∧
      Whole (readAll s) e.stop)
    ⟨fun ⟨horigin, hstart, hstop⟩ => ⟨horigin, hstart, hstop⟩,
      fun ⟨horigin, hstart, hstop⟩ => ⟨horigin, hstart, hstop⟩⟩

/-- What the tokens are that edits leave of a text from the cursor on, with what `place` gives in
the place of each edit. -/
def around (ts : List Token) (place : Edit → List (Lexeme × String)) :
    Nat → List Edit → List (Lexeme × String)
  | cursor, [] => (ts.filter (cursor ≤ ·.start)).map sign
  | cursor, e :: es =>
    (Syntax.Token.within ts cursor e.start).map sign ++ place e ++ around ts place e.stop es

private theorem head?_behind {pos : Nat} (h : CharAt s pos d) :
    (Text.behind s pos).head? = some d := by
  obtain ⟨a, b, hs, rfl⟩ := h
  rw [Text.behind_eq hs]
  rfl

/-- No comment ends behind a newline. -/
private theorem stop_ne_of_newline {pos : Nat} {t : Token} (hpos : CharAt s pos '\n')
    (ht : t ∈ readAll s) (hcomment : t.lexeme = .comment) : t.stop ≠ pos + 1 := by
  intro hstop
  have hlt := (Syntax.Token.ordered_readAll s).1 t ht
  rcases (Syntax.Token.charAt_comment ht hcomment).2 with ⟨hline, _⟩ | ⟨_, last, hlast, hend, _⟩
  · exact hline pos _ hpos (by omega) (by omega) rfl
  · obtain rfl : last = pos := by omega
    exact absurd (hlast.unique hpos) (by decide)

private theorem halts_of_goesOn {r : List Char} (h : ∀ d ∈ r.head?, goesOn d = false) :
    Halts r := by
  cases r with
  | nil => exact .nil
  | cons d r => exact .foreign (foreign_of_goesOn (h d rfl))

private theorem part_of_goesOn (h : goesOn d = false) : Text.isIdentifierPart d = false := by
  rw [goesOn, Bool.or_eq_false_iff] at h
  exact h.1

/-- What an edit puts in goes on with no token of the text before it. -/
private theorem Neat.joins {x r : List Char} (he : Neat s e)
    (hin : readFrom cursor (x ++ Text.behind s e.start) ⊆ readAll s)
    (hlength : cursor + Text.byteLength x = e.start)
    (hlast : ∀ c ∈ x.getLast?, ∃ pos, CharAt s pos c ∧ pos + c.utf8Size = e.start)
    (hunglued : e.text = "" → ∀ c ∈ x.getLast?, ∀ d ∈ r.head?, ¬Glued c d) :
    Joins cursor x (Text.behind s e.start) (e.text.toList ++ r) := by
  cases he with
  | @removal first htext hfirst hnew =>
    have hline := Option.mem_def.mpr (head?_behind hfirst)
    rw [htext, String.toList_empty, List.nil_append]
    have hnot := hunglued htext
    have hslash : (∀ d ∈ x.getLast?, d ≠ '/') ∨ ∀ d ∈ r.head?, d ≠ '/' ∧ d ≠ '*' := by
      by_cases hmem : '/' ∈ x.getLast?
      · exact .inr fun d hd => ⟨fun heq => hnot _ hmem d hd (.inr ⟨rfl, .inl heq⟩),
          fun heq => hnot _ hmem d hd (.inr ⟨rfl, .inr heq⟩)⟩
      · exact .inl fun d hd heq => hmem (heq ▸ hd)
    by_cases hgoes : ∀ d ∈ r.head?, goesOn d = false
    · exact ⟨⟨.inr (halts_of_goesOn hgoes), .inr (.inl fun d hd => part_of_goesOn (hgoes d hd))⟩,
        hslash, .inr (.inl ⟨first, hline, hnew⟩)⟩
    · obtain ⟨d, hd, hdgoes⟩ : ∃ d ∈ r.head?, goesOn d = true := by simpa using hgoes
      have hends : ∀ c ∈ x.getLast?, goesOn c = false := fun c hc =>
        Bool.eq_false_iff.mpr fun hcgoes => hnot c hc d hd (.inl ⟨hcgoes, hdgoes⟩)
      exact ⟨⟨.inl fun c hc => foreign_of_goesOn (hends c hc),
        .inl fun c hc => part_of_goesOn (hends c hc)⟩, hslash, .inr (.inl ⟨first, hline, hnew⟩)⟩
  | insertion hne hlegible hend hhead =>
    rcases hhead with hnew | ⟨c, hc, hplain, hline⟩
    · have hbreak : ∀ c ∈ x.getLast?, c = '\n' := fun c hc =>
        let ⟨pos, hat, hnext⟩ := hlast c hc
        hnew pos c hat hnext
      refine ⟨⟨.inl fun c hc => hbreak c hc ▸ Syntax.Token.foreign_newline, .inl fun c hc => ?_⟩,
        .inl fun c hc => ?_, .inr (.inr fun t ht hcomment hstop => ?_)⟩
      · rw [hbreak c hc]
        decide +kernel
      · rw [hbreak c hc]
        decide
      · cases hc : x.getLast? with
        | none =>
          rw [List.getLast?_eq_none_iff.mp hc, Text.byteLength_nil] at hstop
          have := (Syntax.Token.bounds_of_mem ht).1
          have := (Syntax.Token.ordered_readAll s).1 t (hin ht)
          omega
        | some c =>
          obtain ⟨pos, hat, hnext⟩ := hlast c hc
          obtain rfl := hbreak c hc
          exact stop_ne_of_newline hat (hin ht) hcomment (hstop.trans (hlength.trans hnext.symm))
    · have hfirst : (e.text.toList ++ r).head? = some c := by
        rw [List.head?_append, Option.mem_def.mp hc, Option.some_or]
      have hall : ∀ {P : Char → Prop}, P c → ∀ d ∈ (e.text.toList ++ r).head?, P d := by
        intro P hP d hd
        rw [hfirst] at hd
        exact Option.some.inj hd ▸ hP
      refine ⟨⟨.inr ?_, .inr (.inl (hall hplain.part))⟩, .inr
        (hall ⟨hplain.slash, hplain.star⟩), ?_⟩
      · obtain ⟨more, hmore⟩ := List.head?_eq_some_iff.mp hfirst
        exact hmore ▸ .foreign hplain.foreign
      · rcases hline with rfl | ⟨d, hd, hdnew⟩
        · exact .inl (hall rfl)
        · exact .inr (.inl ⟨d, head?_behind hd, hdnew⟩)
  | @naming rest htext _ hd _ _ =>
    have hblank := Option.mem_def.mpr (head?_behind hd)
    rw [htext]
    refine ⟨⟨.inr .name, .inr (.inr ⟨'_', hblank, by decide +kernel⟩)⟩, .inr ?_,
      .inr (.inl ⟨'_', hblank, by decide⟩)⟩
    intro d hd
    exact Option.some.inj hd ▸ ⟨by decide, by decide⟩

/-- A legible text that nothing goes on with is read on its own, whatever stands behind it. -/
private theorem Legible.signs_append {t : String} (h : Legible t)
    (hlast : ∀ d ∈ t.toList.getLast?, Plain d) (r : List Char) :
    signs (t.toList ++ r) = signs t.toList ++ signs r := by
  have hzero := Nat.zero_add (Text.byteLength t.toList)
  have hjoins : Joins 0 t.toList [] r := {
    number := .inl fun d hd => (hlast d hd).foreign
    word := .inl fun d hd => (hlast d hd).part
    slash := .inl fun d hd => (hlast d hd).slash
    line := .inr (.inr (by rw [List.append_nil, hzero]; exact h.comment)) }
  have hwhole : Whole (readFrom 0 (t.toList ++ [])) (0 + Text.byteLength t.toList) := by
    rw [List.append_nil]
    exact fun u hu => ⟨h.known u hu, .inl (Syntax.Token.bounds_of_mem hu).2⟩
  have hread := hjoins.readFrom_append (by rw [List.append_nil]; exact h.null)
    (by rw [List.append_nil]; exact h.closed) hwhole
  rw [signs, hread, List.map_append, Syntax.Token.map_sign_readFrom, Syntax.Token.map_sign_readFrom]

private theorem signs_name {rest r : List Char}
    (hrest : ∀ c ∈ rest, Text.isIdentifierPart c = true)
    (hr : ∀ d ∈ r.head?, Text.isIdentifierPart d = false) :
    signs ('_' :: 'i' :: rest ++ r) = signs ('_' :: 'i' :: rest) ++ signs r := by
  have hidentifier : Text.IsIdentifier ('_' :: 'i' :: rest) :=
    ⟨'_', 'i' :: rest, rfl, by decide +kernel, List.forall_mem_cons.mpr ⟨by decide +kernel, hrest⟩⟩
  rw [Syntax.Token.signs_word_append hidentifier hr, Syntax.Token.signs_word hidentifier]
  rfl

section

variable (hnull : '\x00' ∉ s.toList) (hclosed : ¬Unclosed (readAll s)) (hcursor : Boundary s cursor)
  (horigin : Syntax.Token.origin s ≤ cursor) (hwhole : Whole (readAll s) cursor)
include hnull hclosed hcursor horigin hwhole

/-- What an edit puts in is read behind the text before it. -/
private theorem Neat.signs_before {r : List Char} (he : Neat s e) (hseam : OnSeams s e)
    (hstart : Boundary s e.start) (hle : cursor ≤ e.start)
    (hglue : e.text = "" → ∀ c ∈ (Text.slice s cursor e.start).toList.getLast?,
      ∀ d ∈ r.head?, ¬Glued c d) :
    signs ((Text.slice s cursor e.start).toList ++ (e.text.toList ++ r)) =
      (Syntax.Token.within (readAll s) cursor e.start).map sign ++ signs (e.text.toList ++ r) := by
  obtain ⟨hcut, hlength⟩ := Text.behind_cut hcursor hstart hle
  have hsame := (Syntax.Token.within_eq hcursor horigin hwhole hstart hseam.start hle).1
  have hopen := Syntax.Token.whole_from hcursor horigin hwhole hseam.start
  have hin : readFrom cursor (Text.behind s cursor) ⊆ readAll s := by
    rw [← Syntax.Token.filter_from hcursor horigin hwhole]
    exact List.filter_subset_self _
  have hzero : '\x00' ∉ Text.behind s cursor := by
    obtain ⟨a, hs, _⟩ := hcursor.exists_behind
    exact fun hmem => hnull (hs ▸ List.mem_append_right a hmem)
  have hlast : ∀ c ∈ (Text.slice s cursor e.start).toList.getLast?,
      ∃ pos, CharAt s pos c ∧ pos + c.utf8Size = e.start := fun c hc =>
    let ⟨pos, hat, _, hnext⟩ := Text.charAt_of_getLast? hcursor hstart hle hc
    ⟨pos, hat, hnext⟩
  generalize (Text.slice s cursor e.start).toList = x at *
  have hshut : ¬Unclosed (readFrom cursor (Text.behind s cursor)) := fun ⟨t, ht, u, hu, hopen⟩ =>
    hclosed ⟨t, hin ht, u, hin hu, hopen⟩
  rw [hcut] at hin hzero hopen hshut
  have hread := (he.joins hin hlength hlast hglue).readFrom_append hzero hshut
    (hlength.symm ▸ hopen)
  rw [← Syntax.Token.map_sign_readFrom cursor, hread, List.map_append,
    Syntax.Token.map_sign_readFrom (cursor + _), hsame]

/-- The tokens of a text with one more edit. -/
private theorem signs_splice_cons (hside : SideBySide s cursor (e :: es))
    (hfits : ∀ f ∈ e :: es, Fits s f) (hneat : ∀ f ∈ e :: es, Neat s f) (hseam : OnSeams s e)
    (hunglued : Unglued s before cursor (e :: es)) :
    signs (splice s cursor (e :: es)).toList =
      (Syntax.Token.within (readAll s) cursor e.start).map sign ++ signs e.text.toList ++
        signs (splice s e.stop es).toList := by
  obtain ⟨he, hrest⟩ := List.forall_mem_cons.mp hfits
  obtain ⟨hhead, hmore⟩ := List.forall_mem_cons.mp hneat
  obtain ⟨hle, hstop, hsize⟩ := hside.bounds e (List.mem_cons_self ..)
  obtain ⟨hglue, hunglued⟩ := hunglued
  have hkeep : ¬(decide (e.start < cursor) || decide (Text.size s < e.stop)) = true := by
    simp
    omega
  have hmeets : e.text = "" → ∀ c ∈ (Text.slice s cursor e.start).toList.getLast?,
      ∀ d ∈ (splice s e.stop es).toList.head?, ¬Glued c d := by
    intro htext c hc
    refine hglue htext c ?_
    rw [List.getLast?_append, Option.mem_def.mp hc]
    rfl
  have hown : signs (e.text.toList ++ (splice s e.stop es).toList) =
      signs e.text.toList ++ signs (splice s e.stop es).toList := by
    cases hhead with
    | removal htext =>
      rw [htext, String.toList_empty, Syntax.Token.signs_nil, List.nil_append, List.nil_append]
    | insertion _ hlegible hlast => exact hlegible.signs_append hlast _
    | @naming rest htext hname hd hnext hend =>
      obtain ⟨last, hlast⟩ : ∃ last, e.text.toList.getLast? = some last :=
        ⟨_, List.getLast?_eq_some_getLast (show e.text.toList ≠ [] by simp [htext])⟩
      have hpart : ∀ c ∈ e.text.toList, Text.isIdentifierPart c = true := by
        rw [htext]
        exact List.forall_mem_cons.mpr ⟨by decide +kernel,
          List.forall_mem_cons.mpr ⟨by decide +kernel, hname⟩⟩
      have hnot := head?_splice hside.tail hrest hmore hunglued he.stop
        (by rw [List.getLast?_append, hlast]; rfl) (hpart last (List.mem_of_getLast? hlast))
        ⟨e.start, '_', hd, hnext.symm, by decide⟩ hend
      rw [htext, signs_name hname hnot]
  rw [splice, if_neg hkeep, String.toList_append, String.toList_append, List.append_assoc,
    hhead.signs_before hnull hclosed hcursor horigin hwhole hseam he.start hle hmeets, hown,
    List.append_assoc]

/-- The tokens of an edited text are those that the edits leave, with those of their texts. -/
theorem signs_splice (hside : SideBySide s cursor es) (hfits : ∀ e ∈ es, Fits s e)
    (hneat : ∀ e ∈ es, Neat s e) (hseams : ∀ e ∈ es, OnSeams s e)
    (hunglued : Unglued s before cursor es) :
    signs (splice s cursor es).toList =
      around (readAll s) (fun e => signs e.text.toList) cursor es := by
  -- Behind each edit the cursor is at a seam again, and `before` has grown by what was kept.
  induction es generalizing cursor before with
  | nil =>
    rw [around, Syntax.Token.filter_from hcursor horigin hwhole, Syntax.Token.map_sign_readFrom]
    rfl
  | cons e es ih =>
    obtain ⟨hseam, hothers⟩ := List.forall_mem_cons.mp hseams
    have he := hfits e (List.mem_cons_self ..)
    have horigin' := hseam.origin.trans he.le
    rw [signs_splice_cons hnull hclosed hcursor horigin hwhole hside hfits hneat hseam hunglued,
      around, ih he.stop horigin' hseam.stop hside.tail (List.forall_mem_cons.mp hfits).2
        (List.forall_mem_cons.mp hneat).2 hothers hunglued.2]

end

/-! ### What stands around the edits -/

/-- What stands around the edits is a token that no edit reaches into, or stands in the place of an
edit. -/
theorem mem_around {ts : List Token} {place : Edit → List (Lexeme × String)} {x : Lexeme × String}
    (hside : SideBySide s cursor es) (hx : x ∈ around ts place cursor es) :
    (∃ t ∈ ts, sign t = x ∧ cursor ≤ t.start ∧ ∀ e ∈ es, t.stop ≤ e.start ∨ e.stop ≤ t.start) ∨
      ∃ e ∈ es, x ∈ place e := by
  -- Tokens before the first edit are missed by all later ones, since edits stand side by side.
  induction es generalizing cursor with
  | nil =>
    obtain ⟨t, ht, hsign⟩ := List.mem_map.mp hx
    obtain ⟨ht, hle⟩ := List.mem_filter.mp ht
    exact .inl ⟨t, ht, hsign, of_decide_eq_true hle, by simp⟩
  | cons e es ih =>
    obtain ⟨hle, hstop, _⟩ := hside.bounds e (List.mem_cons_self ..)
    have hbehind := (List.pairwise_cons.mp hside.pairwise).1
    rw [around, List.mem_append, List.mem_append] at hx
    rcases hx with (hx | hx) | hx
    · obtain ⟨t, ht, hsign⟩ := List.mem_map.mp hx
      obtain ⟨ht, hfirst, hlast⟩ := Syntax.Token.mem_within.mp ht
      refine .inl ⟨t, ht, hsign, hfirst, List.forall_mem_cons.mpr ⟨.inl hlast, fun f hf => .inl ?_⟩⟩
      have := hbehind f hf
      omega
    · exact .inr ⟨e, List.mem_cons_self .., hx⟩
    · rcases ih hside.tail hx with ⟨t, ht, hsign, hfirst, hmisses⟩ | ⟨f, hf, hx⟩
      · exact .inl ⟨t, ht, hsign, by omega, List.forall_mem_cons.mpr ⟨.inr hfirst, hmisses⟩⟩
      · exact .inr ⟨f, List.mem_cons_of_mem e hf, hx⟩

/-- A token that no edit reaches into stands around the edits. -/
theorem sign_mem_around {ts : List Token} {t : Token} (place : Edit → List (Lexeme × String))
    (ht : t ∈ ts) (hle : cursor ≤ t.start) (h : ∀ e ∈ es, t.stop ≤ e.start ∨ e.stop ≤ t.start) :
    sign t ∈ around ts place cursor es := by
  induction es generalizing cursor with
  | nil => exact List.mem_map_of_mem (List.mem_filter.mpr ⟨ht, decide_eq_true hle⟩)
  | cons e es ih =>
    obtain ⟨he, hrest⟩ := List.forall_mem_cons.mp h
    rw [around, List.mem_append, List.mem_append]
    rcases he with hbefore | hbehind
    · exact .inl (.inl (List.mem_map_of_mem (Syntax.Token.mem_within.mpr ⟨ht, hle, hbefore⟩)))
    · exact .inr (ih hbehind hrest)

/-- The tokens of the rest of a text but those that only edits hold stand around the edits. -/
private theorem map_sign_filter_from {p : Token → Bool} (hside : SideBySide s cursor es)
    (hfits : ∀ e ∈ es, Fits s e) (hseams : ∀ e ∈ es, OnSeams s e) (hcursor : Boundary s cursor)
    (horigin : Syntax.Token.origin s ≤ cursor) (hwhole : Whole (readAll s) cursor)
    (hp : ∀ t ∈ readAll s, cursor ≤ t.start → p t = false →
      ∃ e ∈ es, e.start ≤ t.start ∧ t.stop ≤ e.stop) :
    (((readAll s).filter (cursor ≤ ·.start)).filter p).map sign =
      around (readAll s) (fun e => ((Syntax.Token.within (readAll s) e.start e.stop).filter p).map
        sign) cursor es := by
  -- What lies before an edit stays as a whole, since only edits take tokens out.
  induction es generalizing cursor with
  | nil =>
    rw [around, List.filter_eq_self.mpr]
    intro t ht
    obtain ⟨ht, hle⟩ := List.mem_filter.mp ht
    by_contra hno
    simpa using hp t ht (of_decide_eq_true hle) (Bool.not_eq_true _ ▸ hno)
  | cons e es ih =>
    obtain ⟨hseam, hothers⟩ := List.forall_mem_cons.mp hseams
    obtain ⟨he, hrest⟩ := List.forall_mem_cons.mp hfits
    obtain ⟨hle, hstop, _⟩ := hside.bounds e (List.mem_cons_self ..)
    have hbehind := (List.pairwise_cons.mp hside.pairwise).1
    have horigin' := hseam.origin.trans he.le
    have hlt := (Syntax.Token.ordered_readAll s).1
    have hfront : (Syntax.Token.within (readAll s) cursor e.start).filter p =
        Syntax.Token.within (readAll s) cursor e.start := by
      refine List.filter_eq_self.mpr fun t ht => ?_
      obtain ⟨ht, hfirst, hlast⟩ := Syntax.Token.mem_within.mp ht
      by_contra hno
      obtain ⟨f, hf, hin, _⟩ := hp t ht hfirst (Bool.not_eq_true _ ▸ hno)
      have := hlt t ht
      rcases List.mem_cons.mp hf with rfl | hf
      · omega
      · have := hbehind f hf
        omega
    have hmore := ih hside.tail hrest hothers he.stop horigin' hseam.stop fun t ht hfirst hno => by
      obtain ⟨f, hf, hin, hout⟩ := hp t ht (by omega) hno
      have := hlt t ht
      rcases List.mem_cons.mp hf with rfl | hf
      · omega
      · exact ⟨f, hf, hin, hout⟩
    rw [Syntax.Token.filter_from hcursor horigin hwhole,
      (Syntax.Token.within_eq hcursor horigin hwhole he.start hseam.start hle).2,
      (Syntax.Token.within_eq he.start hseam.origin hseam.start he.stop hseam.stop he.le).2,
      ← Syntax.Token.filter_from he.stop horigin' hseam.stop, List.filter_append,
      List.filter_append, List.map_append, List.map_append, hfront, hmore, around,
      List.append_assoc]

/-- What the edits put in holds no character out of place. -/
private theorem Neat.known (he : Neat s e) : ∀ x ∈ signs e.text.toList, x.1 ≠ .unknown := by
  intro x hx
  obtain ⟨t, ht, rfl⟩ := List.mem_map.mp hx
  cases he with
  | removal htext => simp [htext, Syntax.Token.readFrom_nil] at ht
  | insertion _ hlegible => exact hlegible.known t ht
  | @naming rest htext hname =>
    have hidentifier : Text.IsIdentifier ('_' :: 'i' :: rest) :=
      ⟨'_', 'i' :: rest, rfl, by decide +kernel, List.forall_mem_cons.mpr
        ⟨by decide +kernel, hname⟩⟩
    have hsign := List.mem_map_of_mem (f := sign) ht
    rw [htext, ← signs, Syntax.Token.signs_word hidentifier] at hsign
    rw [List.mem_singleton.mp hsign]
    simp

/-! ### The whole text -/

private theorem around_origin (place : Edit → List (Lexeme × String)) (es : List Edit) :
    around (readAll s) place 0 es = around (readAll s) place (Syntax.Token.origin s) es := by
  have hle : ∀ t ∈ readAll s, Syntax.Token.origin s ≤ t.start := fun t ht =>
    Syntax.Token.origin_le_start ht
  cases es with
  | nil =>
    rw [around, around, List.filter_congr fun t ht => ?_]
    rw [decide_eq_true (Nat.zero_le _), decide_eq_true (hle t ht)]
  | cons e es =>
    rw [around, around, Syntax.Token.within, Syntax.Token.within, List.filter_congr fun t ht => ?_]
    rw [decide_eq_true (Nat.zero_le _), decide_eq_true (hle t ht)]

private theorem scan_mark (rest : List Char) :
    (Syntax.Token.scan '\ufeff' rest).1 = some .unknown := by
  have hforeign : Foreign '\ufeff' := by constructor <;> decide
  have hidentifier : Text.isIdentifierStart '\ufeff' = false := by decide +kernel
  have hsymbol : Syntax.Token.isSymbol '\ufeff' = false := by decide
  unfold Syntax.Token.scan Syntax.Token.scanMark
  rw [Syntax.Token.number?_eq_none hforeign, hidentifier, hsymbol]
  rfl

/-- The tokens of a text with edits are those that the edits leave, with those of their texts. -/
theorem map_sign_readAll (hnull : '\x00' ∉ s.toList) (hclosed : ¬Unclosed (readAll s))
    (hknown : ∀ t ∈ readAll s, t.lexeme ≠ .unknown) (hside : SideBySide s 0 es)
    (hfits : ∀ e ∈ es, Fits s e) (hneat : ∀ e ∈ es, Neat s e) (hseams : ∀ e ∈ es, OnSeams s e)
    (hunglued : Unglued s [] 0 es) :
    (readAll (splice s 0 es)).map sign =
      around (readAll s) (fun e => signs e.text.toList) 0 es := by
  have hwhole : ∀ pos ≤ Syntax.Token.origin s, Whole (readAll s) pos := fun pos hpos t ht =>
    ⟨hknown t ht, .inr (hpos.trans (Syntax.Token.origin_le_start ht))⟩
  by_cases hmark : s.toList.head? = some '\ufeff'
  · have horigin : Syntax.Token.origin s = 3 := if_pos hmark
    obtain ⟨rest, hs⟩ := List.head?_eq_some_iff.mp hmark
    have hthree : Boundary s 3 := ⟨['\ufeff'], rest, hs, rfl⟩
    have hbehind : SideBySide s 3 es := hside.mono fun e he => horigin ▸ (hseams e he).origin
    have hslice : (Text.slice s 0 3).toList = ['\ufeff'] :=
      @slice_middle s [] ['\ufeff'] rest hs
    have hunglued' : Unglued s ['\ufeff'] 3 es := by
      cases es with
      | nil => trivial
      | cons e es =>
        have hle := (hbehind.bounds e (List.mem_cons_self ..)).1
        rw [Unglued, Text.slice_append (Text.boundary_zero s) hthree
          (hfits e (List.mem_cons_self ..)).start (Nat.zero_le _) hle, hslice] at hunglued
        exact hunglued
    have hsplice := splice_of_le hbehind hfits (Text.boundary_zero s) hthree (Nat.zero_le _)
    rw [hsplice, Syntax.Token.readAll_of_mark (by rw [String.toList_append, hslice]; rfl),
      Syntax.Token.map_sign_readFrom, around_origin, horigin]
    exact signs_splice hnull hclosed hthree horigin.le (hwhole 3 horigin.ge) hbehind hfits hneat
      hseams hunglued'
  · have horigin : Syntax.Token.origin s ≤ 0 := by rw [Syntax.Token.origin, if_neg hmark]
    have hread := signs_splice hnull hclosed (Text.boundary_zero s) horigin
      (hwhole 0 (Nat.zero_le _)) hside hfits hneat hseams hunglued
    suffices hhead : (splice s 0 es).toList.head? ≠ some '\ufeff' by
      rw [Syntax.Token.readAll_of_head? hhead, Syntax.Token.map_sign_readFrom, hread]
    intro hhead
    -- A mark is out of place as a token, but it stands neither in the text nor in what is put in.
    obtain ⟨rest, hrest⟩ := List.head?_eq_some_iff.mp hhead
    obtain ⟨t, ht, hunknown, _⟩ := @Syntax.Token.exists_mem_of_scan 0 '\ufeff' rest .unknown
      (scan_mark rest)
    have hmem : sign t ∈ around (readAll s) (fun e => signs e.text.toList) 0 es := by
      rw [← hread, hrest]
      exact List.mem_map_of_mem ht
    rcases mem_around hside hmem with ⟨u, hu, hsame, _⟩ | ⟨e, he, hx⟩
    · exact hknown u hu ((congrArg Prod.fst hsame).trans hunknown)
    · exact (hneat e he).known _ hx hunknown

/-- The tokens of a text but those that only edits hold stand around the edits, with what the edits
hold in their places. -/
theorem map_sign_filter {p : Token → Bool} (hknown : ∀ t ∈ readAll s, t.lexeme ≠ .unknown)
    (hside : SideBySide s 0 es) (hfits : ∀ e ∈ es, Fits s e) (hseams : ∀ e ∈ es, OnSeams s e)
    (hp : ∀ t ∈ readAll s, p t = false → ∃ e ∈ es, e.start ≤ t.start ∧ t.stop ≤ e.stop) :
    ((readAll s).filter p).map sign =
      around (readAll s) (fun e => ((Syntax.Token.within (readAll s) e.start e.stop).filter p).map
        sign) 0 es := by
  have hwhole : Whole (readAll s) (Syntax.Token.origin s) := fun t ht =>
    ⟨hknown t ht, .inr (Syntax.Token.origin_le_start ht)⟩
  have hall : (readAll s).filter (Syntax.Token.origin s ≤ ·.start) = readAll s :=
    List.filter_eq_self.mpr fun t ht => decide_eq_true (Syntax.Token.origin_le_start ht)
  have hfrom := map_sign_filter_from (hside.mono fun e he => (hseams e he).origin) hfits hseams
    (Syntax.Token.boundary_origin s) (Nat.le_refl _) hwhole fun t ht _ => hp t ht
  rw [hall] at hfrom
  rw [around_origin, hfrom]

end Edit

end GoContracts

import GoContracts.Proofs.Syntax.Tokens
import GoContracts.Proofs.Text.Positions

/-!
# The ends of tokens

Names, literals and symbols begin and end with characters that are no blanks. A comment begins with
a slash, and holds no newline or ends with a slash.
-/

namespace GoContracts.Syntax.Token

open Text (CharAt Boundary Between isBlank)

variable {pos : Nat} {c d : Char} {cs rest : List Char} {t : Token}

/-! ### Blanks -/

/-- The blanks. -/
def blanks : List Char :=
  [9, 10, 11, 12, 13, 32, 0x85, 0xA0, 0x1680, 0x2000, 0x2001, 0x2002, 0x2003, 0x2004, 0x2005,
    0x2006, 0x2007, 0x2008, 0x2009, 0x200A, 0x2028, 0x2029, 0x202F, 0x205F, 0x3000].map Char.ofNat

private theorem mem_blanks (h : isBlank c = true) : c ∈ blanks := by
  have hc : c = Char.ofNat c.toNat := by rw [Char.ofNat_toNat]
  rw [hc]
  refine List.mem_map_of_mem ?_
  simp only [isBlank, Bool.or_eq_true, Bool.and_eq_true, decide_eq_true_eq] at h
  simp only [List.mem_cons, List.not_mem_nil, or_false]
  omega

/-- A blank is no part of an identifier. -/
theorem isIdentifierPart_of_isBlank (h : isBlank c = true) : Text.isIdentifierPart c = false := by
  have hall : blanks.all (!Text.isIdentifierPart ·) = true := by decide +kernel
  simpa using List.all_eq_true.mp hall c (mem_blanks h)

/-- A blank is part of no number. -/
theorem foreign_of_isBlank (h : isBlank c = true) : Foreign c := by
  have hall : blanks.all (fun d => decide (isHexDigit d = false ∧ d.isDigit = false ∧
      isOctalDigit d = false ∧ isBinaryDigit d = false ∧
      d ∉ ['0', '_', '.', '+', '-', 'x', 'X', 'b', 'B', 'o', 'O', 'e', 'E', 'p', 'P', 'i'])) =
        true := by
    decide +kernel
  obtain ⟨hhex, hdigit, hoctal, hbinary, hmark⟩ :=
    of_decide_eq_true (List.all_eq_true.mp hall c (mem_blanks h))
  exact ⟨hhex, hdigit, hoctal, hbinary, hmark⟩

/-- A blank is no symbol and no part of one. -/
theorem notMem_marks_of_isBlank (h : isBlank c = true) : c ∉ marks ∧ isSymbol c = false := by
  have hall : blanks.all (fun d => decide (d ∉ marks ∧ isSymbol d = false)) = true := by
    decide +kernel
  exact of_decide_eq_true (List.all_eq_true.mp hall c (mem_blanks h))

/-! ### One token -/

private theorem number?_pos {x : Lexeme} {n : Nat} (h : number? cs = some (x, n)) : 0 < n := by
  unfold number? at h
  simp only at h
  split_ifs at h with hnone hmost hmore
  all_goals
    obtain ⟨_, rfl⟩ := Prod.mk.inj (Option.some.inj h)
    simp only [Bool.and_eq_true, decide_eq_true_eq] at hnone hmost
    omega

/-- No number begins with a character that is foreign to numbers. -/
theorem number?_eq_none (h : Foreign c) (cs : List Char) : number? (c :: cs) = none := by
  by_contra hne
  obtain ⟨⟨x, n⟩, hn⟩ := Option.ne_none_iff_exists'.mp hne
  obtain ⟨k, rfl⟩ := Nat.exists_eq_succ_of_ne_zero (Nat.pos_iff_ne_zero.mp (number?_pos hn))
  exact notMem_number? hn h (by simp)

/-- A slash is part of no number. -/
theorem foreign_slash : Foreign '/' := by constructor <;> decide

/-- A blank is no part of a longer token. -/
theorem scan_of_isBlank (h : isBlank c = true) (cs : List Char) : (scan c cs).2 = 0 ∧
    ∀ x, (scan c cs).1 = some x → (x = .newline ∧ c = '\n') ∨ x = .unknown := by
  obtain ⟨hmarks, hsymbol⟩ := notMem_marks_of_isBlank h
  have hnumber := number?_eq_none (foreign_of_isBlank h) cs
  have hstart : Text.isIdentifierStart c = false := by
    by_contra hs
    have := Text.isIdentifierPart_of_isIdentifierStart (Bool.not_eq_false _ ▸ hs)
    simp [isIdentifierPart_of_isBlank h] at this
  have hmark : scanMark c cs = (.unknown, 0) := by
    simp only [marks, List.mem_cons, List.not_mem_nil, or_false, not_or] at hmarks
    unfold scanMark
    simp [hmarks, hsymbol]
  unfold scan
  rw [hstart, hnumber, hmark]
  split_ifs <;> simp_all

/-- A literal that reaches up to a mark ends with it. -/
def Closes (mark : Char) (f : List Char → Option Nat) : Prop :=
  ∀ cs n, f cs = some n → ∃ inner, cs.take n = inner ++ [mark]

/-- A string is closed by its quote. -/
theorem closes_stringLength? (k : Nat) : Closes '"' (stringLength? k) := by
  intro cs n h
  fun_induction stringLength? k cs generalizing n with
  | case1 => simp at h
  | case2 k c cs hc ih =>
    obtain ⟨m, hm, rfl⟩ := Option.map_eq_some_iff.mp h
    obtain ⟨inner, hinner⟩ := ih m hm
    exact ⟨c :: inner, by rw [List.take_succ_cons, hinner, List.cons_append]⟩
  | case3 => simp at h
  | case4 => simp at h
  | case5 c cs hc ih =>
    obtain ⟨m, hm, rfl⟩ := Option.map_eq_some_iff.mp h
    obtain ⟨inner, hinner⟩ := ih m hm
    exact ⟨'\\' :: c :: inner, by
      rw [List.take_succ_cons, List.take_succ_cons, hinner, List.cons_append, List.cons_append]⟩
  | case6 cs =>
    obtain rfl := Option.some.inj h
    exact ⟨[], by simp⟩
  | case7 => simp at h
  | case8 c cs _ _ _ ih =>
    obtain ⟨m, hm, rfl⟩ := Option.map_eq_some_iff.mp h
    obtain ⟨inner, hinner⟩ := ih m hm
    exact ⟨c :: inner, by rw [List.take_succ_cons, hinner, List.cons_append]⟩

/-- A literal is closed by its mark. -/
theorem closes_untilLength? (mark : Char) : Closes mark (untilLength? mark) := by
  intro cs n h
  induction cs generalizing n with
  | nil => simp [untilLength?] at h
  | cons c cs ih =>
    unfold untilLength? at h
    split_ifs at h with hc
    · obtain rfl := Option.some.inj h
      exact ⟨[], by simp [hc]⟩
    · obtain ⟨m, hm, rfl⟩ := Option.map_eq_some_iff.mp h
      obtain ⟨inner, hinner⟩ := ih m hm
      exact ⟨c :: inner, by rw [List.take_succ_cons, hinner, List.cons_append]⟩

/-- A rune is closed by its quote. -/
theorem closes_runeLength? : Closes '\'' runeLength? := by
  intro cs n h
  have hescape : ∀ (k : Nat) (c : Char) (cs : List Char), (cs.drop k).head? = some '\'' →
      ∃ inner, ('\\' :: c :: cs).take (k + 3) = inner ++ ['\''] := by
    intro k c cs hk
    refine ⟨'\\' :: c :: cs.take k, ?_⟩
    rw [List.take_succ_cons, List.take_succ_cons, List.take_add_one, ← List.head?_drop, hk]
    rfl
  unfold runeLength? at h
  split at h
  · next c cs =>
    simp only at h
    split_ifs at h with _ h1 _ h2 _ h3
    · obtain rfl := Option.some.inj h
      exact hescape 2 c cs (of_decide_eq_true (Bool.and_eq_true_iff.mp h1).2)
    · obtain rfl := Option.some.inj h
      exact hescape _ c cs (of_decide_eq_true (Bool.and_eq_true_iff.mp h2).2)
    · obtain rfl := Option.some.inj h
      exact hescape 0 c cs (of_decide_eq_true (Bool.and_eq_true_iff.mp h3).2)
  · next c _ _ =>
    split_ifs at h
    obtain rfl := Option.some.inj h
    exact ⟨[c], rfl⟩
  · simp at h

/-- A comment is closed by its slash. -/
theorem closes_blockLength? : Closes '/' blockLength? := by
  intro cs n h
  fun_induction blockLength? cs generalizing n with
  | case1 =>
    obtain rfl := Option.some.inj h
    exact ⟨['*'], rfl⟩
  | case2 => simp at h
  | case3 c cs _ _ ih =>
    obtain ⟨m, hm, rfl⟩ := Option.map_eq_some_iff.mp h
    obtain ⟨inner, hinner⟩ := ih m hm
    exact ⟨c :: inner, by rw [List.take_succ_cons, hinner, List.cons_append]⟩
  | case4 => simp at h

/-- Whether a token is a name, a literal or a symbol. -/
def IsSolid (t : Token) : Prop :=
  t.lexeme ≠ .newline ∧ t.lexeme ≠ .comment ∧ t.lexeme ≠ .unknown

/-- The token at the front of a text, by its class. -/
theorem front?_eq_some (h : front? pos c cs = some t) : (scan c cs).1 = some t.lexeme ∧
    t.start = pos ∧ t.stop = pos + Text.byteLength (c :: cs.take (scan c cs).2) := by
  obtain ⟨x, hx, rfl⟩ := Option.map_eq_some_iff.mp h
  exact ⟨hx, rfl, rfl⟩

/-- A token begins with a character that is no blank, unless it is a newline or out of place. -/
theorem isBlank_front (h : front? pos c cs = some t) (hnew : t.lexeme ≠ .newline)
    (hknown : t.lexeme ≠ .unknown) : isBlank c = false := by
  by_contra hblank
  rcases (scan_of_isBlank (Bool.not_eq_false _ ▸ hblank) cs).2 _ (front?_eq_some h).1 with hx | hx
  · exact hnew hx.1
  · exact hknown hx

private theorem last_closed {x : Lexeme} {mark : Char} {f : List Char → Option Nat}
    (hf : Closes mark f) (hx : (closed x (f cs)).1 ≠ .unknown) :
    ∃ inner, c :: cs.take (closed x (f cs)).2 = inner ++ [mark] := by
  unfold closed at hx ⊢
  cases hcs : f cs with
  | none => simp [hcs] at hx
  | some n =>
    obtain ⟨inner, hinner⟩ := hf cs n hcs
    exact ⟨c :: inner, by simp [hinner]⟩

private theorem last_scanMark (hc : isBlank c = false) (hx : (scanMark c cs).1 ≠ .unknown)
    (hcomment : (scanMark c cs).1 ≠ .comment) :
    ∃ inner d, c :: cs.take (scanMark c cs).2 = inner ++ [d] ∧ isBlank d = false := by
  unfold scanMark at hx hcomment ⊢
  by_cases hquote : c = '"'
  · rw [if_pos hquote] at hx ⊢
    obtain ⟨inner, hinner⟩ := last_closed (closes_stringLength? 0) hx
    exact ⟨inner, _, hinner, by decide⟩
  rw [if_neg hquote] at hx hcomment ⊢
  by_cases hraw : c = '`'
  · rw [if_pos hraw] at hx ⊢
    obtain ⟨inner, hinner⟩ := last_closed (closes_untilLength? '`') hx
    exact ⟨inner, _, hinner, by decide⟩
  rw [if_neg hraw] at hx hcomment ⊢
  by_cases hrune : c = '\''
  · rw [if_pos hrune] at hx ⊢
    obtain ⟨inner, hinner⟩ := last_closed closes_runeLength? hx
    exact ⟨inner, _, hinner, by decide⟩
  rw [if_neg hrune] at hx hcomment ⊢
  split
  · next n hn =>
    rw [hn] at hcomment
    simp at hcomment
  · exact ⟨[], c, by simp, hc⟩

/-- A name, literal or symbol ends with a character that is no blank. -/
theorem isBlank_last (h : front? pos c cs = some t) (hsolid : t.IsSolid) :
    ∃ inner d, c :: cs.take (scan c cs).2 = inner ++ [d] ∧ isBlank d = false := by
  obtain ⟨hnew, hcomment, hknown⟩ := hsolid
  have hc := isBlank_front h hnew hknown
  obtain ⟨hx, _, _⟩ := front?_eq_some h
  have hall : (∀ d ∈ c :: cs.take (scan c cs).2, isBlank d = false) →
      ∃ inner d, c :: cs.take (scan c cs).2 = inner ++ [d] ∧ isBlank d = false := by
    intro hd
    obtain hnil | ⟨inner, d, hinner⟩ := List.eq_nil_or_concat (c :: cs.take (scan c cs).2)
    · simp at hnil
    · rw [List.concat_eq_append] at hinner
      exact ⟨inner, d, hinner, hd d (by simp [hinner])⟩
  unfold scan at hx hall ⊢
  by_cases hgap : isGap c = true
  · simp [hgap] at hx
  rw [if_neg hgap] at hx hall ⊢
  by_cases hline : c = '\n'
  · rw [if_pos hline] at hx
    exact absurd (Option.some.inj hx).symm hnew
  rw [if_neg hline] at hx hall ⊢
  by_cases hword : Text.isIdentifierStart c = true
  · rw [if_pos hword] at hall ⊢
    refine hall (List.forall_mem_cons.mpr ⟨hc, fun d hd => ?_⟩)
    by_contra hblank
    have hpart := isIdentifierPart_of_isBlank (Bool.not_eq_false _ ▸ hblank)
    rw [← List.prefix_iff_eq_take.mp (List.takeWhile_prefix _)] at hd
    have hd' := List.all_eq_true.mp List.all_takeWhile d hd
    simp [hpart] at hd'
  rw [if_neg hword] at hx hall ⊢
  cases hnumber : number? (c :: cs) with
  | some xn =>
    obtain ⟨x, n⟩ := xn
    obtain ⟨k, rfl⟩ := Nat.exists_eq_succ_of_ne_zero (Nat.pos_iff_ne_zero.mp (number?_pos hnumber))
    rw [hnumber] at hall
    refine hall fun d hd => ?_
    by_contra hblank
    exact notMem_number? hnumber (foreign_of_isBlank (Bool.not_eq_false _ ▸ hblank))
      (by simpa using hd)
  | none =>
    rw [hnumber] at hx
    obtain hx := Option.some.inj hx
    exact last_scanMark hc (hx ▸ hknown) (hx ▸ hcomment)

private theorem commentLength?_cases {n : Nat} (h : commentLength? cs = some n) :
    (∃ more, cs = '/' :: more ∧
      n = (more.takeWhile fun c => c != '\n' && !isNull c).length + 1) ∨
    ∃ more inner, cs = '*' :: more ∧ cs.take n = inner ++ ['/'] := by
  unfold commentLength? at h
  split at h
  · next more =>
    exact .inl ⟨more, rfl, (Option.some.inj h).symm⟩
  · next more =>
    obtain ⟨m, hm, rfl⟩ := Option.map_eq_some_iff.mp h
    obtain ⟨inner, hinner⟩ := closes_blockLength? more m hm
    exact .inr ⟨more, '*' :: inner, rfl, by simp [hinner]⟩
  · simp at h

/-- A comment reaches to the end of its line or to its closing mark. -/
theorem comment_cases (h : front? pos c cs = some t) (hcomment : t.lexeme = .comment) :
    c = '/' ∧ ((∃ more, cs = '/' :: more ∧
        (scan c cs).2 = (more.takeWhile fun c => c != '\n' && !isNull c).length + 1) ∨
      ∃ more inner, cs = '*' :: more ∧ cs.take (scan c cs).2 = inner ++ ['/']) := by
  obtain ⟨hx, _, _⟩ := front?_eq_some h
  rw [hcomment] at hx
  have hnumber : ∀ {y : Lexeme} {n : Nat}, number? (c :: cs) = some (y, n) → y ≠ .comment := by
    intro y n hn
    unfold number? at hn
    simp only at hn
    split_ifs at hn
    all_goals
      obtain ⟨rfl, _⟩ := Prod.mk.inj (Option.some.inj hn)
      simp
  have hclosed : ∀ {y : Lexeme} (n? : Option Nat), y ≠ .comment → (closed y n?).1 ≠ .comment := by
    intro y n? hy
    unfold closed
    cases n? <;> simp [hy]
  unfold scan at hx ⊢
  by_cases hgap : isGap c = true
  · simp [hgap] at hx
  by_cases hline : c = '\n'
  · simp [hline, isGap] at hx
  by_cases hword : Text.isIdentifierStart c = true
  · simp [hgap, hline, hword] at hx
  rw [if_neg hgap, if_neg hline, if_neg hword] at hx ⊢
  cases hn : number? (c :: cs) with
  | some xn =>
    rw [hn] at hx
    exact absurd (Option.some.inj hx) (hnumber hn)
  | none =>
  rw [hn] at hx
  obtain hx := Option.some.inj hx
  unfold scanMark at hx ⊢
  by_cases hquote : c = '"'
  · rw [if_pos hquote] at hx
    exact absurd hx (hclosed _ (by simp))
  by_cases hraw : c = '`'
  · rw [if_neg hquote, if_pos hraw] at hx
    exact absurd hx (hclosed _ (by simp))
  by_cases hrune : c = '\''
  · rw [if_neg hquote, if_neg hraw, if_pos hrune] at hx
    exact absurd hx (hclosed _ (by simp))
  rw [if_neg hquote, if_neg hraw, if_neg hrune] at hx ⊢
  cases hlength : (if c = '/' then commentLength? cs else none) with
  | none =>
    rw [hlength] at hx
    by_cases hsymbol : isSymbol c = true
    · simp [hsymbol] at hx
    · simp [hsymbol] at hx
  | some n =>
    have hslash : c = '/' := by
      by_contra hne
      simp [hne] at hlength
    refine ⟨hslash, ?_⟩
    rw [if_pos hslash] at hlength
    exact commentLength?_cases hlength

/-- Two slashes begin a comment. -/
theorem lexeme_of_slashes (h : front? pos '/' ('/' :: rest) = some t) : t.lexeme = .comment := by
  have hscan : (scan '/' ('/' :: rest)).1 = some .comment := by
    have hnumber := number?_eq_none foreign_slash ('/' :: rest)
    unfold scan
    rw [hnumber]
    rfl
  exact (Option.some.inj ((front?_eq_some h).1.symm.trans hscan))

/-! ### Tokens of a text -/

variable {s : String}

/-- A token stands at the front of the text that begins with it. -/
theorem exists_front (h : t ∈ readFrom pos cs) : ∃ a c rest, cs = a ++ c :: rest ∧
    t.start = pos + Text.byteLength a ∧ front? t.start c rest = some t := by
  induction pos, cs using readFrom_induction with
  | nil pos => simp [readFrom_nil] at h
  | cons pos c cs ih =>
    rw [readFrom_cons, List.mem_append] at h
    rcases h with h | h
    · have hfront := Option.mem_toList.mp h
      have hstart := (front?_eq_some hfront).2.1
      exact ⟨[], c, cs, rfl, hstart, hstart ▸ hfront⟩
    · obtain ⟨a, d, rest, hcs, hstart, hfront⟩ := ih h
      refine ⟨c :: cs.take (scan c cs).2 ++ a, d, rest, ?_, ?_, hfront⟩
      · rw [List.append_assoc, ← hcs, front_append]
      · rw [hstart, Text.byteLength_append]
        omega

/-- Each token of a text is the one that its first character begins. -/
theorem exists_front_readAll (h : t ∈ readAll s) : ∃ a c rest, s.toList = a ++ c :: rest ∧
    Text.byteLength a = t.start ∧ front? t.start c rest = some t := by
  rw [readAll, Text.chars_eq] at h
  split at h
  · next cs hcs =>
    obtain ⟨a, c, rest, rfl, hstart, hfront⟩ := exists_front h
    have hmark : Char.utf8Size '\ufeff' = 3 := rfl
    exact ⟨'\ufeff' :: a, c, rest, hcs, by rw [Text.byteLength_cons]; omega, hfront⟩
  · obtain ⟨a, c, rest, hcs, hstart, hfront⟩ := exists_front h
    exact ⟨a, c, rest, hcs, by omega, hfront⟩

/-- A token begins and ends at a boundary. -/
theorem boundaries (h : t ∈ readAll s) : Boundary s t.start ∧ Boundary s t.stop := by
  obtain ⟨a, c, rest, hs, hstart, hfront⟩ := exists_front_readAll h
  obtain ⟨_, _, hstop⟩ := front?_eq_some hfront
  refine ⟨⟨a, c :: rest, hs, hstart⟩, a ++ (c :: rest.take (scan c rest).2),
    rest.drop (scan c rest).2, ?_, ?_⟩
  · rw [List.append_assoc, front_append, hs]
  · rw [Text.byteLength_append, hstop, hstart]

/-- A token begins what stands behind its place. -/
theorem readFrom_behind (h : t ∈ readAll s) : readFrom t.start (Text.behind s t.start) =
    t :: readFrom t.stop (Text.behind s t.stop) := by
  obtain ⟨a, c, rest, hs, hstart, hfront⟩ := exists_front_readAll h
  have hstop := (front?_eq_some hfront).2.2
  have hrest : s.toList = a ++ (c :: rest.take (scan c rest).2) ++ rest.drop (scan c rest).2 := by
    rw [List.append_assoc, front_append, hs]
  have hbehind := Text.behind_eq hrest
  rw [Text.byteLength_append, hstart, ← hstop] at hbehind
  rw [← hstart, Text.behind_eq hs, hstart, readFrom_cons, hfront, hbehind, ← hstop]
  rfl

/-- The text of a token stands in its place. -/
theorem text_eq (h : t ∈ readAll s) : t.text = Text.slice s t.start t.stop := by
  obtain ⟨a, c, rest, hs, hstart, hfront⟩ := exists_front_readAll h
  obtain ⟨_, _, hstop⟩ := front?_eq_some hfront
  have htext : t.text = String.ofList (c :: rest.take (scan c rest).2) := by
    obtain ⟨x, _, ht⟩ := Option.map_eq_some_iff.mp hfront
    exact (congrArg Token.text ht).symm
  have hslice := Text.slice_ofList a (c :: rest.take (scan c rest).2) (rest.drop (scan c rest).2)
  rw [List.append_assoc, front_append, ← hs, String.ofList_toList, hstart, ← hstop] at hslice
  rw [htext, hslice]

/-- A name, literal, symbol or comment begins with no blank. -/
theorem charAt_start (h : t ∈ readAll s) (hnew : t.lexeme ≠ .newline)
    (hknown : t.lexeme ≠ .unknown) : ∃ c, CharAt s t.start c ∧ isBlank c = false := by
  obtain ⟨a, c, rest, hs, hstart, hfront⟩ := exists_front_readAll h
  exact ⟨c, ⟨a, rest, hs, hstart⟩, isBlank_front hfront hnew hknown⟩

/-- A token that begins with a blank is that blank. -/
theorem stop_of_isBlank (h : t ∈ readAll s) (hc : CharAt s t.start c) (hblank : isBlank c = true) :
    t.stop = t.start + c.utf8Size := by
  obtain ⟨a, d, rest, hs, hstart, hfront⟩ := exists_front_readAll h
  obtain rfl : d = c := CharAt.unique ⟨a, rest, hs, hstart⟩ hc
  rw [(front?_eq_some hfront).2.2, (scan_of_isBlank hblank rest).1]
  simp

/-- A name, literal or symbol ends with no blank. -/
theorem charAt_last (h : t ∈ readAll s) (hsolid : t.IsSolid) :
    ∃ last d, CharAt s last d ∧ last + d.utf8Size = t.stop ∧ t.start ≤ last ∧
      isBlank d = false := by
  obtain ⟨a, c, rest, hs, hstart, hfront⟩ := exists_front_readAll h
  obtain ⟨inner, d, hlast, hd⟩ := isBlank_last hfront hsolid
  obtain ⟨_, _, hstop⟩ := front?_eq_some hfront
  refine ⟨t.start + Text.byteLength inner, d,
    ⟨a ++ inner, rest.drop (scan c rest).2, ?_, by rw [Text.byteLength_append, hstart]⟩, ?_,
    Nat.le_add_right _ _, hd⟩
  · have hcut := front_append c rest
    rw [hlast] at hcut
    rw [hs, ← hcut]
    simp
  · rw [hlast, Text.byteLength_append, Text.byteLength_cons, Text.byteLength_nil] at hstop
    omega

/-- The token of a newline is the one character. -/
theorem charAt_newline (h : t ∈ readAll s) (hnew : t.lexeme = .newline) :
    CharAt s t.start '\n' ∧ t.stop = t.start + Char.utf8Size '\n' := by
  obtain ⟨a, c, rest, hs, hstart, hfront⟩ := exists_front_readAll h
  obtain ⟨hx, _, _⟩ := front?_eq_some hfront
  have hat : CharAt s t.start c := ⟨a, rest, hs, hstart⟩
  rw [hnew] at hx
  have hblank : isBlank c = true := by
    rcases scan_cases c rest with ⟨hblank, _⟩ | ⟨x, n, hscan, hne, _⟩
    · exact hblank
    · rw [hscan] at hx
      exact absurd (Option.some.inj hx) hne
  obtain ⟨_, rfl⟩ := ((scan_of_isBlank hblank rest).2 _ hx).resolve_right (by simp)
  exact ⟨hat, stop_of_isBlank h hat (by decide)⟩

/-- A symbol is one character of the text. -/
theorem charAt_symbol {d : Char} (h : t ∈ readAll s) (hsymbol : t.lexeme = .symbol d) :
    CharAt s t.start d ∧ t.stop = t.start + d.utf8Size := by
  obtain ⟨a, c, rest, hs, hstart, hfront⟩ := exists_front_readAll h
  obtain ⟨hx, _, hstop⟩ := front?_eq_some hfront
  rcases scan_cases c rest with ⟨_, hscan | hscan⟩ | ⟨y, n, hscan, _, hone⟩
  · simp [hscan] at hx
  · simp [hscan, hsymbol] at hx
  · rw [hscan, Option.some.injEq, hsymbol] at hx
    obtain ⟨rfl, rfl⟩ := hone d hx
    exact ⟨⟨a, rest, hs, hstart⟩, by simpa [hscan] using hstop⟩

/-- A comment begins with a slash. It is what is left of a line or ends with a slash. -/
theorem charAt_comment (h : t ∈ readAll s) (hcomment : t.lexeme = .comment) :
    CharAt s t.start '/' ∧
      ((Between s t.start t.stop (· ≠ '\n') ∧
        (t.stop = Text.size s ∨ CharAt s t.stop '\n' ∨ CharAt s t.stop '\x00')) ∨
      CharAt s (t.start + 1) '*' ∧ ∃ last, CharAt s last '/' ∧ last + 1 = t.stop ∧
        t.start < last) := by
  obtain ⟨a, c, rest, hs, hstart, hfront⟩ := exists_front_readAll h
  obtain ⟨_, _, hstop⟩ := front?_eq_some hfront
  obtain ⟨rfl, hkind⟩ := comment_cases hfront hcomment
  refine ⟨⟨a, rest, hs, hstart⟩, ?_⟩
  rcases hkind with ⟨more, rfl, htake⟩ | ⟨more, inner, rfl, htake⟩
  · refine .inl ?_
    have htaken : ('/' :: more).take (scan '/' ('/' :: more)).2 =
        '/' :: more.takeWhile fun c => c != '\n' && !isNull c := by
      rw [htake, List.take_succ_cons]
      congr 1
      exact (List.prefix_iff_eq_take.mp (List.takeWhile_prefix _)).symm
    have hcut : s.toList = a ++ ('/' :: '/' :: more.takeWhile fun c => c != '\n' && !isNull c) ++
        more.dropWhile fun c => c != '\n' && !isNull c := by
      rw [hs]
      simp [List.takeWhile_append_dropWhile]
    rw [htaken] at hstop
    rw [hstop, ← hstart]
    refine ⟨(Text.between_iff hcut).mpr fun d hd => ?_, ?_⟩
    · rcases List.mem_cons.mp hd with rfl | hd
      · decide
      rcases List.mem_cons.mp hd with rfl | hd
      · decide
      · have hpred := List.all_eq_true.mp List.all_takeWhile d hd
        rw [Bool.and_eq_true, bne_iff_ne] at hpred
        exact hpred.1
    · cases hrest : more.dropWhile fun c => c != '\n' && !isNull c with
      | nil =>
        refine .inl ?_
        rw [Text.size_eq, hcut, hrest, List.append_nil, Text.byteLength_append]
      | cons d rest =>
        have hhead := List.head?_dropWhile_not (fun c => c != '\n' && !isNull c) more
        rw [hrest] at hhead hcut
        have hat : CharAt s (Text.byteLength a + Text.byteLength
            ('/' :: '/' :: more.takeWhile fun c => c != '\n' && !isNull c)) d :=
          ⟨_, rest, hcut, Text.byteLength_append _ _⟩
        by_cases hnew : d = '\n'
        · exact .inr (.inl (hnew ▸ hat))
        · have hnull : d = '\x00' := by simpa [hnew, isNull] using hhead
          exact .inr (.inr (hnull ▸ hat))
  · have hlength : t.stop = t.start + 1 + Text.byteLength inner + 1 := by
      rw [hstop, htake, Text.byteLength_cons, Text.byteLength_append, Text.byteLength_cons]
      have hmark : Char.utf8Size '/' = 1 := rfl
      rw [hmark, Text.byteLength_nil]
      omega
    have hmark : Char.utf8Size '/' = 1 := rfl
    refine .inr ⟨⟨a ++ ['/'], more, by simp [hs], by
        rw [Text.byteLength_append, hstart, Text.byteLength_cons, hmark]
        rfl⟩,
      t.start + 1 + Text.byteLength inner, ⟨a ++ '/' :: inner,
      ('*' :: more).drop (scan '/' ('*' :: more)).2, ?_, ?_⟩, by omega, by omega⟩
    · have hcut := front_append '/' ('*' :: more)
      rw [htake] at hcut
      rw [hs, ← hcut]
      simp
    · rw [Text.byteLength_append, Text.byteLength_cons, hmark, hstart]
      omega

/-- A token that begins with two slashes is a comment. -/
theorem lexeme_of_charAt (h : t ∈ readAll s) (hfirst : CharAt s t.start '/')
    (hsecond : CharAt s (t.start + 1) '/') : t.lexeme = .comment := by
  obtain ⟨a, c, rest, hs, hstart, hfront⟩ := exists_front_readAll h
  obtain rfl : c = '/' := CharAt.unique ⟨a, rest, hs, hstart⟩ hfirst
  obtain ⟨x, y, hs', hx⟩ := hsecond
  have hcut : a ++ ['/'] ++ rest = x ++ '/' :: y := by
    rw [← hs', hs]
    simp
  have hmark : Text.byteLength ['/'] = 1 := rfl
  obtain ⟨m, rfl, hm⟩ := Text.exists_middle hcut (by
    rw [Text.byteLength_append, hmark]
    omega)
  have hnil : m = [] := by
    by_contra hne
    have := Text.byteLength_pos hne
    rw [Text.byteLength_append, Text.byteLength_append, hmark] at hx
    omega
  obtain rfl : rest = '/' :: y := by simpa [hnil] using hm
  exact lexeme_of_slashes hfront

/-- A character that is no gap stands in a token, unless it is the byte order mark. -/
theorem exists_mem_readAll_of_isGap (h : CharAt s pos c) (hgap : isGap c = false)
    (hmark : c ≠ '\ufeff') : ∃ t ∈ readAll s, (t.lexeme = .newline → isBlank c = true) ∧
      t.start ≤ pos ∧ pos < t.stop := by
  obtain ⟨a, b, hs, rfl⟩ := h
  rw [readAll, Text.chars_eq]
  split
  · next cs hcs =>
    cases a with
    | nil =>
      rw [hs] at hcs
      exact absurd (List.cons.inj hcs).1 hmark
    | cons d a =>
      rw [hs] at hcs
      obtain ⟨rfl, rfl⟩ := List.cons.inj hcs
      have hsize : Char.utf8Size '\ufeff' = 3 := rfl
      rw [Text.byteLength_cons, hsize]
      exact exists_mem_of_isGap 3 hgap
  · obtain ⟨t, ht, hnew, hle, hlt⟩ := exists_mem_of_isGap 0 (a := a) (b := b) hgap
    rw [hs]
    exact ⟨t, ht, hnew, by omega, by omega⟩

/-- A character that is no blank stands in a token, unless it is the byte order mark. -/
theorem exists_mem_readAll (h : CharAt s pos c) (hblank : isBlank c = false)
    (hmark : c ≠ '\ufeff') :
    ∃ t ∈ readAll s, t.lexeme ≠ .newline ∧ t.start ≤ pos ∧ pos < t.stop := by
  have hgap : isGap c = false := by
    by_contra hgap
    have := isBlank_of_isGap (Bool.not_eq_false _ ▸ hgap)
    simp [hblank] at this
  obtain ⟨t, ht, hnew, hspan⟩ := exists_mem_readAll_of_isGap h hgap hmark
  exact ⟨t, ht, fun hx => by simp [hnew hx] at hblank, hspan⟩

/-- Two tokens of a text share no character. -/
theorem apart_of_ne {u : Token} (ht : t ∈ readAll s) (hu : u ∈ readAll s) (hne : t ≠ u) :
    t.stop ≤ u.start ∨ u.stop ≤ t.start :=
  List.Pairwise.forall_of_forall_of_flip
    (R := fun a b : Token => a ≠ b → a.stop ≤ b.start ∨ b.stop ≤ a.start)
    (fun _ _ hne => absurd rfl hne) ((ordered_readAll s).2.imp fun hle _ => .inl hle)
    ((ordered_readAll s).2.imp fun hle _ => .inr hle) ht hu hne

/-- No two tokens begin at one place. -/
theorem eq_of_start_eq {u : Token} (ht : t ∈ readAll s) (hu : u ∈ readAll s)
    (h : t.start = u.start) : t = u := by
  by_contra hne
  have := (ordered_readAll s).1 t ht
  have := (ordered_readAll s).1 u hu
  have := apart_of_ne ht hu hne
  omega

end GoContracts.Syntax.Token

import GoContracts.Proofs.Syntax.TokenEnds

/-!
# Cutting and joining texts

A text may be cut where no token is open: its tokens are those of both parts. Another text may take
the place of the second part if the tokens of the first one cannot go on in it.
-/

namespace GoContracts.Syntax.Token

open Text (isBlank)

variable {pos : Nat} {c d : Char} {cs rest x y z : List Char}

/-! ### Literals -/

/-- Whether the length that is found in a text depends only on the characters that it counts. -/
def Steady (f : List Char → Option Nat) : Prop :=
  ∀ cs rest n, n ≤ cs.length → (f (cs ++ rest) = some n ↔ f cs = some n)

private theorem length_pos_of_closes {mark : Char} {f : List Char → Option Nat} (h : Closes mark f)
    {n : Nat}
    (hn : f cs = some n) : 0 < n := by
  obtain ⟨inner, hinner⟩ := h cs n hn
  rcases Nat.eq_zero_or_pos n with rfl | hpos
  · simp at hinner
  · exact hpos

private theorem map_succ_iff (cs : List Char) {a b : Option Nat} {k : Nat}
    (h : ∀ m, m + k ≤ cs.length → (a = some m ↔ b = some m)) {n : Nat} (hn : n ≤ cs.length) :
    a.map (· + k) = some n ↔ b.map (· + k) = some n := by
  simp only [Option.map_eq_some_iff]
  refine exists_congr fun m => and_congr_left fun hm => h m (by omega)

private theorem steady_stringLength? (k : Nat) : Steady (stringLength? k) := by
  intro cs rest n hn
  -- A string that ends is measured by its own characters; one that does not has no length.
  fun_induction stringLength? k cs generalizing n with
  | case1 k =>
    have hzero : n = 0 := Nat.le_zero.mp hn
    simp only [List.nil_append, hzero, reduceCtorEq, iff_false]
    exact fun h => Nat.lt_irrefl 0 (length_pos_of_closes (closes_stringLength? k) h)
  | case2 k c cs hc ih =>
    rw [List.cons_append, stringLength?, if_pos hc]
    exact map_succ_iff (c :: cs) (fun m hm => ih m (Nat.le_of_succ_le_succ hm)) hn
  | case3 k c cs hc => simp [stringLength?, hc]
  | case4 c cs hc => simp [stringLength?, hc]
  | case5 c cs hc ih =>
    simp only [List.cons_append, stringLength?, if_neg hc]
    refine map_succ_iff ('\\' :: c :: cs) (fun m hm => ih m ?_) hn
    simp only [List.length_cons] at hm
    omega
  | case6 cs => simp [stringLength?]
  | case7 c cs hslash hquote hc =>
    by_cases hback : c = '\\'
    · obtain rfl : cs = [] := by
        cases cs with
        | nil => rfl
        | cons d ds => exact (hslash d ds hback rfl).elim
      have hnone : stringLength? 0 ('\\' :: rest) ≠ some n := by
        cases rest with
        | nil => simp [stringLength?]
        | cons e rest =>
          intro h
          simp only [stringLength?] at h
          split_ifs at h
          obtain ⟨m, _, rfl⟩ := Option.map_eq_some_iff.mp h
          simp at hn
      simpa [hback, stringLength?] using hnone
    · have hend : c = '\n' ∨ isNull c = true := by simpa [hback] using hc
      simp [stringLength?, hback, hquote, hend]
  | case8 c cs hslash hquote hc ih =>
    have hplain : ¬(c = '\n' ∨ isNull c = true) ∧ c ≠ '\\' := by
      constructor <;> simp_all
    have hstep : ∀ more, stringLength? 0 (c :: more) = (stringLength? 0 more).map (· + 1) := by
      simp [stringLength?, hplain, hquote]
    rw [List.cons_append, hstep]
    exact map_succ_iff (c :: cs) (fun m hm => ih m (Nat.le_of_succ_le_succ hm)) hn

private theorem steady_untilLength? (mark : Char) : Steady (untilLength? mark) := by
  intro cs rest n hn
  induction cs generalizing n with
  | nil =>
    have hzero : n = 0 := Nat.le_zero.mp hn
    simp only [List.nil_append, hzero, untilLength?, reduceCtorEq, iff_false]
    exact fun h => Nat.lt_irrefl 0 (length_pos_of_closes (closes_untilLength? mark) h)
  | cons c cs ih =>
    rw [List.cons_append, untilLength?, untilLength?]
    split_ifs
    · rfl
    · rfl
    · exact map_succ_iff (c :: cs) (fun m hm => ih m (Nat.le_of_succ_le_succ hm)) hn

/-- The length of a comment does not depend on what stands behind it. -/
theorem steady_blockLength? : Steady blockLength? := by
  intro cs rest n hn
  induction cs generalizing n with
  | nil =>
    have hzero : n = 0 := Nat.le_zero.mp hn
    simp only [List.nil_append, hzero, blockLength?, reduceCtorEq, iff_false]
    exact fun h => Nat.lt_irrefl 0 (length_pos_of_closes closes_blockLength? h)
  | cons c cs ih =>
    rw [List.cons_append]
    by_cases hend : ∃ tail, c = '*' ∧ cs ++ rest = '/' :: tail
    · obtain ⟨tail, rfl, htail⟩ := hend
      cases cs with
      | nil =>
        rw [htail]
        simp only [blockLength?, Option.some.injEq]
        rw [List.length_singleton] at hn
        simp [isNull]
        omega
      | cons d cs =>
        obtain ⟨rfl, _⟩ := List.cons.inj htail
        simp [blockLength?]
    · have hopen : ∀ more, (∀ tail, c = '*' → more = '/' :: tail → False) →
          blockLength? (c :: more) = if isNull c then none else (blockLength? more).map (· + 1) :=
        fun more => blockLength?_cons
      rw [hopen (cs ++ rest) fun tail hstar hslash => hend ⟨tail, hstar, hslash⟩,
        hopen cs fun tail hstar hslash => hend ⟨tail ++ rest, hstar, by rw [hslash]; rfl⟩]
      split_ifs
      · rfl
      · exact map_succ_iff (c :: cs) (fun m hm => ih m (Nat.le_of_succ_le_succ hm)) hn

/-- An escape is read by as many digits as it needs. -/
private theorem escape_steady (k : Nat) (p : Char → Bool) {cs rest : List Char} {n : Nat}
    (hn : n ≤ cs.length + 2) :
    ((if ((cs ++ rest).take k).length = k && ((cs ++ rest).take k).all p &&
        ((cs ++ rest).drop k).head? = some '\'' then some (k + 3) else none) = some n) ↔
      (if (cs.take k).length = k && (cs.take k).all p && (cs.drop k).head? = some '\'' then
        some (k + 3) else none) = some n := by
  by_cases hk : k < cs.length
  · obtain ⟨e, more, hmore⟩ := List.exists_cons_of_ne_nil
      (List.ne_nil_of_length_pos (l := cs.drop k) (by rw [List.length_drop]; omega))
    rw [List.take_append_of_le_length (Nat.le_of_lt hk),
      List.drop_append_of_le_length (Nat.le_of_lt hk), hmore]
    rfl
  · have hne : k + 3 ≠ n := by omega
    simp [hne]

private theorem two_le_runeLength? {n : Nat} (h : runeLength? cs = some n) : 2 ≤ n := by
  unfold runeLength? at h
  split at h
  · simp only at h
    split_ifs at h
    all_goals
      obtain rfl := Option.some.inj h
      omega
  · split_ifs at h
    obtain rfl := Option.some.inj h
    exact Nat.le_refl 2
  · simp at h

private theorem steady_runeLength? : Steady runeLength? := by
  intro cs rest n hn
  match cs with
  | [] =>
    have hzero : n = 0 := Nat.le_zero.mp hn
    simp only [List.nil_append, hzero, runeLength?, reduceCtorEq, iff_false]
    exact fun h => Nat.lt_irrefl 0 (length_pos_of_closes closes_runeLength? h)
  | [c] =>
    have hnone : runeLength? [c] = none := by simp [runeLength?]
    rw [hnone, List.singleton_append]
    simp only [reduceCtorEq, iff_false]
    intro h
    rw [List.length_singleton] at hn
    have htwo := two_le_runeLength? h
    omega
  | c :: d :: cs =>
    by_cases hc : c = '\\'
    · have hescape := fun k p => @escape_steady k p cs rest n hn
      subst hc
      simp only [List.cons_append, runeLength?]
      by_cases hoctal : isOctalDigit d = true
      · simp only [hoctal, if_true]
        exact hescape 2 isOctalDigit
      · simp only [hoctal, Bool.false_eq_true, if_false]
        by_cases hhex : escapeDigits d ≠ 0
        · simp only [hhex, ne_eq, not_false_eq_true, if_true]
          exact hescape (escapeDigits d) isHexDigit
        · simp only [hhex, if_false]
          by_cases hmark : "abfnrtv\\'\"".toList.contains d = true
          · simp only [hmark, if_true]
            exact hescape 0 isHexDigit
          · simp only [hmark, Bool.false_eq_true, if_false]
    · by_cases hd : d = '\''
      · simp [runeLength?, hc, hd]
      · simp [runeLength?, hc, hd]

/-! ### Cutting -/

/-- Cutting a text behind the length that is found in it does not change that length. -/
theorem Steady.eq {f : List Char → Option Nat} (hf : Steady f)
    (hle : ∀ n, f cs = some n → n ≤ cs.length)
    (h : ∀ n, f (cs ++ rest) = some n → n ≤ cs.length) : f (cs ++ rest) = f cs :=
  Option.ext fun n => ⟨fun hn => (hf cs rest n (h n hn)).mp hn,
    fun hn => (hf cs rest n (hle n hn)).mpr hn⟩

/-- What is taken from the first part is taken from it alone. -/
theorem takeWhile_cut {p : Char → Bool}
    (h : ((cs ++ rest).takeWhile p).length ≤ cs.length) :
    (cs ++ rest).takeWhile p = cs.takeWhile p := by
  rw [List.takeWhile_append] at h ⊢
  split_ifs at h ⊢ with hall
  · rw [List.length_append] at h
    have hnil : rest.takeWhile p = [] := List.eq_nil_of_length_eq_zero (by omega)
    rw [hnil, List.append_nil]
    exact ((List.takeWhile_sublist p).eq_of_length hall).symm
  · rfl

private theorem commentLength?_cut (h : ∀ n, commentLength? (cs ++ rest) = some n → n ≤ cs.length) :
    commentLength? (cs ++ rest) = commentLength? cs := by
  match cs with
  | [] =>
    refine Option.eq_none_iff_forall_ne_some.mpr fun n hn => ?_
    have hzero : n = 0 := Nat.le_zero.mp (h n hn)
    rw [List.nil_append] at hn
    unfold commentLength? at hn
    split at hn
    · simp [hzero] at hn
    · simp [hzero] at hn
    · simp at hn
  | c :: cs =>
    rw [List.cons_append] at h ⊢
    by_cases hline : c = '/'
    · subst hline
      have hlength := h _ rfl
      rw [List.length_cons, Nat.add_le_add_iff_right] at hlength
      simp only [commentLength?, takeWhile_cut hlength]
    by_cases hblock : c = '*'
    · subst hblock
      simp only [commentLength?] at h ⊢
      rw [steady_blockLength?.eq (upTo_blockLength?.le cs) fun n hn =>
        Nat.le_of_succ_le_succ (h (n + 1) (by rw [hn]; rfl))]
    · simp [commentLength?, hline, hblock]

private theorem closed_cut {x : Lexeme} {f : List Char → Option Nat} {mark : Char}
    (hf : Steady f) (hup : UpTo mark f) (h : (closed x (f (cs ++ rest))).2 ≤ cs.length) :
    closed x (f (cs ++ rest)) = closed x (f cs) := by
  rw [hf.eq (hup.le cs) fun n hn => by simpa [closed, hn] using h]

private theorem scanMark_cut (h : (scanMark c (cs ++ rest)).2 ≤ cs.length) :
    scanMark c (cs ++ rest) = scanMark c cs := by
  unfold scanMark at h ⊢
  by_cases hquote : c = '"'
  · rw [if_pos hquote] at h ⊢
    rw [if_pos hquote]
    exact closed_cut (steady_stringLength? 0) (upTo_stringLength? 0) h
  rw [if_neg hquote] at h ⊢
  rw [if_neg hquote]
  by_cases hraw : c = '`'
  · rw [if_pos hraw] at h ⊢
    rw [if_pos hraw]
    exact closed_cut (steady_untilLength? '`') (upTo_untilLength? (by decide)) h
  rw [if_neg hraw] at h ⊢
  rw [if_neg hraw]
  by_cases hrune : c = '\''
  · rw [if_pos hrune] at h ⊢
    rw [if_pos hrune]
    exact closed_cut steady_runeLength? upTo_runeLength? h
  rw [if_neg hrune] at h ⊢
  rw [if_neg hrune]
  by_cases hslash : c = '/'
  · rw [if_pos hslash] at h ⊢
    rw [if_pos hslash, commentLength?_cut fun n hn => by simpa [hn] using h]
  · rw [if_neg hslash, if_neg hslash]

/-- A token is found as well in the text that is cut behind it. -/
theorem scan_cut (h : (scan c (cs ++ rest)).2 ≤ cs.length) :
    scan c (cs ++ rest) = scan c cs := by
  unfold scan at h ⊢
  by_cases hgap : isGap c = true
  · rw [if_pos hgap, if_pos hgap]
  rw [if_neg hgap] at h ⊢
  rw [if_neg hgap]
  by_cases hnew : c = '\n'
  · rw [if_pos hnew, if_pos hnew]
  rw [if_neg hnew] at h ⊢
  rw [if_neg hnew]
  by_cases hword : Text.isIdentifierStart c = true
  · rw [if_pos hword] at h ⊢
    rw [if_pos hword, takeWhile_cut h]
  rw [if_neg hword] at h ⊢
  rw [if_neg hword]
  have hnumber : number? (c :: (cs ++ rest)) = number? (c :: cs) := by
    change number? ((c :: cs) ++ rest) = _
    refine number?_cut fun lexeme n hn => ?_
    rw [List.cons_append] at hn
    rw [hn] at h
    exact Nat.le_add_of_sub_le h
  rw [hnumber] at h ⊢
  cases hn : number? (c :: cs) with
  | some _ => rfl
  | none =>
    rw [hn] at h
    rw [scanMark_cut h]

/-! ### Joining -/

/-- Whether a character separates what stands on both sides of it: a blank, a bracket or a mark
between the parts of a list. -/
def separates (c : Char) : Bool := isBlank c || "()[]\x7b\x7d,;".toList.contains c

/-- A character that separates tokens goes on with none. -/
theorem foreign_of_separates (h : separates d = true) : Foreign d ∧
    Text.isIdentifierPart d = false ∧ d ≠ '/' ∧ d ≠ '*' := by
  rw [separates, Bool.or_eq_true] at h
  rcases h with hblank | hmark
  · have hslash := (notMem_marks_of_isBlank hblank).1
    refine ⟨foreign_of_isBlank hblank, isIdentifierPart_of_isBlank hblank, ?_, ?_⟩
    · rintro rfl
      simp [marks] at hslash
    · rintro rfl
      exact absurd hblank (by decide)
  · have hall : "()[]\x7b\x7d,;".toList.all (fun e => decide (isHexDigit e = false ∧
        e.isDigit = false ∧ isOctalDigit e = false ∧ isBinaryDigit e = false ∧
        e ∉ ['0', '_', '.', '+', '-', 'x', 'X', 'b', 'B', 'o', 'O', 'e', 'E', 'p', 'P', 'i'] ∧
        Text.isIdentifierPart e = false ∧ e ≠ '/' ∧ e ≠ '*')) = true := by
      decide +kernel
    obtain ⟨hhex, hdigit, hoctal, hbinary, hnumber, hrest⟩ :=
      of_decide_eq_true (List.all_eq_true.mp hall d (List.contains_iff_mem.mp hmark))
    exact ⟨⟨hhex, hdigit, hoctal, hbinary, hnumber⟩, hrest⟩

/-- Whether a character that separates tokens stands on one side of where two texts meet. -/
def Separate (x y : List Char) : Prop :=
  (∀ d ∈ x.getLast?, separates d = true) ∨ ∀ d ∈ y.head?, separates d = true

/-- Whether no number and no word of `x` goes on in `y`, which stands behind it in the place of
`z`. -/
structure Parted (x z y : List Char) : Prop where
  number : (∀ d ∈ x.getLast?, Foreign d) ∨ Halts y
  word : (∀ d ∈ x.getLast?, Text.isIdentifierPart d = false) ∨
    (∀ d ∈ y.head?, Text.isIdentifierPart d = false) ∨ ∃ d ∈ z.head?, Text.isIdentifierPart d = true

/-- What holds of the last character of a text holds of the last one of its end. -/
theorem forall_getLast?_right {P : Char → Prop} (h : ∀ d ∈ (x ++ cs).getLast?, P d) :
    ∀ d ∈ cs.getLast?, P d := by
  intro d hd
  have hne : cs ≠ [] := by
    rintro rfl
    simp at hd
  exact h d (by rwa [List.getLast?_append_of_ne_nil x hne])

private theorem Separate.right (h : Separate (x ++ cs) y) : Separate cs y :=
  h.imp_left forall_getLast?_right

/-- What is parted behind characters is parted without the first of them. -/
theorem Parted.right (h : Parted (x ++ cs) z y) : Parted cs z y where
  number := h.number.imp_left forall_getLast?_right
  word := h.word.imp_left forall_getLast?_right

private theorem Separate.parted (h : Separate x y) (z : List Char) : Parted x z y := by
  rcases h with hlast | hhead
  · exact ⟨.inl fun d hd => (foreign_of_separates (hlast d hd)).1,
      .inl fun d hd => (foreign_of_separates (hlast d hd)).2.1⟩
  · refine ⟨.inr ?_, .inr (.inl fun d hd => (foreign_of_separates (hhead d hd)).2.1)⟩
    cases y with
    | nil => exact .nil
    | cons d y => exact .foreign (foreign_of_separates (hhead d rfl)).1

/-- Whether the text `y` may stand behind `x` in the place of `z`. A line comment ends at a newline,
and no block comment that is open may end. -/
structure Swaps (x z y : List Char) : Prop where
  line : y.head? = some '\n' ∨ ∃ d, z.head? = some d ∧ d ≠ '\n'
  null : '\x00' ∉ x ++ z
  separate : Separate x y
  unclosed : ¬['*', '/'] <:+: z → ¬['*', '/'] <:+: y

/-- What can be swapped behind characters can be swapped without the first of them. -/
theorem Swaps.right (h : Swaps (x ++ cs) z y) : Swaps cs z y :=
  ⟨h.line, fun hc => h.null (by simp [List.append_assoc, hc]), h.separate.right, h.unclosed⟩

private theorem number?_join (h : Parted (c :: cs) z y) :
    number? (c :: cs ++ y) = number? (c :: cs) := by
  rcases h.number with hlast | hhalts
  · obtain hnil | ⟨inner, d, hinner⟩ := List.eq_nil_or_concat (c :: cs)
    · simp at hnil
    · rw [List.concat_eq_append] at hinner
      have hd := hlast d (by simp [hinner])
      rw [hinner, List.append_assoc, List.singleton_append, number?_append hd inner y,
        number?_append hd inner []]
  · exact number?_halt (c :: cs) hhalts

private theorem takeWhile_join (hc : Text.isIdentifierStart c = true) (h : Parted (c :: cs) z y)
    (hcut : (cs ++ z).takeWhile Text.isIdentifierPart = cs.takeWhile Text.isIdentifierPart) :
    (cs ++ y).takeWhile Text.isIdentifierPart = cs.takeWhile Text.isIdentifierPart := by
  rw [List.takeWhile_append] at hcut ⊢
  split_ifs at hcut ⊢ with hall
  · have hcs : cs.takeWhile Text.isIdentifierPart = cs :=
      (List.takeWhile_sublist _).eq_of_length hall
    suffices hnil : y.takeWhile Text.isIdentifierPart = [] by rw [hnil, hcs, List.append_nil]
    rcases h.word with hlast | hhead | ⟨d, hd, hpart⟩
    · obtain hnil | ⟨inner, d, hinner⟩ := List.eq_nil_or_concat (c :: cs)
      · simp at hnil
      · rw [List.concat_eq_append] at hinner
        have hpart := hlast d (by simp [hinner])
        have hmem : d ∈ c :: cs := by simp [hinner]
        rcases List.mem_cons.mp hmem with rfl | hmem
        · rw [Text.isIdentifierPart_of_isIdentifierStart hc] at hpart
          exact absurd hpart (by decide)
        · rw [← hcs] at hmem
          rw [List.all_eq_true.mp List.all_takeWhile d hmem] at hpart
          exact absurd hpart (by decide)
    · cases y with
      | nil => rfl
      | cons d y => simp [hhead d rfl]
    · obtain ⟨rest, rfl⟩ := List.head?_eq_some_iff.mp hd
      simp [hpart, hcs] at hcut
  · rfl

private theorem closed_join {lexeme : Lexeme} {f : List Char → Option Nat} {mark : Char}
    (hf : Steady f) (hup : UpTo mark f) (h : (closed lexeme (f cs)).1 ≠ .unknown) :
    closed lexeme (f (cs ++ y)) = closed lexeme (f cs) := by
  cases hn : f cs with
  | none => simp [closed, hn] at h
  | some n => rw [(hf cs y n (hup.le cs n hn)).mpr hn]

/-- A block comment has no end if its closing mark does not follow. -/
theorem blockLength?_of_open (h : ¬['*', '/'] <:+: cs) : blockLength? cs = none := by
  induction cs with
  | nil => rfl
  | cons c cs ih =>
    rw [List.infix_cons_iff, not_or] at h
    have hend : ∀ tail, c = '*' → cs = '/' :: tail → False := by
      rintro tail rfl rfl
      exact h.1 ⟨tail, rfl⟩
    rw [blockLength?_cons hend, ih h.2]
    split_ifs <;> rfl

private theorem open_of_blockLength? (hnull : '\x00' ∉ cs) (h : blockLength? cs = none) :
    ¬['*', '/'] <:+: cs := by
  induction cs with
  | nil => simp
  | cons c cs ih =>
    rw [List.mem_cons, not_or] at hnull
    have hc : ¬isNull c = true := by simpa [isNull] using Ne.symm hnull.1
    have hend : ∀ tail, c = '*' → cs = '/' :: tail → False := by
      rintro tail rfl rfl
      simp [blockLength?] at h
    rw [blockLength?_cons hend, if_neg hc, Option.map_eq_none_iff] at h
    rw [List.infix_cons_iff, not_or]
    refine ⟨?_, ih hnull.2 h⟩
    rintro ⟨tail, htail⟩
    obtain ⟨hstar, hslash⟩ := List.cons.inj htail
    exact hend tail hstar.symm hslash.symm

/-- Two parts without the end of a comment have none where they meet. -/
theorem infix_join (hx : ¬['*', '/'] <:+: x) (hy : ¬['*', '/'] <:+: y)
    (h : x.getLast? = some '*' → y.head? ≠ some '/') : ¬['*', '/'] <:+: x ++ y := by
  rintro ⟨a, b, hab⟩
  rw [List.append_assoc] at hab
  rcases List.append_eq_append_iff.mp hab with ⟨m, hxm, hym⟩ | ⟨m, ham, hym⟩
  · match m with
    | [] => exact hy ⟨[], b, by simpa using hym⟩
    | [e] =>
      obtain ⟨rfl, rfl⟩ : '*' = e ∧ '/' :: b = y := by simpa using hym
      exact h (by simp [hxm]) rfl
    | e :: f :: m =>
      obtain ⟨rfl, rfl, hym⟩ : '*' = e ∧ '/' = f ∧ b = m ++ y := by simpa using hym
      exact hx ⟨a, m, by simp [hxm]⟩
  · exact hy ⟨m, b, by simp [hym]⟩

/-- A slash begins a comment or is a symbol. -/
theorem scan_slash (cs : List Char) : scan '/' cs =
    (commentLength? cs).elim (some (.symbol '/'), 0) fun n => (some .comment, n) := by
  have hidentifier : Text.isIdentifierStart '/' = false := by decide +kernel
  have hsymbol : isSymbol '/' = true := by decide
  unfold scan scanMark
  rw [number?_eq_none foreign_slash cs, hidentifier, hsymbol]
  cases commentLength? cs <;> rfl

/-- No closing mark stands across the place where another text is put. -/
theorem Swaps.crossing (h : Swaps x z y) (hstar : x.getLast? = some '*') : y.head? ≠ some '/' := by
  intro hslash
  rcases h.separate with hlast | hhead
  · exact (foreign_of_separates (hlast '*' hstar)).2.2.2 rfl
  · exact (foreign_of_separates (hhead '/' hslash)).2.2.1 rfl

/-- A slash at the end of a text begins no comment. -/
theorem Swaps.slash (h : Swaps ['/'] z y) : commentLength? y = none := by
  rcases h.separate with hlast | hhead
  · exact absurd rfl (foreign_of_separates (hlast '/' rfl)).2.2.1
  · cases y with
    | nil => rfl
    | cons e more =>
      obtain ⟨_, _, hslash, hstar⟩ := foreign_of_separates (hhead e rfl)
      simp [commentLength?, hslash, hstar]

/-- A line comment that ends before a text ends as well before the text in its place. -/
theorem Swaps.lineComment (h : Swaps x z y)
    (hcut : (cs ++ z).takeWhile (fun c => c != '\n' && !isNull c) =
      cs.takeWhile fun c => c != '\n' && !isNull c) :
    (cs ++ y).takeWhile (fun c => c != '\n' && !isNull c) =
      cs.takeWhile fun c => c != '\n' && !isNull c := by
  rw [List.takeWhile_append] at hcut ⊢
  split_ifs at hcut ⊢ with hall
  · have hcs := (List.takeWhile_sublist _).eq_of_length hall
    rcases h.line with hy | ⟨d, hz, hd⟩
    · obtain ⟨more, rfl⟩ := List.head?_eq_some_iff.mp hy
      simp [hcs]
    · obtain ⟨rest, rfl⟩ := List.head?_eq_some_iff.mp hz
      have hnull : d ≠ '\x00' := by
        rintro rfl
        exact h.null (by simp)
      have hline : (d != '\n' && !isNull d) = true := by simp [hd, hnull, isNull]
      rw [List.takeWhile_cons, if_pos hline, hcs] at hcut
      simp at hcut
  · rfl

private theorem commentLength?_join (h : Swaps ('/' :: cs) z y)
    (hcut : commentLength? (cs ++ z) = commentLength? cs) :
    commentLength? (cs ++ y) = commentLength? cs := by
  match cs with
  | [] =>
    rw [List.nil_append] at hcut ⊢
    rw [h.slash]
    rfl
  | e :: cs =>
    rw [List.cons_append] at hcut ⊢
    by_cases hline : e = '/'
    · subst hline
      simp only [commentLength?, Option.some.injEq, Nat.add_right_cancel_iff] at hcut ⊢
      have hsame : (cs ++ z).takeWhile (fun c => c != '\n' && !isNull c) =
          cs.takeWhile fun c => c != '\n' && !isNull c :=
        takeWhile_cut (hcut.le.trans (List.takeWhile_sublist _).length_le)
      rw [h.lineComment hsame]
    by_cases hblock : e = '*'
    · subst hblock
      simp only [commentLength?] at hcut ⊢
      cases hn : blockLength? cs with
      | some n => rw [(steady_blockLength? cs y n (upTo_blockLength?.le cs n hn)).mpr hn]
      | none =>
        rw [hn, Option.map_none, Option.map_eq_none_iff] at hcut
        have hright : Swaps cs z y := Swaps.right (x := ['/', '*']) h
        have hopen := open_of_blockLength? hright.null hcut
        have hcs : ¬['*', '/'] <:+: cs := fun hin =>
          hopen (hin.trans (List.prefix_append _ _).isInfix)
        have hy := h.unclosed fun hin => hopen (hin.trans (List.suffix_append _ _).isInfix)
        rw [blockLength?_of_open (infix_join hcs hy hright.crossing)]
    · simp [commentLength?, hline, hblock]

private theorem scanMark_join (hslash : c ≠ '/')
    (hknown : (scanMark c cs).1 ≠ .unknown) : scanMark c (cs ++ y) = scanMark c cs := by
  unfold scanMark at hknown ⊢
  by_cases hquote : c = '"'
  · rw [if_pos hquote] at hknown ⊢
    rw [if_pos hquote, closed_join (steady_stringLength? 0) (upTo_stringLength? 0) hknown]
  rw [if_neg hquote] at hknown ⊢
  rw [if_neg hquote]
  by_cases hraw : c = '`'
  · rw [if_pos hraw] at hknown ⊢
    rw [if_pos hraw, closed_join (steady_untilLength? '`') (upTo_untilLength? (by decide)) hknown]
  rw [if_neg hraw] at hknown ⊢
  rw [if_neg hraw]
  by_cases hrune : c = '\''
  · rw [if_pos hrune] at hknown ⊢
    rw [if_pos hrune, closed_join steady_runeLength? upTo_runeLength? hknown]
  rw [if_neg hrune, if_neg hrune, if_neg hslash, if_neg hslash]

/-- A token is found as well if another text follows that it cannot go on in. -/
theorem scan_join (h : Parted (c :: cs) z y)
    (hcomment : c = '/' → commentLength? (cs ++ y) = commentLength? cs)
    (hcut : scan c (cs ++ z) = scan c cs) (hknown : (scan c cs).1 ≠ some .unknown) :
    scan c (cs ++ y) = scan c cs := by
  by_cases hslash : c = '/'
  · rw [hslash, scan_slash, scan_slash, hcomment hslash]
  have hnumber := number?_join h
  rw [List.cons_append] at hnumber
  unfold scan at hknown hcut ⊢
  by_cases hgap : isGap c = true
  · rw [if_pos hgap, if_pos hgap]
  rw [if_neg hgap] at hknown ⊢
  rw [if_neg hgap]
  by_cases hnew : c = '\n'
  · rw [if_pos hnew, if_pos hnew]
  rw [if_neg hnew] at hknown ⊢
  rw [if_neg hnew]
  by_cases hword : Text.isIdentifierStart c = true
  · rw [if_neg hgap, if_neg hgap, if_neg hnew, if_neg hnew, if_pos hword, if_pos hword,
      Prod.mk.injEq] at hcut
    have hsame := takeWhile_cut (hcut.2.trans_le (List.takeWhile_sublist _).length_le)
    rw [if_pos hword, if_pos hword, takeWhile_join hword h hsame]
  rw [if_neg hword] at hknown ⊢
  rw [if_neg hword, hnumber]
  cases hn : number? (c :: cs) with
  | some _ => rfl
  | none =>
    rw [hn] at hknown
    simp only
    rw [scanMark_join hslash fun hx => hknown (congrArg some hx)]

/-- What a slash begins is found as well if another text follows, if the comment that it may begin
is. -/
theorem commentLength?_of_scan (h : scan '/' (cs ++ z) = scan '/' cs) :
    commentLength? (cs ++ z) = commentLength? cs := by
  rw [scan_slash, scan_slash] at h
  cases hz : commentLength? (cs ++ z) <;> cases hcs : commentLength? cs <;> simp_all

/-! ### The tokens of both parts -/

/-- Whether the position is not strictly inside a token and no token before it is out of place. -/
def Whole (ts : List Token) (pos : Nat) : Prop :=
  ∀ t ∈ ts, t.lexeme ≠ .unknown ∧ (t.stop ≤ pos ∨ pos ≤ t.start)

instance (ts : List Token) (pos : Nat) : Decidable (Whole ts pos) :=
  inferInstanceAs (Decidable (∀ t ∈ ts, t.lexeme ≠ .unknown ∧ (t.stop ≤ pos ∨ pos ≤ t.start)))

/-- What is found at the front of a text is its first token. -/
theorem exists_mem_of_scan {lexeme : Lexeme} (h : (scan c cs).1 = some lexeme) :
    ∃ t ∈ readFrom pos (c :: cs), t.lexeme = lexeme ∧ t.start = pos ∧
      t.stop = pos + Text.byteLength (c :: cs.take (scan c cs).2) := by
  refine ⟨⟨lexeme, String.ofList (c :: cs.take (scan c cs).2), pos, _⟩, ?_, rfl, rfl, rfl⟩
  rw [readFrom_cons, front?, h]
  exact List.mem_append_left _ (List.mem_singleton_self _)

/-- A token that begins in the first part of a text, before the place where the text is cut, ends
there. -/
private theorem scan_le_of_whole
    (hwhole : Whole (readFrom pos (c :: (cs ++ z))) (pos + Text.byteLength (c :: cs))) :
    (scan c (cs ++ z)).2 ≤ cs.length := by
  by_contra hgt
  rcases scan_cases c (cs ++ z) with ⟨_, hscan | hscan⟩ | ⟨x, n, hscan, _⟩
  · simp [hscan] at hgt
  · simp [hscan] at hgt
  · obtain ⟨t, ht, _, hstart, hstop⟩ := @exists_mem_of_scan pos _ _ _ (congrArg Prod.fst hscan)
    have hspan := (hwhole t ht).2
    have htake : (cs ++ z).take (scan c (cs ++ z)).2 =
        cs ++ z.take ((scan c (cs ++ z)).2 - cs.length) := by
      rw [List.take_append, List.take_of_length_le (Nat.le_of_not_le hgt)]
    have hmore : z.take ((scan c (cs ++ z)).2 - cs.length) ≠ [] := by
      intro hnil
      have hlength := congrArg List.length hnil
      have hall := scan_le c (cs ++ z)
      rw [List.length_append] at hall
      rw [List.length_take, List.length_nil] at hlength
      omega
    have hpos := Text.byteLength_pos hmore
    rw [hstart, hstop, htake] at hspan
    simp only [Text.byteLength_cons, Text.byteLength_append] at hspan
    have := c.utf8Size_pos
    omega

/-- A place in the part `x` of a text at which a token or a blank begins. -/
structure Opens (pos : Nat) (x z : List Char) (at_ : Nat) (c : Char) (cs : List Char) : Prop where
  suffix : c :: cs <:+ x
  stop : at_ + Text.byteLength (c :: cs) = pos + Text.byteLength x
  subset : readFrom at_ (c :: (cs ++ z)) ⊆ readFrom pos (x ++ z)
  cut : scan c (cs ++ z) = scan c cs
  known : (scan c cs).1 ≠ some .unknown

/-- A text may be cut where no token is open, and another text may take the place of the second part
if every token of the first part is found as well before it. -/
theorem readFrom_of_opens (h : ∀ at_ c cs, Opens pos x z at_ c cs → scan c (cs ++ y) = scan c cs)
    (hwhole : Whole (readFrom pos (x ++ z)) (pos + Text.byteLength x)) :
    readFrom pos (x ++ z) = readFrom pos x ++ readFrom (pos + Text.byteLength x) z ∧
      readFrom pos (x ++ y) = readFrom pos x ++ readFrom (pos + Text.byteLength x) y := by
  -- The token in front ends before the seam, so it is found without what stands behind the seam.
  induction pos, x using readFrom_induction with
  | nil pos => simp [readFrom_nil]
  | cons pos c cs ih =>
    have hcut := scan_cut (scan_le_of_whole hwhole)
    have hknown : (scan c cs).1 ≠ some .unknown := by
      intro hunknown
      obtain ⟨t, ht, hx, _⟩ := @exists_mem_of_scan pos _ _ _ (hcut ▸ hunknown)
      exact (hwhole t ht).1 hx
    have hjoin := h pos c cs ⟨List.suffix_refl _, rfl, List.Subset.refl _, hcut, hknown⟩
    have hfront := @readFrom_cons_append pos _ _ _ hcut
    have hsuffix : cs.drop (scan c cs).2 <:+ c :: cs :=
      (List.drop_suffix _ _).trans (List.suffix_cons _ _)
    have hlength := byteLength_front c cs
    have hrest : readFrom (pos + Text.byteLength (c :: cs.take (scan c cs).2))
        (cs.drop (scan c cs).2 ++ z) ⊆ readFrom pos (c :: cs ++ z) := by
      rw [hfront]
      exact List.subset_append_right _ _
    have hmore := ih (fun at_ d ds hopens => h at_ d ds
        ⟨hopens.suffix.trans hsuffix, by rw [hopens.stop, hlength, Nat.add_assoc],
          List.Subset.trans hopens.subset hrest, hopens.cut, hopens.known⟩) (by
      intro t ht
      have := hwhole t (hrest ht)
      rwa [hlength, ← Nat.add_assoc] at this)
    rw [hfront, readFrom_cons_append hjoin, readFrom_cons, hmore.1, hmore.2, hlength,
      List.append_assoc, List.append_assoc, Nat.add_assoc pos]
    exact ⟨rfl, rfl⟩

/-- A text may be cut where no token is open. -/
theorem readFrom_cut (hwhole : Whole (readFrom pos (x ++ z)) (pos + Text.byteLength x)) :
    readFrom pos (x ++ z) = readFrom pos x ++ readFrom (pos + Text.byteLength x) z :=
  (readFrom_of_opens (fun _ _ _ hopens => hopens.cut) hwhole).1

/-- Another text may take the place of the part behind a cut. -/
theorem readFrom_swap (h : Swaps x z y)
    (hwhole : Whole (readFrom pos (x ++ z)) (pos + Text.byteLength x)) :
    readFrom pos (x ++ y) = readFrom pos x ++ readFrom (pos + Text.byteLength x) y := by
  refine (readFrom_of_opens (fun at_ c cs hopens => ?_) hwhole).2
  obtain ⟨earlier, rfl⟩ := hopens.suffix
  have hright : Swaps (c :: cs) z y := h.right
  refine scan_join (hright.separate.parted z) (fun hslash => ?_) hopens.cut hopens.known
  subst hslash
  exact commentLength?_join hright (commentLength?_of_scan hopens.cut)

/-- Blanks hold no tokens. -/
theorem readFrom_blanks {g : List Char} (hblank : ∀ c ∈ g, isBlank c = true ∧ c ≠ '\n')
    (hknown : ∀ t ∈ readFrom pos (g ++ cs), t.lexeme ≠ .unknown) :
    readFrom pos (g ++ cs) = readFrom (pos + Text.byteLength g) cs := by
  induction g generalizing pos with
  | nil => rfl
  | cons c g ih =>
    obtain ⟨⟨hc, hnew⟩, hg⟩ := List.forall_mem_cons.mp hblank
    obtain ⟨hlength, hlexeme⟩ := scan_of_isBlank hc (g ++ cs)
    have hnone : (scan c (g ++ cs)).1 = none := by
      by_contra hsome
      obtain ⟨x, hx⟩ := Option.ne_none_iff_exists'.mp hsome
      rcases hlexeme x hx with ⟨_, heq⟩ | hunknown
      · exact hnew heq
      · obtain ⟨t, ht, htx, _⟩ := @exists_mem_of_scan pos _ _ _ hx
        exact hknown t ht (htx.trans hunknown)
    have hskip : readFrom pos (c :: (g ++ cs)) = readFrom (pos + c.utf8Size) (g ++ cs) := by
      rw [readFrom_cons, front?, hnone, hlength]
      simp
    rw [List.cons_append] at hknown ⊢
    rw [hskip] at hknown ⊢
    rw [ih hg hknown, Text.byteLength_cons, Nat.add_assoc]

end GoContracts.Syntax.Token

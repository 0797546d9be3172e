import GoContracts.Proofs.Syntax.Numbers

/-!
# Tokens and line ends

How far a token reaches: a number or a word holds no character that is foreign to it, and a literal
or comment reaches only up to its closing mark. So a text may be cut into tokens line by line unless
such a token is open where a line ends.
-/

namespace GoContracts.Syntax.Token

/-! ### Words -/

/-- A newline is part of no number. -/
theorem foreign_newline : Foreign '\n' := by constructor <;> decide

private theorem takeWhile_append_cons {d : Char} {p : Char → Bool} (hp : p d = false)
    (cs rest : List Char) : (cs ++ d :: rest).takeWhile p = cs.takeWhile p := by
  have hnone : ¬p d = true := by simp [hp]
  rw [List.takeWhile_append, List.takeWhile_cons_of_neg hnone, List.append_nil]
  split
  · next hall => exact ((List.takeWhile_sublist p).eq_of_length hall).symm
  · rfl

/-! ### Literals and comments -/

/-- A length that is measured up to a mark, which no newline is. -/
structure UpTo (mark : Char) (f : List Char → Option Nat) : Prop where
  le : ∀ cs n, f cs = some n → n ≤ cs.length
  append : ∀ cs rest, mark ∉ rest → f (cs ++ '\n' :: rest) = f cs

private theorem stringLength?_eq_none {cs : List Char} (h : '"' ∉ cs) (n : Nat) :
    stringLength? n cs = none := by
  fun_induction stringLength? n cs with
  | case1 => rfl
  | case2 n c cs hc ih => simp [ih (by simp_all)]
  | case3 => rfl
  | case4 => rfl
  | case5 c cs hc ih => simp [ih (by simp_all)]
  | case6 => simp at h
  | case7 => rfl
  | case8 => simp_all

/-- A string ends with its quote. -/
theorem upTo_stringLength? (k : Nat) : UpTo '"' (stringLength? k) where
  le cs n h := by
    fun_induction stringLength? k cs generalizing n with
    | case1 => simp at h
    | case2 k c cs hc ih =>
      obtain ⟨m, hm, rfl⟩ := Option.map_eq_some_iff.mp h
      exact Nat.succ_le_succ (ih m hm)
    | case3 => simp at h
    | case4 => simp at h
    | case5 c cs hc ih =>
      obtain ⟨m, hm, rfl⟩ := Option.map_eq_some_iff.mp h
      exact Nat.add_le_add_right (ih m hm) 2
    | case6 => simp_all
    | case7 => simp at h
    | case8 c cs _ _ _ ih =>
      obtain ⟨m, hm, rfl⟩ := Option.map_eq_some_iff.mp h
      exact Nat.succ_le_succ (ih m hm)
  append cs rest h := by
    have hnew : ∀ k, stringLength? k ('\n' :: rest) = none := by
      intro k
      exact stringLength?_eq_none (by simpa using h) k
    fun_induction stringLength? k cs with
    | case1 => exact hnew _
    | case2 k c cs hc ih => simp [stringLength?, hc, ih]
    | case3 k c cs hc => simp [stringLength?, hc]
    | case4 c cs hc => simp [stringLength?, hc]
    | case5 c cs hc ih => simp [stringLength?, hc, ih]
    | case6 cs => simp [stringLength?]
    | case7 c cs hslash hquote hc =>
      by_cases hback : c = '\\'
      · obtain rfl : cs = [] := by
          cases cs with
          | nil => rfl
          | cons d ds => exact (hslash d ds hback rfl).elim
        have hrest := stringLength?_eq_none h
        simp [hback, stringLength?, hrest]
      · have hend : c = '\n' ∨ isNull c = true := by simpa [hback] using hc
        simp [stringLength?, hback, hquote, hend]
    | case8 c cs hslash hquote hc ih =>
      have hplain : ¬(c = '\n' ∨ isNull c = true) ∧ c ≠ '\\' := by
        constructor <;> simp_all
      simp [stringLength?, hplain, hquote, ih]

private theorem untilLength?_eq_none {mark : Char} {cs : List Char} (h : mark ∉ cs) :
    untilLength? mark cs = none := by
  induction cs with
  | nil => rfl
  | cons c cs ih =>
    rw [List.mem_cons, not_or] at h
    simp [untilLength?, Ne.symm h.1, ih h.2]

/-- A literal ends with its mark. -/
theorem upTo_untilLength? {mark : Char} (hmark : mark ≠ '\n') : UpTo mark (untilLength? mark) where
  le cs n h := by
    induction cs generalizing n with
    | nil => simp [untilLength?] at h
    | cons c cs ih =>
      unfold untilLength? at h
      split_ifs at h
      · simp_all
      · obtain ⟨m, hm, rfl⟩ := Option.map_eq_some_iff.mp h
        exact Nat.succ_le_succ (ih m hm)
  append cs rest h := by
    induction cs with
    | nil => exact untilLength?_eq_none (by simp [hmark, h])
    | cons c cs ih => simp [untilLength?, ih]

private theorem blockLength?_eq_none {cs : List Char} (h : '/' ∉ cs) : blockLength? cs = none := by
  fun_induction blockLength? cs with
  | case1 => simp at h
  | case2 => rfl
  | case3 c cs _ _ ih => simp [ih (by simp_all)]
  | case4 => rfl

/-- A comment goes on behind a character that does not end it. -/
theorem blockLength?_cons {c : Char} {cs : List Char}
    (h : ∀ tail, c = '*' → cs = '/' :: tail → False) :
    blockLength? (c :: cs) = if isNull c then none else (blockLength? cs).map (· + 1) := by
  rw [blockLength?]
  exact h

/-- A comment ends with a slash. -/
theorem upTo_blockLength? : UpTo '/' blockLength? where
  le cs n h := by
    fun_induction blockLength? cs generalizing n with
    | case1 =>
      obtain rfl := Option.some.inj h
      simp
    | case2 => simp at h
    | case3 c cs _ _ ih =>
      obtain ⟨m, hm, rfl⟩ := Option.map_eq_some_iff.mp h
      exact Nat.succ_le_succ (ih m hm)
    | case4 => simp at h
  append cs rest h := by
    have hnew : blockLength? ('\n' :: rest) = none := blockLength?_eq_none (by simpa using h)
    have behind : ∀ {c : Char} {cs : List Char}, (∀ tail, c = '*' → cs = '/' :: tail → False) →
        ∀ tail, c = '*' → cs ++ '\n' :: rest = '/' :: tail → False := by
      intro c cs hend tail hstar hslash
      cases cs with
      | nil => simp at hslash
      | cons d ds => exact hend ds hstar (by simp_all)
    fun_induction blockLength? cs with
    | case1 => simp [blockLength?]
    | case2 c cs hend hc =>
      rw [List.cons_append, blockLength?_cons (behind hend), if_pos hc]
    | case3 c cs hend hc ih =>
      rw [List.cons_append, blockLength?_cons (behind hend), if_neg hc, ih]
    | case4 => exact hnew

/-- The digits of an escape and the mark behind them stand on one line. -/
private theorem escape_append (n : Nat) (p : Char → Bool) (hp : p '\n' = false)
    (cs rest : List Char) :
    ((((cs ++ '\n' :: rest).take n).length = n && ((cs ++ '\n' :: rest).take n).all p &&
      ((cs ++ '\n' :: rest).drop n).head? = some '\'') : Bool) =
    (((cs.take n).length = n && (cs.take n).all p && (cs.drop n).head? = some '\'') : Bool) := by
  induction cs generalizing n with
  | nil => cases n <;> simp [hp]
  | cons c cs ih =>
    cases n with
    | zero => simp
    | succ n =>
      have := ih n
      simp only [List.cons_append, List.take_succ_cons, List.length_cons, List.drop_succ_cons,
        List.all_cons, Nat.add_right_cancel_iff] at this ⊢
      cases p c
      · simp only [Bool.false_and, Bool.and_false]
      · simpa only [Bool.true_and] using this

/-- A rune ends with its quote. -/
theorem upTo_runeLength? : UpTo '\'' runeLength? where
  le cs n h := by
    have hdrop : ∀ (k : Nat) (ds : List Char), (ds.drop k).head? = some '\'' → k < ds.length := by
      intro k ds hk
      by_contra hle
      rw [List.drop_eq_nil_of_le (Nat.not_lt.mp hle)] at hk
      simp at hk
    unfold runeLength? at h
    split at h
    · next c cs =>
      simp only [List.length_cons] at h ⊢
      split_ifs at h with _ h1 _ h2 _ h3
      · have := hdrop 2 cs (of_decide_eq_true (Bool.and_eq_true_iff.mp h1).2)
        obtain rfl := Option.some.inj h
        omega
      · have := hdrop (escapeDigits c) cs (of_decide_eq_true (Bool.and_eq_true_iff.mp h2).2)
        obtain rfl := Option.some.inj h
        omega
      · have := hdrop 0 cs (of_decide_eq_true (Bool.and_eq_true_iff.mp h3).2)
        obtain rfl := Option.some.inj h
        omega
    · split_ifs at h
      obtain rfl := Option.some.inj h
      simp
    · simp at h
  append cs rest h := by
    have hdigits := fun (n : Nat) (p : Char → Bool) (hp : p '\n' = false) (cs : List Char) =>
      escape_append n p hp cs rest
    have hoctal := fun cs => hdigits 2 isOctalDigit (by decide) cs
    have hhex := fun n cs => hdigits n isHexDigit (by decide) cs
    match cs with
    | [] =>
      cases rest with
      | nil => rfl
      | cons d ds =>
        rw [List.mem_cons, not_or] at h
        simp [runeLength?, Ne.symm h.1]
    | [c] =>
      by_cases hc : c = '\\'
      · simp [hc, runeLength?, isOctalDigit, escapeDigits]
      · simp [runeLength?, hc]
    | c :: d :: cs =>
      by_cases hc : c = '\\'
      · simp only [hc, List.cons_append, runeLength?, hoctal, hhex]
      · by_cases hd : d = '\''
        · simp [runeLength?, hc, hd]
        · simp [runeLength?, hc, hd]

private theorem commentLength?_le {cs : List Char} {n : Nat} (h : commentLength? cs = some n) :
    n ≤ cs.length := by
  unfold commentLength? at h
  split at h
  · next cs =>
    have := (List.takeWhile_sublist (fun c => c != '\n' && !isNull c) (l := cs)).length_le
    obtain rfl := Option.some.inj h
    exact Nat.succ_le_succ this
  · next cs =>
    obtain ⟨m, hm, rfl⟩ := Option.map_eq_some_iff.mp h
    exact Nat.succ_le_succ (upTo_blockLength?.le cs m hm)
  · simp at h

private theorem commentLength?_append {rest : List Char} (h : '/' ∉ rest) (cs : List Char) :
    commentLength? (cs ++ '\n' :: rest) = commentLength? cs := by
  match cs with
  | [] => rfl
  | c :: cs =>
    have hline : (cs ++ '\n' :: rest).takeWhile (fun c => c != '\n' && !isNull c) =
        cs.takeWhile fun c => c != '\n' && !isNull c := takeWhile_append_cons (by decide) cs rest
    have hblock := upTo_blockLength?.append cs rest h
    rw [List.cons_append]
    unfold commentLength?
    split <;> simp_all

/-! ### One token -/

/-- The characters that begin a token which may reach beyond its line. -/
def marks : List Char := ['"', '`', '\'', '/']

private theorem closed_le {x : Lexeme} {mark : Char} {f : List Char → Option Nat}
    (hf : UpTo mark f) (cs : List Char) : (closed x (f cs)).2 ≤ cs.length := by
  unfold closed
  cases hcs : f cs with
  | none => exact Nat.zero_le _
  | some n => exact hf.le cs n hcs

private theorem scanMark_le (c : Char) (cs : List Char) : (scanMark c cs).2 ≤ cs.length := by
  unfold scanMark
  by_cases hquote : c = '"'
  · rw [if_pos hquote]
    exact closed_le (upTo_stringLength? 0) cs
  rw [if_neg hquote]
  by_cases hraw : c = '`'
  · rw [if_pos hraw]
    exact closed_le (upTo_untilLength? (by decide)) cs
  rw [if_neg hraw]
  by_cases hrune : c = '\''
  · rw [if_pos hrune]
    exact closed_le upTo_runeLength? cs
  rw [if_neg hrune]
  split
  · next n hn =>
    split_ifs at hn
    exact commentLength?_le hn
  · exact Nat.zero_le _

private theorem scanMark_append {c : Char} {rest : List Char} (cs : List Char)
    (h : c ∈ marks → ∀ mark ∈ marks, mark ∉ rest) :
    scanMark c (cs ++ '\n' :: rest) = scanMark c cs := by
  unfold scanMark
  by_cases hquote : c = '"'
  · have hrest := h (by simp [hquote, marks]) '"' (by simp [marks])
    rw [if_pos hquote, if_pos hquote, (upTo_stringLength? 0).append cs rest hrest]
  rw [if_neg hquote, if_neg hquote]
  by_cases hraw : c = '`'
  · have hrest := h (by simp [hraw, marks]) '`' (by simp [marks])
    rw [if_pos hraw, if_pos hraw, (upTo_untilLength? (by decide)).append cs rest hrest]
  rw [if_neg hraw, if_neg hraw]
  by_cases hrune : c = '\''
  · have hrest := h (by simp [hrune, marks]) '\'' (by simp [marks])
    rw [if_pos hrune, if_pos hrune, upTo_runeLength?.append cs rest hrest]
  rw [if_neg hrune, if_neg hrune]
  by_cases hslash : c = '/'
  · have hrest := h (by simp [hslash, marks]) '/' (by simp [marks])
    rw [if_pos hslash, if_pos hslash, commentLength?_append hrest]
  · rw [if_neg hslash, if_neg hslash]

/-- A token lies within its text. -/
theorem scan_le (c : Char) (cs : List Char) : (scan c cs).2 ≤ cs.length := by
  unfold scan
  split_ifs
  · exact Nat.zero_le _
  · exact Nat.zero_le _
  · exact (List.takeWhile_sublist _).length_le
  · split
    · next x n hn =>
      have := number?_le hn
      rw [List.length_cons] at this
      exact Nat.sub_le_of_le_add this
    · exact scanMark_le c cs

/-- The token at the end of a line does not depend on the lines that follow, unless it begins with a
mark and a mark follows. -/
theorem scan_append {c : Char} {rest : List Char} (cs : List Char)
    (h : c ∈ marks → ∀ mark ∈ marks, mark ∉ rest) :
    scan c (cs ++ '\n' :: rest) = scan c cs := by
  have hword : (cs ++ '\n' :: rest).takeWhile Text.isIdentifierPart =
      cs.takeWhile Text.isIdentifierPart := takeWhile_append_cons (by decide +kernel) cs rest
  have hnumber := number?_append foreign_newline (c :: cs) rest
  rw [List.cons_append] at hnumber
  unfold scan
  rw [hnumber, hword, scanMark_append cs h]

end GoContracts.Syntax.Token

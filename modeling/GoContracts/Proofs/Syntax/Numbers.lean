import GoContracts.Syntax.Token
import Mathlib.Data.List.Basic

/-!
# How far a number reaches

A number ends before a character that is part of none. So it is the same whatever stands behind that
character, and it is the same in every part of a text that holds it.
-/

namespace GoContracts.Syntax.Token

/-- A character that is part of no number. -/
structure Foreign (d : Char) : Prop where
  hexDigit : isHexDigit d = false
  digit : d.isDigit = false
  octalDigit : isOctalDigit d = false
  binaryDigit : isBinaryDigit d = false
  mark : d ∉ ['0', '_', '.', '+', '-', 'x', 'X', 'b', 'B', 'o', 'O', 'e', 'E', 'p', 'P', 'i']

private theorem Foreign.ne {d : Char} (h : Foreign d) :
    d ≠ '0' ∧ d ≠ '_' ∧ d ≠ '.' ∧ d ≠ '+' ∧ d ≠ '-' ∧
    d ≠ 'x' ∧ d ≠ 'X' ∧ d ≠ 'b' ∧ d ≠ 'B' ∧ d ≠ 'o' ∧ d ≠ 'O' ∧ d ≠ 'e' ∧ d ≠ 'E' ∧
      d ≠ 'p' ∧ d ≠ 'P' ∧
    d ≠ 'i' := by
  simpa only [List.mem_cons, List.not_mem_nil, or_false, not_or] using h.mark

/-- A text in which no number goes on: it begins with a character that is part of none, or with a
name whose underscore stands before no digit. -/
inductive Halts : List Char → Prop
  | nil : Halts []
  | foreign {d : Char} {rest : List Char} (hd : Foreign d) : Halts (d :: rest)
  | name {rest : List Char} : Halts ('_' :: 'i' :: rest)

/-- A length that is measured in the part of a text that goes before. -/
def Within (f : List Char → Nat) : Prop := ∀ cs y, Halts y → f (cs ++ y) ≤ cs.length

/-- A length that only depends on what it measures. -/
def Local (f : List Char → Nat) : Prop :=
  ∀ cs rest, f (cs ++ rest) ≤ cs.length → f (cs ++ rest) = f cs

variable {f g : List Char → Nat} {cs rest y : List Char} {p : Char → Bool}

private theorem Within.le (h : Within f) (cs : List Char) : f cs ≤ cs.length := by
  have hle := h cs [] .nil
  rwa [List.append_nil] at hle

private theorem Within.eq_zero (h : Within f) (hy : Halts y) : f y = 0 :=
  Nat.le_zero.mp (h [] y hy)

private theorem Within.max (hf : Within f) (hg : Within g) : Within fun cs =>
    Nat.max (f cs) (g cs) :=
  fun cs y hy => Nat.max_le.mpr ⟨hf cs y hy, hg cs y hy⟩

private theorem Local.max (hf : Local f) (hg : Local g) : Local fun cs =>
    Nat.max (f cs) (g cs) := by
  intro cs rest h
  obtain ⟨hleft, hright⟩ := Nat.max_le.mp h
  simp only [hf cs rest hleft, hg cs rest hright]

private theorem lengthAfter_le (n m : Nat) : lengthAfter n m ≤ n + m := by
  unfold lengthAfter
  split <;> omega

private theorem lengthAfter_le_iff {n m k : Nat} : lengthAfter n m ≤ k ↔ m = 0 ∨ n + m ≤ k := by
  unfold lengthAfter
  split <;> omega

/-! ### Digits -/

/-- A class of digits: it has neither marks nor what is foreign to numbers. -/
structure IsDigits (p : Char → Bool) : Prop where
  foreign : ∀ d, Foreign d → p d = false
  mark : p '_' = false
  unit : p 'i' = false

private theorem isDigits_hex : IsDigits isHexDigit :=
  ⟨fun _ h => h.hexDigit, by decide, by decide⟩

private theorem isDigits_decimal : IsDigits Char.isDigit :=
  ⟨fun _ h => h.digit, by decide, by decide⟩

private theorem isDigits_octal : IsDigits isOctalDigit :=
  ⟨fun _ h => h.octalDigit, by decide, by decide⟩

private theorem isDigits_binary : IsDigits isBinaryDigit :=
  ⟨fun _ h => h.binaryDigit, by decide, by decide⟩

private theorem digitsLength_cons_of_not (h : p c = false) (cs : List Char) :
    digitsLength p (c :: cs) = 0 := by
  cases cs <;> simp [digitsLength, h]

private theorem within_digitsLength (hp : IsDigits p) : Within (digitsLength p) := by
  intro cs y hy
  have hzero : digitsLength p y = 0 := by
    cases hy with
    | nil => rfl
    | foreign hd => exact digitsLength_cons_of_not (hp.foreign _ hd) _
    | name => exact digitsLength_cons_of_not hp.mark _
  -- The cases are those of the scanner: no digit, a last digit, a mark between two digits.
  induction cs using digitsLength.induct p with
  | case1 => simp [hzero]
  | case2 c hc =>
    cases hy with
    | nil => simp [digitsLength, hc]
    | foreign hd => simp [digitsLength, hc, hd.ne, hzero]
    | name => simp [digitsLength, hc, digitsLength_cons_of_not hp.unit]
  | case3 c hc => simp [digitsLength_cons_of_not (Bool.not_eq_true _ ▸ hc)]
  | case4 c cs hc hnone ih =>
    simp only [List.cons_append, digitsLength, hc, if_true, List.length_cons]
    split <;> omega
  | case5 c cs hc n hn ih =>
    simp only [List.cons_append, digitsLength, hc, if_true, List.length_cons]
    split <;> omega
  | case6 c d cs hc hd ih =>
    simp only [List.cons_append, digitsLength, hc, hd, if_true, if_false, List.length_cons] at ih ⊢
    omega
  | case7 c d cs hc => simp [digitsLength_cons_of_not (Bool.not_eq_true _ ▸ hc)]

private theorem local_digitsLength : Local (digitsLength p) := by
  intro cs rest h
  induction cs using digitsLength.induct p with
  | case1 => exact Nat.le_zero.mp h
  | case2 c hc =>
    cases rest with
    | nil => rfl
    | cons d rest =>
      simp only [List.singleton_append, digitsLength, hc, if_true, List.length_singleton] at h ⊢
      by_cases hd : d = '_'
      · simp only [hd, if_true] at h ⊢
        split at h <;> first | rfl | omega
      · simp only [hd, if_false] at h ⊢
        omega
  | case3 c hc => simp [digitsLength_cons_of_not (Bool.not_eq_true _ ▸ hc)]
  | case4 c cs hc hnone ih =>
    simp only [List.cons_append, digitsLength, hc, if_true, List.length_cons] at h ⊢
    rw [ih (by split at h <;> omega)]
  | case5 c cs hc n hn ih =>
    simp only [List.cons_append, digitsLength, hc, if_true, List.length_cons] at h ⊢
    rw [ih (by split at h <;> omega)]
  | case6 c d cs hc hd ih =>
    simp only [List.cons_append, digitsLength, hc, hd, if_true, if_false,
      List.length_cons] at h ih ⊢
    rw [ih (by omega)]
  | case7 c d cs hc => simp [digitsLength_cons_of_not (Bool.not_eq_true _ ▸ hc)]

/-- Digits that go on behind a text leave at most an underscore of it. -/
private theorem drop_digitsLength (hp : IsDigits p) (h : cs.length < digitsLength p (cs ++ rest)) :
    cs.drop (digitsLength p cs) = [] ∨ cs.drop (digitsLength p cs) = ['_'] := by
  induction cs using digitsLength.induct p with
  | case1 => exact .inl (by simp)
  | case2 c hc => exact .inl (by simp [digitsLength, hc])
  | case3 c hc => simp [digitsLength_cons_of_not (Bool.not_eq_true _ ▸ hc)] at h
  | case4 c cs hc hnone ih =>
    simp only [List.cons_append, digitsLength, hc, if_true, List.length_cons] at h
    rw [hnone, List.drop_zero] at ih
    rcases ih (by split at h <;> omega) with rfl | rfl
    · exact .inr (by simp [digitsLength, hc])
    · split at h
      · omega
      · next n hn => simp [digitsLength_cons_of_not hp.mark] at hn
  | case5 c cs hc n hn ih =>
    simp only [List.cons_append, digitsLength, hc, if_true, List.length_cons] at h
    have := ih (by split at h <;> omega)
    simpa [digitsLength, hc, hn] using this
  | case6 c d cs hc hd ih =>
    simp only [List.cons_append, digitsLength, hc, hd, if_true, if_false,
      List.length_cons] at h ih ⊢
    exact ih (by omega)
  | case7 c d cs hc => simp [digitsLength_cons_of_not (Bool.not_eq_true _ ▸ hc)] at h

private theorem markedDigitsLength_cons (h : c ≠ '_') (cs : List Char) :
    markedDigitsLength p (c :: cs) = digitsLength p (c :: cs) := by
  simp [markedDigitsLength, h]

private theorem markedDigitsLength_mark (cs : List Char) :
    markedDigitsLength p ('_' :: cs) = lengthAfter 1 (digitsLength p cs) := rfl

private theorem within_markedDigitsLength (hp : IsDigits p) : Within (markedDigitsLength p) := by
  intro cs y hy
  have hd := within_digitsLength hp
  match cs with
  | [] =>
    cases hy with
    | nil => exact Nat.le_refl 0
    | foreign hd' => simp [markedDigitsLength_cons hd'.ne.2.1, hd.eq_zero (.foreign hd')]
    | name => simp [markedDigitsLength_mark, lengthAfter, digitsLength_cons_of_not hp.unit]
  | c :: cs =>
    by_cases hc : c = '_'
    · have := hd cs y hy
      rw [hc, List.cons_append, markedDigitsLength_mark, lengthAfter_le_iff, List.length_cons]
      omega
    · rw [List.cons_append, markedDigitsLength_cons hc]
      exact hd (c :: cs) y hy

private theorem local_markedDigitsLength : Local (markedDigitsLength p) := by
  intro cs rest h
  match cs with
  | [] => exact Nat.le_zero.mp h
  | c :: cs =>
    by_cases hc : c = '_'
    · rw [hc, List.cons_append, markedDigitsLength_mark, lengthAfter_le_iff, List.length_cons] at h
      rw [hc, List.cons_append, markedDigitsLength_mark, local_digitsLength cs rest (by omega),
        markedDigitsLength_mark]
    · rw [List.cons_append, markedDigitsLength_cons hc] at h ⊢
      rw [markedDigitsLength_cons hc]
      exact local_digitsLength (c :: cs) rest h

private theorem drop_markedDigitsLength (hp : IsDigits p)
    (h : cs.length < markedDigitsLength p (cs ++ rest)) :
    cs.drop (markedDigitsLength p cs) = [] ∨ cs.drop (markedDigitsLength p cs) = ['_'] := by
  match cs with
  | [] => exact .inl (by simp)
  | c :: cs =>
    by_cases hc : c = '_'
    · rw [hc, List.cons_append, markedDigitsLength_mark, List.length_cons] at h
      have hle := lengthAfter_le 1 (digitsLength p (cs ++ rest))
      have hlong : cs.length < digitsLength p (cs ++ rest) := by omega
      rw [hc, markedDigitsLength_mark]
      by_cases hzero : digitsLength p cs = 0
      · have hdrop := drop_digitsLength hp hlong
        rw [hzero, List.drop_zero] at hdrop
        rw [hzero]
        rcases hdrop with rfl | rfl
        · exact .inr rfl
        · simp [digitsLength_cons_of_not hp.mark] at hlong
      · rw [lengthAfter, if_neg hzero, Nat.add_comm, List.drop_succ_cons]
        exact drop_digitsLength hp hlong
    · rw [List.cons_append, markedDigitsLength_cons hc] at h
      rw [markedDigitsLength_cons hc]
      exact drop_digitsLength hp h

/-! ### Integers -/

private theorem intLength_cons (h : c ≠ '0') (cs : List Char) :
    intLength (c :: cs) = digitsLength Char.isDigit (c :: cs) := by
  by_cases hc : c.isDigit = true
  · simp [intLength, h, hc]
  · simp [intLength, h, hc, digitsLength_cons_of_not (Bool.not_eq_true _ ▸ hc)]

private theorem within_intLength : Within intLength := by
  intro cs y hy
  have hx := within_markedDigitsLength isDigits_hex
  have hb := within_markedDigitsLength isDigits_binary
  have ho := within_markedDigitsLength isDigits_octal
  have hd := within_digitsLength isDigits_decimal
  match cs with
  | [] =>
    cases hy with
    | nil => exact Nat.le_refl 0
    | foreign hd' => simp [intLength, hd'.ne, hd'.digit]
    | name => simp [intLength]
  | c :: cs =>
    by_cases hc : c = '0'
    · subst hc
      match cs with
      | [] =>
        cases hy with
        | nil => simp [intLength]
        | foreign hd' => simp [intLength, hd'.ne, ho.eq_zero (.foreign hd'), lengthAfter]
        | @name rest => simp [intLength, ho.eq_zero (@Halts.name rest), lengthAfter]
      | d :: cs =>
        have hxs := hx cs y hy
        have hbs := hb cs y hy
        have hos := ho cs y hy
        have hds := ho (d :: cs) y hy
        simp only [List.cons_append, intLength, lengthAfter, List.length_cons] at hds ⊢
        split_ifs <;> omega
    · rw [List.cons_append, intLength_cons hc]
      exact hd (c :: cs) y hy

private theorem local_intLength : Local intLength := by
  intro cs rest h
  match cs with
  | [] => exact Nat.le_zero.mp h
  | c :: cs =>
    by_cases hc : c = '0'
    · subst hc
      match cs, rest with
      | [], [] => rfl
      | [], d :: rest =>
        simp only [List.singleton_append, intLength, List.length_singleton] at h ⊢
        omega
      | d :: cs, rest =>
        have hx := local_markedDigitsLength (p := isHexDigit) cs rest
        have hb := local_markedDigitsLength (p := isBinaryDigit) cs rest
        have ho := local_markedDigitsLength (p := isOctalDigit) cs rest
        have hd := local_markedDigitsLength (p := isOctalDigit) (d :: cs) rest
        simp only [List.cons_append, intLength, Nat.max_le, List.length_cons] at h hd ⊢
        obtain ⟨-, h⟩ := h
        congr 1
        split_ifs at h ⊢ <;> rw [lengthAfter_le_iff] at h
        · rw [hx (by omega)]
        · rw [hb (by omega)]
        · rw [ho (by omega)]
        · rw [hd (by omega)]
    · rw [List.cons_append, intLength_cons hc] at h ⊢
      rw [intLength_cons hc]
      exact local_digitsLength (c :: cs) rest h

/-! ### Floating-point numbers -/

variable {isMark : Char → Bool}

private theorem exponentLength_cons_of_not (h : isMark c = false) (cs : List Char) :
    exponentLength isMark (c :: cs) = 0 := by
  cases cs <;> simp [exponentLength, h]

private theorem within_exponentLength (hm : ∀ d, Foreign d → isMark d = false)
    (hmark : isMark '_' = false) :
    Within (exponentLength isMark) := by
  intro cs y hy
  have hd := within_digitsLength isDigits_decimal
  have hzero : exponentLength isMark y = 0 := by
    cases hy with
    | nil => rfl
    | foreign hd' => exact exponentLength_cons_of_not (hm _ hd') _
    | name => exact exponentLength_cons_of_not hmark _
  match cs with
  | [] => simp [hzero]
  | [m] =>
    cases hy with
    | nil => simp [exponentLength]
    | foreign hd' => simp [exponentLength, hd'.ne, hd.eq_zero (.foreign hd'), lengthAfter]
    | @name rest => simp [exponentLength, hd.eq_zero (@Halts.name rest), lengthAfter]
  | m :: s :: cs =>
    have hds := hd cs y hy
    have hss := hd (s :: cs) y hy
    simp only [List.cons_append, exponentLength, lengthAfter, List.length_cons] at hss ⊢
    split_ifs <;> omega

private theorem local_exponentLength : Local (exponentLength isMark) := by
  intro cs rest h
  match cs, rest with
  | [], _ => exact Nat.le_zero.mp h
  | [m], [] => rfl
  | [m], s :: rest =>
    simp only [List.singleton_append, exponentLength, lengthAfter, List.length_singleton] at h ⊢
    split_ifs at h ⊢ <;> omega
  | m :: s :: cs, rest =>
    have hd := local_digitsLength (p := Char.isDigit) cs rest
    have hs := local_digitsLength (p := Char.isDigit) (s :: cs) rest
    simp only [List.cons_append, exponentLength, List.length_cons] at h hs ⊢
    split_ifs at h ⊢
    · rw [lengthAfter_le_iff] at h
      rw [hd (by omega)]
    · rw [lengthAfter_le_iff] at h
      rw [hs (by omega)]
    · rfl

private theorem exponent_eq_zero_of_short (h : cs = [] ∨ cs = ['_']) (hmark : isMark '_' = false) :
    exponentLength isMark cs = 0 := by
  rcases h with rfl | rfl
  · rfl
  · exact exponentLength_cons_of_not hmark []

/-- What stands behind the digits of a text to which another one is appended. -/
private theorem drop_append {n : Nat} (h : n ≤ cs.length) (rest : List Char) :
    (cs ++ rest).drop n = cs.drop n ++ rest :=
  List.drop_append_of_le_length h

private theorem decimalFloatLength_point {rest : List Char}
    (h : cs.drop (digitsLength Char.isDigit cs) = '.' :: rest) :
    decimalFloatLength cs =
      if digitsLength Char.isDigit cs = 0 && digitsLength Char.isDigit rest = 0 then 0
      else digitsLength Char.isDigit cs + 1 + digitsLength Char.isDigit rest +
        exponentLength (fun c => c = 'e' || c = 'E')
          (rest.drop (digitsLength Char.isDigit rest)) := by
  simp only [decimalFloatLength, h]

private theorem decimalFloatLength_plain
    (h : (cs.drop (digitsLength Char.isDigit cs)).head? ≠ some '.') :
    decimalFloatLength cs = if digitsLength Char.isDigit cs = 0 then 0
      else lengthAfter (digitsLength Char.isDigit cs)
        (exponentLength (fun c => c = 'e' || c = 'E')
          (cs.drop (digitsLength Char.isDigit cs))) := by
  unfold decimalFloatLength
  simp only
  split
  · next rest hrest => simp [hrest] at h
  · rfl

private theorem within_decimalExponent : Within (exponentLength fun c => c = 'e' || c = 'E') :=
  within_exponentLength (fun d h => by simp [h.ne]) (by decide)

private theorem Halts.head?_ne (h : Halts y) : y.head? ≠ some '.' := by
  cases h with
  | nil => simp
  | foreign hd => simpa using hd.ne.2.2.1
  | name => simp

private theorem within_decimalFloatLength : Within decimalFloatLength := by
  intro cs y hy
  have hd := within_digitsLength isDigits_decimal
  have he := within_decimalExponent
  have hw := hd cs y hy
  have hdrop := drop_append hw y
  have hlength := List.length_drop (i := digitsLength Char.isDigit (cs ++ y)) (l := cs)
  by_cases hpoint : ∃ rest, cs.drop (digitsLength Char.isDigit (cs ++ y)) = '.' :: rest
  · obtain ⟨rest, hrest⟩ := hpoint
    rw [hrest, List.length_cons] at hlength
    rw [hrest, List.cons_append] at hdrop
    have hpart := hd rest y hy
    have hexp := he (rest.drop (digitsLength Char.isDigit (rest ++ y))) y hy
    rw [List.length_drop] at hexp
    rw [decimalFloatLength_point hdrop, drop_append hpart]
    split_ifs <;> omega
  · have hplain : ((cs ++ y).drop (digitsLength Char.isDigit (cs ++ y))).head? ≠ some '.' := by
      rw [hdrop]
      cases hmore : cs.drop (digitsLength Char.isDigit (cs ++ y)) with
      | nil => exact hy.head?_ne
      | cons c more =>
        intro hc
        exact hpoint ⟨more, by rw [hmore, Option.some.inj hc]⟩
    have hexp := he (cs.drop (digitsLength Char.isDigit (cs ++ y))) y hy
    rw [decimalFloatLength_plain hplain, hdrop]
    split_ifs
    · exact Nat.zero_le _
    · rw [lengthAfter_le_iff]
      omega

/-- A text with nothing but an underscore behind its digits is no number with a fraction. -/
private theorem decimalFloatLength_eq_zero (h : cs.drop (digitsLength Char.isDigit cs) = [] ∨
    cs.drop (digitsLength Char.isDigit cs) = ['_']) : decimalFloatLength cs = 0 := by
  have hhead : (cs.drop (digitsLength Char.isDigit cs)).head? ≠ some '.' := by
    rcases h with h | h <;> simp [h]
  rw [decimalFloatLength_plain hhead, exponent_eq_zero_of_short h (by decide)]
  simp [lengthAfter]

/-- A number with a fraction is longer than its whole part. -/
private theorem decimalFloatLength_cases (cs : List Char) :
    decimalFloatLength cs = 0 ∨ digitsLength Char.isDigit cs < decimalFloatLength cs := by
  by_cases hpoint : ∃ rest, cs.drop (digitsLength Char.isDigit cs) = '.' :: rest
  · obtain ⟨rest, hrest⟩ := hpoint
    rw [decimalFloatLength_point hrest]
    split_ifs <;> omega
  · have hplain : (cs.drop (digitsLength Char.isDigit cs)).head? ≠ some '.' := by
      intro hhead
      obtain ⟨rest, hrest⟩ := List.head?_eq_some_iff.mp hhead
      exact hpoint ⟨rest, hrest⟩
    rw [decimalFloatLength_plain hplain, lengthAfter]
    split_ifs <;> omega

section

variable {more : List Char} {c : Char}

private theorem decimalFloatLength_append_short
    (hshort : cs.drop (digitsLength Char.isDigit cs) = [] ∨
      cs.drop (digitsLength Char.isDigit cs) = ['_'])
    (h : decimalFloatLength (cs ++ rest) ≤ cs.length) : decimalFloatLength (cs ++ rest) = 0 := by
  rcases decimalFloatLength_cases (cs ++ rest) with hzero | hlong
  · exact hzero
  have hw : digitsLength Char.isDigit (cs ++ rest) ≤ cs.length := by omega
  have hsame := local_digitsLength cs rest hw
  have hdrop := drop_append hw rest
  rw [hsame] at hdrop hlong
  rcases hshort with hnil | hmark
  · have := List.drop_eq_nil_iff.mp hnil
    omega
  · rw [hmark, List.singleton_append] at hdrop
    have hplain : ((cs ++ rest).drop (digitsLength Char.isDigit (cs ++ rest))).head? ≠
        some '.' := by simp [hsame, hdrop]
    rw [decimalFloatLength_plain hplain, hsame, hdrop, exponentLength_cons_of_not (by decide)]
    simp [lengthAfter]

private theorem decimalFloatLength_append_point
    (hmore : cs.drop (digitsLength Char.isDigit cs) = '.' :: more)
    (hw : digitsLength Char.isDigit (cs ++ rest) ≤ cs.length)
    (h : decimalFloatLength (cs ++ rest) ≤ cs.length) :
    decimalFloatLength (cs ++ rest) = decimalFloatLength cs := by
  have hsame := local_digitsLength cs rest hw
  have hdrop := drop_append hw rest
  have hlength := List.length_drop (i := digitsLength Char.isDigit cs) (l := cs)
  rw [hmore, List.length_cons] at hlength
  rw [congrArg (cs.drop ·) hsame, hmore, List.cons_append] at hdrop
  rw [decimalFloatLength_point hmore]
  rw [decimalFloatLength_point hdrop, hsame] at h ⊢
  have hpart : digitsLength Char.isDigit (more ++ rest) ≤ more.length := by
    split_ifs at h with hzero
    · simp only [Bool.and_eq_true, decide_eq_true_eq] at hzero
      omega
    · omega
  have hfraction := local_digitsLength more rest hpart
  rw [hfraction] at h ⊢
  rw [drop_append (hfraction ▸ hpart)] at h ⊢
  split_ifs at h ⊢ with hzero
  · rfl
  · rw [local_exponentLength]
    rw [List.length_drop]
    omega

private theorem decimalFloatLength_append_plain
    (hmore : cs.drop (digitsLength Char.isDigit cs) = c :: more) (hc : c ≠ '.')
    (hw : digitsLength Char.isDigit (cs ++ rest) ≤ cs.length)
    (h : decimalFloatLength (cs ++ rest) ≤ cs.length) :
    decimalFloatLength (cs ++ rest) = decimalFloatLength cs := by
  have hsame := local_digitsLength cs rest hw
  have hdrop := drop_append hw rest
  have hlength := List.length_drop (i := digitsLength Char.isDigit cs) (l := cs)
  rw [hmore, List.length_cons] at hlength
  rw [hsame, hmore, List.cons_append] at hdrop
  have hplain : (cs.drop (digitsLength Char.isDigit cs)).head? ≠ some '.' := by simp [hmore, hc]
  have hplain' : ((cs ++ rest).drop (digitsLength Char.isDigit (cs ++ rest))).head? ≠
      some '.' := by simp [hsame, hdrop, hc]
  rw [decimalFloatLength_plain hplain]
  rw [decimalFloatLength_plain hplain', hsame, hdrop] at h ⊢
  rw [hmore]
  split_ifs at h ⊢ with hzero
  · rfl
  · rw [lengthAfter_le_iff] at h
    have hexponent : Local (exponentLength fun c => c = 'e' || c = 'E') :=
      local_exponentLength
    specialize hexponent (c :: more) rest
    rw [List.cons_append] at hexponent
    rw [hexponent]
    rw [List.length_cons]
    omega

end

private theorem local_decimalFloatLength : Local decimalFloatLength := by
  intro cs rest h
  by_cases hshort : cs.drop (digitsLength Char.isDigit cs) = [] ∨
      cs.drop (digitsLength Char.isDigit cs) = ['_']
  · rw [decimalFloatLength_eq_zero hshort]
    exact decimalFloatLength_append_short hshort h
  have hw : digitsLength Char.isDigit (cs ++ rest) ≤ cs.length := by
    by_contra hlong
    exact hshort (drop_digitsLength isDigits_decimal (Nat.lt_of_not_le hlong))
  cases hmore : cs.drop (digitsLength Char.isDigit cs) with
  | nil => exact absurd (.inl hmore) hshort
  | cons c more =>
    by_cases hc : c = '.'
    · exact decimalFloatLength_append_point (hc ▸ hmore) hw h
    · exact decimalFloatLength_append_plain hmore hc hw h

variable {c x : Char}

private theorem hexFloatLength_point (hx : (x = 'x' || x = 'X') = true)
    (h : cs.drop (markedDigitsLength isHexDigit cs) = '.' :: rest) :
    hexFloatLength ('0' :: x :: cs) =
      if markedDigitsLength isHexDigit cs = 0 && digitsLength isHexDigit rest = 0 then 0
      else lengthAfter (markedDigitsLength isHexDigit cs + digitsLength isHexDigit rest + 3)
        (exponentLength (fun c => c = 'p' || c = 'P')
          (rest.drop (digitsLength isHexDigit rest))) := by
  simp only [hexFloatLength, hx, if_true, h]

private theorem hexFloatLength_plain (hx : (x = 'x' || x = 'X') = true)
    (h : (cs.drop (markedDigitsLength isHexDigit cs)).head? ≠ some '.') :
    hexFloatLength ('0' :: x :: cs) = if markedDigitsLength isHexDigit cs = 0 then 0
      else lengthAfter (markedDigitsLength isHexDigit cs + 2)
        (exponentLength (fun c => c = 'p' || c = 'P')
          (cs.drop (markedDigitsLength isHexDigit cs))) := by
  simp only [hexFloatLength, hx, if_true]
  split
  · next rest hrest => simp [hrest] at h
  · rfl

private theorem hexFloatLength_of_not (h : ¬(c = '0' ∧ (x = 'x' || x = 'X') = true))
    (cs : List Char) :
    hexFloatLength (c :: x :: cs) = 0 := by
  by_cases hc : c = '0'
  · have hx : ¬(x = 'x' || x = 'X') = true := fun hx => h ⟨hc, hx⟩
    rw [hc, hexFloatLength, if_neg hx]
  · simp [hexFloatLength, hc]

private theorem within_hexExponent : Within (exponentLength fun c => c = 'p' || c = 'P') :=
  within_exponentLength (fun d h => by simp [h.ne]) (by decide)

private theorem within_hexFloatLength : Within hexFloatLength := by
  intro cs y hy
  have hd := within_digitsLength isDigits_hex
  have he := within_hexExponent
  match cs with
  | [] =>
    cases hy with
    | nil => exact Nat.le_refl 0
    | foreign hd' => simp [hexFloatLength, hd'.ne]
    | name => simp [hexFloatLength]
  | [c] =>
    cases hy with
    | nil => simp [hexFloatLength]
    | @foreign d rest hd' =>
      have hx : ¬(d = 'x' || d = 'X') = true := by simp [hd'.ne]
      rw [List.singleton_append, hexFloatLength_of_not fun h => hx h.2]
      exact Nat.zero_le _
    | name =>
      rw [List.singleton_append, hexFloatLength_of_not fun h => absurd h.2 (by decide)]
      exact Nat.zero_le _
  | c :: x :: cs =>
    rw [List.cons_append, List.cons_append]
    by_cases hstart : c = '0' ∧ (x = 'x' || x = 'X') = true
    · obtain ⟨rfl, hx⟩ := hstart
      have hw := within_markedDigitsLength isDigits_hex cs y hy
      have hdrop := drop_append hw y
      have hlength := List.length_drop (i := markedDigitsLength isHexDigit (cs ++ y)) (l := cs)
      rw [List.length_cons, List.length_cons]
      by_cases hpoint : ∃ rest, cs.drop (markedDigitsLength isHexDigit (cs ++ y)) = '.' :: rest
      · obtain ⟨rest, hrest⟩ := hpoint
        rw [hrest, List.length_cons] at hlength
        rw [hrest, List.cons_append] at hdrop
        have hpart := hd rest y hy
        have hexp := he (rest.drop (digitsLength isHexDigit (rest ++ y))) y hy
        rw [List.length_drop] at hexp
        rw [hexFloatLength_point hx hdrop, drop_append hpart]
        split_ifs
        · exact Nat.zero_le _
        · rw [lengthAfter_le_iff]
          omega
      · have hplain : ((cs ++ y).drop (markedDigitsLength isHexDigit (cs ++ y))).head? ≠
            some '.' := by
          rw [hdrop]
          cases hmore : cs.drop (markedDigitsLength isHexDigit (cs ++ y)) with
          | nil => exact hy.head?_ne
          | cons c more =>
            intro hc
            exact hpoint ⟨more, by rw [hmore, Option.some.inj hc]⟩
        have hexp := he (cs.drop (markedDigitsLength isHexDigit (cs ++ y))) y hy
        rw [hexFloatLength_plain hx hplain, hdrop]
        split_ifs
        · exact Nat.zero_le _
        · rw [lengthAfter_le_iff]
          omega
    · rw [hexFloatLength_of_not hstart]
      exact Nat.zero_le _

private theorem hexFloatLength_eq_zero (hx : (x = 'x' || x = 'X') = true)
    (h : cs.drop (markedDigitsLength isHexDigit cs) = [] ∨
      cs.drop (markedDigitsLength isHexDigit cs) = ['_']) :
    hexFloatLength ('0' :: x :: cs) = 0 := by
  have hhead : (cs.drop (markedDigitsLength isHexDigit cs)).head? ≠ some '.' := by
    rcases h with h | h <;> simp [h]
  rw [hexFloatLength_plain hx hhead, exponent_eq_zero_of_short h (by decide)]
  simp [lengthAfter]

private theorem hexFloatLength_cases (hx : (x = 'x' || x = 'X') = true) (cs : List Char) :
    hexFloatLength ('0' :: x :: cs) = 0 ∨
      markedDigitsLength isHexDigit cs + 2 < hexFloatLength ('0' :: x :: cs) := by
  by_cases hpoint : ∃ rest, cs.drop (markedDigitsLength isHexDigit cs) = '.' :: rest
  · obtain ⟨rest, hrest⟩ := hpoint
    rw [hexFloatLength_point hx hrest, lengthAfter]
    split_ifs <;> omega
  · have hplain : (cs.drop (markedDigitsLength isHexDigit cs)).head? ≠ some '.' := by
      intro hhead
      obtain ⟨rest, hrest⟩ := List.head?_eq_some_iff.mp hhead
      exact hpoint ⟨rest, hrest⟩
    rw [hexFloatLength_plain hx hplain, lengthAfter]
    split_ifs <;> omega

section

variable {more : List Char} (hx : (x = 'x' || x = 'X') = true)
include hx

private theorem hexFloatLength_append_short
    (hshort : cs.drop (markedDigitsLength isHexDigit cs) = [] ∨
      cs.drop (markedDigitsLength isHexDigit cs) = ['_'])
    (h : hexFloatLength ('0' :: x :: (cs ++ rest)) ≤ cs.length + 2) :
    hexFloatLength ('0' :: x :: (cs ++ rest)) = 0 := by
  rcases hexFloatLength_cases hx (cs ++ rest) with hzero | hlong
  · exact hzero
  have hw : markedDigitsLength isHexDigit (cs ++ rest) ≤ cs.length := by omega
  have hsame := local_markedDigitsLength cs rest hw
  have hdrop := drop_append hw rest
  rw [hsame] at hdrop hlong
  rcases hshort with hnil | hmark
  · have := List.drop_eq_nil_iff.mp hnil
    omega
  · rw [hmark, List.singleton_append] at hdrop
    have hplain : ((cs ++ rest).drop (markedDigitsLength isHexDigit (cs ++ rest))).head? ≠
        some '.' := by simp [hsame, hdrop]
    rw [hexFloatLength_plain hx hplain, hsame, hdrop, exponentLength_cons_of_not (by decide)]
    simp [lengthAfter]

private theorem hexFloatLength_append_point
    (hmore : cs.drop (markedDigitsLength isHexDigit cs) = '.' :: more)
    (hw : markedDigitsLength isHexDigit (cs ++ rest) ≤ cs.length)
    (h : hexFloatLength ('0' :: x :: (cs ++ rest)) ≤ cs.length + 2) :
    hexFloatLength ('0' :: x :: (cs ++ rest)) = hexFloatLength ('0' :: x :: cs) := by
  have hsame := local_markedDigitsLength cs rest hw
  have hdrop := drop_append hw rest
  have hlength := List.length_drop (i := markedDigitsLength isHexDigit cs) (l := cs)
  rw [hmore, List.length_cons] at hlength
  rw [congrArg (cs.drop ·) hsame, hmore, List.cons_append] at hdrop
  rw [hexFloatLength_point hx hmore]
  rw [hexFloatLength_point hx hdrop, hsame] at h ⊢
  by_cases hpart : digitsLength isHexDigit (more ++ rest) ≤ more.length
  · have hpartLength := List.length_drop (i := digitsLength isHexDigit more) (l := more)
    have hfraction := local_digitsLength more rest hpart
    rw [hfraction] at h hpart ⊢
    rw [drop_append hpart] at h ⊢
    split_ifs at h ⊢ with hzero
    · rfl
    · rw [lengthAfter_le_iff] at h
      rw [local_exponentLength]
      omega
  · have hnone : exponentLength (fun c => c = 'p' || c = 'P') _ = 0 := exponent_eq_zero_of_short
      (drop_digitsLength isDigits_hex (Nat.lt_of_not_le hpart)) (by decide)
    have hzero : ¬(markedDigitsLength isHexDigit cs = 0 &&
        digitsLength isHexDigit (more ++ rest) = 0) = true := by
      simp only [Bool.and_eq_true, decide_eq_true_eq]
      omega
    rw [if_neg hzero, lengthAfter_le_iff] at h
    have hexponent : exponentLength (fun c => c = 'p' || c = 'P')
      ((more ++ rest).drop (digitsLength isHexDigit (more ++ rest))) = 0 := by omega
    rw [if_neg hzero, hexponent, hnone]
    simp [lengthAfter]

private theorem hexFloatLength_append_plain
    (hmore : cs.drop (markedDigitsLength isHexDigit cs) = c :: more) (hc : c ≠ '.')
    (hw : markedDigitsLength isHexDigit (cs ++ rest) ≤ cs.length)
    (h : hexFloatLength ('0' :: x :: (cs ++ rest)) ≤ cs.length + 2) :
    hexFloatLength ('0' :: x :: (cs ++ rest)) = hexFloatLength ('0' :: x :: cs) := by
  have hsame := local_markedDigitsLength cs rest hw
  have hdrop := drop_append hw rest
  have hlength := List.length_drop (i := markedDigitsLength isHexDigit cs) (l := cs)
  rw [hmore, List.length_cons] at hlength
  rw [hsame, hmore, List.cons_append] at hdrop
  have hplain : (cs.drop (markedDigitsLength isHexDigit cs)).head? ≠ some '.' := by
    simp [hmore, hc]
  have hplain' : ((cs ++ rest).drop (markedDigitsLength isHexDigit (cs ++ rest))).head? ≠
      some '.' := by simp [hsame, hdrop, hc]
  rw [hexFloatLength_plain hx hplain]
  rw [hexFloatLength_plain hx hplain', hsame, hdrop] at h ⊢
  rw [hmore]
  split_ifs at h ⊢ with hzero
  · rfl
  · rw [lengthAfter_le_iff] at h
    have hexponent : Local (exponentLength fun c => c = 'p' || c = 'P') :=
      local_exponentLength
    specialize hexponent (c :: more) rest
    rw [List.cons_append] at hexponent
    rw [hexponent]
    rw [List.length_cons]
    omega

private theorem hexFloatLength_append
    (h : hexFloatLength ('0' :: x :: (cs ++ rest)) ≤ cs.length + 2) :
    hexFloatLength ('0' :: x :: (cs ++ rest)) = hexFloatLength ('0' :: x :: cs) := by
  by_cases hshort : cs.drop (markedDigitsLength isHexDigit cs) = [] ∨
      cs.drop (markedDigitsLength isHexDigit cs) = ['_']
  · rw [hexFloatLength_eq_zero hx hshort]
    exact hexFloatLength_append_short hx hshort h
  have hw : markedDigitsLength isHexDigit (cs ++ rest) ≤ cs.length := by
    by_contra hlong
    exact hshort (drop_markedDigitsLength isDigits_hex (Nat.lt_of_not_le hlong))
  cases hmore : cs.drop (markedDigitsLength isHexDigit cs) with
  | nil => exact absurd (.inl hmore) hshort
  | cons c more =>
    by_cases hc : c = '.'
    · exact hexFloatLength_append_point hx (hc ▸ hmore) hw h
    · exact hexFloatLength_append_plain hx hmore hc hw h

end

private theorem local_hexFloatLength : Local hexFloatLength := by
  intro cs rest h
  match cs, rest with
  | [], _ => exact Nat.le_zero.mp h
  | [c], [] => rfl
  | [c], x :: rest =>
    by_cases hstart : c = '0' ∧ (x = 'x' || x = 'X') = true
    · obtain ⟨rfl, hx⟩ := hstart
      rcases hexFloatLength_cases hx rest with hzero | hlong
      · simpa [hexFloatLength] using hzero
      · rw [List.singleton_append, List.length_singleton] at h
        omega
    · rw [List.singleton_append, hexFloatLength_of_not hstart]
      simp [hexFloatLength]
  | c :: x :: cs, rest =>
    rw [List.cons_append, List.cons_append] at h ⊢
    by_cases hstart : c = '0' ∧ (x = 'x' || x = 'X') = true
    · obtain ⟨rfl, hx⟩ := hstart
      exact hexFloatLength_append hx h
    · rw [hexFloatLength_of_not hstart, hexFloatLength_of_not hstart]

/-! ### Numbers -/

private theorem within_floatLength : Within floatLength :=
  within_decimalFloatLength.max within_hexFloatLength

private theorem local_floatLength : Local floatLength :=
  local_decimalFloatLength.max local_hexFloatLength

/-- The length of a number with the mark of imaginary ones behind it. -/
private def unitLength (f : List Char → Nat) (cs : List Char) : Nat :=
  if f cs ≠ 0 && (cs.drop (f cs)).head? = some 'i' then f cs + 1 else 0

private theorem imaginaryLength_eq (cs : List Char) : imaginaryLength cs =
    Nat.max (unitLength (digitsLength Char.isDigit) cs)
      (Nat.max (unitLength intLength cs) (unitLength floatLength cs)) := rfl

private theorem within_unitLength (hf : Within f) : Within (unitLength f) := by
  intro cs y hy
  have hle := hf cs y hy
  have hlength := List.length_drop (i := f (cs ++ y)) (l := cs)
  unfold unitLength
  rw [drop_append hle]
  split_ifs with hunit
  · simp only [Bool.and_eq_true, decide_eq_true_eq] at hunit
    cases hmore : cs.drop (f (cs ++ y)) with
    | nil =>
      rw [hmore, List.nil_append] at hunit
      exfalso
      cases hy with
      | nil => simp at hunit
      | foreign hd => exact hd.ne.2.2.2.2.2.2.2.2.2.2.2.2.2.2.2 (by simpa using hunit.2)
      | name => simp at hunit
    | cons c more =>
      rw [hmore, List.length_cons] at hlength
      omega
  · exact Nat.zero_le _

private theorem unitLength_eq (hcs : f (cs ++ rest) = f cs) (hle : f cs ≤ cs.length)
    (h : unitLength f (cs ++ rest) ≤ cs.length) : unitLength f (cs ++ rest) = unitLength f cs := by
  unfold unitLength at h ⊢
  rw [hcs, drop_append hle] at h ⊢
  cases hmore : cs.drop (f cs) with
  | nil =>
    have := List.drop_eq_nil_iff.mp hmore
    rw [hmore, List.nil_append] at h
    split_ifs at h ⊢ <;> simp_all
    omega
  | cons c more => simp

private theorem unitLength_digits
    (h : unitLength (digitsLength Char.isDigit) (cs ++ rest) ≤ cs.length) :
    unitLength (digitsLength Char.isDigit) (cs ++ rest) =
      unitLength (digitsLength Char.isDigit) cs := by
  by_cases hle : digitsLength Char.isDigit (cs ++ rest) ≤ cs.length
  · have hcs := local_digitsLength cs rest hle
    exact unitLength_eq hcs (hcs ▸ hle) h
  · have hnone : unitLength (digitsLength Char.isDigit) cs = 0 := by
      rw [unitLength, if_neg]
      rcases drop_digitsLength isDigits_decimal (Nat.lt_of_not_le hle) with hnil | hmark
      · simp [hnil]
      · simp [hmark]
    rw [hnone]
    unfold unitLength at h ⊢
    split_ifs at h ⊢
    · omega
    · rfl

private theorem within_imaginaryLength : Within imaginaryLength :=
  (within_unitLength (within_digitsLength isDigits_decimal)).max
    ((within_unitLength within_intLength).max (within_unitLength within_floatLength))

/-- A number lies within its text. -/
theorem number?_le {lexeme : Lexeme} {n : Nat} (h : number? cs = some (lexeme, n)) :
    n ≤ cs.length := by
  have hi := within_intLength.le cs
  have hf := within_floatLength.le cs
  have hm := within_imaginaryLength.le cs
  unfold number? at h
  simp only at h
  split_ifs at h <;> simp_all

/-- The number that begins a text begins each part of the text that holds it. -/
theorem number?_cut (h : ∀ lexeme n, number? (cs ++ rest) = some (lexeme, n) → n ≤ cs.length) :
    number? (cs ++ rest) = number? cs := by
  obtain ⟨hint, hfloat, himaginary⟩ : intLength (cs ++ rest) ≤ cs.length ∧
      floatLength (cs ++ rest) ≤ cs.length ∧ imaginaryLength (cs ++ rest) ≤ cs.length := by
    unfold number? at h
    simp only at h
    split_ifs at h with hnone himaginary hint
    · simp only [Bool.and_eq_true, decide_eq_true_eq] at hnone
      omega
    · have := h _ _ rfl
      simp only [Bool.and_eq_true, decide_eq_true_eq] at himaginary
      omega
    · have := h _ _ rfl
      simp only [Bool.and_eq_true, decide_eq_true_eq] at himaginary
      omega
    · have := h _ _ rfl
      simp only [Bool.and_eq_true, decide_eq_true_eq] at himaginary
      omega
  have hi := local_intLength cs rest hint
  have hf := local_floatLength cs rest hfloat
  have hm : imaginaryLength (cs ++ rest) = imaginaryLength cs := by
    rw [imaginaryLength_eq] at himaginary ⊢
    obtain ⟨hdigits, hothers⟩ := Nat.max_le.mp himaginary
    obtain ⟨hints, hfloats⟩ := Nat.max_le.mp hothers
    rw [imaginaryLength_eq, unitLength_digits hdigits, unitLength_eq hi (hi ▸ hint) hints,
      unitLength_eq hf (hf ▸ hfloat) hfloats]
  simp only [number?, hi, hf, hm]

/-- What ends a number need not be looked at to read it. -/
theorem number?_halt (cs : List Char) (hy : Halts y) : number? (cs ++ y) = number? cs := by
  apply number?_cut
  intro lexeme n hn
  have hi := within_intLength cs y hy
  have hf := within_floatLength cs y hy
  have hm := within_imaginaryLength cs y hy
  unfold number? at hn
  simp only at hn
  split_ifs at hn <;> simp_all

/-- A number ends before a character that is part of none. -/
theorem number?_append {d : Char} (hd : Foreign d) (cs rest : List Char) :
    number? (cs ++ d :: rest) = number? cs :=
  number?_halt cs (.foreign hd)

/-- A number holds no character that is foreign to numbers. -/
theorem notMem_number? {lexeme : Lexeme} {n : Nat} {d : Char}
    (h : number? cs = some (lexeme, n)) (hd : Foreign d) : d ∉ cs.take n := by
  intro hmem
  obtain ⟨a, b, hcs, hnone⟩ := List.eq_append_cons_of_mem (List.mem_of_mem_take hmem)
  rw [hcs, number?_append hd] at h
  rw [hcs, List.take_append_of_le_length (number?_le h)] at hmem
  exact hnone (List.mem_of_mem_take hmem)

end GoContracts.Syntax.Token

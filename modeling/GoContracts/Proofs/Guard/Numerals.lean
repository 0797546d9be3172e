import GoContracts.Guard.Constant
import Mathlib.Data.List.Induction

/-!
# Integer literals

The integer literals of the language with their values: decimal digits, or digits of another base
behind `0x`, `0b`, `0o` or a single `0`. An underscore may stand between two digits and behind a
mark of the base. A literal is read as its value, if that is in range.
-/

namespace GoContracts.Constant

variable {base n d : Nat} {c : Char} {cs : List Char} {s : String}

/-! ### The literals of the language -/

/-- The character is the digit with the given value. -/
def IsDigit (base : Nat) (c : Char) (value : Nat) : Prop :=
  value < base ∧
    ("0123456789abcdef".toList[value]? = some c ∨ "0123456789ABCDEF".toList[value]? = some c)

/-- Digits, of which two may have an underscore between them, with the number that they write. -/
inductive Digits (base : Nat) : List Char → Nat → Prop
  | single {c : Char} {d : Nat} (hc : IsDigit base c d) : Digits base [c] d
  | next {cs : List Char} {c : Char} {n d : Nat} (hcs : Digits base cs n) (hc : IsDigit base c d) :
      Digits base (cs ++ [c]) (n * base + d)
  | separated {cs : List Char} {c : Char} {n d : Nat} (hcs : Digits base cs n)
      (hc : IsDigit base c d) : Digits base (cs ++ ['_', c]) (n * base + d)

/-- Digits that may have an underscore before them. -/
inductive MarkedDigits (base : Nat) : List Char → Nat → Prop
  | plain {cs : List Char} {n : Nat} (hcs : Digits base cs n) : MarkedDigits base cs n
  | separated {cs : List Char} {n : Nat} (hcs : Digits base cs n) : MarkedDigits base ('_' :: cs) n

/-- The letters that stand for bases. -/
def baseLetters : List (Char × Nat) :=
  [('x', 16), ('X', 16), ('b', 2), ('B', 2), ('o', 8), ('O', 8)]

/-- The characters are an integer literal of the language with the given value. -/
inductive IsNumeral : List Char → Nat → Prop
  | zero : IsNumeral ['0'] 0
  | decimal {c : Char} {cs : List Char} {n : Nat} (hc : c ≠ '0') (hcs : Digits 10 (c :: cs) n) :
      IsNumeral (c :: cs) n
  | octal {cs : List Char} {n : Nat} (hcs : MarkedDigits 8 cs n) : IsNumeral ('0' :: cs) n
  | based {letter : Char} {cs : List Char} {base n : Nat} (hletter : (letter, base) ∈ baseLetters)
      (hcs : MarkedDigits base cs n) : IsNumeral ('0' :: letter :: cs) n

/-! ### How they are read -/

/-- The value of an integer literal, in range or not. -/
def literalValue? (cs : List Char) : Option Nat :=
  match cs.filter (· != '_') with
  | '0' :: c :: cs =>
    if c = 'x' || c = 'X' then digits? 16 cs
    else if c = 'b' || c = 'B' then digits? 2 cs
    else if c = 'o' || c = 'O' then digits? 8 cs
    else digits? 8 (c :: cs)
  | cs => digits? 10 cs

/-- An integer literal has the value of its digits if this is in range. -/
theorem literal?_eq (s : String) :
    literal? s = (literalValue? s.toList).bind fun value => ranged value := by
  unfold literal? literalValue?
  generalize s.toList.filter (· != '_') = cs
  grind

private theorem IsDigit.digit?_eq (h : IsDigit base c d) (hbase : base ≤ 16) :
    digit? base c = some d := by
  obtain ⟨hd, hc⟩ := h
  have hvalues : ∀ value < 16, "0123456789abcdef".toList[value]?.bind (digit? 16) = some value ∧
      "0123456789ABCDEF".toList[value]?.bind (digit? 16) = some value := by decide
  have hread : digit? 16 c = some d := by
    obtain ⟨hlower, hupper⟩ := hvalues d (Nat.lt_of_lt_of_le hd hbase)
    rcases hc with hc | hc
    · rwa [hc] at hlower
    · rwa [hc] at hupper
  simp only [digit?, Option.filter_eq_some_iff] at hread ⊢
  exact ⟨hread.1, by simpa using hd⟩

private theorem isDigit_of_digit? (h : digit? base c = some d) (hbase : base ≤ 16) :
    IsDigit base c d := by
  have hvalues : ∀ n < 103, ∀ d < 16, digit? 16 (Char.ofNat n) = some d →
      "0123456789abcdef".toList[d]? = some (Char.ofNat n) ∨
        "0123456789ABCDEF".toList[d]? = some (Char.ofNat n) := by decide +kernel
  obtain ⟨hvalue, hd⟩ := Option.filter_eq_some_iff.mp h
  have hd : d < base := of_decide_eq_true hd
  have hcode : c.toNat < 103 := by
    split at hvalue
    · next hdigit =>
      have hle : c.toNat ≤ 57 := (by simpa [Char.isDigit] using hdigit : _ ∧ c.val ≤ 57).2
      omega
    split at hvalue
    · next hlower => exact Nat.lt_succ_of_le (of_decide_eq_true (Bool.and_eq_true_iff.mp hlower).2)
    split at hvalue
    · next hupper =>
      have hle : c.toNat ≤ 70 := of_decide_eq_true (Bool.and_eq_true_iff.mp hupper).2
      omega
    · cases hvalue
  have hread : digit? 16 (Char.ofNat c.toNat) = some d := by
    rw [Char.ofNat_toNat]
    exact Option.filter_eq_some_iff.mpr ⟨hvalue, by simpa using Nat.lt_of_lt_of_le hd hbase⟩
  have hspelled := hvalues c.toNat hcode d (Nat.lt_of_lt_of_le hd hbase) hread
  rw [Char.ofNat_toNat] at hspelled
  exact ⟨hd, hspelled⟩

/-- No digit is an underscore or a letter that stands for a base larger than its own. -/
theorem IsDigit.ne (h : IsDigit base c d) (hbase : base ≤ 16) {e : Char}
    (he : digit? base e = none) :
    c ≠ e := by
  rintro rfl
  simp [h.digit?_eq hbase] at he

private theorem digits?_singleton (h : digit? base c = some d) : digits? base [c] = some d := by
  simp [digits?, h]

private theorem digits?_concat (hcs : digits? base cs = some n) (hc : digit? base c = some d) :
    digits? base (cs ++ [c]) = some (n * base + d) := by
  have hne : cs ≠ [] := by
    rintro rfl
    simp [digits?] at hcs
  have hfold : cs.foldlM (fun n c => (digit? base c).map fun d => n * base + d) 0 = some n := by
    simpa [digits?, hne] using hcs
  simp [digits?, hfold, hc]

/-- What is read without underscores is digits. -/
theorem digits_of_digits? (h : digits? base cs = some n) (hbase : base ≤ 16) :
    Digits base cs n := by
  induction cs using List.reverseRecOn generalizing n with
  | nil => simp [digits?] at h
  | append_singleton cs c ih =>
    have hfold : (cs.foldlM (fun n c => (digit? base c).map fun d => n * base + d) 0).bind
        (fun n => (digit? base c).map fun d => n * base + d) = some n := by
      simpa [digits?, List.foldlM_append] using h
    obtain ⟨m, hm, hc⟩ := Option.bind_eq_some_iff.mp hfold
    obtain ⟨d, hd, rfl⟩ := Option.map_eq_some_iff.mp hc
    have hdigit := isDigit_of_digit? hd hbase
    cases cs with
    | nil =>
      obtain rfl := Option.some.inj hm
      simpa using Digits.single hdigit
    | cons e cs => exact .next (ih (by simpa [digits?] using hm)) hdigit

/-- What is left without underscores. -/
abbrev withoutMarks (cs : List Char) : List Char := cs.filter (· != '_')

private theorem Digits.digits?_eq (h : Digits base cs n) (hbase : base ≤ 16) :
    digits? base (withoutMarks cs) = some n := by
  have hmark : digit? base '_' = none := by
    simp [digit?]
  induction h with
  | single hc =>
    have hne := hc.ne hbase hmark
    simpa [withoutMarks, hne] using digits?_singleton (hc.digit?_eq hbase)
  | next _ hc ih =>
    have hne := hc.ne hbase hmark
    simpa [withoutMarks, hne] using digits?_concat ih (hc.digit?_eq hbase)
  | separated _ hc ih =>
    have hne := hc.ne hbase hmark
    simpa [withoutMarks, hne] using digits?_concat ih (hc.digit?_eq hbase)

private theorem MarkedDigits.digits?_eq (h : MarkedDigits base cs n) (hbase : base ≤ 16) :
    digits? base (withoutMarks cs) = some n := by
  cases h with
  | plain hcs => exact hcs.digits?_eq hbase
  | separated hcs => simpa [withoutMarks] using hcs.digits?_eq hbase

private theorem Digits.head (h : Digits base cs n) :
    ∃ c rest d, cs = c :: rest ∧ IsDigit base c d := by
  induction h with
  | single hc => exact ⟨_, [], _, rfl, hc⟩
  | next _ _ ih =>
    obtain ⟨c, rest, d, rfl, hc⟩ := ih
    exact ⟨c, _, d, rfl, hc⟩
  | separated _ _ ih =>
    obtain ⟨c, rest, d, rfl, hc⟩ := ih
    exact ⟨c, _, d, rfl, hc⟩

/-- The digits of a marked number begin with a digit, if underscores are left out. -/
theorem MarkedDigits.head (h : MarkedDigits base cs n) (hbase : base ≤ 16) :
    ∃ c rest d, withoutMarks cs = c :: rest ∧ IsDigit base c d := by
  have hplain : ∀ {cs}, Digits base cs n → ∃ c rest d, withoutMarks cs = c :: rest ∧
      IsDigit base c d := by
    intro cs hcs
    obtain ⟨c, rest, d, rfl, hc⟩ := hcs.head
    have hne := hc.ne hbase (show digit? base '_' = none by simp [digit?])
    exact ⟨c, withoutMarks rest, d, by simp [withoutMarks, hne], hc⟩
  cases h with
  | plain hcs => exact hplain hcs
  | separated hcs => simpa [withoutMarks] using hplain hcs

private theorem IsNumeral.literalValue?_eq (h : IsNumeral cs n) : literalValue? cs = some n := by
  unfold literalValue?
  cases h with
  | zero =>
    have hzero : digits? 10 ['0'] = some 0 := digits?_singleton (by decide)
    simpa using hzero
  | @decimal c cs _ hc hcs =>
    have hread := hcs.digits?_eq (by decide)
    obtain ⟨_, _, d, heq, hdigit⟩ := hcs.head
    obtain ⟨rfl, -⟩ := List.cons.inj heq
    have hne := hdigit.ne (by decide) (show digit? 10 '_' = none by decide)
    have hfilter : withoutMarks (c :: cs) = c :: withoutMarks cs := by simp [withoutMarks, hne]
    rw [hfilter] at hread
    simp only [hfilter]
    split
    · next heq => exact absurd (List.cons.inj heq).1 hc
    · exact hread
  | @octal cs _ hcs =>
    have hread := hcs.digits?_eq (by decide)
    obtain ⟨c, rest, d, hrest, hdigit⟩ := hcs.head (by decide)
    have hfilter : withoutMarks ('0' :: cs) = '0' :: c :: rest := by
      rw [← hrest]
      rfl
    rw [hrest] at hread
    simp only [hfilter]
    have hx := hdigit.ne (by decide) (show digit? 8 'x' = none by decide)
    have hX := hdigit.ne (by decide) (show digit? 8 'X' = none by decide)
    have hb := hdigit.ne (by decide) (show digit? 8 'b' = none by decide)
    have hB := hdigit.ne (by decide) (show digit? 8 'B' = none by decide)
    have ho := hdigit.ne (by decide) (show digit? 8 'o' = none by decide)
    have hO := hdigit.ne (by decide) (show digit? 8 'O' = none by decide)
    simp [hx, hX, hb, hB, ho, hO, hread]
  | @based letter cs base _ hletter hcs =>
    simp only [baseLetters, List.mem_cons, Prod.mk.injEq, List.not_mem_nil, or_false] at hletter
    have hbase : base ≤ 16 := by omega
    have hread := hcs.digits?_eq hbase
    rcases hletter with ⟨rfl, rfl⟩ | ⟨rfl, rfl⟩ | ⟨rfl, rfl⟩ | ⟨rfl, rfl⟩ | ⟨rfl, rfl⟩ | ⟨rfl, rfl⟩
    all_goals simpa [withoutMarks] using hread

/-- A literal is read as its value. -/
theorem IsNumeral.literal?_eq (h : IsNumeral s.toList n) : literal? s = ranged n := by
  rw [Constant.literal?_eq, h.literalValue?_eq, Option.bind_some]

end GoContracts.Constant

import GoContracts.Text.Slice
import Mathlib.Data.String.Basic

/-!
# Slices and trimming

A slice by byte positions is the middle of a text that is cut in three. Trimming forgets the blanks
around a text and keeps all other characters. A trimmed text has no blanks at its ends: trimming
leaves it as it is, and gives it back when blanks were put around it.
-/

namespace GoContracts.Text

/-- No characters take no bytes. -/
@[simp] theorem byteLength_nil : byteLength [] = 0 := rfl

/-- The first character takes its bytes before the rest. -/
@[simp] theorem byteLength_cons (c : Char) (cs : List Char) :
    byteLength (c :: cs) = c.utf8Size + byteLength cs := rfl

/-- Two parts take the bytes of both. -/
@[simp] theorem byteLength_append (a b : List Char) :
    byteLength (a ++ b) = byteLength a + byteLength b := by
  induction a with
  | nil => rw [List.nil_append, byteLength_nil, Nat.zero_add]
  | cons c cs ih => rw [List.cons_append, byteLength_cons, byteLength_cons, ih, Nat.add_assoc]

/-- The order does not matter for the bytes. -/
@[simp] theorem byteLength_reverse (cs : List Char) : byteLength cs.reverse = byteLength cs := by
  induction cs with
  | nil => rfl
  | cons c cs ih =>
    rw [List.reverse_cons, byteLength_append, ih, byteLength_cons, byteLength_cons, byteLength_nil,
      Nat.add_zero, Nat.add_comm]

/-- Characters take bytes. -/
theorem byteLength_pos {cs : List Char} (h : cs ≠ []) : 0 < byteLength cs := by
  obtain ⟨c, rest, rfl⟩ := List.exists_cons_of_ne_nil h
  have := c.utf8Size_pos
  rw [byteLength_cons]
  omega

private theorem utf8Len_eq_byteLength (cs : List Char) : String.utf8Len cs = byteLength cs := by
  induction cs with
  | nil => rfl
  | cons c cs ih => rw [String.utf8Len_cons, ih, byteLength_cons, Nat.add_comm]

/-- The size of a text is the bytes of its characters. -/
theorem size_eq (s : String) : size s = byteLength s.toList := by
  rw [size, ← utf8Len_eq_byteLength, String.utf8Len_toList]

private theorem utf8EncodeChar_low {c : Char} (h : c.toNat ≤ 127) :
    (String.utf8EncodeChar c).map (fun b => Char.ofNat b.toNat) = [c] := by
  have hbyte : (UInt8.ofNat c.toNat).toNat = c.toNat := by
    show c.toNat % 256 = c.toNat
    exact Nat.mod_eq_of_lt (by omega)
  simp [String.utf8EncodeChar, show c.val.toNat = c.toNat from rfl, h, hbyte]

private theorem utf8EncodeChar_high {c : Char} (h : 127 < c.toNat) :
    (String.utf8EncodeChar c).all (· < 128) = false := by
  have hlarge (m n : Nat) (hm : m < 64) (hn : 128 ≤ n) (hn' : n ≤ 192) :
      ¬ UInt8.ofNat (m + n) < 128 := by
    rw [UInt8.lt_iff_toNat_lt]
    show ¬ (m + n) % 256 < 128
    omega
  have hlast : ¬ UInt8.ofNat (c.toNat % 64 + 128) < 128 :=
    hlarge _ _ (Nat.mod_lt _ (by decide)) (by decide) (by decide)
  have hlow : ¬ c.val.toNat ≤ 127 := Nat.not_le_of_lt h
  rw [String.utf8EncodeChar, List.all_eq_false]
  refine ⟨UInt8.ofNat (c.toNat % 64 + 128), ?_, by simpa using hlast⟩
  show _ ∈ (if c.val.toNat ≤ 127 then _ else _)
  rw [if_neg hlow]
  split
  · simp
  · split
    · simp
    · simp

private theorem map_flatMap_encode {cs : List Char}
    (h : (cs.flatMap String.utf8EncodeChar).all (· < 128) = true) :
    (cs.flatMap String.utf8EncodeChar).map (fun b => Char.ofNat b.toNat) = cs := by
  induction cs with
  | nil => rfl
  | cons c cs ih =>
    rw [List.flatMap_cons, List.all_append, Bool.and_eq_true] at h
    rw [List.flatMap_cons, List.map_append, ih h.2]
    by_cases hc : c.toNat ≤ 127
    · rw [utf8EncodeChar_low hc, List.singleton_append]
    · rw [utf8EncodeChar_high (Nat.lt_of_not_le hc)] at h
      exact absurd h.1 Bool.false_ne_true

/-- Reading the bytes off gives the characters of the text. -/
@[simp] theorem chars_eq (s : String) : chars s = s.toList := by
  have hbytes : s.toByteArray.data.toList = s.toList.flatMap String.utf8EncodeChar := by
    rw [← String.utf8Encode_toList, List.utf8Encode]
    simp
  rw [chars, hbytes]
  by_cases h : (s.toList.flatMap String.utf8EncodeChar).all (· < 128) = true
  · simp only [h, if_true]
    exact map_flatMap_encode h
  · simp only [h, if_false, Bool.false_eq_true]

/-- Splitting is done on the characters of the text. -/
theorem splitAt_eq (sep : Char) (s : String) :
    splitAt sep s = (splitChars sep s.toList).map String.ofList := by
  rw [splitAt, chars_eq]

/-- The characters of a slice are the part of the text that it is cut from. -/
theorem toList_slice (s : String) (start stop : Nat) :
    (slice s start stop).toList = part s start stop := String.toList_ofList

/-- A slice is what the standard library extracts. -/
theorem slice_eq_extract (s : String) (start stop : Nat) :
    slice s start stop = String.Pos.Raw.extract s ⟨start⟩ ⟨stop⟩ := by
  rw [slice, part, chars_eq, String.Pos.Raw.extract]
  by_cases h : stop ≤ start
  · simp [h]
  · simp [h]

/-- The slice from the end of the first part to the end of the second is the second part. -/
theorem slice_ofList (a m b : List Char) :
    slice (String.ofList (a ++ m ++ b)) (byteLength a) (byteLength a + byteLength m) =
      String.ofList m := by
  rw [slice_eq_extract, ← utf8Len_eq_byteLength, ← utf8Len_eq_byteLength]
  exact String.extract_of_valid a m b

/-- Of two cuts of a text the one at the earlier byte leaves more behind it. -/
theorem exists_middle {a b c d : List Char} (h : a ++ b = c ++ d)
    (hl : byteLength a ≤ byteLength c) : ∃ m, c = a ++ m ∧ b = m ++ d := by
  rcases List.append_eq_append_iff.mp h with ⟨m, hc, hb⟩ | ⟨m, ha, hd⟩
  · exact ⟨m, hc, hb⟩
  · have hm : m = [] := by
      by_contra hne
      have hpos := byteLength_pos hne
      rw [ha, byteLength_append] at hl
      omega
    exact ⟨[], by simp [ha, hm], by simp [hd, hm]⟩

/-! ### Beginnings -/

private theorem after?_eq_some {p cs rest : List Char} :
    after? p cs = some rest ↔ cs = p ++ rest := by
  induction p generalizing cs with
  | nil => simp [after?]
  | cons c p ih =>
    cases cs with
    | nil => simp [after?]
    | cons d cs =>
      rw [after?, Option.ite_none_right_eq_some, ih, List.cons_append, List.cons.injEq]
      exact and_congr_left' eq_comm

/-- Behind the prefix of a text stands the rest. -/
theorem after?_append (p rest : List Char) : after? p (p ++ rest) = some rest :=
  after?_eq_some.mpr rfl

/-- A text does not begin with what holds a character that it lacks. -/
theorem after?_eq_none {c : Char} {p cs : List Char} (hc : c ∈ p) (h : c ∉ cs) :
    after? p cs = none := by
  rw [Option.eq_none_iff_forall_ne_some]
  intro rest hrest
  rw [after?_eq_some.mp hrest] at h
  exact h (List.mem_append_left rest hc)

/-! ### Trimming -/

private theorem dropEndWhile_append {p : Char → Bool} {b : List Char} (hb : ∀ c ∈ b, p c = true)
    (m : List Char) : dropEndWhile p (m ++ b) = dropEndWhile p m := by
  rw [dropEndWhile, List.reverse_append, List.dropWhile_append_of_pos (by simpa using hb),
    dropEndWhile]

/-- Characters to be dropped around a text make no difference. -/
theorem stripWhile_append {p : Char → Bool} {a b : List Char} (ha : ∀ c ∈ a, p c = true)
    (hb : ∀ c ∈ b, p c = true) (m : List Char) :
    stripWhile p (a ++ m ++ b) = stripWhile p m := by
  rw [stripWhile, List.append_assoc, List.dropWhile_append_of_pos ha, stripWhile]
  by_cases hm : m.dropWhile p = []
  · rw [List.dropWhile_append, hm, List.isEmpty_nil, if_pos rfl]
    have hdrop : (b ++ []).dropWhile p = [] := List.dropWhile_append_of_pos hb
    rw [List.append_nil] at hdrop
    rw [hdrop]
  · rw [List.dropWhile_append, if_neg (by simpa using hm), dropEndWhile_append hb]

/-- Stripping adds no characters. -/
theorem mem_of_mem_stripWhile {p : Char → Bool} {c : Char} {cs : List Char}
    (h : c ∈ stripWhile p cs) : c ∈ cs := by
  rw [stripWhile, dropEndWhile, List.mem_reverse] at h
  have hmem := (List.dropWhile_sublist p).mem h
  exact (List.dropWhile_sublist p).mem (List.mem_reverse.mp hmem)

private theorem countP_dropWhile (p : Char → Bool) (cs : List Char) :
    (cs.dropWhile p).countP (!p ·) = cs.countP (!p ·) := by
  conv_rhs => rw [← List.takeWhile_append_dropWhile (p := p) (l := cs), List.countP_append]
  have hnone : (cs.takeWhile p).countP (!p ·) = 0 := by
    rw [List.countP_eq_zero]
    intro c hc
    simpa using List.all_eq_true.mp List.all_takeWhile c hc
  rw [hnone, Nat.zero_add]

/-- No other characters are dropped. -/
theorem countP_stripWhile (p : Char → Bool) (cs : List Char) :
    (stripWhile p cs).countP (!p ·) = cs.countP (!p ·) := by
  rw [stripWhile, dropEndWhile, List.countP_reverse, countP_dropWhile, List.countP_reverse,
    countP_dropWhile]

/-! ### Trimmed texts -/

/-- Whether the first text is the second one with blanks before and behind it. -/
def Pads (padded cs : List Char) : Prop :=
  ∃ a b, padded = a ++ cs ++ b ∧ (∀ c ∈ a, isBlank c = true) ∧ ∀ c ∈ b, isBlank c = true

/-- Whether no blanks stand at the ends of a text. -/
structure Trimmed (cs : List Char) : Prop where
  first : ∀ c, cs.head? = some c → isBlank c = false
  last : ∀ c, cs.getLast? = some c → isBlank c = false

namespace Trimmed

variable {a b cs : List Char}

/-- Characters are trimmed if there is no blank at their ends. -/
theorem of_ends (h : (cs.head?.all (!isBlank ·) && cs.getLast?.all (!isBlank ·)) = true) :
    Trimmed cs := by
  obtain ⟨hfirst, hlast⟩ := Bool.and_eq_true_iff.mp h
  exact ⟨fun c hc => by simpa [hc] using hfirst, fun c hc => by simpa [hc] using hlast⟩

/-- No blanks are dropped from trimmed characters. -/
theorem dropWhile_eq (h : Trimmed cs) : cs.dropWhile isBlank = cs := by
  cases cs with
  | nil => rfl
  | cons c cs => exact List.dropWhile_cons_of_neg (by simp [h.first c rfl])

/-- No blanks are stripped from trimmed characters. -/
theorem stripWhile_eq (h : Trimmed cs) : stripWhile isBlank cs = cs := by
  have hlast : cs.reverse.dropWhile isBlank = cs.reverse := by
    cases hr : cs.reverse with
    | nil => rfl
    | cons c more =>
      have hc : cs.getLast? = some c := by rw [List.getLast?_eq_head?_reverse, hr, List.head?_cons]
      exact List.dropWhile_cons_of_neg (by simp [h.last c hc])
  rw [stripWhile, h.dropWhile_eq, dropEndWhile, hlast, List.reverse_reverse]

/-- Blanks around a trimmed text are what trimming drops. -/
theorem stripWhile_padded (h : Trimmed cs) (ha : ∀ c ∈ a, isBlank c = true)
    (hb : ∀ c ∈ b, isBlank c = true) : stripWhile isBlank (a ++ cs ++ b) = cs := by
  rw [stripWhile_append ha hb, h.stripWhile_eq]

/-- A text that begins and ends with trimmed ones is trimmed, whatever stands between them. -/
theorem append (ha : Trimmed a) (hb : Trimmed b) (hane : a ≠ []) (hbne : b ≠ [])
    (m : List Char) : Trimmed (a ++ m ++ b) where
  first c hc := by
    obtain ⟨d, more, rfl⟩ := List.exists_cons_of_ne_nil hane
    exact ha.first c (by simpa using hc)
  last c hc := by
    rw [List.getLast?_append_of_ne_nil _ hbne] at hc
    exact hb.last c hc

end Trimmed

end GoContracts.Text

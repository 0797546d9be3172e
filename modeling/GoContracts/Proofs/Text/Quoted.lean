import GoContracts.Guard.Constant
import GoContracts.Proofs.Text.Slices
import GoContracts.Syntax.Token
import GoContracts.Text.Quoted

/-!
# Quoting a message

A quoted text is one literal. Reading the literal gives the text back if the text has no control
characters but newlines and tabs, which are the ones whose escapes are read.
-/

namespace GoContracts.Text.Quoted

/-- Whether reading a literal knows the escape that stands for the character: it is no control
character or one of newline and tab. -/
def isMessageChar (c : Char) : Bool := c = '\n' || c = '\t' || !(c.toNat < 0x20 || c.toNat = 0x7F)

private theorem hexDigit_ne (n : Nat) : hexDigit n ≠ '"' ∧ hexDigit n ≠ '\\' := by
  have hn : n % 16 < 16 := Nat.mod_lt n (by decide)
  unfold hexDigit
  generalize n % 16 = k at hn
  decide +revert

/-- How one character stands inside a literal: as itself or after a backslash. -/
theorem encodeChar_cases (c : Char) :
    (encodeChar c = [c] ∧ c ≠ '"' ∧ c ≠ '\\' ∧ (c.toNat < 0x20 || c.toNat = 0x7F) = false) ∨
      ∃ e more, encodeChar c = '\\' :: e :: more ∧ '"' ∉ more ∧ '\\' ∉ more := by
  unfold encodeChar
  split
  · exact .inr ⟨'"', [], rfl, by simp, by simp⟩
  · exact .inr ⟨'\\', [], rfl, by simp, by simp⟩
  · exact .inr ⟨'n', [], rfl, by simp, by simp⟩
  · exact .inr ⟨'r', [], rfl, by simp, by simp⟩
  · exact .inr ⟨'t', [], rfl, by simp, by simp⟩
  · next hquote hslash _ _ _ =>
    split
    · refine .inr ⟨'x', [hexDigit (c.toNat / 16), hexDigit c.toNat], rfl, ?_, ?_⟩
      · simp [(hexDigit_ne (c.toNat / 16)).1.symm, (hexDigit_ne c.toNat).1.symm]
      · simp [(hexDigit_ne (c.toNat / 16)).2.symm, (hexDigit_ne c.toNat).2.symm]
    · next hplain => exact .inl ⟨rfl, hquote, hslash, by simpa using hplain⟩

/-- Characters that neither end nor escape anything stand inside a literal. -/
theorem isBody_append_plain {cs : List Char} (hquote : '"' ∉ cs) (hslash : '\\' ∉ cs)
    (more : List Char) : isBody false (cs ++ more) = isBody false more := by
  induction cs with
  | nil => rfl
  | cons c cs ih =>
    rw [List.mem_cons, not_or] at hquote hslash
    rw [List.cons_append, isBody, if_neg (Ne.symm hslash.1), ih hquote.2 hslash.2]
    simp [Ne.symm hquote.1]

private theorem isBody_encode_append (cs more : List Char) :
    isBody false (encode cs ++ more) = isBody false more := by
  induction cs with
  | nil => rfl
  | cons c cs ih =>
    rw [encode, List.flatMap_cons, ← encode, List.append_assoc]
    rcases encodeChar_cases c with ⟨hc, hquote, hslash, _⟩ | ⟨e, rest, hc, hquote, hslash⟩
    · rw [hc, isBody_append_plain (by simp [hquote.symm]) (by simp [hslash.symm]), ih]
    · rw [hc, List.cons_append, List.cons_append, isBody, if_pos rfl, isBody,
        isBody_append_plain hquote hslash, ih]

/-- What is written between quotation marks can stand there. -/
theorem isBody_encode (cs : List Char) : isBody false (encode cs) = true := by
  have h := isBody_encode_append cs []
  rwa [List.append_nil] at h

private theorem unquote?_of_isBody {inner : List Char} (h : isBody false inner = true) :
    unquote? ('"' :: inner ++ ['"']) = some (decode inner) := by
  simp [unquote?, body?, h]

/-- Only a literal is read. -/
theorem exists_body_of_unquote? {cs message : List Char} (h : unquote? cs = some message) :
    ∃ inner, cs = '"' :: inner ++ ['"'] ∧ isBody false inner = true := by
  obtain ⟨body, hbody, _⟩ := Option.map_eq_some_iff.mp h
  rw [body?.eq_def] at hbody
  split at hbody
  · next rest =>
    split at hbody
    · next hrest =>
      rw [Bool.and_eq_true, decide_eq_true_eq] at hrest
      obtain ⟨inner, rfl⟩ := List.getLast?_eq_some_iff.mp hrest.1
      rw [List.dropLast_concat] at hrest
      exact ⟨inner, rfl, hrest.2⟩
    · exact absurd hbody (by simp)
  · exact absurd hbody (by simp)

private theorem decode_cons_plain {c : Char} (h : c ≠ '\\') (cs : List Char) :
    decode (c :: cs) = c :: decode cs := by
  rw [decode.eq_def]
  split <;> simp_all

/-- An escape that is not known is left as it stands. -/
theorem decode_encodeChar_append (c : Char) (cs : List Char) :
    decode (encodeChar c ++ cs) =
      (if isMessageChar c then [c] else encodeChar c) ++ decode cs := by
  unfold encodeChar
  split
  · rfl
  · rfl
  · rfl
  · rfl
  · rfl
  · next _ hslash hnewline _ htab =>
    have hmessage : isMessageChar c = !(c.toNat < 0x20 || c.toNat = 0x7F) := by
      simp [isMessageChar, show c ≠ '\n' from hnewline, show c ≠ '\t' from htab]
    rw [hmessage]
    split
    · next hcontrol =>
      rw [hcontrol, Bool.not_true, if_neg Bool.false_ne_true]
      simp only [List.cons_append, List.nil_append]
      rw [decode.eq_6 _ _ (by decide) (by decide) (by decide) (by decide),
        decode_cons_plain (hexDigit_ne _).2, decode_cons_plain (hexDigit_ne _).2]
    · next hplain =>
      rw [Bool.eq_false_of_not_eq_true hplain, Bool.not_false, if_pos rfl,
        List.singleton_append, decode_cons_plain hslash, List.singleton_append]

/-- A text is read back from its literal if and only if it has no other control characters. -/
theorem decode_encode_iff {cs : List Char} :
    decode (encode cs) = cs ↔ ∀ c ∈ cs, isMessageChar c = true := by
  induction cs with
  | nil => simp [encode, decode]
  | cons c cs ih =>
    rw [encode, List.flatMap_cons, ← encode, decode_encodeChar_append, List.forall_mem_cons, ← ih]
    by_cases hc : isMessageChar c = true
    · simp [hc]
    · -- The text read back begins with the backslash of the escape, which is a message character.
      have hne : encodeChar c ++ decode (encode cs) ≠ c :: cs := by
        rcases encodeChar_cases c with ⟨_, _, _, hplain⟩ | ⟨e, more, hescape, _⟩
        · simp [isMessageChar, hplain] at hc
        · rw [hescape]
          intro h
          obtain rfl : '\\' = c := (List.cons.inj h).1
          exact hc (by decide)
      simp [hc, hne]

/-- The literal of a message stands for the message. -/
theorem unquote?_quote {message : String} (h : ∀ c ∈ message.toList, isMessageChar c = true) :
    unquote? (quote message).toList = some message.toList := by
  rw [quote, String.toList_ofList, unquote?_of_isBody (isBody_encode _),
    decode_encode_iff.mpr h]

end GoContracts.Text.Quoted

/-!
## The value of a literal

By the rules of the language an interpreted string literal has a sequence of bytes as its value: its
characters in UTF-8 and what its escapes stand for. A quoted text is such a literal, and its value
is the text. A directive reads fewer escapes, so a text with other control characters than newlines
and tabs is quoted well but not read back.
-/

namespace GoContracts.Text.Quoted

/-! ### Interpreted string literals -/

/-- The escapes of a single character with the bytes that they stand for. -/
def letterEscapes : List (Char × UInt8) :=
  [('a', 7), ('b', 8), ('f', 12), ('n', 10), ('r', 13), ('t', 9), ('v', 11), ('\\', 92), ('"', 34)]

/-- The number that the first characters write in a base, if there are as many and all are
digits. -/
def leadingNumber? (base count : Nat) (cs : List Char) : Option Nat :=
  if count ≤ cs.length then Constant.digits? base (cs.take count) else none

/-- The byte with the given number. -/
def byte? (n : Nat) : Option (List UInt8) := if n < 256 then some [n.toUInt8] else none

/-- The code point with the given number, in UTF-8. -/
def codePoint? (n : Nat) : Option (List UInt8) :=
  if n.isValidChar then some (String.utf8EncodeChar (Char.ofNat n)) else none

/-- The bytes that the escape behind a backslash stands for, and the number of its characters. Two
hexadecimal or three octal digits write a byte, four or eight hexadecimal digits a code point. -/
def escape? : List Char → Option (List UInt8 × Nat)
  | [] => none
  | c :: cs =>
    if c = 'x' then ((leadingNumber? 16 2 cs).bind byte?).map (·, 3)
    else if c = 'u' then ((leadingNumber? 16 4 cs).bind codePoint?).map (·, 5)
    else if c = 'U' then ((leadingNumber? 16 8 cs).bind codePoint?).map (·, 9)
    else if Syntax.Token.isOctalDigit c then ((leadingNumber? 8 3 (c :: cs)).bind byte?).map (·, 3)
    else (letterEscapes.lookup c).map ([·], 1)

/-- The bytes of a literal from a place behind its opening mark on. The counter is the number of
characters that belong to an escape whose bytes are known. -/
def bytesFrom? : Nat → List Char → Option (List UInt8)
  | _, [] => none
  | n + 1, _ :: cs => bytesFrom? n cs
  | 0, c :: cs =>
    if c = '"' then if cs.isEmpty then some [] else none
    else if c = '\n' then none
    else if c = '\\' then
      (escape? cs).bind fun (bytes, length) => (bytesFrom? length cs).map (bytes ++ ·)
    else (bytesFrom? 0 cs).map (String.utf8EncodeChar c ++ ·)

/-- The value of an interpreted string literal; none if the text is not exactly one. -/
def interpret? : List Char → Option (List UInt8)
  | '"' :: cs => bytesFrom? 0 cs
  | _ => none

variable {c : Char} {cs : List Char}

/-- Behind an escape the literal goes on. -/
theorem bytesFrom?_append (a cs : List Char) : bytesFrom? a.length (a ++ cs) = bytesFrom? 0 cs := by
  induction a with
  | nil => rfl
  | cons c a ih => exact ih

private theorem bytesFrom?_escape {a : List Char} {bytes : List UInt8}
    (h : escape? (a ++ cs) = some (bytes, a.length)) :
    bytesFrom? 0 ('\\' :: (a ++ cs)) = (bytesFrom? 0 cs).map (bytes ++ ·) := by
  rw [bytesFrom?, if_neg (by decide), if_neg (by decide), if_pos rfl, h, Option.bind_some]
  exact congrArg (Option.map (bytes ++ ·)) (bytesFrom?_append a cs)

example : interpret? "\"\\x41\\u00e9\\101\\\"\"".toList = some [65, 195, 169, 65, 34] := by
  decide +kernel

private theorem bytesFrom?_plain (hquote : c ≠ '"') (hnewline : c ≠ '\n') (hslash : c ≠ '\\') :
    bytesFrom? 0 (c :: cs) = (bytesFrom? 0 cs).map (String.utf8EncodeChar c ++ ·) := by
  rw [bytesFrom?, if_neg hquote, if_neg hnewline, if_neg hslash]

/-! ### Quoted texts -/

/-- Whether the character is a control character of the ASCII range. -/
def isControl (c : Char) : Bool := c.toNat < 0x20 || c.toNat = 0x7F

private theorem isMessageChar_iff :
    isMessageChar c = true ↔ (isControl c = true → c = '\n' ∨ c = '\t') := by
  simp only [isMessageChar, isControl, Bool.or_eq_true, Bool.not_eq_true', decide_eq_true_eq,
    ← Bool.not_eq_true]
  tauto

/-- The hexadecimal digits of a byte write the byte. -/
theorem digits?_hexDigits :
    ∀ n < 256, Constant.digits? 16 [hexDigit (n / 16), hexDigit n] = some n := by
  decide +kernel

private theorem isControl_hexDigit (n : Nat) : isControl (hexDigit n) = false := by
  have hn : n % 16 < 16 := Nat.mod_lt n (by decide)
  unfold hexDigit
  generalize n % 16 = k at hn
  decide +revert

/-- A control character is a single byte. -/
theorem utf8EncodeChar_of_isControl (h : isControl c = true) :
    c.toNat < 256 ∧ String.utf8EncodeChar c = [c.toNat.toUInt8] := by
  have hc : c.toNat ≤ 127 := by
    rw [isControl, Bool.or_eq_true, decide_eq_true_eq, decide_eq_true_eq] at h
    omega
  exact ⟨by omega, if_pos hc⟩

/-- No control character stands in a literal. -/
theorem isControl_encodeChar (c : Char) : ∀ d ∈ encodeChar c, isControl d = false := by
  have hnone : (encodeChar c).any isControl = false := by
    unfold encodeChar
    split
    · rfl
    · rfl
    · rfl
    · rfl
    · rfl
    · split
      · simp only [List.any_cons, List.any_nil, isControl_hexDigit]
        rfl
      · next hplain =>
        rw [List.any_cons, List.any_nil, Bool.or_false, isControl]
        exact Bool.eq_false_of_not_eq_true hplain
  simpa using hnone

/-- The value of an encoded character is the character. -/
theorem bytesFrom?_encodeChar_append (c : Char) (cs : List Char) :
    bytesFrom? 0 (encodeChar c ++ cs) = (bytesFrom? 0 cs).map (String.utf8EncodeChar c ++ ·) := by
  unfold encodeChar
  split
  · exact bytesFrom?_escape (a := ['"']) rfl
  · exact bytesFrom?_escape (a := ['\\']) rfl
  · exact bytesFrom?_escape (a := ['n']) rfl
  · exact bytesFrom?_escape (a := ['r']) rfl
  · exact bytesFrom?_escape (a := ['t']) rfl
  · next hquote hslash hnewline _ _ =>
    split
    · next hcontrol =>
      obtain ⟨hbyte, hutf8⟩ := utf8EncodeChar_of_isControl hcontrol
      have hdigits : leadingNumber? 16 2 (hexDigit (c.toNat / 16) :: hexDigit c.toNat :: cs) =
          some c.toNat := by
        rw [leadingNumber?, if_pos (by simp)]
        exact digits?_hexDigits _ hbyte
      refine bytesFrom?_escape (a := ['x', hexDigit (c.toNat / 16), hexDigit c.toNat]) ?_
      simp only [List.cons_append, List.nil_append, escape?, if_pos, hdigits, byte?, hbyte, hutf8,
        Option.bind_some, Option.map_some, List.length_cons, List.length_nil]
    · exact bytesFrom?_plain hquote hnewline hslash

private theorem bytesFrom?_encode (cs : List Char) :
    bytesFrom? 0 (encode cs ++ ['"']) = some (cs.flatMap String.utf8EncodeChar) := by
  induction cs with
  | nil => rfl
  | cons c cs ih =>
    rw [encode, List.flatMap_cons, ← encode, List.append_assoc, bytesFrom?_encodeChar_append, ih,
      Option.map_some, List.flatMap_cons]

/-- What holds of a text and its literal. -/
structure Survives (s : String) : Prop where
  /-- The literal stands in one line and holds no control characters. -/
  controlFree : ∀ c ∈ (quote s).toList, isControl c = false
  /-- A directive takes the literal for exactly one. -/
  accepted : (body? (quote s).toList).isSome = true
  /-- The value of the literal is the text. -/
  value : (interpret? (quote s).toList).map List.toByteArray = some s.toByteArray
  /-- A directive reads the text back if it knows the escapes. -/
  unquoted : unquote? (quote s).toList = some s.toList ↔
    ∀ c ∈ s.toList, isControl c = true → c = '\n' ∨ c = '\t'

/-- Every text survives quoting. -/
theorem survives_quote (s : String) : Survives s where
  controlFree c hc := by
    rw [quote, String.toList_ofList, List.cons_append, List.mem_cons, List.mem_append,
      List.mem_singleton] at hc
    rcases hc with rfl | hc | rfl
    · rfl
    · obtain ⟨d, _, hd⟩ := List.mem_flatMap.mp hc
      exact isControl_encodeChar d c hd
    · rfl
  accepted := by simp [quote, body?, isBody_encode]
  value := by
    rw [quote, String.toList_ofList, List.cons_append, interpret?, bytesFrom?_encode,
      Option.map_some]
    exact congrArg some String.utf8Encode_toList
  unquoted := by
    rw [quote, String.toList_ofList, unquote?_of_isBody (isBody_encode _), Option.some_inj,
      decode_encode_iff]
    simp only [isMessageChar_iff]

example : interpret? (quote "\r\n").toList = some [13, 10] ∧
    unquote? (quote "\r\n").toList = some "\\r\n".toList := by
  decide +kernel

end GoContracts.Text.Quoted

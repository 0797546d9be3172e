import GoContracts.Text.Blank

/-!
# Positions and lines of a text

Positions count the bytes of a text in UTF-8. A line is what stands between two newlines; its
length does not include the newline.
-/

namespace GoContracts.Text

/-- Number of bytes of the text in UTF-8. -/
def byteLength (cs : List Char) : Nat := cs.foldr (fun c n => c.utf8Size + n) 0

/-- The characters of a text. Where each of them takes one byte, the bytes are read off without
being decoded. -/
def chars (s : String) : List Char :=
  let bytes := s.toByteArray.data.toList
  if bytes.all (· < 128) then bytes.map (fun b => Char.ofNat b.toNat) else s.toList

/-- The characters from byte `start` up to byte `stop`; none if `stop ≤ start`. -/
def part (s : String) (start stop : Nat) : List Char :=
  if stop ≤ start then [] else String.Pos.Raw.extract.go₁ (chars s) 0 ⟨start⟩ ⟨stop⟩

/-- The part of the text from byte `start` up to byte `stop`; empty if `stop ≤ start`. -/
def slice (s : String) (start stop : Nat) : String := String.ofList (part s start stop)

/-- Number of bytes of the text. -/
def size (s : String) : Nat := s.utf8ByteSize

/-- The pieces of a text between occurrences of `sep`; one more than there are occurrences. -/
def splitChars (sep : Char) : List Char → List (List Char)
  | [] => [[]]
  | c :: cs =>
    if c = sep then [] :: splitChars sep cs
    else match splitChars sep cs with
      | [] => [[c]]
      | p :: ps => (c :: p) :: ps

/-- The pieces of a text between occurrences of `sep`. -/
def splitAt (sep : Char) (s : String) : List String := (splitChars sep (chars s)).map String.ofList

/-- The lines of a text: the pieces between its newlines. -/
def lines (s : String) : List String := splitAt '\n' s

/-- The last piece after an occurrence of `sep`; the whole text if there is none. -/
def afterLast (sep : Char) (s : String) : String :=
  String.ofList ((s.toList.reverse.takeWhile (· != sep)).reverse)

/-- The rest of a text after the given beginning. -/
def after? : List Char → List Char → Option (List Char)
  | [], text => some text
  | p :: ps, c :: cs => if p = c then after? ps cs else none
  | _ :: _, [] => none

/-- Position where the line that holds byte `at` begins. -/
def lineStart (s : String) (pos : Nat) : Nat :=
  pos - byteLength ((part s 0 pos).reverse.takeWhile (· != '\n'))

/-- Position of the newline that ends the line holding byte `pos`, or the end of the text. -/
def lineEnd (s : String) (pos : Nat) : Nat :=
  pos + byteLength ((part s pos (size s)).takeWhile (· != '\n'))

/-- Number of the line, counted from zero, that holds byte `pos`. -/
def rowAt (s : String) (pos : Nat) : Nat := (part s 0 pos).count '\n'

/-- Number of bytes between the start of its line and byte `pos`. -/
def columnAt (s : String) (pos : Nat) : Nat := pos - lineStart s pos

/-- The blanks and tabs at the start of the line that holds byte `pos`. -/
def indentAt (s : String) (pos : Nat) : String :=
  String.ofList ((part s (lineStart s pos) (lineEnd s pos)).takeWhile isIndent)

/-- Whether only blanks stand before byte `pos` on its line. -/
def startsLine (s : String) (pos : Nat) : Bool := (part s (lineStart s pos) pos).all isBlank

/-- Whether only blanks stand after byte `pos` on its line. -/
def endsLine (s : String) (pos : Nat) : Bool := (part s pos (lineEnd s pos)).all isBlank

/-- Position of the first of the blanks and tabs right before byte `pos`. -/
def indentStart (s : String) (pos : Nat) : Nat :=
  pos - byteLength ((part s 0 pos).reverse.takeWhile isIndent)

/-- Position after the last of the blanks and tabs that begin at byte `pos`. -/
def indentEnd (s : String) (pos : Nat) : Nat :=
  pos + byteLength ((part s pos (size s)).takeWhile isIndent)

/-- As many newlines as the text holds. -/
def newlinesOf (s : String) : String := String.ofList (s.toList.filter (· = '\n'))

/-- Splitting always yields at least one piece. -/
theorem splitChars_ne_nil (sep : Char) (cs : List Char) : splitChars sep cs ≠ [] := by
  induction cs with
  | nil => simp [splitChars]
  | cons c cs ih =>
    unfold splitChars
    split
    · simp
    · split <;> simp

end GoContracts.Text

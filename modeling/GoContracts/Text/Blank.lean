/-!
# Blanks and trimming

A blank is a character with the Unicode property `White_Space`. Trimming drops the blanks at the
ends of a text and nothing else.
-/

namespace GoContracts.Text

/-- Whether `c` has the Unicode property `White_Space`. -/
def isBlank (c : Char) : Bool :=
  let n := c.toNat
  (9 ≤ n && n ≤ 13) || n = 32 || n = 0x85 || n = 0xA0 || n = 0x1680 ||
    (0x2000 ≤ n && n ≤ 0x200A) || n = 0x2028 || n = 0x2029 || n = 0x202F || n = 0x205F || n = 0x3000

/-- The blanks and tabs that indent a line. -/
def isIndent (c : Char) : Bool := c = ' ' || c = '\t'

/-- Drop the characters at the end that satisfy `p`. -/
def dropEndWhile (p : Char → Bool) (cs : List Char) : List Char :=
  (cs.reverse.dropWhile p).reverse

/-- Drop the characters at both ends that satisfy `p`. -/
def stripWhile (p : Char → Bool) (cs : List Char) : List Char :=
  dropEndWhile p (cs.dropWhile p)

/-- The text without the blanks before and after it. -/
def trim (s : String) : String := String.ofList (stripWhile isBlank s.toList)

/-- Whether the text holds blanks only. -/
def isAllBlank (s : String) : Bool := s.toList.all isBlank

/-- The maximal runs of characters that are no blanks. -/
def words : List Char → List (List Char)
  | [] => []
  | c :: cs =>
    if isBlank c then words cs
    else match cs with
      | [] => [[c]]
      | d :: ds =>
        if isBlank d then [c] :: words ds
        else match words (d :: ds) with
          | [] => [[c]]
          | w :: ws => (c :: w) :: ws

/-- The text with each run of blanks narrowed to one space and none at the ends. -/
def collapseBlanks (s : String) : String :=
  " ".intercalate ((words s.toList).map String.ofList)

end GoContracts.Text

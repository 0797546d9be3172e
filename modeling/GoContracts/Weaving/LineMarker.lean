import GoContracts.Text.Slice

/-!
# Line markers

A marker before a line of generated text gives that line the number it has in the text it was
generated from. Generated lines are compared, without the blanks around them, with the lines of the
reference in order. A marker is written where lines correspond again after inserted lines or after
lines that were stripped from the text.
-/

namespace GoContracts.LineMarker

/-- The marker for the line of the given number, counted from zero. -/
def text (path : String) (index : Nat) : String := "//line " ++ path ++ ":" ++ toString (index + 1)

/-- A line of the reference with its number, counted from zero. -/
abbrev Numbered := String × Nat

/-- Whether two lines have the same text apart from the blanks around it. -/
def corresponds (a b : String) : Bool := Text.trim a = Text.trim b

/-- The lines of the reference that are left after stripped ones at the front. -/
def dropStripped (stripped : List Nat) (rest : List Numbered) : List Numbered :=
  rest.dropWhile fun numbered => stripped.contains numbered.2

/-- Where a generated line corresponds to the reference: whether stripped lines come before, the
number of the line, and what follows it. -/
def matching? (stripped : List Nat) (rest : List Numbered) (line : String) :
    Option (Bool × Nat × List Numbered) :=
  match rest with
  | [] => none
  | (next, index) :: after =>
    if corresponds line next then some (false, index, after)
    else
      match dropStripped stripped rest with
      | [] => none
      | (next, index) :: after => if corresponds line next then some (true, index, after) else none

/-- The generated lines with markers between them. `inserted` tells that the line before belongs to
no line of the reference. -/
def mark (path : String) (stripped : List Nat) :
    List Numbered → Bool → List String → List String
  | _, _, [] => []
  | rest, inserted, line :: lines =>
    match matching? stripped rest line with
    | some (skips, index, after) =>
      (if inserted || skips then [text path index] else []) ++
        line :: mark path stripped after false lines
    | none => line :: mark path stripped rest true lines

/-- The generated text with markers. The numbers of stripped lines count from zero. -/
def insertAll (path : String) (reference : List String) (stripped : List Nat)
    (generated : String) : String :=
  "\n".intercalate (mark path stripped reference.zipIdx false (Text.lines generated))

end GoContracts.LineMarker

import GoContracts.Text.Slice

/-!
# Edits

An edit replaces a range of bytes of a text. Edits are applied from left to right; one that begins
before the end of an earlier one, or reaches beyond the text, is left out.
-/

namespace GoContracts

/-- The replacement of a range of a text. -/
structure Edit where
  /-- Position of the first byte that is replaced. -/
  start : Nat
  /-- Position after the last byte that is replaced. -/
  stop : Nat
  /-- What takes the place of the range. -/
  text : String
  /-- Whether the edit keeps the number of lines. -/
  inPlace : Bool := false
  deriving DecidableEq, Repr

namespace Edit

/-- Insert a text at a position. -/
def insert (pos : Nat) (text : String) : Edit := { start := pos, stop := pos, text }

/-- Remove a range, with its newlines. -/
def remove (start stop : Nat) : Edit := { start, stop, text := "" }

/-- Replace a range by a text with as many newlines. -/
def replace (start stop : Nat) (text : String) : Edit := { start, stop, text, inPlace := true }

/-- Whether `a` comes before `b` or has the same range. -/
def ordered (a b : Edit) : Bool := a.start < b.start || (a.start = b.start && a.stop ≤ b.stop)

/-- The text from position `cursor` on, with the edits applied that fit. -/
def splice (source : String) : Nat → List Edit → String
  | cursor, [] => Text.slice source cursor (Text.size source)
  | cursor, e :: es =>
    if e.start < cursor || Text.size source < e.stop then splice source cursor es
    else Text.slice source cursor e.start ++ e.text ++ splice source e.stop es

/-- The text with all edits applied. Edits of the same range keep their order. -/
def applyAll (source : String) (edits : List Edit) : String :=
  splice source 0 (edits.mergeSort ordered)

/-- The text with only those edits applied that keep the number of lines. -/
def applyInPlace (source : String) (edits : List Edit) : String :=
  applyAll source (edits.filter (·.inPlace))

end Edit

end GoContracts

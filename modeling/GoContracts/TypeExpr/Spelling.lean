import GoContracts.Text.Alphanumeric
import GoContracts.Text.Slice
import GoContracts.TypeExpr.Basic

/-!
# Reading types from their spelling

The tables of well-known packages give types by their spelling. The reader knows the forms that
occur there: names, pointers, slices, maps, channels, functions and the empty interface.
-/

namespace GoContracts.TypeExpr

open Text (after? isBlank stripWhile)

/-- Whether a character may stand in a name, qualified or not. -/
def isNameChar (c : Char) : Bool := Text.isAlphanumeric c || c = '_' || c = '.'

/-- The shape of a name: what stands before the first point qualifies it. -/
def nameShape (cs : List Char) : Shape :=
  match cs.span (· != '.') with
  | (name, []) => .named none (String.ofList name) []
  | (qualifier, _ :: name) => .named (some (String.ofList qualifier)) (String.ofList name) []

/-- The type that a text spells. Each part of a type is shorter than the type, so the length of the
text bounds the depth. -/
def ofChars : Nat → List Char → TypeExpr
  | 0, cs => unknown (String.ofList (stripWhile isBlank cs))
  | n + 1, cs =>
    let cs := stripWhile isBlank cs
    let shape : Shape :=
      match after? ['*'] cs with
      | some inner => .pointer (ofChars n inner)
      | none =>
      match after? ['[', ']'] cs with
      | some inner => .slice (ofChars n inner)
      | none =>
      match after? ['m', 'a', 'p', '['] cs with
      | some rest =>
        match rest.span (· != ']') with
        | (key, _ :: value) => .map (ofChars n key) (ofChars n value)
        | _ => .unknown
      | none =>
      match after? ['c', 'h', 'a', 'n', ' '] cs with
      | some inner => .chan (ofChars n inner)
      | none =>
      if (after? ['f', 'u', 'n', 'c', '('] cs).isSome then .func
      else if cs = "interface\x7b\x7d".toList then .interface [] []
      else if !cs.isEmpty && cs.all isNameChar then nameShape cs
      else .unknown
    mk (String.ofList cs) shape

/-- The type that a text spells; its shape is unknown for spellings of any other form. -/
def ofText (s : String) : TypeExpr := ofChars (s.toList.length + 1) s.toList

end GoContracts.TypeExpr

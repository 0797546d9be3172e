import GoContracts.Glob.Basic

/-!
# Matching of patterns

Patterns are matched against the bytes of a text in UTF-8: `?` and a class stand for one byte. A
token leaves, of a given text, all those rests that it can leave.
-/

namespace GoContracts.Glob

/-- The bytes of a character. -/
abbrev bytes (c : Char) : List UInt8 := String.utf8EncodeChar c

/-- The bytes of a text. -/
def textBytes (s : String) : List UInt8 := s.toList.flatMap bytes

/-- The byte of a slash. -/
def slash : UInt8 := '/'.toNat.toUInt8

/-- All rests of a text, itself among them. -/
def rests : List UInt8 → List (List UInt8)
  | [] => [[]]
  | b :: bs => (b :: bs) :: rests bs

/-- The rests of a text up to and including the one that begins with its first slash. -/
def restsToSlash : List UInt8 → List (List UInt8)
  | [] => [[]]
  | b :: bs => if b = slash then [b :: bs] else (b :: bs) :: restsToSlash bs

/-- The rests of a text after each of its slashes. -/
def restsAfterSlash : List UInt8 → List (List UInt8)
  | [] => []
  | b :: bs => if b = slash then bs :: restsAfterSlash bs else restsAfterSlash bs

/-- The rest after the given bytes. -/
def afterBytes? : List UInt8 → List UInt8 → Option (List UInt8)
  | [], text => some text
  | p :: ps, b :: bs => if p = b then afterBytes? ps bs else none
  | _ :: _, [] => none

/-- The ranges of bytes that a range of characters covers: between two different characters the
range runs from the last byte of the first to the first byte of the last. -/
def byteRanges (range : Char × Char) : List (UInt8 × UInt8) :=
  let single := fun b : UInt8 => (b, b)
  if range.1 = range.2 then (bytes range.1).map single
  else
    let first := bytes range.1
    let last := bytes range.2
    first.dropLast.map single ++ [(first.getLastD 0, last.headD 0)] ++ last.tail.map single

/-- Whether a class covers a byte. -/
def coversByte (ranges : List (Char × Char)) (b : UInt8) : Bool :=
  (ranges.flatMap byteRanges).any fun range => range.1 ≤ b && b ≤ range.2

mutual

/-- Whether a token matches the empty text only. -/
def Token.isVoid : Token → Bool
  | .alternatives branches => areVoid branches
  | _ => false

/-- Whether all tokens match the empty text only. -/
def isVoidBranch : List Token → Bool
  | [] => true
  | t :: ts => t.isVoid && isVoidBranch ts

/-- Whether all branches match the empty text only. -/
def areVoid : List (List Token) → Bool
  | [] => true
  | branch :: branches => isVoidBranch branch && areVoid branches

end

/-- The rests of different length. -/
def distinct (texts : List (List UInt8)) : List (List UInt8) :=
  texts.eraseDupsBy fun a b => a.length == b.length

mutual

/-- The rests that a token can leave of a text. -/
def Token.leaves (stopsAtSlash : Bool) (text : List UInt8) : Token → List (List UInt8)
  | .literal c => (afterBytes? (bytes c) text).toList
  | .any =>
    match text with
    | [] => []
    | b :: bs => if stopsAtSlash && b = slash then [] else [bs]
  | .star => if stopsAtSlash then restsToSlash text else rests text
  | .anyDirectories => text :: restsAfterSlash text
  | .anythingBelow => (afterBytes? [slash] text).toList.flatMap rests
  | .betweenDirectories =>
    (afterBytes? [slash] text).toList.flatMap fun below => below :: restsAfterSlash below
  | .oneOf negated ranges =>
    match text with
    | [] => []
    | b :: bs => if coversByte ranges b != negated then [bs] else []
  | .alternatives branches =>
    if areVoid branches then [text] else branchesLeave stopsAtSlash text branches

/-- The rests that tokens in order can leave of any of the texts. -/
def branchLeaves (stopsAtSlash : Bool) (texts : List (List UInt8)) :
    List Token → List (List UInt8)
  | [] => texts
  | t :: ts =>
    branchLeaves stopsAtSlash (distinct (texts.flatMap fun text => t.leaves stopsAtSlash text)) ts

/-- The rests that one of the branches can leave; those for the empty text do not count. -/
def branchesLeave (stopsAtSlash : Bool) (text : List UInt8) :
    List (List Token) → List (List UInt8)
  | [] => []
  | branch :: branches =>
    (if isVoidBranch branch then [] else branchLeaves stopsAtSlash [text] branch) ++
      branchesLeave stopsAtSlash text branches

end

/-- Whether a pattern matches a text. A double star on its own matches everything. -/
def isMatch (glob : Glob) (text : String) : Bool :=
  match glob.tokens with
  | [.anyDirectories] => true
  | tokens => (branchLeaves glob.stopsAtSlash [textBytes text] tokens).any (·.isEmpty)

end GoContracts.Glob

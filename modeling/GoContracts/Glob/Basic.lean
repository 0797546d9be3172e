import GoContracts.Text.Slice

/-!
# Glob patterns

A pattern is read into tokens. A double star between slashes stands for any number of directories;
anywhere else it is no different from two single stars. Groups of alternatives may be nested.
-/

namespace GoContracts

namespace Glob

/-- A part of a pattern. -/
inductive Token where
  /-- A character that stands for itself. -/
  | literal (c : Char)
  /-- `?` -/
  | any
  /-- `*` -/
  | star
  /-- `**/` at the beginning. -/
  | anyDirectories
  /-- `/**` at the end. -/
  | anythingBelow
  /-- `/**/` in between. -/
  | betweenDirectories
  /-- A class of characters, given by ranges. -/
  | oneOf (negated : Bool) (ranges : List (Char × Char))
  /-- A group of alternatives. -/
  | alternatives (branches : List (List Token))
  deriving Repr

/-- Why a text is no pattern. -/
inductive Fault where
  | unclosedClass
  | invalidRange (first last : Char)
  | unclosedGroup
  | unopenedGroup
  | danglingEscape
  deriving DecidableEq, Repr

/-- How a fault is put. -/
def Fault.reason : Fault → String
  | unclosedClass => "unclosed character class; missing ']'"
  | invalidRange first last =>
    "invalid range; '" ++ first.toString ++ "' > '" ++ last.toString ++ "'"
  | unclosedGroup =>
    "unclosed alternate group; missing '\x7d' (maybe escape '\x7b' with '[\x7b]'?)"
  | unopenedGroup =>
    "unopened alternate group; missing '\x7b' (maybe escape '\x7d' with '[\x7d]'?)"
  | danglingEscape => "dangling '\\'"

/-- The message for a text with a fault. -/
def Fault.message (text : String) (fault : Fault) : String :=
  "error parsing glob '" ++ text ++ "': " ++ fault.reason

/-! ## Reading -/

/-- The ranges of a class and what follows it. A bracket closes the class unless it comes first; a
dash between two characters makes a range of them. The ranges so far stand last first. -/
def classBody (first inRange : Bool) (ranges : List (Char × Char)) :
    List Char → Except Fault (List (Char × Char) × List Char)
  | [] => .error .unclosedClass
  | c :: cs =>
    if c = ']' && !first then
      .ok ((if inRange then ('-', '-') :: ranges else ranges).reverse, cs)
    else if c = '-' && !first && !inRange then classBody false true ranges cs
    else if inRange then
      match ranges with
      | (a, _) :: others =>
        if c < a then .error (.invalidRange a c) else classBody false false ((a, c) :: others) cs
      | [] => classBody false false [(c, c)] cs
    else classBody false false ((c, c) :: ranges) cs

/-- A class and what follows it. -/
def readClass (cs : List Char) : Except Fault (Token × List Char) :=
  let negated := cs.head?.any fun c => c = '!' || c = '^'
  (classBody true false [] (if negated then cs.tail else cs)).map fun (ranges, rest) =>
    (.oneOf negated ranges, rest)

/-- What has been read of a pattern. -/
structure Reading where
  /-- The tokens of the current branch, last first. -/
  tokens : List Token := []
  /-- The finished branches of the innermost open group, last first. -/
  branches : List (List Token) := []
  /-- The same for what is around each open group, innermost first. -/
  around : List (List Token × List (List Token)) := []

namespace Reading

/-- Add a token. -/
def push (r : Reading) (t : Token) : Reading := { r with tokens := t :: r.tokens }

/-- Whether a group is open. -/
def inGroup (r : Reading) : Bool := !r.around.isEmpty

/-- Open a group. -/
def openGroup (r : Reading) : Reading := { around := (r.tokens, r.branches) :: r.around }

/-- End a branch. Outside of groups a comma stands for itself. -/
def comma (r : Reading) : Reading :=
  if r.inGroup then { r with tokens := [], branches := r.tokens.reverse :: r.branches }
  else r.push (.literal ',')

/-- Close the innermost group. -/
def closeGroup (r : Reading) : Except Fault Reading :=
  match r.around with
  | [] => .error .unopenedGroup
  | (tokens, branches) :: around =>
    .ok { tokens := .alternatives (r.tokens.reverse :: r.branches).reverse :: tokens
          branches, around }

/-- Add a double star after a slash: it takes the place of the slash, unless the last token allows
any directories already. -/
def pushDirectories (r : Reading) (t : Token) : Reading :=
  match r.tokens with
  | .anyDirectories :: _ | .anythingBelow :: _ => r
  | _ :: tokens => { r with tokens := t :: tokens }
  | [] => r.push t

/-- Add a double star after the character `last?` and before `rest`. The outcome tells whether the
slash that follows belongs to it. -/
def doubleStar (r : Reading) (last? : Option Char) (rest : List Char) : Reading × Bool :=
  let plain := (r.push .star).push .star
  let next? := rest.head?
  if r.tokens.isEmpty then
    if next?.all (· = '/') then (r.push .anyDirectories, true) else (plain, false)
  else if last? = some '/' || (r.inGroup && (last? = some ',' || last? = some '\x7b')) then
    if next? = none || (r.inGroup && (next? = some ',' || next? = some '\x7d')) then
      (r.pushDirectories .anythingBelow, false)
    else if next? = some '/' then (r.pushDirectories .betweenDirectories, true)
    else (plain, false)
  else (plain, false)

end Reading

/-- Reading a class leaves less to read. -/
theorem length_of_classBody {first inRange : Bool} {ranges found : List (Char × Char)}
    {cs rest : List Char} (h : classBody first inRange ranges cs = .ok (found, rest)) :
    rest.length < cs.length := by
  induction cs generalizing first inRange ranges with
  | nil => simp [classBody] at h
  | cons c cs ih =>
    unfold classBody at h
    repeat' split at h
    all_goals first
      | exact Nat.lt_succ_of_lt (ih h)
      | (simp only [Except.ok.injEq, Prod.mk.injEq] at h; simp [← h.2])
      | cases h

/-- Reading a class leaves less to read. -/
theorem length_of_readClass {t : Token} {cs rest : List Char} (h : readClass cs = .ok (t, rest)) :
    rest.length < cs.length := by
  unfold readClass at h
  cases hb : classBody true false []
      (if (cs.head?.any fun c => c = '!' || c = '^') = true then cs.tail else cs) with
  | error e => simp [hb, Except.map] at h
  | ok found =>
    simp only [hb, Except.map, Except.ok.injEq, Prod.mk.injEq] at h
    obtain ⟨ranges, left⟩ := found
    have := length_of_classBody hb
    rw [← h.2]
    split at this
    · exact Nat.lt_of_lt_of_le this (by simp)
    · exact this

/-- The tokens of the rest of a pattern, after the character `last?`. -/
def read (last? : Option Char) (r : Reading) : List Char → Except Fault (List Token)
  | [] => if r.inGroup then .error .unclosedGroup else .ok r.tokens.reverse
  | '?' :: cs => read (some '?') (r.push .any) cs
  | '*' :: '*' :: cs =>
    match r.doubleStar last? cs, cs with
    | (r, true), c :: cs => read (some c) r cs
    | (r, _), cs => read (some '*') r cs
  | '*' :: cs => read (some '*') (r.push .star) cs
  | '\\' :: [] => .error .danglingEscape
  | '\\' :: c :: cs => read (some c) (r.push (.literal c)) cs
  | c :: cs =>
    if c = '[' then
      match h : readClass cs with
      | .error e => .error e
      | .ok (token, rest) =>
        have := length_of_readClass h
        read (some ']') (r.push token) rest
    else if c = '\x7b' then read (some c) r.openGroup cs
    else if c = '\x7d' then
      match r.closeGroup with
      | .error e => .error e
      | .ok r => read (some c) r cs
    else if c = ',' then read (some c) r.comma cs
    else read (some c) (r.push (.literal c)) cs
termination_by cs => cs.length

end Glob

/-- A pattern. -/
structure Glob where
  text : String
  tokens : List Glob.Token
  /-- Whether `?` and `*` stop at a slash. -/
  stopsAtSlash : Bool
  deriving Repr

/-- Read a pattern. -/
def Glob.parse (stopsAtSlash : Bool) (text : String) : Except Glob.Fault Glob :=
  (Glob.read none {} text.toList).map fun tokens => { text, tokens, stopsAtSlash }

end GoContracts

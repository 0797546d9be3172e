import GoContracts.Proofs.Syntax.Readers
import GoContracts.Proofs.Syntax.Seats
import GoContracts.Proofs.Text.Slices
import GoContracts.TypeExpr.OfTree
import GoContracts.TypeExpr.Spelling
import Mathlib.Data.List.TakeDrop
import Mathlib.Data.List.TakeWhile

/-!
# Plain types and their spelling

Plain types are built from names, pointers, slices, maps, channels, functions and the empty
interface. Each has one canonical spelling, and the type that this spelling gives when it is read as
a text is the plain type itself, part by part, unless a key of a map has a closing bracket. A
function type is not taken apart.
-/

namespace GoContracts

/-- The words that are no names. -/
def Syntax.keywords : List String :=
  ["break", "case", "chan", "const", "continue", "default", "defer", "else", "fallthrough", "for",
    "func", "go", "goto", "if", "import", "interface", "map", "package", "range", "return",
    "select", "struct", "switch", "type", "var"]

/-- Identifiers are recognized. -/
instance Text.decidableIsIdentifier : DecidablePred Text.IsIdentifier
  | [] => isFalse fun ⟨_, _, h, _⟩ => nomatch h
  | c :: cs => decidable_of_iff
      (Text.isIdentifierStart c = true ∧ cs.all Text.isIdentifierPart = true)
      ⟨fun h => ⟨c, cs, rfl, h.1, List.all_eq_true.mp h.2⟩, by
        rintro ⟨_, _, ⟨⟩, hc, hcs⟩
        exact ⟨hc, List.all_eq_true.mpr hcs⟩⟩

/-- A name: letters, digits and underscores that begin with no digit and make no keyword. The
grammar also joins marks to a word, which no name of the language has. -/
structure TypeName where
  chars : List Char
  identifier : Text.IsIdentifier chars
  alphanumeric : ∀ c ∈ chars, Text.isAlphanumeric c = true ∨ c = '_'
  notKeyword : String.ofList chars ∉ Syntax.keywords

/-- Characters that tests find to be a name. -/
def TypeName.of (cs : List Char) (h : Text.IsIdentifier cs ∧
    (cs.all fun c => Text.isAlphanumeric c || c = '_') = true ∧
    String.ofList cs ∉ Syntax.keywords) : TypeName where
  chars := cs
  identifier := h.1
  alphanumeric := by simpa using h.2.1
  notKeyword := h.2.2

mutual

/-- A type whose spelling both readers of types know. -/
inductive PlainType where
  | named (name : TypeName)
  | qualified (qualifier name : TypeName)
  | pointer (target : PlainType)
  | slice (element : PlainType)
  | map (key value : PlainType)
  | chan (element : PlainType)
  | func (parameters : PlainParameters) (result : PlainResult)
  /-- The empty interface. -/
  | interface

/-- A parameter of a function type. -/
inductive PlainParameter where
  | unnamed (type : PlainType)
  | named (name : TypeName) (type : PlainType)
  /-- A name that shares the type of the parameter behind it. -/
  | shared (name : TypeName)
  | variadic (name? : Option TypeName) (element : PlainType)

/-- The parameters of a function type. -/
inductive PlainParameters where
  | nil
  | cons (first : PlainParameter) (more : PlainParameters)

/-- The result of a function type. -/
inductive PlainResult where
  | none
  | type (type : PlainType)
  | list (results : PlainParameters)

end

/-! ### Spelling -/

/-- What parts a parameter from those behind it. -/
def PlainParameters.separator : PlainParameters → List Char
  | nil => []
  | cons _ _ => [',', ' ']

mutual

/-- The canonical spelling of a type. -/
def PlainType.chars : PlainType → List Char
  | .named x => x.chars
  | .qualified q x => q.chars ++ '.' :: x.chars
  | .pointer t => '*' :: t.chars
  | .slice t => '[' :: ']' :: t.chars
  | .map k v => ['m', 'a', 'p'] ++ '[' :: (k.chars ++ ']' :: v.chars)
  | .chan t => ['c', 'h', 'a', 'n'] ++ ' ' :: t.chars
  | .func ps r => ['f', 'u', 'n', 'c'] ++ '(' :: (ps.chars ++ ')' :: r.chars)
  | .interface => ['i', 'n', 't', 'e', 'r', 'f', 'a', 'c', 'e'] ++ ['\x7b', '\x7d']

/-- The canonical spelling of a parameter. -/
def PlainParameter.chars : PlainParameter → List Char
  | .unnamed t => t.chars
  | .named x t => x.chars ++ ' ' :: t.chars
  | .shared x => x.chars
  | .variadic none t => '.' :: '.' :: '.' :: t.chars
  | .variadic (some x) t => x.chars ++ ' ' :: '.' :: '.' :: '.' :: t.chars

/-- The canonical spelling of parameters, without the parentheses. -/
def PlainParameters.chars : PlainParameters → List Char
  | .nil => []
  | .cons p ps => p.chars ++ ps.separator ++ ps.chars

/-- The canonical spelling of a result, with the blank before it. -/
def PlainResult.chars : PlainResult → List Char
  | .none => []
  | .type t => ' ' :: t.chars
  | .list ps => ' ' :: '(' :: (ps.chars ++ [')'])

end

namespace PlainType

/-- The canonical spelling of a type. -/
def spelling (t : PlainType) : String := String.ofList t.chars

/-- The shape of a type. -/
def shape : PlainType → Shape
  | named x => .named none (String.ofList x.chars) []
  | qualified q x => .named (some (String.ofList q.chars)) (String.ofList x.chars) []
  | pointer t => .pointer (.mk t.spelling t.shape)
  | slice t => .slice (.mk t.spelling t.shape)
  | map k v => .map (.mk k.spelling k.shape) (.mk v.spelling v.shape)
  | chan t => .chan (.mk t.spelling t.shape)
  | func _ _ => .func
  | interface => .interface [] []

/-- The type with the canonical spelling of each of its parts. -/
def expr (t : PlainType) : TypeExpr := .mk t.spelling t.shape

/-- Whether no key of a map is spelled with a closing bracket. Within a function type maps may have
any keys. -/
def KeysBare : PlainType → Prop
  | pointer t | slice t | chan t => t.KeysBare
  | map k v => ']' ∉ k.chars ∧ k.KeysBare ∧ v.KeysBare
  | named _ | qualified _ _ | func _ _ | interface => True

end PlainType

/-! ### Characters of spellings -/

namespace TypeName

variable {c : Char} {x : TypeName}

/-- The spelling is not empty. -/
theorem ne_nil (x : TypeName) : x.chars ≠ [] := by
  obtain ⟨c, cs, hx, _⟩ := x.identifier
  simp [hx]

private theorem isIdentifierPart (h : c ∈ x.chars) : Text.isIdentifierPart c = true := by
  obtain ⟨d, ds, hx, hd, hds⟩ := x.identifier
  rw [hx, List.mem_cons] at h
  rcases h with rfl | h
  · exact Text.isIdentifierPart_of_isIdentifierStart hd
  · exact hds c h

private theorem isNameChar (h : c ∈ x.chars) : TypeExpr.isNameChar c = true := by
  rcases x.alphanumeric c h with hc | rfl
  · simp [TypeExpr.isNameChar, hc]
  · rfl

/-- No name holds what is no part of an identifier. -/
theorem notMem (h : Text.isIdentifierPart c = false) : c ∉ x.chars := fun hc => by
  simp [isIdentifierPart hc] at h

/-- The spelling of a name has no blanks at its ends. -/
theorem trimmed (x : TypeName) : Text.Trimmed x.chars := by
  have hall : ∀ c ∈ x.chars, Text.isBlank c = false := fun c hc => by
    by_contra hblank
    exact notMem (Syntax.Token.isIdentifierPart_of_isBlank (Bool.not_eq_false _ ▸ hblank)) hc
  exact ⟨fun c hc => hall c (List.mem_of_mem_head? hc),
    fun c hc => hall c (List.mem_of_getLast? hc)⟩

end TypeName

namespace PlainType

open Text (Trimmed after? after?_append after?_eq_none)

variable {cs : List Char} {n : Nat}

/-- The spelling of a type is not empty. -/
theorem ne_nil (t : PlainType) : t.chars ≠ [] := by
  cases t <;> simp [chars, TypeName.ne_nil]

private theorem trimmed_append {a m b : List Char} (ha : Trimmed a) (hane : a ≠ [])
    (hb : Trimmed b) (hbne : b ≠ []) : Trimmed (a ++ (m ++ b)) :=
  List.append_assoc a m b ▸ ha.append hb hane hbne m

/-- No blanks stand at the ends of a spelling. -/
theorem trimmed : ∀ t : PlainType, Trimmed t.chars
  | named x => x.trimmed
  | qualified q x => trimmed_append (m := ['.']) q.trimmed q.ne_nil x.trimmed x.ne_nil
  | pointer t =>
    trimmed_append (a := ['*']) (m := []) (.of_ends rfl) (by simp) t.trimmed t.ne_nil
  | slice t =>
    trimmed_append (a := ['[']) (m := [']']) (.of_ends rfl) (by simp) t.trimmed t.ne_nil
  | map k v => by
    have h := trimmed_append (a := ['m', 'a', 'p']) (m := '[' :: (k.chars ++ [']']))
      (.of_ends rfl) (by simp) v.trimmed v.ne_nil
    simpa [chars] using h
  | chan t => trimmed_append (a := ['c', 'h', 'a', 'n']) (m := [' ']) (.of_ends rfl) (by simp)
      t.trimmed t.ne_nil
  | func ps .none => by
    have h := trimmed_append (a := ['f', 'u', 'n', 'c']) (m := '(' :: ps.chars) (b := [')'])
      (.of_ends rfl) (by simp) (.of_ends rfl) (by simp)
    simpa [chars, PlainResult.chars] using h
  | func ps (.type t) => by
    have h := trimmed_append (a := ['f', 'u', 'n', 'c']) (m := '(' :: (ps.chars ++ [')', ' ']))
      (.of_ends rfl) (by simp) t.trimmed t.ne_nil
    simpa [chars, PlainResult.chars] using h
  | func ps (.list rs) => by
    have h := trimmed_append (a := ['f', 'u', 'n', 'c'])
      (m := '(' :: (ps.chars ++ ')' :: ' ' :: '(' :: rs.chars)) (b := [')'])
      (.of_ends rfl) (by simp) (.of_ends rfl) (by simp)
    simpa [chars, PlainResult.chars] using h
  | interface => .of_ends rfl

/-! ### Where spellings end -/

variable (pos : Nat)

/-- Where a qualified name ends. -/
theorem add_byteLength_qualified (q x : TypeName) :
    pos + Text.byteLength (qualified q x).chars =
      pos + Text.byteLength q.chars + 1 + Text.byteLength x.chars := by
  have hpoint : Text.byteLength ['.'] = 1 := rfl
  rw [chars, List.append_cons, Text.byteLength_append, Text.byteLength_append, hpoint,
    ← Nat.add_assoc, ← Nat.add_assoc]

/-- Where a pointer ends. -/
theorem add_byteLength_pointer (t : PlainType) :
    pos + Text.byteLength (pointer t).chars = pos + 1 + Text.byteLength t.chars :=
  (Nat.add_assoc pos 1 _).symm

/-- Where a slice ends. -/
theorem add_byteLength_slice (t : PlainType) :
    pos + Text.byteLength (slice t).chars = pos + 2 + Text.byteLength t.chars := by
  have hlength := Text.byteLength_append ['[', ']'] t.chars
  exact (congrArg (pos + ·) hlength).trans (Nat.add_assoc pos 2 _).symm

/-- Where a map ends. -/
theorem add_byteLength_map (k v : PlainType) : pos + Text.byteLength (map k v).chars =
    pos + 4 + Text.byteLength k.chars + 1 + Text.byteLength v.chars := by
  have hchars : (map k v).chars = ['m', 'a', 'p', '['] ++ k.chars ++ [']'] ++ v.chars := by
    simp [chars]
  have hopening : Text.byteLength ['m', 'a', 'p', '['] = 4 := rfl
  have hclosing : Text.byteLength [']'] = 1 := rfl
  rw [hchars, Text.byteLength_append, Text.byteLength_append, Text.byteLength_append, hopening,
    hclosing, ← Nat.add_assoc, ← Nat.add_assoc, ← Nat.add_assoc]

/-- Where a channel ends. -/
theorem add_byteLength_chan (t : PlainType) :
    pos + Text.byteLength (chan t).chars = pos + 5 + Text.byteLength t.chars := by
  have hlength := Text.byteLength_append ['c', 'h', 'a', 'n', ' '] t.chars
  exact (congrArg (pos + ·) hlength).trans (Nat.add_assoc pos 5 _).symm

/-- Where a function ends. -/
theorem add_byteLength_func (ps : PlainParameters) (r : PlainResult) :
    pos + Text.byteLength (func ps r).chars =
      pos + 4 + 1 + Text.byteLength ps.chars + 1 + Text.byteLength r.chars := by
  have hchars : (func ps r).chars =
      ['f', 'u', 'n', 'c'] ++ ['('] ++ ps.chars ++ [')'] ++ r.chars := by
    simp [chars]
  have hword : Text.byteLength ['f', 'u', 'n', 'c'] = 4 := rfl
  have hopening : Text.byteLength ['('] = 1 := rfl
  have hclosing : Text.byteLength [')'] = 1 := rfl
  rw [hchars, Text.byteLength_append, Text.byteLength_append, Text.byteLength_append,
    Text.byteLength_append, hword, hopening, hclosing, ← Nat.add_assoc, ← Nat.add_assoc,
    ← Nat.add_assoc, ← Nat.add_assoc]

/-! ### The text reader -/

/-- The text reader takes a text of name characters for a name, whatever its beginning. -/
private theorem ofChars_name (htrimmed : Trimmed cs) (hne : cs ≠ [])
    (h : ∀ c ∈ cs, TypeExpr.isNameChar c = true) :
    TypeExpr.ofChars (n + 1) cs = .mk (String.ofList cs) (TypeExpr.nameShape cs) := by
  have hlack : ∀ c, TypeExpr.isNameChar c = false → c ∉ cs := fun c hc hmem => by
    simp [h c hmem] at hc
  have hstar : after? ['*'] cs = none := after?_eq_none (by simp) (hlack '*' (by decide))
  have hslice : after? ['[', ']'] cs = none := after?_eq_none (by simp) (hlack '[' (by decide))
  have hmap : after? ['m', 'a', 'p', '['] cs = none :=
    after?_eq_none (by simp) (hlack '[' (by decide))
  have hchan : after? ['c', 'h', 'a', 'n', ' '] cs = none :=
    after?_eq_none (by simp) (hlack ' ' (by decide))
  have hfunc : after? ['f', 'u', 'n', 'c', '('] cs = none :=
    after?_eq_none (by simp) (hlack '(' (by decide))
  have hinterface : cs ≠ "interface\x7b\x7d".toList := by
    rintro rfl
    exact hlack '\x7b' (by decide) (by simp)
  have hall : (!cs.isEmpty && cs.all TypeExpr.isNameChar) = true := by
    simp [hne, List.all_eq_true.mpr h]
  simp only [TypeExpr.ofChars, htrimmed.stripWhile_eq, hstar, hslice, hmap, hchan, hfunc,
    hinterface, hall, Option.isSome_none, Bool.false_eq_true, if_false, if_true]

/-- What stands before the first mark and from there on. -/
private theorem span_ne {c : Char} {a : List Char} (h : c ∉ a) (b : List Char) :
    (a ++ c :: b).span (· != c) = (a, c :: b) := by
  have ha : ∀ d ∈ a, (d != c) = true := fun d hd => bne_iff_ne.mpr fun heq => h (heq ▸ hd)
  rw [List.span_eq_takeWhile_dropWhile, List.takeWhile_append_of_pos ha,
    List.dropWhile_append_of_pos ha]
  simp

/-- What is read has the spelling of the text without the blanks around it. -/
private theorem text_ofChars (n : Nat) (cs : List Char) :
    (TypeExpr.ofChars n cs).text = String.ofList (Text.stripWhile Text.isBlank cs) := by
  cases n <;> rfl

private theorem ofChars_named (x : TypeName) :
    TypeExpr.ofChars (n + 1) (named x).chars = (named x).expr := by
  have hpoint : x.chars.span (· != '.') = (x.chars, []) := by
    have hall : ∀ d ∈ x.chars, (d != '.') = true := fun d hd =>
      bne_iff_ne.mpr fun heq => TypeName.notMem (by decide) (heq ▸ hd)
    rw [List.span_eq_takeWhile_dropWhile, List.takeWhile_eq_self_iff.mpr hall,
      List.dropWhile_eq_nil_iff.mpr hall]
  rw [chars, ofChars_name x.trimmed x.ne_nil fun c hc => x.isNameChar hc, TypeExpr.nameShape,
    hpoint]
  rfl

private theorem ofChars_qualified (q x : TypeName) :
    TypeExpr.ofChars (n + 1) (qualified q x).chars = (qualified q x).expr := by
  have hall : ∀ c ∈ (qualified q x).chars, TypeExpr.isNameChar c = true := by
    intro c hc
    rcases List.mem_append.mp hc with hc | hc
    · exact q.isNameChar hc
    · rcases List.mem_cons.mp hc with rfl | hc
      · rfl
      · exact x.isNameChar hc
  rw [ofChars_name (qualified q x).trimmed (ne_nil _) hall, TypeExpr.nameShape, chars,
    span_ne (TypeName.notMem (by decide))]
  rfl

private theorem ofChars_pointer (t : PlainType) : TypeExpr.ofChars (n + 1) (pointer t).chars =
    .mk (pointer t).spelling (.pointer (TypeExpr.ofChars n t.chars)) := by
  rw [TypeExpr.ofChars, (pointer t).trimmed.stripWhile_eq, chars]
  simp only [after?, if_true]
  rfl

private theorem ofChars_slice (t : PlainType) : TypeExpr.ofChars (n + 1) (slice t).chars =
    .mk (slice t).spelling (.slice (TypeExpr.ofChars n t.chars)) := by
  rw [TypeExpr.ofChars, (slice t).trimmed.stripWhile_eq, chars]
  simp only [after?, Char.reduceEq, if_false, if_true]
  rfl

private theorem ofChars_chan (t : PlainType) : TypeExpr.ofChars (n + 1) (chan t).chars =
    .mk (chan t).spelling (.chan (TypeExpr.ofChars n t.chars)) := by
  rw [TypeExpr.ofChars, (chan t).trimmed.stripWhile_eq, chars]
  simp only [List.cons_append, List.nil_append, after?, Char.reduceEq, if_false, if_true]
  rfl

/-- A function type is not taken apart. -/
theorem ofChars_func (ps : PlainParameters) (r : PlainResult) :
    TypeExpr.ofChars (n + 1) (func ps r).chars = (func ps r).expr := by
  rw [TypeExpr.ofChars, (func ps r).trimmed.stripWhile_eq, chars]
  simp only [List.cons_append, List.nil_append, after?, Char.reduceEq, if_false, if_true,
    Option.isSome_some]
  rfl

private theorem ofChars_interface : TypeExpr.ofChars (n + 1) interface.chars = interface.expr := by
  rw [TypeExpr.ofChars, interface.trimmed.stripWhile_eq]
  rfl

/-- The key of a map is taken to end at the first closing bracket. -/
theorem ofChars_map (k v : PlainType) {key value : List Char} (hkey : ']' ∉ key)
    (h : k.chars ++ ']' :: v.chars = key ++ ']' :: value) :
    TypeExpr.ofChars (n + 1) (map k v).chars =
      .mk (map k v).spelling (.map (TypeExpr.ofChars n key) (TypeExpr.ofChars n value)) := by
  rw [TypeExpr.ofChars, (map k v).trimmed.stripWhile_eq, chars, h]
  simp only [List.cons_append, List.nil_append, after?, Char.reduceEq, if_false, if_true,
    span_ne hkey]
  rw [spelling, chars, h]
  rfl

/-- A map is read as it is if its key has no closing bracket and both of its types are read so. -/
private theorem ofChars_map_iff {k v : PlainType}
    (hk : TypeExpr.ofChars n k.chars = k.expr ↔ k.KeysBare)
    (hv : TypeExpr.ofChars n v.chars = v.expr ↔ v.KeysBare) :
    TypeExpr.ofChars (n + 1) (map k v).chars = (map k v).expr ↔ (map k v).KeysBare := by
  by_cases hbare : ']' ∈ k.chars
  · obtain ⟨key, more, hsplit, hkey⟩ := List.eq_append_cons_of_mem hbare
    have hchars : k.chars ++ ']' :: v.chars = key ++ ']' :: (more ++ ']' :: v.chars) := by
      simp [hsplit]
    refine iff_of_false (fun heq => hkey ?_) fun h => h.1 hbare
    -- The spelling of what is read as the key has no bracket, unlike the key.
    rw [ofChars_map k v hkey hchars, expr, shape, TypeExpr.mk.injEq, Shape.map.injEq] at heq
    have htext := congrArg TypeExpr.text heq.2.1
    rw [text_ofChars, TypeExpr.text, spelling, String.ofList_inj] at htext
    exact Text.mem_of_mem_stripWhile (htext ▸ hbare)
  · rw [ofChars_map k v hbare rfl, expr, shape, KeysBare, ← hk, ← hv]
    simp [hbare, expr]

/-- Of the canonical spellings, the text reader reads those as their types, part by part, in which
no key of a map has a closing bracket. -/
theorem ofChars_chars_iff : ∀ (t : PlainType) {n : Nat}, t.chars.length < n →
    (TypeExpr.ofChars n t.chars = t.expr ↔ t.KeysBare)
  | named x, n + 1, _ => by simp [ofChars_named, KeysBare]
  | qualified q x, n + 1, _ => by simp [ofChars_qualified, KeysBare]
  | func ps r, n + 1, _ => by simp [ofChars_func, KeysBare]
  | interface, n + 1, _ => by simp [ofChars_interface, KeysBare]
  | pointer t, n + 1, hn => by
    have ih := ofChars_chars_iff t (n := n) (by simpa [chars] using hn)
    rw [ofChars_pointer, KeysBare, ← ih]
    simp [expr, shape]
  | slice t, n + 1, hn => by
    have ih := ofChars_chars_iff t (n := n) (by simp [chars] at hn; omega)
    rw [ofChars_slice, KeysBare, ← ih]
    simp [expr, shape]
  | chan t, n + 1, hn => by
    have ih := ofChars_chars_iff t (n := n) (by simp [chars] at hn; omega)
    rw [ofChars_chan, KeysBare, ← ih]
    simp [expr, shape]
  | map k v, n + 1, hn => by
    have ihk := ofChars_chars_iff k (n := n) (by simp [chars] at hn; omega)
    have ihv := ofChars_chars_iff v (n := n) (by simp [chars] at hn; omega)
    exact ofChars_map_iff ihk ihv

/-- The canonical spelling of a type is read as the type, with the spelling of each part, if no key
of a map has a closing bracket, and only then. -/
theorem ofText_spelling_iff (t : PlainType) : TypeExpr.ofText t.spelling = t.expr ↔ t.KeysBare := by
  rw [TypeExpr.ofText, spelling, String.toList_ofList]
  exact ofChars_chars_iff t (Nat.lt_succ_self _)

end PlainType

end GoContracts

/-!
## Trees of plain types

What a tree must be to stand for a plain type: it covers the canonical spelling, and the type read
from it is the plain type wherever a file has that spelling there. Each kind of tree stands for a
type if its parts stand for the parts of the type.
-/

namespace GoContracts

open Syntax (Kind Label Role Tree)

/-! ### Spellings in a text -/

/-- Whether the characters stand in the text at the given byte. -/
def Text.Occurs (s : String) (pos : Nat) (cs : List Char) : Prop :=
  ∃ a b, s = String.ofList (a ++ cs ++ b) ∧ Text.byteLength a = pos

namespace Text.Occurs

variable {s : String} {pos : Nat} {a b cs : List Char}

/-- The first part occurs where the whole does. -/
theorem left (h : Occurs s pos (a ++ b)) : Occurs s pos a := by
  obtain ⟨x, y, rfl, hx⟩ := h
  exact ⟨x, b ++ y, by simp, hx⟩

/-- The second part occurs behind the first. -/
theorem right (h : Occurs s pos (a ++ b)) : Occurs s (pos + Text.byteLength a) b := by
  obtain ⟨x, y, rfl, rfl⟩ := h
  exact ⟨x ++ a, y, by simp, Text.byteLength_append x a⟩

/-- What occurs is the slice at its place. -/
theorem slice_eq (h : Occurs s pos cs) :
    Text.slice s pos (pos + Text.byteLength cs) = String.ofList cs := by
  obtain ⟨x, y, rfl, rfl⟩ := h
  exact Text.slice_ofList x cs y

end Text.Occurs

/-! ### Leaves and roles -/

namespace Syntax.Tree

variable {t : Tree} {l : Label} {r : Role} {start stop : Nat}

/-- A leaf has its label. -/
@[simp] theorem label_leaf : (leaf l start stop).label = l := rfl

/-- A leaf has no role. -/
@[simp] theorem role?_leaf : (leaf l start stop).role? = none := rfl

/-- The label does not depend on the role. -/
@[simp] theorem label_asRole : (t.asRole r).label = t.label := by cases t; rfl

/-- A tree has the role that it is given. -/
@[simp] theorem role?_asRole : (t.asRole r).role? = some r := by cases t; rfl

/-- The end does not depend on the role. -/
@[simp] theorem stop_asRole : (t.asRole r).stop = t.stop := by cases t; rfl

/-- A node has the label of its kind. -/
@[simp] theorem label_node (k : Kind) (parts : List Tree) : (node k parts).label = .node k := rfl

/-- A node ends with its last part. -/
theorem stop_node (k : Kind) (parts : List Tree) (last : Tree) :
    (node k (parts ++ [last])).stop = last.stop := by
  rw [node, stop, List.getLast?_concat]
  rfl

end Syntax.Tree

namespace SourceFile

variable {file : SourceFile} {t : Tree} {l : Label} {start stop : Nat}

/-- The text of a tree is the slice from its start to its end. -/
@[simp] theorem textOf_mk {role? : Option Role} {cs : List Tree} :
    file.textOf (.mk l role? start stop cs) = Text.slice file.text start stop := rfl

/-- The text of a leaf is the slice from its start to its end. -/
@[simp] theorem textOf_leaf : file.textOf (.leaf l start stop) = Text.slice file.text start stop :=
  rfl

/-- The text does not depend on the role. -/
@[simp] theorem textOf_asRole {r : Role} : file.textOf (t.asRole r) = file.textOf t := by
  cases t
  rfl

end SourceFile

namespace TypeExpr

/-- The type that a tree spells does not depend on its role. -/
@[simp] theorem ofTree_asRole (file : SourceFile) (r : Role) (t : Tree) :
    ofTree file (t.asRole r) = ofTree file t := by
  obtain ⟨label, role?, start, stop, cs⟩ := t
  cases label with
  | node k =>
    rw [Tree.asRole, ofTree.eq_def, ofTree.eq_def]
    rfl
  | token => rfl
  | lineBreak => rfl

end TypeExpr

open TypeExpr (ofTree ofRole ofFirst isItem)

/-! ### Trees that stand for types -/

/-- Whether a tree stands for a type whose canonical spelling begins at the given byte. -/
structure Represents (tree : Tree) (t : PlainType) (pos : Nat) : Prop where
  start : tree.start = pos
  stop : tree.stop = pos + Text.byteLength t.chars
  item : isItem tree = true
  expr : ∀ file : SourceFile, Text.Occurs file.text pos t.chars → ofTree file tree = t.expr

namespace Represents

variable {tree key value first : Tree} {t k v : PlainType} {pos : Nat} {parts : List Tree}

/-- No line break stands for a type. -/
theorem label_ne (h : Represents tree t pos) : tree.label ≠ .lineBreak := by
  intro hl
  have hitem := h.item
  simp [isItem, Tree.isNamed, Tree.kind?, hl] at hitem

/-- A node over parts stands for a type that it covers if it has the shape of the type. -/
private theorem of_parts {k : Kind} (last : Tree)
    (hparts : ∀ p ∈ first :: parts, p.label ≠ .lineBreak) (hstart : first.start = pos)
    (hlast : (first :: parts).getLast? = some last)
    (hstop : last.stop = pos + Text.byteLength t.chars) (hk : k ≠ .comment)
    (hshape : ∀ (file : SourceFile) (stop : Nat), Text.Occurs file.text pos t.chars →
      ofTree file (.mk (.node k) none pos stop (first :: parts)) =
        .mk (Text.slice file.text pos stop) t.shape) :
    Represents (.node k (first :: parts)) t pos := by
  have hnode : Syntax.Tree.node k (first :: parts) =
      .mk (.node k) none pos (pos + Text.byteLength t.chars) (first :: parts) := by
    rw [Syntax.Tree.node, hlast, List.filter_eq_self.mpr fun p hp => by simpa using hparts p hp]
    simp [hstart, hstop]
  rw [hnode]
  refine ⟨rfl, rfl, ?_, fun file hf => ?_⟩
  · simpa [isItem, Tree.isNamed, Tree.kind?, Tree.label, Tree.isComment, Tree.is]
  rw [hshape file _ hf, hf.slice_eq, PlainType.expr, PlainType.spelling]

/-- The tree of a name. -/
theorem named (x : TypeName) (pos : Nat) : Represents
    (.leaf (.node .typeIdentifier) pos (pos + Text.byteLength x.chars)) (.named x) pos where
  start := rfl
  stop := rfl
  item := rfl
  expr file hf := by
    have htext : Text.slice file.text pos (pos + Text.byteLength x.chars) = _ := hf.slice_eq
    simp only [Tree.leaf, ofTree, SourceFile.textOf, Tree.start, Tree.stop, htext]
    rfl

/-- The tree of a qualified name. -/
theorem qualified (q x : TypeName) (pos : Nat) : Represents (.node .qualifiedType
    [(Tree.leaf (.node .packageIdentifier) pos (pos + Text.byteLength q.chars)).asRole .package,
      .leaf (.token ".") (pos + Text.byteLength q.chars) (pos + Text.byteLength q.chars + 1),
      (Tree.leaf (.node .typeIdentifier) (pos + Text.byteLength q.chars + 1)
        (pos + Text.byteLength q.chars + 1 + Text.byteLength x.chars)).asRole .name])
    (.qualified q x) pos := by
  refine of_parts _ (by simp) rfl rfl ?_ (by decide) fun file stop hf => ?_
  · exact (PlainType.add_byteLength_qualified pos q x).symm
  · have hq := hf.left.slice_eq
    have hx := (hf.right.right (a := ['.'])).slice_eq
    rw [show Text.byteLength ['.'] = 1 from rfl] at hx
    simp [ofTree, hq, hx, PlainType.shape]

/-- The tree of a pointer. -/
theorem pointer (h : Represents tree t (pos + 1)) : Represents
    (.node .pointerType [.leaf (.token "*") pos (pos + 1), tree]) (.pointer t) pos := by
  refine of_parts tree (by simp [h.label_ne]) rfl rfl ?_ (by decide) fun file stop hf => ?_
  · rw [h.stop, PlainType.add_byteLength_pointer]
  · have htarget := h.expr file (hf.right (a := ['*']))
    have hmark : isItem (.leaf (.token "*") pos (pos + 1)) = false := rfl
    simp [ofTree, ofFirst, hmark, h.item, htarget, PlainType.shape, PlainType.expr]

/-- The tree of a slice. -/
theorem slice (h : Represents tree t (pos + 2)) : Represents (.node .sliceType
    [.leaf (.token "[") pos (pos + 1), .leaf (.token "]") (pos + 1) (pos + 2),
      tree.asRole .element]) (.slice t) pos := by
  refine of_parts (tree.asRole .element) (by simp [h.label_ne]) rfl rfl ?_ (by decide)
    fun file stop hf => ?_
  · rw [Tree.stop_asRole, h.stop, PlainType.add_byteLength_slice]
  · have helement := h.expr file (hf.right (a := ['[', ']']))
    simp [ofTree, ofRole, helement, PlainType.shape, PlainType.expr]

/-- The tree of a map. -/
theorem map (hk : Represents key k (pos + 4))
    (hv : Represents value v (pos + 4 + Text.byteLength k.chars + 1)) : Represents (.node .mapType
    [.leaf (.token "map") pos (pos + 3), .leaf (.token "[") (pos + 3) (pos + 4), key.asRole .key,
      .leaf (.token "]") (pos + 4 + Text.byteLength k.chars)
        (pos + 4 + Text.byteLength k.chars + 1),
      value.asRole .value]) (.map k v) pos := by
  refine of_parts (value.asRole .value) (by simp [hk.label_ne, hv.label_ne]) rfl rfl ?_ (by decide)
    fun file stop hf => ?_
  · rw [Tree.stop_asRole, hv.stop, PlainType.add_byteLength_map]
  · have hbehind := hf.right (a := ['m', 'a', 'p', '['])
    have hkey := hk.expr file hbehind.left
    have hvalue := hv.expr file (hbehind.right.right (a := [']']))
    simp [ofTree, ofRole, hkey, hvalue, PlainType.shape, PlainType.expr]

/-- The tree of a channel. -/
theorem chan (h : Represents tree t (pos + 5)) : Represents (.node .channelType
    [.leaf (.token "chan") pos (pos + 4), tree.asRole .value]) (.chan t) pos := by
  refine of_parts (tree.asRole .value) (by simp [h.label_ne]) rfl rfl ?_ (by decide)
    fun file stop hf => ?_
  · rw [Tree.stop_asRole, h.stop, PlainType.add_byteLength_chan]
  · have helement := h.expr file (hf.right (a := ['c', 'h', 'a', 'n', ' ']))
    simp [ofTree, ofRole, helement, PlainType.shape, PlainType.expr]

/-- The tree of a function type, whatever the trees of its parameters and its result are. -/
theorem func {ps : PlainParameters} {r : PlainResult} (last : Tree)
    (hparts : ∀ p ∈ first :: parts, p.label ≠ .lineBreak) (hstart : first.start = pos)
    (hlast : (first :: parts).getLast? = some last)
    (hstop : last.stop = pos + Text.byteLength (PlainType.func ps r).chars) :
    Represents (.node .functionType (first :: parts)) (.func ps r) pos :=
  of_parts last hparts hstart hlast hstop (by decide) fun _ _ _ => rfl

/-- The tree of the empty interface. -/
theorem interface (pos : Nat) : Represents (.node .interfaceType
    [.leaf (.token "interface") pos (pos + 9), .leaf (.token "\x7b") (pos + 9) (pos + 10),
      .leaf (.token "\x7d") (pos + 10) (pos + 11)]) .interface pos :=
  of_parts _ (by simp) rfl rfl rfl (by decide) fun _ _ _ => rfl

end Represents

end GoContracts

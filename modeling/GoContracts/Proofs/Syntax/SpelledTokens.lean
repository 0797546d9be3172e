import GoContracts.Proofs.Syntax.Insertion
import GoContracts.Proofs.Syntax.Seats

/-!
# Tokens of a spelled text

The tokens of a text that begins with a word, a symbol of a type or a blank are the token of that
word or symbol and the tokens of the text behind it.
-/

namespace GoContracts.Syntax

namespace Token

variable {pos : Nat} {c : Char} {cs rest : List Char}

/-- The token of a word. -/
def wordAt (pos : Nat) (cs : List Char) : Token :=
  ⟨.word, String.ofList cs, pos, pos + Text.byteLength cs⟩

/-- The token of a symbol of the ASCII range. -/
def symbolAt (pos : Nat) (c : Char) : Token := ⟨.symbol c, String.ofList [c], pos, pos + 1⟩

/-- The symbols in the spelling of a type. -/
def typeSymbols : List Char := ['*', '[', ']', '(', ')', '\x7b', '\x7d', ',', '.']

/-- A word reaches up to the first character that is no part of one. -/
theorem readFrom_word (h : Text.IsIdentifier cs)
    (hrest : ∀ d ∈ rest.head?, Text.isIdentifierPart d = false) :
    readFrom pos (cs ++ rest) = wordAt pos cs :: readFrom (pos + Text.byteLength cs) rest := by
  obtain ⟨first, more, rfl, hfirst, hmore⟩ := h
  have hpart := Text.isIdentifierPart_of_isIdentifierStart hfirst
  have hblank : ¬ Text.isBlank first = true := fun hblank => by
    simp [isIdentifierPart_of_isBlank hblank] at hpart
  have hgap : ¬ isGap first = true := fun hgap => hblank (isBlank_of_isGap hgap)
  have hnew : first ≠ '\n' := by
    rintro rfl
    exact hblank (by decide)
  have htake : (more ++ rest).takeWhile Text.isIdentifierPart = more := by
    rw [List.takeWhile_append_of_pos hmore, List.append_right_eq_self]
    cases rest with
    | nil => rfl
    | cons d rest => exact List.takeWhile_cons_of_neg (by simp [hrest d rfl])
  have hscan : scan first (more ++ rest) = (some .word, more.length) := by
    rw [scan, if_neg hgap, if_neg hnew, if_pos hfirst, htake]
  rw [List.cons_append, readFrom_cons, front?, hscan, List.take_left', List.drop_left']
  · rfl
  · rfl
  · rfl

private theorem number?_point (hrest : ∀ d ∈ rest.head?, d.isDigit = false) :
    number? ('.' :: rest) = none := by
  have hdigits : digitsLength Char.isDigit rest = 0 := by
    cases rest with
    | nil => rfl
    | cons d rest =>
      have hd : d.isDigit = false := hrest d rfl
      cases rest <;> simp [digitsLength, hd]
  have hnone : digitsLength Char.isDigit ('.' :: rest) = 0 := by
    cases rest <;> simp [digitsLength]
  have hint : intLength ('.' :: rest) = 0 := by simp [intLength]
  have hfloat : floatLength ('.' :: rest) = 0 := by
    simp [floatLength, decimalFloatLength, hexFloatLength, hnone, hdigits]
  simp [number?, imaginaryLength, hnone, hint, hfloat]

/-- A symbol is one character. A point before a digit begins a number instead. -/
theorem readFrom_symbol (hc : c ∈ typeSymbols)
    (hpoint : c = '.' → ∀ d ∈ rest.head?, d.isDigit = false) :
    readFrom pos (c :: rest) = symbolAt pos c :: readFrom (pos + 1) rest := by
  have hnumber : number? (c :: rest) = none := by
    by_cases hdot : c = '.'
    · subst hdot
      exact number?_point (hpoint rfl)
    · refine number?_eq_none ?_ rest
      simp only [typeSymbols, List.mem_cons, List.not_mem_nil, or_false, hdot] at hc
      rcases hc with rfl | rfl | rfl | rfl | rfl | rfl | rfl | rfl
      all_goals constructor <;> decide
  have hscan : scan c rest = (some (.symbol c), 0) ∧ c.utf8Size = 1 := by
    rw [scan, hnumber]
    simp only [typeSymbols, List.mem_cons, List.not_mem_nil, or_false] at hc
    rcases hc with rfl | rfl | rfl | rfl | rfl | rfl | rfl | rfl | rfl
    all_goals exact ⟨rfl, rfl⟩
  rw [readFrom_cons, front?, hscan.1]
  simp [symbolAt, hscan.2]

private theorem readFrom_blank : readFrom pos (' ' :: rest) = readFrom (pos + 1) rest := by
  have hscan : scan ' ' rest = (none, 0) := rfl
  rw [readFrom_cons, front?, hscan]
  rfl

end Token

namespace Grammar

open Token (wordAt symbolAt newlineAt typeSymbols)

variable {pos : Nat} {c : Char} {cs rest : List Char}

/-- The tokens of the grammar in a text whose first byte has the given position. -/
def tokensFrom (pos : Nat) (cs : List Char) : List Token := significant (Token.readFrom pos cs)

/-- An identifier is one token if the word ends behind it. -/
theorem tokensFrom_word (h : Text.IsIdentifier cs)
    (hrest : ∀ d ∈ rest.head?, Text.isIdentifierPart d = false) :
    tokensFrom pos (cs ++ rest) = wordAt pos cs :: tokensFrom (pos + Text.byteLength cs) rest := by
  rw [tokensFrom, Token.readFrom_word h hrest, significant_cons_solid rfl, tokensFrom]

/-- A symbol of types is one token unless it is the point of a number. -/
theorem tokensFrom_symbol (hc : c ∈ typeSymbols)
    (hpoint : c = '.' → ∀ d ∈ rest.head?, d.isDigit = false) :
    tokensFrom pos (c :: rest) = symbolAt pos c :: tokensFrom (pos + 1) rest := by
  rw [tokensFrom, Token.readFrom_symbol hc hpoint, significant_cons_solid rfl, tokensFrom]

/-- A blank is no token. -/
theorem tokensFrom_blank : tokensFrom pos (' ' :: rest) = tokensFrom (pos + 1) rest := by
  rw [tokensFrom, Token.readFrom_blank, tokensFrom]

/-! ### Reading one token -/

section

variable {free : Bool} {u : Token} {ts : List Token} {w s : String} {d : Char} {ds : List Char}
  {k : Kind}

/-- A token that is no newline is not passed over. -/
theorem afterNewlines_cons (hu : u.lexeme ≠ .newline) : afterNewlines (u :: ts) = u :: ts :=
  List.dropWhile_cons_of_neg (by simpa using hu)

/-- A token that is no newline is seen. -/
theorem visible_cons (hu : u.lexeme ≠ .newline) : visible free (u :: ts) = u :: ts := by
  cases free
  · rfl
  · exact afterNewlines_cons hu

/-- A word is the one that it spells. -/
theorem atWord_wordAt : atWord free w (wordAt pos cs :: ts) = decide (String.ofList cs = w) := by
  rw [atWord, visible_cons (by simp [wordAt])]
  simp [wordAt, Token.isWord]

/-- A symbol is no word. -/
theorem atWord_symbolAt : atWord free w (symbolAt pos c :: ts) = false := by
  rw [atWord, visible_cons (by simp [symbolAt])]
  rfl

/-- A word is some word. -/
theorem atAnyWord_wordAt : atAnyWord free (wordAt pos cs :: ts) = true := by
  rw [atAnyWord, visible_cons (by simp [wordAt])]
  rfl

/-- Tokens begin with no symbol whose first character is not the first token. -/
theorem joined?_eq_none (h : ∀ u ∈ ts.head?, u.lexeme ≠ .symbol d) :
    joined? (d :: ds) ts = none := by
  cases ts with
  | nil => cases ds <;> rfl
  | cons u us =>
    have hu : u.isSymbolOf d = false := by simpa [Token.isSymbolOf] using h
    cases ds with
    | nil => simp [joined?, hu]
    | cons e ds => cases us <;> simp [joined?, hu]

/-- What begins with no such symbol is not found to do so. -/
theorem atSymbol_eq_false (hs : s.toList = d :: ds)
    (h : ∀ u ∈ (visible free ts).head?, u.lexeme ≠ .symbol d) : atSymbol free s ts = false := by
  rw [atSymbol, hs, joined?_eq_none h]
  rfl

/-- A word is no symbol. -/
theorem atSymbol_wordAt (hs : s.toList = d :: ds) :
    atSymbol free s (wordAt pos cs :: ts) = false :=
  atSymbol_eq_false hs (by rw [visible_cons (by simp [wordAt])]; simp [wordAt])

/-- A symbol is no other one. -/
theorem atSymbol_symbolAt_ne (hs : s.toList = d :: ds) (hc : c ≠ d) :
    atSymbol free s (symbolAt pos c :: ts) = false :=
  atSymbol_eq_false hs (by rw [visible_cons (by simp [symbolAt])]; simpa [symbolAt])

/-- A symbol is itself. -/
theorem atSymbol_symbolAt (hs : s.toList = [c]) :
    atSymbol free s (symbolAt pos c :: ts) = true := by
  rw [atSymbol, visible_cons (by simp [symbolAt]), hs]
  simp [joined?, symbolAt, Token.isSymbolOf]

/-- A symbol that is not there is not taken. -/
theorem symbol_eq_none (h : atSymbol free s ts = false) : symbol free s ts = none := by
  unfold symbol
  rw [atSymbol] at h
  cases hv : visible free ts with
  | nil => rfl
  | cons u us =>
    rw [hv, Option.isSome_eq_false_iff, Option.isNone_iff_eq_none] at h
    simp [h]

/-- A symbol is taken. -/
theorem symbol_symbolAt (hs : s.toList = [c]) : symbol free s (symbolAt pos c :: ts) =
    some (.leaf (.token s) pos (pos + 1), ts) := by
  unfold symbol
  rw [visible_cons (by simp [symbolAt]), hs]
  simp [joined?, symbolAt, Token.isSymbolOf]

/-- A keyword is taken. -/
theorem keyword_wordAt (hcs : String.ofList cs = w) : keyword free w (wordAt pos cs :: ts) =
    some (.leaf (.token w) pos (pos + Text.byteLength cs), ts) := by
  unfold keyword
  rw [visible_cons (by simp [wordAt])]
  simp [wordAt, Token.isWord, hcs]

/-- A word is taken for a name. -/
theorem name_wordAt : name free k (wordAt pos cs :: ts) =
    some (.leaf (.node k) pos (pos + Text.byteLength cs), ts) := by
  unfold name lexeme
  rw [visible_cons (by simp [wordAt])]
  rfl

/-- A symbol is not taken for a name. -/
theorem name_symbolAt : name free k (symbolAt pos c :: ts) = none := by
  unfold name lexeme
  rw [visible_cons (by simp [symbolAt])]
  rfl

end

end Grammar

end GoContracts.Syntax

import GoContracts.Proofs.Syntax.Grammar.PlainTypes

/-!
# The grammar on spelled types

Wherever the canonical spelling of a plain type stands, with nothing behind it that a type goes on
with, the grammar takes all of the spelling for a tree that stands for the type. The proof is by
recursion on types, parameters and results together; every step leaves fewer tokens, so that as many
phrases as there are tokens are deep enough.
-/

namespace GoContracts

open Syntax (Token Tree Kind)
open Syntax.Token (wordAt symbolAt typeSymbols)
open Syntax.Grammar

variable {n pos : Nat} {free : Bool} {after : List Char}

/-! ### Tokens of a spelling -/

/-- Whether a word that stands before the text ends there. -/
def EndsWord (after : List Char) : Prop := ∀ d ∈ after.head?, Text.isIdentifierPart d = false

/-- What is no part of an identifier ends a word. -/
theorem endsWord_cons {c : Char} {cs : List Char} (h : Text.isIdentifierPart c = false) :
    EndsWord (c :: cs) := by
  simpa [EndsWord]

/-- No identifier begins with a digit. -/
theorem isDigit_of_isIdentifierStart {c : Char} (h : Text.isIdentifierStart c = true) :
    c.isDigit = false := by
  have hall : ∀ m : Fin 10, Text.isIdentifierStart (Char.ofNat (48 + m)) = false := by
    decide +kernel
  by_contra hd
  simp only [Bool.not_eq_false, Char.isDigit, Bool.and_eq_true, decide_eq_true_eq] at hd
  have hrange : 48 ≤ c.toNat ∧ c.toNat ≤ 57 := hd
  have hc := hall ⟨c.toNat - 48, by omega⟩
  rw [show 48 + (c.toNat - 48) = c.toNat by omega, Char.ofNat_toNat, h] at hc
  exact Bool.noConfusion hc

private theorem TypeName.isDigit_head (x : TypeName) (cs : List Char) :
    ∀ d ∈ (x.chars ++ cs).head?, d.isDigit = false := by
  obtain ⟨c, more, hx, hc, _⟩ := x.identifier
  rw [hx]
  simpa using isDigit_of_isIdentifierStart hc

/-- A name is one token if the word ends behind it. -/
theorem tokensFrom_name (x : TypeName) (h : EndsWord after) :
    tokensFrom pos (x.chars ++ after) =
      wordAt pos x.chars :: tokensFrom (pos + Text.byteLength x.chars) after :=
  tokensFrom_word x.identifier h

/-- A symbol of types is one token. -/
theorem tokensFrom_mark {c : Char} (hc : c ∈ typeSymbols) (hne : c ≠ '.') :
    tokensFrom pos (c :: after) = symbolAt pos c :: tokensFrom (pos + 1) after :=
  tokensFrom_symbol hc fun h => absurd h hne

/-- Behind a name stands what parts it from its type or ends the entry. -/
theorem endsWord_of_mark {c : Char} {cs : List Char} (hc : c ∈ [',', ')', ']', '.', ' ']) :
    EndsWord (c :: cs) := by
  have hall : [',', ')', ']', '.', ' '].all (!Text.isIdentifierPart ·) = true := by decide +kernel
  exact endsWord_cons (by simpa using List.all_eq_true.mp hall c hc)

private theorem tokensFrom_dots {cs : List Char} (h : ∀ d ∈ cs.head?, d.isDigit = false) :
    tokensFrom pos ('.' :: '.' :: '.' :: cs) = symbolAt pos '.' :: symbolAt (pos + 1) '.' ::
      symbolAt (pos + 2) '.' :: tokensFrom (pos + 3) cs := by
  rw [tokensFrom_symbol (by decide) (by simp), tokensFrom_symbol (by decide) (by simp),
    tokensFrom_symbol (by decide) fun _ => h]

namespace PlainType

/-- No type begins with a digit. -/
theorem isDigit_head (t : PlainType) (cs : List Char) :
    ∀ d ∈ (t.chars ++ cs).head?, d.isDigit = false := by
  cases t with
  | named x => exact x.isDigit_head cs
  | qualified q x =>
    rw [chars, List.append_assoc]
    exact q.isDigit_head _
  | _ => simp [chars]

private theorem tokens_qualified (q x : TypeName) (h : EndsWord after) :
    tokensFrom pos ((qualified q x).chars ++ after) = wordAt pos q.chars ::
      symbolAt (pos + Text.byteLength q.chars) '.' ::
      wordAt (pos + Text.byteLength q.chars + 1) x.chars ::
      tokensFrom (pos + Text.byteLength q.chars + 1 + Text.byteLength x.chars) after := by
  rw [chars, List.append_assoc, List.cons_append, tokensFrom_name q (endsWord_of_mark (by decide)),
    tokensFrom_symbol (by decide) fun _ => x.isDigit_head after, tokensFrom_name x h]

private theorem tokens_pointer (t : PlainType) : tokensFrom pos ((pointer t).chars ++ after) =
    symbolAt pos '*' :: tokensFrom (pos + 1) (t.chars ++ after) :=
  tokensFrom_mark (by decide) (by decide)

private theorem tokens_slice (t : PlainType) : tokensFrom pos ((slice t).chars ++ after) =
    symbolAt pos '[' :: symbolAt (pos + 1) ']' :: tokensFrom (pos + 2) (t.chars ++ after) := by
  rw [chars, List.cons_append, List.cons_append, tokensFrom_mark (by decide) (by decide),
    tokensFrom_mark (by decide) (by decide)]

private theorem tokens_map (k v : PlainType) : tokensFrom pos ((map k v).chars ++ after) =
    wordAt pos ['m', 'a', 'p'] :: symbolAt (pos + 3) '[' ::
      tokensFrom (pos + 4) (k.chars ++ ']' :: (v.chars ++ after)) := by
  have hchars : (map k v).chars ++ after =
      ['m', 'a', 'p'] ++ '[' :: (k.chars ++ ']' :: (v.chars ++ after)) := by simp [chars]
  rw [hchars, tokensFrom_word (by decide +kernel) (endsWord_cons (by decide +kernel)),
    tokensFrom_mark (by decide) (by decide)]
  rfl

private theorem tokens_chan (t : PlainType) : tokensFrom pos ((chan t).chars ++ after) =
    wordAt pos ['c', 'h', 'a', 'n'] :: tokensFrom (pos + 5) (t.chars ++ after) := by
  have hchars : (chan t).chars ++ after = ['c', 'h', 'a', 'n'] ++ ' ' :: (t.chars ++ after) := rfl
  rw [hchars, tokensFrom_word (by decide +kernel) (endsWord_cons (by decide +kernel)),
    tokensFrom_blank]
  rfl

private theorem tokens_func (ps : PlainParameters) (r : PlainResult) :
    tokensFrom pos ((func ps r).chars ++ after) = wordAt pos ['f', 'u', 'n', 'c'] ::
      tokensFrom (pos + 4) ('(' :: (ps.chars ++ ')' :: (r.chars ++ after))) := by
  have hchars : (func ps r).chars ++ after =
      ['f', 'u', 'n', 'c'] ++ '(' :: (ps.chars ++ ')' :: (r.chars ++ after)) := by simp [chars]
  rw [hchars, tokensFrom_word (by decide +kernel) (endsWord_cons (by decide +kernel))]
  rfl

private theorem tokens_interface : tokensFrom pos (interface.chars ++ after) =
    wordAt pos ['i', 'n', 't', 'e', 'r', 'f', 'a', 'c', 'e'] :: symbolAt (pos + 9) '\x7b' ::
      symbolAt (pos + 10) '\x7d' :: tokensFrom (pos + 11) after := by
  have hchars : interface.chars ++ after =
      ['i', 'n', 't', 'e', 'r', 'f', 'a', 'c', 'e'] ++ '\x7b' :: '\x7d' :: after := rfl
  rw [hchars, tokensFrom_word (by decide +kernel) (endsWord_cons (by decide +kernel)),
    tokensFrom_mark (by decide) (by decide), tokensFrom_mark (by decide) (by decide)]
  rfl

/-! ### How a type begins -/

/-- The tokens of a type begin one. -/
theorem beginsType (t : PlainType) (h : EndsWord after) :
    BeginsType (tokensFrom pos (t.chars ++ after)) := by
  cases t with
  | named x => exact .inl ⟨_, _, _, tokensFrom_name x h⟩
  | qualified q x => exact .inl ⟨_, _, _, tokens_qualified q x h⟩
  | pointer t => exact .inr (.inl ⟨_, _, tokens_pointer t⟩)
  | slice t => exact .inr (.inr ⟨_, _, _, tokens_slice t⟩)
  | map k v => exact .inl ⟨_, _, _, tokens_map k v⟩
  | chan t => exact .inl ⟨_, _, _, tokens_chan t⟩
  | func ps r => exact .inl ⟨_, _, _, tokens_func ps r⟩
  | interface => exact .inl ⟨_, _, _, tokens_interface⟩

/-- A type is a name, begins with a word behind which it goes on, or begins with a symbol. -/
theorem beginning_cases (t : PlainType) (pos : Nat) (h : EndsWord after) : (∃ x, t = named x) ∨
    (∃ cs ts, tokensFrom pos (t.chars ++ after) = wordAt pos cs :: ts ∧ GoesOn ts) ∨
    ∃ c ts, tokensFrom pos (t.chars ++ after) = symbolAt pos c :: ts ∧ c ≠ '.' := by
  have hsymbol : ∀ {next : Nat} {c : Char} {ts : List Token}, c ∉ ['.', ',', ')'] →
      GoesOn (symbolAt next c :: ts) := fun hc => by
    simp only [List.mem_cons, List.not_mem_nil, or_false, not_or] at hc
    exact ⟨atSymbol_symbolAt_ne rfl hc.1, atSymbol_symbolAt_ne rfl hc.2.1,
      atSymbol_symbolAt_ne rfl hc.2.2⟩
  cases t with
  | named x => exact .inl ⟨x, rfl⟩
  | qualified q x =>
    exact .inr (.inl ⟨_, _, tokens_qualified q x h, atSymbol_dots,
      atSymbol_symbolAt_ne rfl (by decide), atSymbol_symbolAt_ne rfl (by decide)⟩)
  | pointer t => exact .inr (.inr ⟨_, _, tokens_pointer t, by decide⟩)
  | slice t => exact .inr (.inr ⟨_, _, tokens_slice t, by decide⟩)
  | map k v => exact .inr (.inl ⟨_, _, tokens_map k v, hsymbol (by decide)⟩)
  | chan t => exact .inr (.inl ⟨_, _, tokens_chan t, (t.beginsType h).goesOn⟩)
  | func ps r =>
    rw [tokens_func, tokensFrom_mark (by decide) (by decide)]
    exact .inr (.inl ⟨_, _, rfl, hsymbol (by decide)⟩)
  | interface => exact .inr (.inl ⟨_, _, tokens_interface, hsymbol (by decide)⟩)

end PlainType

/-! ### What the grammar takes -/

/-- Whether a reader takes the characters from the front of a text. It takes tokens for them. -/
structure Takes {α : Type} (r : Reader α) (pos : Nat) (cs after : List Char) (a : α) : Prop where
  result : r (tokensFrom pos (cs ++ after)) =
    some (a, tokensFrom (pos + Text.byteLength cs) after)
  shorter : (tokensFrom (pos + Text.byteLength cs) after).length <
    (tokensFrom pos (cs ++ after)).length

private theorem Takes.of_tokens {α : Type} {r : Reader α} {cs : List Char} {a : α} {ts : List Token}
    {stop : Nat} (hts : tokensFrom pos (cs ++ after) = ts)
    (hstop : pos + Text.byteLength cs = stop) (h : r ts = some (a, tokensFrom stop after))
    (hshorter : (tokensFrom stop after).length < ts.length) : Takes r pos cs after a := by
  subst hts hstop
  exact ⟨h, hshorter⟩

/-- Whether the grammar takes the spelling of a type for a tree of the type, wherever it stands. As
many phrases as there are tokens are deep enough. -/
def PlainType.Readable (t : PlainType) : Prop :=
  ∀ (n pos : Nat) (free : Bool) (after : List Char), EndsWord after →
    Stops free (tokensFrom (pos + Text.byteLength t.chars) after) →
    (tokensFrom pos (t.chars ++ after)).length ≤ n →
    ∃ tree, Takes (type (rulesTo n) free) pos t.chars after tree ∧ Represents tree t pos

/-- Whether the grammar takes the spelling of a parameter for one entry of a list. -/
def PlainParameter.Readable (p : PlainParameter) : Prop :=
  ∀ (n pos : Nat) (after : List Char), EndsWord after →
    EndsEntry (tokensFrom (pos + Text.byteLength p.chars) after) →
    (tokensFrom pos (p.chars ++ after)).length ≤ n →
    ReadsEntry (rulesTo (n + 1)) (tokensFrom pos (p.chars ++ after))
        (tokensFrom (pos + Text.byteLength p.chars) after) ∧
      (tokensFrom (pos + Text.byteLength p.chars) after).length <
        (tokensFrom pos (p.chars ++ after)).length

/-- Whether the grammar takes the spelling of parameters up to the closing parenthesis. -/
def PlainParameters.Readable (ps : PlainParameters) : Prop :=
  ∀ (n m pos : Nat) (after : List Char),
    (tokensFrom pos (ps.chars ++ ')' :: after)).length ≤ n →
    (tokensFrom pos (ps.chars ++ ')' :: after)).length ≤ m →
    ∃ groups, gather.go (entryStep (rulesTo (n + 1))) m
        (tokensFrom pos (ps.chars ++ ')' :: after)) =
        some (groups, tokensFrom (pos + Text.byteLength ps.chars) (')' :: after)) ∧
      parameters.alternates groups.flatten = true ∧
      (tokensFrom (pos + Text.byteLength ps.chars) (')' :: after)).length ≤
        (tokensFrom pos (ps.chars ++ ')' :: after)).length

/-- Whether the grammar takes the spelling of a result for a tree that ends with it. -/
def PlainResult.Readable (r : PlainResult) : Prop :=
  ∀ (n pos : Nat) (free : Bool) (after : List Char), EndsWord after →
    Stops free (tokensFrom (pos + Text.byteLength r.chars) after) →
    (tokensFrom pos (r.chars ++ after)).length ≤ n →
    ∃ o, result? (rulesTo (n + 1)) free (tokensFrom pos (r.chars ++ after)) =
        some (o, tokensFrom (pos + Text.byteLength r.chars) after) ∧
      (tokensFrom (pos + Text.byteLength r.chars) after).length ≤
        (tokensFrom pos (r.chars ++ after)).length ∧
      (∀ tree ∈ o, tree.stop = pos + Text.byteLength r.chars ∧ tree.label ≠ .lineBreak) ∧
      (o.isNone → r = .none)

/-! ### Types -/

namespace PlainType.Readable

variable {t k v : PlainType}

/-- A parameter with a name or without one is taken. -/
theorem named (x : TypeName) : (named x).Readable := by
  intro n pos free after hafter hstops _
  have hpoint : atSymbol free "." (tokensFrom (pos + Text.byteLength x.chars) after) = false :=
    hstops.atSymbol rfl (by decide)
  refine ⟨_, .of_tokens (tokensFrom_name x hafter) rfl ?_ (Nat.lt_succ_self _), .named x pos⟩
  exact (type_name x).trans (namedType_name hpoint hstops.typeArguments)

private theorem qualified (q x : TypeName) : (qualified q x).Readable := by
  intro n pos free after hafter hstops _
  have hend := add_byteLength_qualified pos q x
  rw [hend] at hstops
  refine ⟨_, .of_tokens (tokens_qualified q x hafter) hend ?_ ?_, .qualified q x pos⟩
  · rw [type_name, namedType_qualified hstops.typeArguments]
  · simp only [List.length_cons]
    omega

private theorem pointer (h : t.Readable) : (pointer t).Readable := by
  intro n pos free after hafter hstops hn
  have hend := add_byteLength_pointer pos t
  rw [hend] at hstops
  rw [tokens_pointer, List.length_cons] at hn
  obtain ⟨n, rfl⟩ : ∃ k, n = k + 1 := ⟨n - 1, by omega⟩
  obtain ⟨tree, ⟨hresult, hshorter⟩, htree⟩ := h n _ free after hafter hstops (by omega)
  refine ⟨_, .of_tokens (tokens_pointer t) hend (type_pointer hresult) ?_, htree.pointer⟩
  rw [List.length_cons]
  omega

private theorem slice (h : t.Readable) : (slice t).Readable := by
  intro n pos free after hafter hstops hn
  have hend := add_byteLength_slice pos t
  rw [hend] at hstops
  rw [tokens_slice, List.length_cons, List.length_cons] at hn
  obtain ⟨n, rfl⟩ : ∃ k, n = k + 1 := ⟨n - 1, by omega⟩
  obtain ⟨tree, ⟨hresult, hshorter⟩, htree⟩ := h n _ free after hafter hstops (by omega)
  refine ⟨_, .of_tokens (tokens_slice t) hend (type_slice hresult) ?_, htree.slice⟩
  rw [List.length_cons, List.length_cons]
  omega

private theorem map (hk : k.Readable) (hv : v.Readable) : (map k v).Readable := by
  intro n pos free after hafter hstops hn
  have hend := add_byteLength_map pos k v
  have hclosing : tokensFrom (pos + 4 + Text.byteLength k.chars) (']' :: (v.chars ++ after)) =
      symbolAt (pos + 4 + Text.byteLength k.chars) ']' ::
        tokensFrom (pos + 4 + Text.byteLength k.chars + 1) (v.chars ++ after) :=
    tokensFrom_mark (by decide) (by decide)
  rw [hend] at hstops
  rw [tokens_map, List.length_cons, List.length_cons] at hn
  obtain ⟨n, rfl⟩ : ∃ k, n = k + 1 := ⟨n - 1, by omega⟩
  obtain ⟨key, ⟨hkey, hless⟩, hkeyTree⟩ := hk n (pos + 4) true (']' :: (v.chars ++ after))
    (endsWord_of_mark (by decide)) (hclosing ▸ stops_symbolAt (by decide)) (by omega)
  rw [hclosing] at hkey hless
  rw [List.length_cons] at hless
  obtain ⟨value, ⟨hvalue, hshorter⟩, hvalueTree⟩ := hv n _ free after hafter hstops (by omega)
  refine ⟨_, .of_tokens (tokens_map k v) hend (type_map hkey hvalue) ?_, hkeyTree.map hvalueTree⟩
  rw [List.length_cons, List.length_cons]
  omega

private theorem chan (h : t.Readable) : (chan t).Readable := by
  intro n pos free after hafter hstops hn
  have hend := add_byteLength_chan pos t
  rw [hend] at hstops
  rw [tokens_chan, List.length_cons] at hn
  obtain ⟨n, rfl⟩ : ∃ k, n = k + 1 := ⟨n - 1, by omega⟩
  obtain ⟨tree, ⟨hresult, hshorter⟩, htree⟩ := h n _ free after hafter hstops (by omega)
  refine ⟨_, .of_tokens (tokens_chan t) hend (type_chan hresult (t.beginsType hafter)) ?_,
    htree.chan⟩
  rw [List.length_cons]
  omega

private theorem interface : interface.Readable := by
  intro n pos free after _ _ _
  refine ⟨_, .of_tokens tokens_interface rfl type_interface ?_, .interface pos⟩
  rw [List.length_cons]
  exact Nat.lt_succ_of_lt (Nat.lt_succ_of_lt (Nat.lt_succ_self _))

end PlainType.Readable

/-! ### Parameters -/

namespace PlainParameter

variable {t : PlainType}

private theorem tokens_named (x : TypeName) (t : PlainType) :
    tokensFrom pos ((named x t).chars ++ after) = wordAt pos x.chars ::
      tokensFrom (pos + Text.byteLength x.chars + 1) (t.chars ++ after) := by
  rw [chars, List.append_assoc, List.cons_append,
    tokensFrom_name x (endsWord_of_mark (by decide)), tokensFrom_blank]

private theorem tokens_variadic (t : PlainType) : tokensFrom pos
    ((variadic none t).chars ++ after) =
    symbolAt pos '.' :: symbolAt (pos + 1) '.' :: symbolAt (pos + 2) '.' ::
      tokensFrom (pos + 3) (t.chars ++ after) :=
  tokensFrom_dots (t.isDigit_head after)

private theorem tokens_variadic_named (x : TypeName) (t : PlainType) :
    tokensFrom pos ((variadic (some x) t).chars ++ after) = wordAt pos x.chars ::
      tokensFrom (pos + Text.byteLength x.chars + 1) ((variadic none t).chars ++ after) := by
  have hchars : (variadic (some x) t).chars = x.chars ++ ' ' :: (variadic none t).chars := rfl
  rw [hchars, List.append_assoc, List.cons_append,
    tokensFrom_name x (endsWord_of_mark (by decide)), tokensFrom_blank]

/-- What ends behind a name and a blank. -/
private theorem add_byteLength_blank (a b : List Char) : pos + Text.byteLength (a ++ ' ' :: b) =
    pos + Text.byteLength a + 1 + Text.byteLength b := by
  rw [List.append_cons, Text.byteLength_append, Text.byteLength_append, ← Nat.add_assoc,
    ← Nat.add_assoc]
  rfl

private theorem add_byteLength_named (x : TypeName) (t : PlainType) :
    pos + Text.byteLength (named x t).chars =
      pos + Text.byteLength x.chars + 1 + Text.byteLength t.chars :=
  add_byteLength_blank x.chars t.chars

private theorem add_byteLength_variadic (t : PlainType) :
    pos + Text.byteLength (variadic none t).chars = pos + 3 + Text.byteLength t.chars := by
  have hlength := Text.byteLength_append ['.', '.', '.'] t.chars
  exact (congrArg (pos + ·) hlength).trans (Nat.add_assoc pos 3 _).symm

private theorem add_byteLength_variadic_named (x : TypeName) (t : PlainType) :
    pos + Text.byteLength (variadic (some x) t).chars =
      pos + Text.byteLength x.chars + 1 + Text.byteLength (variadic none t).chars :=
  add_byteLength_blank x.chars (variadic none t).chars

/-- No parameter begins with a closing parenthesis. -/
theorem atSymbol_closing (p : PlainParameter) (h : EndsWord after) :
    atSymbol true ")" (tokensFrom pos (p.chars ++ after)) = false := by
  match p with
  | unnamed t => exact (t.beginsType h).atSymbol rfl (by decide)
  | named x t =>
    rw [tokens_named]
    exact atSymbol_wordAt rfl
  | shared x =>
    rw [chars, tokensFrom_name x h]
    exact atSymbol_wordAt rfl
  | variadic none t =>
    rw [tokens_variadic]
    exact atSymbol_symbolAt_ne rfl (by decide)
  | variadic (some x) t =>
    rw [tokens_variadic_named]
    exact atSymbol_wordAt rfl

namespace Readable

private theorem unnamed (h : t.Readable) : (unnamed t).Readable := by
  intro n pos after hafter hends hn
  obtain ⟨tree, ⟨hresult, hshorter⟩, _⟩ := h n pos true after hafter hends.stops hn
  refine ⟨?_, hshorter⟩
  rcases t.beginning_cases pos hafter with ⟨x, rfl⟩ | ⟨cs, ts, hts, hon⟩ | ⟨c, ts, hts, hc⟩
  · exact (tokensFrom_name x hafter).symm ▸ readsEntry_name hends
  · exact hts ▸ readsEntry_word (hts ▸ hresult) hon hends
  · exact hts ▸ readsEntry_symbol (hts ▸ hresult) hc hends

private theorem shared (x : TypeName) : (shared x).Readable := by
  intro n pos after hafter hends _
  rw [chars, tokensFrom_name x hafter, List.length_cons]
  exact ⟨readsEntry_name hends, Nat.lt_succ_self _⟩

/-- A parameter with a name is taken if its type is. -/
theorem named (x : TypeName) (h : t.Readable) : (named x t).Readable := by
  intro n pos after hafter hends hn
  rw [add_byteLength_named] at hends ⊢
  rw [tokens_named, List.length_cons] at hn ⊢
  obtain ⟨tree, ⟨hresult, hshorter⟩, _⟩ := h n _ true after hafter hends.stops (by omega)
  exact ⟨readsEntry_named hresult (t.beginsType hafter) hends, by omega⟩

private theorem variadic (h : t.Readable) : (variadic none t).Readable := by
  intro n pos after hafter hends hn
  rw [add_byteLength_variadic] at hends ⊢
  rw [tokens_variadic] at hn ⊢
  simp only [List.length_cons] at hn ⊢
  obtain ⟨tree, ⟨hresult, hshorter⟩, _⟩ := h n _ true after hafter hends.stops (by omega)
  exact ⟨readsEntry_variadic (optional_none name_symbolAt) hresult, by omega⟩

private theorem variadic_named (x : TypeName) (h : t.Readable) :
    (PlainParameter.variadic (some x) t).Readable := by
  intro n pos after hafter hends hn
  rw [add_byteLength_variadic_named, add_byteLength_variadic] at hends ⊢
  rw [tokens_variadic_named, tokens_variadic] at hn ⊢
  simp only [List.length_cons] at hn ⊢
  obtain ⟨tree, ⟨hresult, hshorter⟩, _⟩ := h n _ true after hafter hends.stops (by omega)
  exact ⟨readsEntry_variadic (optional_some name_wordAt) hresult, by omega⟩

end Readable

end PlainParameter

namespace PlainParameters.Readable

variable {p q : PlainParameter} {ps : PlainParameters}

private theorem nil : nil.Readable := by
  intro n m pos after _ hm
  have hclosing : tokensFrom pos (PlainParameters.nil.chars ++ ')' :: after) =
      symbolAt pos ')' :: tokensFrom (pos + 1) after := tokensFrom_mark (by decide) (by decide)
  rw [hclosing, List.length_cons] at hm
  obtain ⟨m, rfl⟩ : ∃ k, m = k + 1 := ⟨m - 1, by omega⟩
  refine ⟨[], ?_, rfl, Nat.le_refl _⟩
  rw [hclosing]
  refine (gather_go_none entryStep_none).trans ?_
  rw [← hclosing]
  rfl

private theorem last (hp : p.Readable) : (cons p .nil).Readable := by
  intro n m pos after hn hm
  have hchars : (PlainParameters.cons p .nil).chars = p.chars := by
    simp [PlainParameters.chars, PlainParameters.separator]
  have hclosing : tokensFrom (pos + Text.byteLength p.chars) (')' :: after) =
      symbolAt (pos + Text.byteLength p.chars) ')' ::
        tokensFrom (pos + Text.byteLength p.chars + 1) after :=
    tokensFrom_mark (by decide) (by decide)
  have hafter : EndsWord (')' :: after) := endsWord_of_mark (by decide)
  rw [hchars] at hn hm ⊢
  obtain ⟨⟨e, hentry, hcomma⟩, hshorter⟩ :=
    hp n pos (')' :: after) hafter ⟨_, _, _, hclosing, .inr rfl⟩ hn
  rw [hclosing] at hentry hshorter ⊢
  obtain ⟨m, rfl⟩ : ∃ k, m = k + 2 := ⟨m - 2, by rw [List.length_cons] at hshorter; omega⟩
  exact ⟨[[e]], gather_go_item (entryStep_last (p.atSymbol_closing hafter) hentry)
    (gather_go_none entryStep_none), alternates_last hcomma, Nat.le_of_lt hshorter⟩

private theorem cons (hp : p.Readable) (h : (cons q ps).Readable) :
    (cons p (cons q ps)).Readable := by
  intro n m pos after hn hm
  have hchars : (PlainParameters.cons p (.cons q ps)).chars =
      p.chars ++ [',', ' '] ++ (PlainParameters.cons q ps).chars := rfl
  have hlength : pos + Text.byteLength (PlainParameters.cons p (.cons q ps)).chars =
      pos + Text.byteLength p.chars + 2 + Text.byteLength (PlainParameters.cons q ps).chars := by
    rw [hchars, Text.byteLength_append, Text.byteLength_append, ← Nat.add_assoc, ← Nat.add_assoc]
    rfl
  have hcomma : tokensFrom (pos + Text.byteLength p.chars)
      (',' :: ' ' :: ((PlainParameters.cons q ps).chars ++ ')' :: after)) =
        symbolAt (pos + Text.byteLength p.chars) ',' ::
          tokensFrom (pos + Text.byteLength p.chars + 2)
            ((PlainParameters.cons q ps).chars ++ ')' :: after) := by
    rw [tokensFrom_mark (by decide) (by decide), tokensFrom_blank]
  have hafter : EndsWord (',' :: ' ' :: ((PlainParameters.cons q ps).chars ++ ')' :: after)) :=
    endsWord_of_mark (by decide)
  rw [hlength]
  rw [hchars, List.append_assoc, List.append_assoc, List.cons_append, List.cons_append,
    List.nil_append] at hn hm ⊢
  obtain ⟨⟨e, hentry, hne⟩, hshorter⟩ := hp n pos _ hafter ⟨_, _, _, hcomma, .inl rfl⟩ hn
  rw [hcomma] at hentry hshorter
  rw [List.length_cons] at hshorter
  obtain ⟨m, rfl⟩ : ∃ k, m = k + 1 := ⟨m - 1, by omega⟩
  obtain ⟨groups, hgo, halternate, hle⟩ :=
    h n m (pos + Text.byteLength p.chars + 2) after (by omega) (by omega)
  refine ⟨_ :: groups, gather_go_item (entryStep_comma (p.atSymbol_closing hafter) hentry) hgo,
    ?_, by omega⟩
  exact (alternates_comma hne _ _).trans halternate

/-- A list of parameters in parentheses is taken if its entries are. -/
theorem exists_list (h : ps.Readable) (n pos : Nat) (after : List Char)
    (hn : (tokensFrom pos ('(' :: (ps.chars ++ ')' :: after))).length ≤ n) :
    ∃ tree, parameters (rulesTo n) (tokensFrom pos ('(' :: (ps.chars ++ ')' :: after))) =
        some (tree, tokensFrom (pos + 1 + Text.byteLength ps.chars + 1) after) ∧
      (tokensFrom (pos + 1 + Text.byteLength ps.chars + 1) after).length <
        (tokensFrom pos ('(' :: (ps.chars ++ ')' :: after))).length ∧
      tree.stop = pos + 1 + Text.byteLength ps.chars + 1 ∧ tree.label ≠ .lineBreak := by
  rw [tokensFrom_mark (c := '(') (by decide) (by decide), List.length_cons] at hn ⊢
  obtain ⟨n, rfl⟩ : ∃ k, n = k + 1 := ⟨n - 1, by omega⟩
  obtain ⟨groups, hgo, halternate, hlength⟩ := h n _ (pos + 1) after (by omega) le_rfl
  rw [tokensFrom_mark (c := ')') (by decide) (by decide)] at hgo hlength
  simp only [List.length_cons] at hlength
  exact ⟨_, parameters_entries hgo halternate, by omega, Tree.stop_node .., by simp⟩

end PlainParameters.Readable

/-! ### Results and function types -/

namespace PlainResult.Readable

variable {t : PlainType} {ps : PlainParameters}

private theorem byteLength_list (ps : PlainParameters) :
    Text.byteLength (PlainResult.list ps).chars = 1 + 1 + Text.byteLength ps.chars + 1 := by
  have hchars : (PlainResult.list ps).chars = [' ', '('] ++ ps.chars ++ [')'] := rfl
  rw [hchars, Text.byteLength_append, Text.byteLength_append]
  rfl

private theorem none : none.Readable := by
  intro n pos free after _ hstops _
  exact ⟨_, result?_none hstops, Nat.le_refl _, by simp, fun _ => rfl⟩

private theorem type (h : t.Readable) : (type t).Readable := by
  intro n pos free after hafter hstops hn
  have htokens : tokensFrom pos ((PlainResult.type t).chars ++ after) =
      tokensFrom (pos + 1) (t.chars ++ after) := tokensFrom_blank
  have hlength : pos + Text.byteLength (PlainResult.type t).chars =
      pos + 1 + Text.byteLength t.chars := (Nat.add_assoc pos 1 _).symm
  rw [htokens] at hn ⊢
  rw [hlength] at hstops ⊢
  obtain ⟨tree, ⟨hresult, hshorter⟩, htree⟩ := h n _ free after hafter hstops hn
  refine ⟨_, result?_type hresult (t.beginsType hafter), Nat.le_of_lt hshorter, ?_, by simp⟩
  rintro _ ⟨⟩
  exact ⟨by rw [Tree.stop_asRole, htree.stop], by rw [Tree.label_asRole]; exact htree.label_ne⟩

private theorem list (h : ps.Readable) : (list ps).Readable := by
  intro n pos free after _ _ hn
  have htokens : tokensFrom pos ((PlainResult.list ps).chars ++ after) =
      tokensFrom (pos + 1) ('(' :: (ps.chars ++ ')' :: after)) := by
    rw [chars, List.cons_append, tokensFrom_blank, List.cons_append, List.append_assoc]
    rfl
  have hopening : ∀ cs, tokensFrom (pos + 1) ('(' :: cs) =
      symbolAt (pos + 1) '(' :: tokensFrom (pos + 2) cs :=
    fun cs => tokensFrom_mark (by decide) (by decide)
  rw [htokens] at hn ⊢
  rw [byteLength_list, ← Nat.add_assoc, ← Nat.add_assoc]
  obtain ⟨tree, hlist, hshorter, hstop, hlabel⟩ := h.exists_list n _ after hn
  rw [hopening] at hlist hshorter ⊢
  refine ⟨_, result?_list hlist, Nat.le_of_lt hshorter, ?_, by simp⟩
  rintro _ ⟨⟩
  exact ⟨by rw [Tree.stop_asRole, hstop], by rwa [Tree.label_asRole]⟩

end PlainResult.Readable

private theorem PlainType.Readable.func {ps : PlainParameters} {r : PlainResult} (hp : ps.Readable)
    (hr : r.Readable) : (func ps r).Readable := by
  intro n pos free after hafter hstops hn
  have hend := add_byteLength_func pos ps r
  rw [hend] at hstops
  rw [tokens_func, List.length_cons] at hn
  obtain ⟨n, rfl⟩ : ∃ k, n = k + 1 := ⟨n - 1, by omega⟩
  obtain ⟨list, hlist, hless, hstop, hlabel⟩ :=
    hp.exists_list n (pos + 4) (r.chars ++ after) (by omega)
  obtain ⟨o, hresult, hle, hlast, hnone⟩ := hr n _ free after hafter hstops (by omega)
  have htree : Represents (.node .functionType (.leaf (.token "func") pos (pos + 4) ::
      list.asRole .parameters :: o.toList)) (.func ps r) pos := by
    cases o with
    | none =>
      obtain rfl := hnone rfl
      exact .func (list.asRole .parameters) (by simp [hlabel]) rfl rfl
        (by rw [Tree.stop_asRole, hstop, hend]; rfl)
    | some tree =>
      obtain ⟨htree, hne⟩ := hlast tree rfl
      exact .func tree (by simp [hlabel, hne]) rfl rfl (by rw [htree, hend])
  refine ⟨_, .of_tokens (tokens_func ps r) hend (type_func hlist hresult) ?_, htree⟩
  rw [List.length_cons]
  omega

mutual

/-- The grammar takes the canonical spelling of a type for a tree of the type. -/
theorem PlainType.readable : ∀ t : PlainType, t.Readable
  | .named x => .named x
  | .qualified q x => .qualified q x
  | .pointer t => (PlainType.readable t).pointer
  | .slice t => (PlainType.readable t).slice
  | .map k v => (PlainType.readable k).map (PlainType.readable v)
  | .chan t => (PlainType.readable t).chan
  | .func ps r => .func (PlainParameters.readable ps) (PlainResult.readable r)
  | .interface => .interface

/-- Each parameter is taken. -/
theorem PlainParameter.readable : ∀ p : PlainParameter, p.Readable
  | .unnamed t => .unnamed (PlainType.readable t)
  | .named x t => .named x (PlainType.readable t)
  | .shared x => .shared x
  | .variadic none t => .variadic (PlainType.readable t)
  | .variadic (some x) t => .variadic_named x (PlainType.readable t)

/-- All parameters are taken. -/
theorem PlainParameters.readable : ∀ ps : PlainParameters, ps.Readable
  | .nil => .nil
  | .cons p .nil => .last (PlainParameter.readable p)
  | .cons p (.cons q ps) =>
    .cons (PlainParameter.readable p) (PlainParameters.readable (.cons q ps))

/-- Each result is taken. -/
theorem PlainResult.readable : ∀ r : PlainResult, r.Readable
  | .none => .none
  | .type t => .type (PlainType.readable t)
  | .list ps => .list (PlainParameters.readable ps)

end

end GoContracts

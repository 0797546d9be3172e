import GoContracts.Proofs.Syntax.Grammar.HeaderReading
import GoContracts.Proofs.Syntax.SpelledTokens
import GoContracts.Proofs.TypeExpr.PlainTypes

/-!
# Reading plain types

What the rules for types take from tokens that begin as a plain type does. For each form of type
there is one lemma: the rule takes the type if the rules one phrase deeper take its parts. The
entries of a list of parameters are told apart by what stands behind the first word.
-/

namespace GoContracts.Syntax.Grammar

open Token (wordAt symbolAt newlineAt typeSymbols)

variable {rules : Rules} {free : Bool} {pos n : Nat} {ts : List Token} {cs after : List Char}

/-- Whether nothing is ahead that a type could go on with. -/
structure Stops (free : Bool) (ts : List Token) : Prop where
  word : ∀ u ∈ (visible free ts).head?, u.lexeme ≠ .word
  symbol : ∀ c ∈ ['.', '(', '[', '*', '<', '~'],
    ∀ u ∈ (visible free ts).head?, u.lexeme ≠ .symbol c

/-- What stops a type is none of the symbols that go on with one. -/
theorem Stops.atSymbol {s : String} {d : Char} {ds : List Char} (h : Stops free ts)
    (hs : s.toList = d :: ds) (hd : d ∈ ['.', '(', '[', '*', '<', '~']) :
    atSymbol free s ts = false :=
  atSymbol_eq_false hs (h.symbol d hd)

/-- The rule for a type that begins with a word. -/
theorem type_word {w : String} (hw : String.ofList cs = w) :
    type rules free (wordAt pos cs :: ts) =
      (if w = "func" then functionType rules free
      else if w = "map" then mapType rules free
      else if w = "chan" then channelType rules free
      else if w = "struct" then structType rules free
      else if w = "interface" then interfaceType rules free
      else namedType rules free) (wordAt pos cs :: ts) := by
  unfold type
  rw [skipNewlines_bind, afterNewlines_cons (by simp [wordAt]), get_bind]
  simp only [atWord_wordAt, hw, decide_eq_true_eq, Bool.or_eq_true]
  rw [atSymbol_wordAt (s := "<-") rfl, atSymbol_wordAt (s := "[") rfl,
    atSymbol_wordAt (s := "*") rfl, atSymbol_wordAt (s := "~") rfl, atSymbol_wordAt (s := "(") rfl]
  simp

/-- A type that begins with a word is a named one. -/
theorem type_name (x : TypeName) : type rules free (wordAt pos x.chars :: ts) =
    namedType rules free (wordAt pos x.chars :: ts) := by
  have hx := x.notKeyword
  rw [type_word rfl]
  simp only [keywords, List.mem_cons, List.not_mem_nil, or_false, not_or] at hx
  simp [hx]

/-- A symbol that no type goes on with stops a type. -/
theorem stops_symbolAt {c : Char} (hc : c ∉ ['.', '(', '[', '*', '<', '~']) :
    Stops free (symbolAt pos c :: ts) := by
  refine ⟨?_, fun d hd => ?_⟩
  · rw [visible_cons (by simp [symbolAt])]
    simp [symbolAt]
  · rw [visible_cons (by simp [symbolAt])]
    rintro u ⟨⟩ h
    exact hc (Lexeme.symbol.inj h ▸ hd)

/-- What can be read is read. -/
theorem optional_some {α : Type} {x : Reader α} {a : α} {mid : List Token}
    (h : x ts = some (a, mid)) : optional? x ts = some (some a, mid) :=
  optional_eq_some.mpr (.inl ⟨a, rfl, h⟩)

/-- What cannot be read is left out. -/
theorem optional_none {α : Type} {x : Reader α} (h : x ts = none) :
    optional? x ts = some (none, ts) :=
  optional_eq_some.mpr (.inr ⟨h, rfl, rfl⟩)

private theorem orElse_left {α : Type} {x y : Reader α} {r : α × List Token} (h : x ts = some r) :
    (x <|> y) ts = some r :=
  orElse_eq_some.mpr (.inl h)

private theorem orElse_right {α : Type} {x y : Reader α} (h : x ts = none) :
    (x <|> y) ts = y ts := by
  simp only [HOrElse.hOrElse, OrElse.orElse, Alternative.orElse, StateT.orElse, h]
  rfl

/-- Where the first step takes nothing, nothing is gathered. -/
theorem gather_none {α : Type} {step : Reader (Option α)} {u : Token} {rest : List Token}
    (h : step (u :: ts) = some (none, rest)) : gather step (u :: ts) = some ([], rest) :=
  gather_go_none h

/-! ### Names -/

/-- No arguments stand where a type stops. -/
theorem Stops.typeArguments (h : Stops free ts) : typeArguments rules free ts = none :=
  bind_of_none (symbol_eq_none (h.atSymbol rfl (by decide)))

/-- The brackets of a slice hold no type arguments. -/
theorem typeArguments_slice :
    typeArguments rules free (symbolAt pos '[' :: symbolAt n ']' :: ts) = none := by
  have hempty : commaList "]" (typeElement rules true) (symbolAt n ']' :: ts) =
      some ([], symbolAt n ']' :: ts) := by
    rw [commaList, looking_bind, atSymbol_symbolAt rfl]
    rfl
  unfold typeArguments
  rw [bind_of (symbol_symbolAt rfl), bind_of hempty]
  rfl

/-- A word alone is the name of a type. -/
theorem namedType_name {x : TypeName} (hpoint : atSymbol free "." ts = false)
    (harguments : typeArguments rules free ts = none) :
    namedType rules free (wordAt pos x.chars :: ts) =
      some (.leaf (.node .typeIdentifier) pos (pos + Text.byteLength x.chars), ts) := by
  unfold namedType
  rw [bind_of name_wordAt, looking_bind, hpoint, Bool.false_and, if_neg Bool.false_ne_true,
    pure_bind_apply]
  exact bind_of (optional_none harguments)

/-- A point before a name is no dots. -/
theorem atSymbol_dots {dot stop : Nat} :
    atSymbol free "..." (symbolAt dot '.' :: wordAt stop cs :: ts) = false := by
  have hword : joined? ['.', '.'] (wordAt stop cs :: ts) = none :=
    joined?_eq_none (by simp [wordAt])
  rw [atSymbol, visible_cons (by simp [symbolAt])]
  simp [joined?, hword]

/-- Two words with a point between them are a name of a package. -/
theorem namedType_qualified {q x : TypeName} {dot stop : Nat}
    (harguments : typeArguments rules free ts = none) :
    namedType rules free (wordAt pos q.chars :: symbolAt dot '.' :: wordAt stop x.chars :: ts) =
      some (.node .qualifiedType
        [(Tree.leaf (.node .packageIdentifier) pos (pos + Text.byteLength q.chars)).asRole .package,
          .leaf (.token ".") dot (dot + 1),
          (Tree.leaf (.node .typeIdentifier) stop (stop + Text.byteLength x.chars)).asRole .name],
        ts) := by
  unfold namedType
  rw [bind_of name_wordAt, looking_bind, atSymbol_symbolAt rfl, atSymbol_dots, Bool.not_false,
    Bool.and_self, if_pos rfl, bind_of (symbol_symbolAt rfl), bind_of name_wordAt, pure_bind_apply]
  exact bind_of (optional_none harguments)

/-! ### One rule for each form -/

/-- Whether tokens begin as a plain type does. -/
def BeginsType (ts : List Token) : Prop :=
  (∃ pos cs us, ts = wordAt pos cs :: us) ∨ (∃ pos us, ts = symbolAt pos '*' :: us) ∨
    ∃ pos next us, ts = symbolAt pos '[' :: symbolAt next ']' :: us

namespace BeginsType

/-- A type begins with no other symbol. -/
theorem atSymbol {s : String} {d : Char} {ds : List Char} (h : BeginsType ts)
    (hs : s.toList = d :: ds) (hd : d ≠ '*' ∧ d ≠ '[') : atSymbol free s ts = false := by
  rcases h with ⟨_, _, _, rfl⟩ | ⟨_, _, rfl⟩ | ⟨_, _, _, rfl⟩
  · exact atSymbol_wordAt hs
  · exact atSymbol_symbolAt_ne hs hd.1.symm
  · exact atSymbol_symbolAt_ne hs hd.2.symm

/-- A type is no list of arguments. -/
theorem typeArguments (h : BeginsType ts) : typeArguments rules free ts = none := by
  rcases h with ⟨_, _, _, rfl⟩ | ⟨_, _, rfl⟩ | ⟨_, _, _, rfl⟩
  · exact bind_of_none (symbol_eq_none (atSymbol_wordAt rfl))
  · exact bind_of_none (symbol_eq_none (atSymbol_symbolAt_ne rfl (by decide)))
  · exact typeArguments_slice

end BeginsType

variable {rest us : List Token} {tree key value : Tree} {next : Nat}

/-- A star before a type makes a pointer type. -/
theorem type_pointer (h : type (rulesTo n) free ts = some (tree, rest)) :
    type (rulesTo (n + 1)) free (symbolAt pos '*' :: ts) =
      some (.node .pointerType [.leaf (.token "*") pos (pos + 1), tree], rest) := by
  unfold type
  rw [skipNewlines_bind, afterNewlines_cons (by simp [symbolAt]), get_bind]
  simp only [atWord_symbolAt, atSymbol_symbolAt_ne (s := "<-") rfl (show '*' ≠ '<' by decide),
    atSymbol_symbolAt_ne (s := "[") rfl (show '*' ≠ '[' by decide), Bool.or_self,
    Bool.false_eq_true, if_false]
  rw [if_pos (atSymbol_symbolAt rfl), bind_of (symbol_symbolAt rfl)]
  exact bind_of h

/-- Empty brackets before a type make a slice type. -/
theorem type_slice (h : type (rulesTo n) free ts = some (tree, rest)) :
    type (rulesTo (n + 1)) free (symbolAt pos '[' :: symbolAt next ']' :: ts) =
      some (.node .sliceType [.leaf (.token "[") pos (pos + 1),
        .leaf (.token "]") next (next + 1), tree.asRole .element], rest) := by
  unfold type
  rw [skipNewlines_bind, afterNewlines_cons (by simp [symbolAt]), get_bind]
  simp only [atWord_symbolAt, atSymbol_symbolAt_ne (s := "<-") rfl (show '[' ≠ '<' by decide),
    Bool.or_self, Bool.false_eq_true, if_false]
  rw [if_pos (atSymbol_symbolAt rfl), arrayType, bind_of (symbol_symbolAt rfl),
    bind_of (optional_some (symbol_symbolAt rfl))]
  exact bind_of h

/-- A type in brackets before another one makes a map type. -/
theorem type_map (hk : type (rulesTo n) true ts = some (key, symbolAt next ']' :: us))
    (hv : type (rulesTo n) free us = some (value, rest)) {opening : Nat} :
    type (rulesTo (n + 1)) free (wordAt pos ['m', 'a', 'p'] :: symbolAt opening '[' :: ts) =
      some (.node .mapType [.leaf (.token "map") pos (pos + 3),
        .leaf (.token "[") opening (opening + 1), key.asRole .key,
        .leaf (.token "]") next (next + 1), value.asRole .value], rest) := by
  rw [type_word (w := "map") rfl, if_neg (by decide), if_pos rfl, mapType,
    bind_of (keyword_wordAt rfl), bind_of (symbol_symbolAt rfl)]
  refine (bind_of hk).trans ?_
  rw [bind_of (symbol_symbolAt rfl)]
  exact bind_of hv

/-- The keyword before a type makes a channel type. -/
theorem type_chan (h : type (rulesTo n) free ts = some (tree, rest)) (hts : BeginsType ts) :
    type (rulesTo (n + 1)) free (wordAt pos ['c', 'h', 'a', 'n'] :: ts) =
      some (.node .channelType [.leaf (.token "chan") pos (pos + 4), tree.asRole .value],
        rest) := by
  have harrow : symbol true "<-" ts = none := symbol_eq_none (hts.atSymbol rfl (by decide))
  rw [type_word (w := "chan") rfl, if_neg (by decide), if_neg (by decide), if_pos rfl, channelType,
    looking_bind, atSymbol_wordAt rfl, if_neg Bool.false_ne_true, bind_of (keyword_wordAt rfl),
    bind_of (optional_none harrow)]
  dsimp only
  rw [pure_bind_apply]
  exact bind_of h

/-- Empty braces behind the keyword make an interface type. -/
theorem type_interface {opening : Nat} : type (rulesTo n) free
    (wordAt pos ['i', 'n', 't', 'e', 'r', 'f', 'a', 'c', 'e'] :: symbolAt opening '\x7b' ::
      symbolAt next '\x7d' :: ts) =
    some (.node .interfaceType [.leaf (.token "interface") pos (pos + 9),
      .leaf (.token "\x7b") opening (opening + 1), .leaf (.token "\x7d") next (next + 1)], ts) := by
  have hempty : terminatedList (atSymbol true "\x7d")
      (methodElement (rulesTo n) <|> typeElement (rulesTo n) false) (symbolAt next '\x7d' :: ts) =
        some ([], symbolAt next '\x7d' :: ts) := by
    refine bind_of (gather_none ?_)
    rw [looking_bind, atSymbol_symbolAt rfl]
    rfl
  rw [type_word (w := "interface") rfl, if_neg (by decide), if_neg (by decide), if_neg (by decide),
    if_neg (by decide), if_pos rfl, interfaceType, bind_of (keyword_wordAt rfl),
    bind_of (symbol_symbolAt rfl), bind_of hempty, bind_of (symbol_symbolAt rfl)]
  rfl

/-! ### Parameters and results -/

/-- Whether a comma or a closing parenthesis is ahead. -/
def EndsEntry (ts : List Token) : Prop :=
  ∃ pos c us, ts = symbolAt pos c :: us ∧ (c = ',' ∨ c = ')')

namespace EndsEntry

/-- What ends an entry stops a type. -/
theorem stops (h : EndsEntry ts) : Stops free ts := by
  obtain ⟨pos, c, us, rfl, rfl | rfl⟩ := h
  all_goals exact stops_symbolAt (by decide)

/-- What ends an entry is found to do so. -/
theorem atEntryEnd (h : EndsEntry ts) : parameterEntry.atEntryEnd ts = some ((), ts) := by
  obtain ⟨pos, c, us, rfl, rfl | rfl⟩ := h
  · rw [parameterEntry.atEntryEnd, looking_bind, atSymbol_symbolAt rfl]
    rfl
  · rw [parameterEntry.atEntryEnd, looking_bind, atSymbol_symbolAt (s := ")") (c := ')') rfl,
      Bool.or_true]
    rfl

end EndsEntry

/-- Whether an entry that has come so far neither ends here nor has the dots of a variadic one. -/
structure GoesOn (ts : List Token) : Prop where
  dots : atSymbol true "..." ts = false
  comma : atSymbol true "," ts = false
  closing : atSymbol true ")" ts = false

/-- A type goes on with an entry that begins with a name. -/
theorem BeginsType.goesOn (h : BeginsType ts) : GoesOn ts :=
  ⟨h.atSymbol rfl (by decide), h.atSymbol rfl (by decide), h.atSymbol rfl (by decide)⟩

private theorem GoesOn.atEntryEnd (h : GoesOn ts) : parameterEntry.atEntryEnd ts = none := by
  rw [parameterEntry.atEntryEnd, looking_bind, h.comma, h.closing]
  rfl

private theorem variadic_word (hdots : atSymbol true "..." ts = false) :
    parameterEntry.variadic rules (wordAt pos cs :: ts) = none := by
  rw [parameterEntry.variadic, bind_of (optional_some name_wordAt)]
  exact bind_of_none (symbol_eq_none hdots)

private theorem bare_goesOn (h : GoesOn ts) : parameterEntry.bare (wordAt pos cs :: ts) = none := by
  rw [parameterEntry.bare, bind_of name_wordAt]
  exact bind_of_none h.atEntryEnd

/-- Whether one entry of a list of parameters is read. -/
def ReadsEntry (rules : Rules) (ts rest : List Token) : Prop :=
  ∃ e, parameterEntry rules ts = some (e, rest) ∧ ∀ c, e ≠ .comma c

/-- A name alone. -/
theorem readsEntry_name (hts : EndsEntry ts) : ReadsEntry rules (wordAt pos cs :: ts) ts := by
  have hdots : atSymbol true "..." ts = false := hts.stops.atSymbol rfl (by decide)
  refine ⟨.lone (.leaf (.node .identifier) pos (pos + Text.byteLength cs)), ?_, by simp⟩
  rw [parameterEntry, orElse_right (variadic_word hdots)]
  refine orElse_left ?_
  rw [parameterEntry.bare, bind_of name_wordAt, bind_of hts.atEntryEnd]
  rfl

private theorem alone_type (h : type (rulesTo n) true ts = some (tree, rest))
    (hrest : EndsEntry rest) : parameterEntry.alone (rulesTo (n + 1)) ts =
      some (.declared (.node .parameterDeclaration [tree.asRole .type]) false, rest) := by
  rw [parameterEntry.alone]
  refine (bind_of h).trans ?_
  rw [bind_of hrest.atEntryEnd]
  rfl

/-- A type alone that begins with a word. -/
theorem readsEntry_word (h : type (rulesTo n) true (wordAt pos cs :: ts) = some (tree, rest))
    (hts : GoesOn ts) (hrest : EndsEntry rest) :
    ReadsEntry (rulesTo (n + 1)) (wordAt pos cs :: ts) rest := by
  refine ⟨.declared (.node .parameterDeclaration [tree.asRole .type]) false, ?_, by simp⟩
  rw [parameterEntry, orElse_right (variadic_word hts.dots), orElse_right (bare_goesOn hts)]
  exact orElse_left (alone_type h hrest)

/-- A type alone that begins with a symbol. -/
theorem readsEntry_symbol {c : Char}
    (h : type (rulesTo n) true (symbolAt pos c :: ts) = some (tree, rest)) (hc : c ≠ '.')
    (hrest : EndsEntry rest) : ReadsEntry (rulesTo (n + 1)) (symbolAt pos c :: ts) rest := by
  have hvariadic : parameterEntry.variadic (rulesTo (n + 1)) (symbolAt pos c :: ts) = none := by
    rw [parameterEntry.variadic, bind_of (optional_none name_symbolAt)]
    exact bind_of_none (symbol_eq_none (atSymbol_symbolAt_ne rfl hc))
  have hbare : parameterEntry.bare (symbolAt pos c :: ts) = none := bind_of_none name_symbolAt
  refine ⟨.declared (.node .parameterDeclaration [tree.asRole .type]) false, ?_, by simp⟩
  rw [parameterEntry, orElse_right hvariadic, orElse_right hbare]
  exact orElse_left (alone_type h hrest)

/-- A name with a type behind it. The name alone would be a type, but no entry ends behind it. -/
theorem readsEntry_named {x : TypeName} (h : type (rulesTo n) true ts = some (tree, rest))
    (hts : BeginsType ts) (hrest : EndsEntry rest) :
    ReadsEntry (rulesTo (n + 1)) (wordAt pos x.chars :: ts) rest := by
  have hname : rulesTo (n + 1) (.type true) (wordAt pos x.chars :: ts) =
      some (.leaf (.node .typeIdentifier) pos (pos + Text.byteLength x.chars), ts) :=
    (type_name x).trans (namedType_name (hts.atSymbol rfl (by decide)) hts.typeArguments)
  have halone : parameterEntry.alone (rulesTo (n + 1)) (wordAt pos x.chars :: ts) = none := by
    rw [parameterEntry.alone, bind_of hname]
    exact bind_of_none hts.goesOn.atEntryEnd
  refine ⟨.declared (.node .parameterDeclaration
    [(Tree.leaf (.node .identifier) pos (pos + Text.byteLength x.chars)).asRole .name,
      tree.asRole .type]) true, ?_, by simp⟩
  rw [parameterEntry, orElse_right (variadic_word hts.goesOn.dots),
    orElse_right (bare_goesOn hts.goesOn), orElse_right halone, parameterEntry.typed,
    bind_of name_wordAt]
  refine (bind_of h).trans ?_
  rw [bind_of hrest.atEntryEnd]
  rfl

private theorem symbol_dots : symbol free "..."
    (symbolAt pos '.' :: symbolAt (pos + 1) '.' :: symbolAt (pos + 2) '.' :: ts) =
      some (.leaf (.token "...") pos (pos + 3), ts) := by
  unfold symbol
  rw [visible_cons (by simp [symbolAt])]
  simp [joined?, symbolAt, Token.isSymbolOf]

/-- A variadic parameter, with a name or without. -/
theorem readsEntry_variadic {o : Option Tree}
    (ho : optional? (name true .identifier) us = some (o,
      symbolAt pos '.' :: symbolAt (pos + 1) '.' :: symbolAt (pos + 2) '.' :: ts))
    (h : type (rulesTo n) true ts = some (tree, rest)) : ReadsEntry (rulesTo (n + 1)) us rest := by
  refine ⟨.declared (.node .variadicParameterDeclaration ((o.map (·.asRole .name)).toList ++
    [.leaf (.token "...") pos (pos + 3), tree.asRole .type])) false, ?_, by simp⟩
  rw [parameterEntry]
  refine orElse_left ?_
  rw [parameterEntry.variadic, bind_of ho, bind_of symbol_dots]
  exact bind_of h

/-- One entry of a list of parameters with the comma behind it. -/
def entryStep (rules : Rules) : Reader (Option (List ParameterEntry)) := do
  if ← looking (atSymbol true ")") then return none
  let entry ← optional? (parameterEntry rules)
  match ← optional? (symbol true ",") with
  | some comma => return some (entry.toList ++ [.comma comma])
  | none =>
    require entry.isSome
    return some entry.toList

/-- An entry is taken with the comma behind it. -/
theorem entryStep_comma {e : ParameterEntry} (hts : atSymbol true ")" ts = false)
    (h : parameterEntry rules ts = some (e, symbolAt pos ',' :: rest)) :
    entryStep rules ts = some (some [e, .comma (.leaf (.token ",") pos (pos + 1))], rest) := by
  rw [entryStep, looking_bind, hts, if_neg Bool.false_ne_true, bind_of (optional_some h),
    bind_of (optional_some (symbol_symbolAt rfl))]
  rfl

/-- The last entry is taken without a comma. -/
theorem entryStep_last {e : ParameterEntry} (hts : atSymbol true ")" ts = false)
    (h : parameterEntry rules ts = some (e, symbolAt pos ')' :: rest)) :
    entryStep rules ts = some (some [e], symbolAt pos ')' :: rest) := by
  have hcomma : symbol true "," (symbolAt pos ')' :: rest) = none :=
    symbol_eq_none (atSymbol_symbolAt_ne rfl (by decide))
  rw [entryStep, looking_bind, hts, if_neg Bool.false_ne_true, bind_of (optional_some h),
    bind_of (optional_none hcomma)]
  rfl

/-- There is no entry before the closing parenthesis. -/
theorem entryStep_none :
    entryStep rules (symbolAt pos ')' :: ts) = some (none, symbolAt pos ')' :: ts) := by
  rw [entryStep, looking_bind, atSymbol_symbolAt rfl]
  rfl

/-- One entry alternates with no commas. -/
theorem alternates_last {e : ParameterEntry} (he : ∀ c, e ≠ .comma c) :
    parameters.alternates [e] = true := by
  cases e with
  | lone => rfl
  | declared => rfl
  | comma c => exact absurd rfl (he c)

/-- Entries alternate with commas if they do so behind the first two. -/
theorem alternates_comma {e : ParameterEntry} (he : ∀ c, e ≠ .comma c) (comma : Tree)
    (entries : List ParameterEntry) :
    parameters.alternates (e :: .comma comma :: entries) = parameters.alternates entries := by
  cases e with
  | lone => rfl
  | declared => rfl
  | comma c => exact absurd rfl (he c)

/-- Entries that alternate with commas are a list of parameters. -/
theorem parameters_entries {groups : List (List ParameterEntry)}
    (h : gather (entryStep rules) ts = some (groups, symbolAt next ')' :: rest))
    (halternate : parameters.alternates groups.flatten = true) :
    parameters rules (symbolAt pos '(' :: ts) =
      some (.node .parameterList (.leaf (.token "(") pos (pos + 1) ::
        declareParameters groups.flatten ++ [.leaf (.token ")") next (next + 1)]), rest) := by
  rw [parameters, bind_of (symbol_symbolAt rfl)]
  have hrequire : require (decide (groups.flatten.length ≤ 1) ||
      parameters.alternates groups.flatten) (symbolAt next ')' :: rest) =
        some ((), symbolAt next ')' :: rest) := by
    rw [halternate, Bool.or_true]
    rfl
  refine (bind_of h).trans ((bind_of hrequire).trans ?_)
  rw [bind_of (symbol_symbolAt rfl)]
  rfl

/-! ### Function types -/

/-- No result stands where a type stops. -/
theorem result?_none (h : Stops free ts) : result? rules free ts = some (none, ts) := by
  have hword : atAnyWord free ts = false := by
    rw [atAnyWord]
    cases hv : (visible free ts).head? with
    | none => rfl
    | some u => simpa using h.word u hv
  have hbegins : (atAnyWord free ts || ["*", "[", "<-", "~"].any (atSymbol free · ts)) = false := by
    simp [hword, h.atSymbol (s := "*") rfl (by decide), h.atSymbol (s := "[") rfl (by decide),
      h.atSymbol (s := "<-") rfl (by decide), h.atSymbol (s := "~") rfl (by decide)]
  rw [result?, looking_bind, h.atSymbol rfl (by decide), if_neg Bool.false_ne_true, looking_bind,
    hbegins]
  rfl

private theorem begins_result (h : BeginsType ts) :
    (atAnyWord free ts || ["*", "[", "<-", "~"].any (atSymbol free · ts)) = true := by
  rcases h with ⟨_, _, _, rfl⟩ | ⟨_, _, rfl⟩ | ⟨_, _, _, rfl⟩
  · rw [atAnyWord_wordAt, Bool.true_or]
  · rw [List.any_cons, atSymbol_symbolAt (s := "*") (c := '*') rfl, Bool.true_or, Bool.or_true]
  · rw [List.any_cons, List.any_cons, atSymbol_symbolAt (s := "[") (c := '[') rfl]
    simp

/-- A type is a result. -/
theorem result?_type (h : type (rulesTo n) free ts = some (tree, rest)) (hts : BeginsType ts) :
    result? (rulesTo (n + 1)) free ts = some (some (tree.asRole .result), rest) := by
  rw [result?, looking_bind, hts.atSymbol rfl (by decide), if_neg Bool.false_ne_true, looking_bind,
    begins_result hts, if_pos rfl]
  exact bind_of h

/-- Parameters are a result. -/
theorem result?_list (h : parameters (rulesTo n) (symbolAt pos '(' :: ts) = some (tree, rest)) :
    result? (rulesTo (n + 1)) free (symbolAt pos '(' :: ts) =
      some (some (tree.asRole .result), rest) := by
  rw [result?, looking_bind, atSymbol_symbolAt rfl, if_pos rfl]
  exact bind_of h

/-- The keyword before parameters and a result makes a function type. -/
theorem type_func {mid : List Token} {r : Option Tree}
    (hp : parameters (rulesTo n) ts = some (tree, mid))
    (hr : result? (rulesTo (n + 1)) free mid = some (r, rest)) :
    type (rulesTo (n + 1)) free (wordAt pos ['f', 'u', 'n', 'c'] :: ts) =
      some (.node .functionType (.leaf (.token "func") pos (pos + 4) ::
        tree.asRole .parameters :: r.toList), rest) := by
  have hsignature : signature (rulesTo (n + 1)) free ts =
      some (tree.asRole .parameters :: r.toList, rest) := by
    rw [signature]
    exact (bind_of hp).trans (bind_of hr)
  rw [type_word (w := "func") rfl, if_pos rfl, functionType, bind_of (keyword_wordAt rfl),
    bind_of hsignature]
  rfl

/-! ### Declarations of types -/

/-- An empty line is one newline to the grammar. -/
theorem tokensFrom_lines {u : Token} (h : tokensFrom (pos + 2) cs = u :: ts)
    (hu : u.lexeme ≠ .newline) :
    tokensFrom pos ('\n' :: '\n' :: cs) = newlineAt pos :: u :: ts := by
  rw [tokensFrom, Token.readFrom_newline, Token.readFrom_newline, significant, significant]
  rw [tokensFrom] at h
  simp [newlineAt, h, hu]

/-- A newline is one token. -/
theorem tokensFrom_line : tokensFrom pos ['\n'] = [newlineAt pos] := by
  rw [tokensFrom, Token.readFrom_newline, Token.readFrom_nil]
  rfl

/-- The tree of the name and the type in a declaration, over the tree of the type. -/
def specTree (pos : Nat) (cs : List Char) (tree : Tree) : Tree :=
  .node .typeSpec [(Tree.leaf (.node .typeIdentifier) pos (pos + Text.byteLength cs)).asRole .name,
    tree.asRole .type]

/-- An item at the end of its line. -/
theorem ended_line (atEnd : List Token → Bool) (tree : Tree) :
    ended atEnd tree (newlineAt pos :: ts) =
      some ([tree, .leaf .lineBreak pos (pos + 1)], ts) := by
  have hline : terminator (newlineAt pos :: ts) = some (.leaf .lineBreak pos (pos + 1), ts) :=
    orElse_left rfl
  exact bind_of (optional_some hline)

/-- The declaration of a type. -/
theorem typeSpec_type (h : type (rulesTo n) false ts = some (tree, rest)) (hts : BeginsType ts) :
    typeSpec (rulesTo (n + 1)) (wordAt pos cs :: ts) = some (specTree pos cs tree, rest) := by
  have hequals : atSymbol true "=" ts = false := hts.atSymbol rfl (by decide)
  rw [typeSpec, bind_of name_wordAt]
  refine orElse_left ?_
  beta_reduce
  rw [looking_bind, hequals, if_neg Bool.false_ne_true]
  exact bind_of h

private theorem declaration_type (h : type (rulesTo n) false ts = some (tree, rest))
    (hts : BeginsType ts) :
    declaration (rulesTo (n + 1)) (wordAt pos ['t', 'y', 'p', 'e'] :: wordAt next cs :: ts) =
      some (.node .typeDeclaration
        [.leaf (.token "type") pos (pos + 4), specTree next cs tree], rest) := by
  have hspecs : specifications id (typeSpec (rulesTo (n + 1))) (wordAt next cs :: ts) =
      some ([specTree next cs tree], rest) := by
    rw [specifications, looking_bind, atSymbol_wordAt rfl, if_neg Bool.false_ne_true]
    exact bind_of (typeSpec_type h hts)
  rw [declaration, get_bind, if_neg (by simp [atWord_wordAt]), if_neg (by simp [atWord_wordAt]),
    bind_of (keyword_wordAt rfl)]
  exact bind_of hspecs

/-- A type declaration among statements. -/
theorem statement_type (h : type (rulesTo n) false ts = some (tree, rest)) (hts : BeginsType ts) :
    statement (rulesTo (n + 1)) (wordAt pos ['t', 'y', 'p', 'e'] :: wordAt next cs :: ts) =
      some (.node .typeDeclaration
        [.leaf (.token "type") pos (pos + 4), specTree next cs tree], rest) := by
  have hlabel : atLabel (wordAt pos ['t', 'y', 'p', 'e'] :: wordAt next cs :: ts) = false := by
    rw [atLabel, afterNewlines_cons (by simp [wordAt])]
    simp [atSymbol_wordAt (s := ":") rfl]
  unfold statement
  rw [skipNewlines_bind, afterNewlines_cons (by simp [wordAt]), get_bind,
    if_neg (by simp [atSymbol_wordAt (s := "\x7b") rfl]),
    if_neg (by simp [atSymbol_wordAt (s := ";") rfl]), hlabel, if_neg Bool.false_ne_true]
  exact declaration_type h hts

/-- A declaration or statement on a line of its own. -/
theorem fileItem_line {u : Token} (hu : u.lexeme ≠ .newline)
    (h : topLevel rules (u :: ts) = some (tree, newlineAt pos :: rest)) :
    fileItem rules (u :: ts) = some (some [tree, .leaf .lineBreak pos (pos + 1)], rest) := by
  have hend : atEnd (u :: ts) = false := by
    rw [atEnd, afterNewlines_cons hu]
    rfl
  rw [fileItem, looking_bind, hend, if_neg Bool.false_ne_true]
  refine optional_some ?_
  rw [bind_of h]
  exact ended_line atEnd tree

/-- The keyword before a name makes a package clause. -/
theorem topLevel_clause :
    topLevel rules (wordAt pos ['p', 'a', 'c', 'k', 'a', 'g', 'e'] :: wordAt next cs :: ts) =
      some (.node .packageClause [.leaf (.token "package") pos (pos + 7),
        .leaf (.node .packageIdentifier) next (next + Text.byteLength cs)], ts) := by
  rw [topLevel, get_bind, if_pos (by simp [atWord_wordAt]), packageClause,
    bind_of (keyword_wordAt rfl)]
  exact bind_of name_wordAt

/-- The keyword before a name and a type makes a type declaration. -/
theorem topLevel_type (h : type (rulesTo n) false ts = some (tree, rest)) (hts : BeginsType ts) :
    topLevel (rulesTo (n + 2)) (wordAt pos ['t', 'y', 'p', 'e'] :: wordAt next cs :: ts) =
      some (.node .typeDeclaration
        [.leaf (.token "type") pos (pos + 4), specTree next cs tree], rest) := by
  rw [topLevel, get_bind, if_neg (by simp [atWord_wordAt]), if_neg (by simp [atWord_wordAt]),
    if_neg (by simp [atWord_wordAt])]
  exact statement_type h hts

/-- A text without slashes has no comments. -/
theorem comments_readAll {s : String} (h : '/' ∉ s.toList) : comments (Token.readAll s) = [] := by
  rw [comments, List.map_eq_nil_iff, List.filter_eq_nil_iff]
  intro u hu hcomment
  obtain ⟨a, c, rest, hs, _, hfront⟩ := Token.exists_front_readAll hu
  obtain ⟨rfl, _⟩ := Token.comment_cases hfront (of_decide_eq_true hcomment)
  exact h (by simp [hs])

/-- What the tree of a text is made of. -/
theorem readSource_items {text : String} {items : List Tree}
    (h : fileItems (rulesTo (8 * (significant (Token.readAll text)).length + 16))
      (significant (Token.readAll text)) = some (items, rest)) :
    readSource text =
      ((sourceFile text items).attach (comments (Token.readAll text)), atEnd rest) := by
  unfold readSource
  simp only [StateT.run, h]

end GoContracts.Syntax.Grammar

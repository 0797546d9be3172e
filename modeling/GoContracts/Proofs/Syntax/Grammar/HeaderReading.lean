import GoContracts.Proofs.Syntax.Grammar.Header
import GoContracts.Proofs.Syntax.Grammar.SpecFree

/-!
# Reading headers

The grammar reads the items of a header as their tokens spell them, and takes whatever tokens spell
an item, whatever stands behind.
-/

namespace GoContracts

open Syntax (Kind Label Lexeme Token Tree AllNewlines specFree specFree_leaf specFree_nil)

namespace Syntax.Grammar

open Import (Spec Spread IsSpec Specs Declaration Item)

variable {text : String} {ts mid rest own us : List Token} {t : Tree} {u m : Token} {i j : Import}
  {is : List Import}

/-- Whether the tokens say what the text has where they stand. -/
def Faithful (text : String) (ts : List Token) : Prop :=
  ∀ u ∈ ts, Text.slice text u.start u.stop = u.text

/-- Tokens that are faithful to a text are so without the first ones. -/
theorem Faithful.right {a b : List Token} (h : Faithful text (a ++ b)) : Faithful text b :=
  fun u hu => h u (List.mem_append_right a hu)

/-! ### The first token -/

/-- A reader that fails is followed by none. -/
theorem bind_of_none {α β : Type} {x : Reader α} {f : α → Reader β} (h : x ts = none) :
    (x >>= f) ts = none := by
  rw [Option.eq_none_iff_forall_ne_some]
  rintro ⟨b, rest⟩ hb
  obtain ⟨_, _, hx, _⟩ := bind_eq_some.mp hb
  simp [h] at hx

section

variable (h : afterNewlines ts = u :: rest)

include h

/-- Whether the first token is the symbol. -/
theorem atSymbol_eq {c : Char} {s : String} (hs : s.toList = [c]) :
    atSymbol true s ts = u.isSymbolOf c := by
  rw [atSymbol, visible, if_pos rfl, h, hs, joined?]
  cases u.isSymbolOf c <;> rfl

/-- Whether the first token is the word. -/
theorem atWord_eq {w : String} : atWord true w ts = u.isWord w := by
  rw [atWord, visible, if_pos rfl, h]
  rfl

/-- The first token is taken if it has the lexeme. -/
theorem lexeme_eq {x : Lexeme} {k : Kind} : lexeme true x k ts =
    if u.lexeme = x then some (.leaf (.node k) u.start u.stop, rest) else none := by
  unfold lexeme
  rw [visible, if_pos rfl, h]

/-- The first token is taken if it is the word. -/
theorem keyword_eq {w : String} : keyword true w ts =
    if u.isWord w then some (.leaf (.token w) u.start u.stop, rest) else none := by
  unfold keyword
  rw [visible, if_pos rfl, h]

/-- The first token is taken if it is the symbol. -/
theorem symbol_eq {c : Char} {s : String} (hs : s.toList = [c]) : symbol true s ts =
    if u.isSymbolOf c then some (.leaf (.token s) u.start u.stop, rest) else none := by
  unfold symbol
  rw [visible, if_pos rfl, h, hs]
  simp only [joined?]
  split <;> rfl

end

/-- The first of the tokens that are spread comes first behind newlines. -/
theorem afterNewlines_spread (h : Spread own (u :: us)) (rest : List Token) :
    ∃ newlines more, AllNewlines newlines ∧ own = newlines ++ u :: more ∧ Spread more us ∧
      afterNewlines (own ++ rest) = u :: (more ++ rest) := by
  cases h with
  | @cons newlines more _ _ hn hu hmore =>
    have hnew : u.lexeme ≠ .newline := by
      simp only [isSolid, Bool.and_eq_true, decide_eq_true_eq] at hu
      exact hu.1
    exact ⟨newlines, more, hn, rfl, hmore,
      afterNewlines_eq_cons.mpr ⟨newlines, hn, by simp, hnew⟩⟩

/-! ### Import specs -/

/-- A path as the tokens give it. -/
theorem path_eq_some (h : (lexeme true .string .interpretedStringLiteral <|>
      lexeme true .rawString .rawStringLiteral) ts = some (t, rest)) :
    ∃ newlines u k, AllNewlines newlines ∧ ts = newlines ++ u :: rest ∧ u.IsQuoted ∧
      isSolid u = true ∧ t = .leaf (.node k) u.start u.stop ∧ k ≠ .importSpec := by
  rcases orElse_eq_some.mp h with h | ⟨_, h⟩
  · obtain ⟨newlines, u, hn, hts, hu, ht⟩ := (lexeme_eq_some (by decide)).mp h
    exact ⟨newlines, u, _, hn, hts, .inl hu, by simp [isSolid, hu], ht, by decide⟩
  · obtain ⟨newlines, u, hn, hts, hu, ht⟩ := (lexeme_eq_some (by decide)).mp h
    exact ⟨newlines, u, _, hn, hts, .inr hu, by simp [isSolid, hu], ht, by decide⟩

private theorem exists_path (h : afterNewlines ts = u :: rest) (hu : u.IsQuoted) :
    ∃ t, (lexeme true .string .interpretedStringLiteral <|>
      lexeme true .rawString .rawStringLiteral) ts = some (t, rest) := by
  rcases hu with hu | hu
  · exact ⟨_, orElse_eq_some.mpr (.inl (by rw [lexeme_eq h, if_pos hu]))⟩
  · exact ⟨_, orElse_eq_some.mpr
      (.inr ⟨by rw [lexeme_eq h, if_neg (by simp [hu])], by rw [lexeme_eq h, if_pos hu]⟩)⟩

/-- A local name as the tokens give it. -/
theorem localName_eq_some (h : (importSpec.dot <|> importSpec.packageName) ts = some (t, rest)) :
    ∃ newlines u k, AllNewlines newlines ∧ ts = newlines ++ u :: rest ∧
      (u.lexeme = .word ∨ u.lexeme = .symbol '.') ∧ isSolid u = true ∧
      t = .leaf (.node k) u.start u.stop ∧ k ≠ .importSpec := by
  rcases orElse_eq_some.mp h with h | ⟨_, h⟩
  · simp only [importSpec.dot, bind_eq_some, pure_eq_some] at h
    obtain ⟨dot, us, hdot, rfl, rfl⟩ := h
    obtain ⟨newlines, u, hn, hts, hu, rfl⟩ := (symbol_eq_some (c := '.') rfl).mp hdot
    have hu : u.lexeme = .symbol '.' := of_decide_eq_true hu
    exact ⟨newlines, u, .dot, hn, hts, .inr hu, by simp [isSolid, hu], rfl, by decide⟩
  · rw [importSpec.packageName, looking_bind] at h
    obtain ⟨newlines, u, hn, hts, hu, ht⟩ := (lexeme_eq_some (by decide)).mp h
    exact ⟨newlines, u, _, hn, hts, .inl hu, by simp [isSolid, hu], ht, by split <;> decide⟩

private theorem exists_localName (h : afterNewlines ts = u :: rest)
    (hu : u.lexeme = .word ∨ u.lexeme = .symbol '.') :
    ∃ t, (importSpec.dot <|> importSpec.packageName) ts = some (t, rest) := by
  have hsymbol := symbol_eq (c := '.') (s := ".") h rfl
  rcases hu with hu | hu
  · obtain ⟨t, ht⟩ : ∃ t, importSpec.packageName ts = some (t, rest) := by
      rw [importSpec.packageName, looking_bind, name, lexeme_eq h, if_pos hu]
      exact ⟨_, rfl⟩
    rw [if_neg (by simp [Token.isSymbolOf, hu])] at hsymbol
    exact ⟨t, orElse_eq_some.mpr (.inr ⟨bind_of_none hsymbol, ht⟩)⟩
  · rw [if_pos (by simp [Token.isSymbolOf, hu])] at hsymbol
    exact ⟨_, orElse_eq_some.mpr (.inl (bind_of hsymbol))⟩

/-- A specification of an import has the label of one. -/
theorem label_importSpec (h : importSpec ts = some (t, rest)) : t.label = .node .importSpec := by
  simp only [importSpec, bind_eq_some, pure_eq_some] at h
  obtain ⟨_, _, _, _, _, _, rfl, _⟩ := h
  rfl

/-- An import spec is read as its tokens spell it. -/
theorem importSpec_spells (h : importSpec ts = some (t, rest)) (htext : Faithful text ts) :
    ∃ own i last, ts = own ++ rest ∧ IsSpec own i ∧ importsIn text [t] = [i] ∧
      own.getLast? = some last ∧ t.stop = last.stop := by
  simp only [importSpec, bind_eq_some, pure_eq_some] at h
  obtain ⟨name, ts₁, hname, path, ts₂, hpath, rfl, rfl⟩ := h
  obtain ⟨newlines, p, k, hn, rfl, hp, hsolid, rfl, hk⟩ := path_eq_some hpath
  rcases optional_eq_some.mp hname with ⟨local', rfl, hlocal⟩ | ⟨_, rfl, rfl⟩
  · obtain ⟨newlines', n, k', hn', rfl, hword, hsolid', rfl, hk'⟩ := localName_eq_some hlocal
    have htextPath := htext p (by simp)
    have htextName := htext n (by simp)
    have hown : Spread (newlines' ++ n :: (newlines ++ [p])) [n, p] :=
      .cons hn' hsolid' (.cons hn hsolid .nil)
    refine ⟨_, ⟨SourceFile.unquotePath p.text, some n.text⟩, p, by simp,
      ⟨_, hown, .named hword hp⟩, ?_, hown.getLast?,
      by simp [Tree.node, Tree.stop, Tree.asRole, Tree.leaf]⟩
    rw [← htextPath, ← htextName]
    exact importsIn_named hk hk'
  · have htextPath := htext p (by simp)
    refine ⟨newlines ++ [p], ⟨SourceFile.unquotePath p.text, none⟩, p, by simp,
      ⟨[p], .cons hn hsolid .nil, .path hp⟩, ?_, by simp,
      by simp [Tree.node, Tree.stop, Tree.asRole, Tree.leaf]⟩
    rw [← htextPath]
    exact importsIn_path hk

private theorem isSpec_unique (h : IsSpec own i) (h' : IsSpec own j) : i = j := by
  obtain ⟨us, hown, hi⟩ := h
  obtain ⟨vs, hown', hj⟩ := h'
  obtain rfl : us = vs := hown.filter_eq.symm.trans hown'.filter_eq
  cases hi <;> cases hj <;> rfl

/-- Tokens that spell an import spec are read, whatever stands behind them. -/
theorem exists_importSpec (h : IsSpec own i) (htext : Faithful text (own ++ rest)) :
    ∃ t, importSpec (own ++ rest) = some (t, rest) ∧ importsIn text [t] = [i] := by
  suffices hread : ∃ t, importSpec (own ++ rest) = some (t, rest) by
    obtain ⟨t, ht⟩ := hread
    obtain ⟨own', j, _, hown, hj, himports, _⟩ := importSpec_spells ht htext
    obtain rfl := List.append_cancel_right hown
    exact ⟨t, ht, isSpec_unique h hj ▸ himports⟩
  obtain ⟨us, hown, hspec⟩ := h
  cases hspec with
  | @path p hp =>
    obtain ⟨newlines, more, hn, rfl, hmore, hfirst⟩ := afterNewlines_spread hown rest
    cases hmore
    have hnone : (importSpec.dot <|> importSpec.packageName) (newlines ++ [p] ++ rest) = none := by
      rw [Option.eq_none_iff_forall_ne_some]
      rintro ⟨t, rest'⟩ ht
      obtain ⟨newlines', n, _, hn', hts, hword, _⟩ := localName_eq_some ht
      have hfirst' := afterNewlines_eq_cons.mpr
        ⟨newlines', hn', hts, by rcases hword with h | h <;> simp [h]⟩
      obtain ⟨rfl, _⟩ := List.cons.inj (hfirst.symm.trans hfirst')
      rcases hp with hp | hp <;> simp [hp] at hword
    obtain ⟨t, ht⟩ := exists_path hfirst hp
    exact ⟨_, bind_of (optional_eq_some.mpr (.inr ⟨hnone, rfl, rfl⟩)) |>.trans (bind_of ht)⟩
  | @named n p hn hp =>
    obtain ⟨newlines, more, hnewlines, rfl, hmore, hfirst⟩ := afterNewlines_spread hown rest
    obtain ⟨newlines', more, hnewlines', rfl, hmore, hnext⟩ := afterNewlines_spread hmore rest
    cases hmore
    obtain ⟨x, hx⟩ := exists_localName hfirst hn
    obtain ⟨t, ht⟩ := exists_path hnext hp
    exact ⟨_, bind_of (optional_eq_some.mpr (.inl ⟨x, rfl, hx⟩)) |>.trans (bind_of ht)⟩

/-! ### Terminators -/

private theorem symbol_here {c : Char} {s : String} (hs : s.toList = [c]) :
    symbol false s ts = some (t, rest) ↔
      ∃ u, ts = u :: rest ∧ u.lexeme = .symbol c ∧ t = .leaf (.token s) u.start u.stop := by
  unfold symbol
  rw [visible, if_neg Bool.false_ne_true, hs]
  cases ts with
  | nil => simp
  | cons u us =>
    simp only [joined?, Token.isSymbolOf, decide_eq_true_eq]
    split
    · next hu =>
      simp only [Option.map_some, Option.some.injEq, Prod.mk.injEq]
      constructor
      · rintro ⟨rfl, rfl⟩
        exact ⟨u, rfl, hu, rfl⟩
      · rintro ⟨v, hv, _, rfl⟩
        obtain ⟨rfl, rfl⟩ := List.cons.inj hv
        exact ⟨rfl, rfl⟩
    · next hu =>
      simp only [Option.map_none, reduceCtorEq, false_iff, not_exists]
      rintro v ⟨hv, hsymbol, _⟩
      obtain ⟨rfl, rfl⟩ := List.cons.inj hv
      exact hu hsymbol

private theorem lineBreak_eq_some : terminator.lineBreak ts = some (t, rest) ↔
    ∃ u, ts = u :: rest ∧ u.lexeme = .newline ∧ t = .leaf .lineBreak u.start u.stop := by
  unfold terminator.lineBreak
  cases ts with
  | nil => simp
  | cons u us =>
    simp only [Option.ite_none_right_eq_some, Option.some.injEq, Prod.mk.injEq]
    constructor
    · rintro ⟨hu, rfl, rfl⟩
      exact ⟨u, rfl, hu, rfl⟩
    · rintro ⟨v, hv, hnew, rfl⟩
      obtain ⟨rfl, rfl⟩ := List.cons.inj hv
      exact ⟨hnew, rfl, rfl⟩

/-- A terminator is one token. -/
theorem exists_terminator_iff {ts rest : List Token} : (∃ t, terminator ts = some (t, rest)) ↔
    ∃ m, ts = m :: rest ∧ m.IsTerminator := by
  constructor
  · rintro ⟨t, h⟩
    unfold terminator at h
    rcases orElse_eq_some.mp h with h | ⟨_, h⟩
    · obtain ⟨m, rfl, hm, _⟩ := lineBreak_eq_some.mp h
      exact ⟨m, rfl, .inl hm⟩
    rcases orElse_eq_some.mp h with h | ⟨_, h⟩
    · obtain ⟨m, rfl, hm, _⟩ := (symbol_here (c := ';') rfl).mp h
      exact ⟨m, rfl, .inr (.inl hm)⟩
    · obtain ⟨m, rfl, hm, _⟩ := (symbol_here (c := '\x00') rfl).mp h
      exact ⟨m, rfl, .inr (.inr hm)⟩
  · rintro ⟨m, rfl, hm⟩
    have hnone : ∀ {c : Char} {s : String}, s.toList = [c] → m.lexeme ≠ .symbol c →
        symbol false s (m :: rest) = none := by
      intro c s hs hne
      rw [Option.eq_none_iff_forall_ne_some]
      rintro ⟨t, rest'⟩ h
      obtain ⟨u, hu, hsymbol, _⟩ := (symbol_here hs).mp h
      exact hne ((List.cons.inj hu).1 ▸ hsymbol)
    have hbreak : m.lexeme ≠ .newline → terminator.lineBreak (m :: rest) = none := by
      intro hne
      rw [Option.eq_none_iff_forall_ne_some]
      rintro ⟨t, rest'⟩ h
      obtain ⟨u, hu, hnew, _⟩ := lineBreak_eq_some.mp h
      exact hne ((List.cons.inj hu).1 ▸ hnew)
    rcases hm with hm | hm | hm
    · exact ⟨_, orElse_eq_some.mpr (.inl (lineBreak_eq_some.mpr ⟨m, rfl, hm, rfl⟩))⟩
    · exact ⟨_, orElse_eq_some.mpr (.inr ⟨hbreak (by simp [hm]), orElse_eq_some.mpr
        (.inl ((symbol_here (c := ';') rfl).mpr ⟨m, rfl, hm, rfl⟩))⟩)⟩
    · exact ⟨_, orElse_eq_some.mpr (.inr ⟨hbreak (by simp [hm]), orElse_eq_some.mpr
        (.inr ⟨hnone (c := ';') rfl (by simp [hm]),
          (symbol_here (c := '\x00') rfl).mpr ⟨m, rfl, hm, rfl⟩⟩)⟩)⟩

private theorem terminator_eq_none (h : ∀ m ∈ ts.head?, ¬m.IsTerminator) :
    terminator ts = none := by
  rw [Option.eq_none_iff_forall_ne_some]
  rintro ⟨t, rest⟩ ht
  obtain ⟨m, rfl, hm⟩ := exists_terminator_iff.mp ⟨t, ht⟩
  exact h m rfl hm

/-- An item has one terminator, or none where the list may end. -/
theorem ended_spells {atEnd : List Token → Bool} {group : List Tree}
    (h : ended atEnd t ts = some (group, rest)) :
    ∃ stops, group = t :: stops ∧ specFree stops ∧ ((∃ m, ts = m :: rest ∧ m.IsTerminator) ∨
      ts = rest ∧ atEnd ts = true ∧ ∀ m ∈ ts.head?, ¬m.IsTerminator) := by
  rcases optional_bind.mp h with ⟨stop, mid, hstop, h⟩ | ⟨hnone, h⟩
  · obtain ⟨rfl, rfl⟩ := pure_eq_some.mp h
    exact ⟨[stop], rfl, by simpa using clean_terminator _ _ _ hstop,
      .inl (exists_terminator_iff.mp ⟨stop, hstop⟩)⟩
  · simp only [looking_bind] at h
    rw [require_bind, pure_eq_some] at h
    obtain ⟨hend, rfl, rfl⟩ := h
    refine ⟨[], rfl, specFree_nil, .inr ⟨rfl, hend, fun m hm hterminator => ?_⟩⟩
    obtain ⟨more, rfl⟩ := List.head?_eq_some_iff.mp hm
    obtain ⟨stop, hstop⟩ : ∃ stop, terminator (m :: more) = some (stop, more) :=
      exists_terminator_iff.mpr ⟨m, rfl, hterminator⟩
    simp [hnone] at hstop

/-- A terminator is taken behind an item. -/
theorem exists_ended (atEnd : List Token → Bool) (hm : m.IsTerminator) (t : Tree)
    (rest : List Token) : ∃ stop, ended atEnd t (m :: rest) = some ([t, stop], rest) ∧
      specFree stop := by
  obtain ⟨stop, hstop⟩ := exists_terminator_iff.mpr ⟨m, rfl, hm⟩
  exact ⟨stop, optional_bind.mpr (.inl ⟨stop, rest, hstop, rfl⟩), clean_terminator _ _ _ hstop⟩

/-- The last item needs no terminator. -/
theorem ended_of_atEnd {atEnd : List Token → Bool} (h : ∀ m ∈ ts.head?, ¬m.IsTerminator)
    (hend : atEnd ts = true) (t : Tree) : ended atEnd t ts = some ([t], ts) := by
  refine optional_bind.mpr (.inr ⟨terminator_eq_none h, ?_⟩)
  simp only [looking_bind]
  exact require_bind.mpr ⟨hend, rfl⟩

/-! ### Lists of imports -/

/-- The imports of an item come before those of the items behind it. -/
theorem importsIn_group {stops more : List Tree} (h : specFree stops) :
    importsIn text (t :: stops ++ more) = importsIn text [t] ++ importsIn text more := by
  rw [← List.singleton_append (l := stops), importsIn_append, importsIn_append,
    importsIn_of_specFree h, List.append_nil]

private theorem specFree_of_group {stops : List Tree} {groups : List (List Tree)}
    (hlabel : t.label = .node .importSpec) (hfree : specFree stops)
    (hmore : ∀ p ∈ groups.flatten, p.label = .lineBreak → specFree p) :
    ∀ p ∈ ((t :: stops) :: groups).flatten, p.label = .lineBreak → specFree p := by
  intro p hp hl
  rw [List.flatten_cons, List.cons_append, List.mem_cons, List.mem_append] at hp
  rcases hp with rfl | hp | hp
  · rw [hlabel] at hl
    cases hl
  · exact hfree p hp
  · exact hmore p hp hl

/-- The import specs between parentheses are read as their tokens spell them. -/
theorem specList_spells {specs : List Tree}
    (h : terminatedList (atSymbol true ")") importSpec ts = some (specs, rest))
    (htext : Faithful text ts) : (∃ own, ts = own ++ rest ∧ Specs own (importsIn text specs)) ∧
      ∀ p ∈ specs, p.label = .lineBreak → specFree p := by
  obtain ⟨groups, mid, hgroups, h⟩ := bind_eq_some.mp h
  obtain ⟨rfl, rfl⟩ := pure_eq_some.mp h
  suffices hall : (∃ own, ts = own ++ mid ∧ Specs own (importsIn text groups.flatten)) ∧
      (∀ p ∈ groups.flatten, p.label = .lineBreak → specFree p) ∧
      (atSymbol true ")" ts = true → groups = [] ∧ ts = mid) from ⟨hall.1, hall.2.1⟩
  refine gather_induction (P := fun groups ts rest => Faithful text ts →
      (∃ own, ts = own ++ rest ∧ Specs own (importsIn text groups.flatten)) ∧
      (∀ p ∈ groups.flatten, p.label = .lineBreak → specFree p) ∧
      (atSymbol true ")" ts = true → groups = [] ∧ ts = rest)) hgroups
    (fun ts _ => ⟨⟨[], rfl, .done allNewlines_nil⟩, by simp, fun _ => ⟨rfl, rfl⟩⟩)
    (fun ts rest h _ => ?_) (fun group groups ts mid rest h ih htext => ?_) htext
  · rw [looking_bind] at h
    split at h
    · obtain ⟨_, rfl⟩ := pure_eq_some.mp h
      exact ⟨⟨[], rfl, .done allNewlines_nil⟩, by simp, fun _ => ⟨rfl, rfl⟩⟩
    · simp only [skipNewlines_bind, bind_eq_some, pure_eq_some] at h
      obtain ⟨_, _, _, _, _, _, hnone, _⟩ := h
      simp at hnone
  · rw [looking_bind] at h
    split at h
    · simp [pure_eq_some] at h
    next hnotEnd =>
    simp only [skipNewlines_bind, bind_eq_some, pure_eq_some, Option.some.injEq] at h
    obtain ⟨t, us, ht, _, _, hended, rfl, rfl⟩ := h
    obtain ⟨newlines, hts, hn⟩ := afterNewlines_split ts
    rw [hts] at htext
    obtain ⟨own, i, _, hown, hspec, himport, _⟩ := importSpec_spells ht htext.right
    obtain ⟨stops, rfl, hfree, hstop⟩ := ended_spells hended
    have himports : importsIn text ((t :: stops) :: groups).flatten =
        i :: importsIn text groups.flatten := by
      rw [List.flatten_cons, importsIn_group hfree, himport]
      rfl
    rw [hown] at htext
    rw [himports]
    rcases hstop with ⟨m, rfl, hm⟩ | ⟨rfl, hend, _⟩
    · obtain ⟨⟨more, rfl, hlisted⟩, hfrees, _⟩ := ih fun u hu => htext u (by simp [hu])
      refine ⟨⟨newlines ++ own ++ m :: more, by rw [hts, hown]; simp,
        .item (hspec.behind hn) hm hlisted⟩, specFree_of_group (label_importSpec ht) hfree hfrees,
        fun h => absurd h hnotEnd⟩
    · obtain ⟨_, hfrees, hdone⟩ := ih fun u hu => htext u (by simp [hu])
      obtain ⟨rfl, rfl⟩ := hdone hend
      exact ⟨⟨newlines ++ own, by rw [hts, hown]; simp, .last (hspec.behind hn)⟩,
        specFree_of_group (label_importSpec ht) hfree hfrees, fun h => absurd h hnotEnd⟩

/-- One turn of reading a list whose items have terminators. -/
def listItem (atEnd : List Token → Bool) (item : Reader Tree) : Reader (Option (List Tree)) := do
  if ← looking atEnd then return none
  skipNewlines
  let t ← item
  return some (← ended atEnd t)

private theorem listItem_none {atEnd : List Token → Bool} {item : Reader Tree}
    (h : atEnd ts = true) :
    listItem atEnd item ts = some (none, ts) := by
  rw [listItem, looking_bind, if_pos h]
  rfl

private theorem listItem_some {atEnd : List Token → Bool} {item : Reader Tree} {group : List Tree}
    (h : atEnd ts = false) (hitem : item (afterNewlines ts) = some (t, mid))
    (hended : ended atEnd t mid = some (group, rest)) :
    listItem atEnd item ts = some (some group, rest) := by
  rw [listItem, looking_bind, if_neg (by simp [h]), skipNewlines_bind]
  exact bind_of hitem |>.trans (bind_of hended)

/-- An import spec begins with no bracket. -/
theorem atSymbol_spec (h : IsSpec own i) (rest : List Token) {c : Char} {s : String}
    (hs : s.toList = [c]) (hc : c ≠ '.') : atSymbol true s (own ++ rest) = false := by
  obtain ⟨us, hown, hspec⟩ := h
  have hhead : ∀ u ∈ us.head?, u.isSymbolOf c = false := by
    cases hspec with
    | path hp => rcases hp with hp | hp <;> simp [Token.isSymbolOf, hp]
    | named hn _ => rcases hn with hn | hn <;> simp [Token.isSymbolOf, hn, hc.symm]
  obtain ⟨u, us, rfl⟩ := List.exists_cons_of_ne_nil hspec.ne_nil
  obtain ⟨_, _, _, _, _, hfirst⟩ := afterNewlines_spread hown rest
  rw [atSymbol_eq hfirst hs, hhead u rfl]

/-- Newlines before an import spec may be skipped. -/
theorem isSpec_skip (h : IsSpec own i) (rest : List Token) : ∃ newlines more, AllNewlines newlines ∧
    own = newlines ++ more ∧ more ≠ [] ∧ IsSpec more i ∧ afterNewlines (own ++ rest) =
      more ++ rest ∧
      atSymbol true ")" (own ++ rest) = false := by
  have hopen := atSymbol_spec h rest (c := ')') (s := ")") rfl (by decide)
  obtain ⟨us, hown, hspec⟩ := h
  obtain ⟨u, us, rfl⟩ := List.exists_cons_of_ne_nil hspec.ne_nil
  have hsolid : isSolid u = true := by
    have hmem : u ∈ own.filter isSolid := by simp [hown.filter_eq]
    exact (List.mem_filter.mp hmem).2
  obtain ⟨newlines, more, hn, rfl, hmore, hfirst⟩ := afterNewlines_spread hown rest
  exact ⟨newlines, u :: more, hn, rfl, List.cons_ne_nil _ _,
    ⟨_, .solid hsolid hmore, hspec⟩, hfirst, hopen⟩

section

variable {closing : Token} (hc : closing.lexeme = .symbol ')')

include hc

private theorem atSymbol_closing {newlines : List Token} (hn : AllNewlines newlines) :
    atSymbol true ")" (newlines ++ closing :: rest) = true := by
  rw [atSymbol_eq (c := ')') (afterNewlines_eq_cons.mpr ⟨newlines, hn, rfl, by simp [hc]⟩) rfl,
    Token.isSymbolOf, hc]
  rfl

private theorem not_isTerminator_closing : ¬closing.IsTerminator := by
  rintro (h | h | h) <;> simp [hc] at h

/-- Tokens that spell import specs before a closing parenthesis are read, turn by turn. -/
theorem exists_gather_specs (h : Specs own is) (htext : Faithful text (own ++ closing :: rest))
    {n : Nat} (hn : own.length < n) : ∃ groups newlines,
      gather.go (listItem (atSymbol true ")") importSpec) n (own ++ closing :: rest) =
        some (groups, newlines ++ closing :: rest) ∧ AllNewlines newlines ∧
      importsIn text groups.flatten = is ∧
      ∀ p ∈ groups.flatten, p.label = .lineBreak → specFree p := by
  -- Each turn takes at least one token, so there are turns enough.
  induction h generalizing n with
  | @done newlines hnewlines =>
    obtain ⟨n, rfl⟩ := Nat.exists_eq_add_one_of_ne_zero (Nat.ne_zero_of_lt hn)
    exact ⟨[], newlines, gather_go_none (listItem_none (atSymbol_closing hc hnewlines)), hnewlines,
      rfl, by simp⟩
  | @last own i h =>
    obtain ⟨newlines, more, hnewlines, rfl, hne, hmore, hfirst, hopen⟩ :=
      isSpec_skip h (closing :: rest)
    rw [List.append_assoc] at htext
    obtain ⟨t, ht, himports⟩ := exists_importSpec hmore htext.right
    have hlength := List.length_pos_iff.mpr hne
    rw [List.length_append] at hn
    obtain ⟨n, rfl⟩ : ∃ m, n = m + 2 := ⟨n - 2, by omega⟩
    have hend : atSymbol true ")" (closing :: rest) = true :=
      atSymbol_closing hc allNewlines_nil
    have hstep := listItem_some hopen (hfirst ▸ ht)
      (ended_of_atEnd (by simpa using not_isTerminator_closing hc) hend t)
    refine ⟨[[t]], [], gather_go_item hstep (gather_go_none (listItem_none hend)),
      by simp [AllNewlines], by simpa using himports, ?_⟩
    exact specFree_of_group (label_importSpec ht) specFree_nil (by simp)
  | @item own ts m i is h hm hmore ih =>
    rw [List.append_assoc, List.cons_append] at htext
    rw [List.append_assoc, List.cons_append]
    obtain ⟨newlines, more, hnewlines, rfl, hne, hspec, hfirst, hopen⟩ :=
      isSpec_skip h (m :: (ts ++ closing :: rest))
    obtain ⟨t, ht, himports⟩ := exists_importSpec hspec (List.append_assoc .. ▸ htext).right
    rw [List.length_append, List.length_cons] at hn
    obtain ⟨n, rfl⟩ : ∃ m, n = m + 1 := ⟨n - 1, by omega⟩
    obtain ⟨stop, hended, hfree⟩ := exists_ended (atSymbol true ")") hm t
      (ts ++ closing :: rest)
    obtain ⟨groups, last, hgroups, hlast, hrest, hbreaks⟩ :=
      ih (fun u hu => htext u (by simp_all)) (n := n) (by omega)
    refine ⟨[t, stop] :: groups, last, gather_go_item (listItem_some hopen (hfirst ▸ ht) hended)
      hgroups, hlast, ?_, specFree_of_group (label_importSpec ht) (by simpa using hfree) hbreaks⟩
    rw [List.flatten_cons, importsIn_group (by simpa using hfree), himports, hrest]
    rfl

/-- Tokens that spell import specs before a closing parenthesis are read. -/
theorem exists_specList (h : Specs own is) (htext : Faithful text (own ++ closing :: rest)) :
    ∃ specs newlines, terminatedList (atSymbol true ")") importSpec (own ++ closing :: rest) =
        some (specs, newlines ++ closing :: rest) ∧ AllNewlines newlines ∧
      importsIn text specs = is ∧ ∀ p ∈ specs, p.label = .lineBreak → specFree p := by
  obtain ⟨groups, newlines, hgroups, hrest⟩ := exists_gather_specs hc h htext
    (n := (own ++ closing :: rest).length) (by simp)
  exact ⟨groups.flatten, newlines, bind_of hgroups, hrest⟩

end

end Syntax.Grammar

end GoContracts

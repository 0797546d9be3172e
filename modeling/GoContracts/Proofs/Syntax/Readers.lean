import GoContracts.Proofs.Syntax.Reading

/-!
# What readers take

The result of a reader in terms of the readers that it is made of, and what the readers of single
tokens and of repeated items take from the front of the tokens.
-/

namespace GoContracts.Syntax.Grammar

variable {α β : Type} {ts mid rest : List Token}

/-! ### Results of composed readers -/

/-- Two readers in a row succeed if both do. -/
theorem bind_eq_some {x : Reader α} {f : α → Reader β} {b : β} :
    (x >>= f) ts = some (b, rest) ↔ ∃ a mid, x ts = some (a, mid) ∧ f a mid = some (b, rest) := by
  simp only [bind, StateT.bind, Option.bind_eq_some_iff, Prod.exists]

/-- A reader goes on behind what another one has read. -/
theorem bind_of {x : Reader α} {f : α → Reader β} {a : α} (h : x ts = some (a, mid)) :
    (x >>= f) ts = f a mid := by
  simp only [bind, StateT.bind, h, Option.bind_some]

/-- A result alone takes no tokens. -/
theorem pure_eq_some {a b : α} :
    (pure a : Reader α) ts = some (b, rest) ↔ a = b ∧ ts = rest := by
  rw [show (pure a : Reader α) ts = some (a, ts) from rfl, Option.some.injEq, Prod.mk.injEq]

/-- A reader behind a result alone starts where it was. -/
theorem pure_bind_apply {a : α} {f : α → Reader β} : (pure a >>= f) ts = f a ts := rfl

/-- A failure reads nothing. -/
theorem failure_eq_some {b : α} : (failure : Reader α) ts = some (b, rest) ↔ False := by
  simp [failure, StateT.failure]

/-- A decision reads what its side does. -/
theorem ite_eq_some {c : Prop} [Decidable c] {x y : Reader α} {a : α} :
    (if c then x else y) ts = some (a, rest) ↔
      c ∧ x ts = some (a, rest) ∨ ¬c ∧ y ts = some (a, rest) := by
  split <;> simp [*]

/-- A look at the tokens takes none. -/
theorem looking_bind {p : List Token → Bool} {f : Bool → Reader β} :
    (looking p >>= f) ts = f (p ts) ts := rfl

/-- The tokens that are left can be asked for. -/
theorem get_bind {f : List Token → Reader β} : (get >>= f) ts = f ts ts := rfl

/-- A reader goes on behind the newlines. -/
theorem skipNewlines_bind {f : Unit → Reader β} :
    (skipNewlines >>= f) ts = f () (afterNewlines ts) := rfl

/-- A condition that is met takes no tokens. -/
theorem require_eq_some {c : Bool} {u : Unit} :
    require c ts = some (u, rest) ↔ c = true ∧ ts = rest := by
  unfold require
  split <;> simp_all [pure_eq_some, failure_eq_some]

/-- A reader goes on if the condition is met. -/
theorem require_bind {c : Bool} {f : Unit → Reader β} {b : β} :
    (require c >>= f) ts = some (b, rest) ↔ c = true ∧ f () ts = some (b, rest) := by
  unfold require
  split
  · simp_all [pure_bind_apply]
  · simp_all [failure, bind, StateT.bind, StateT.failure]

/-- The second reader is used where the first one fails. -/
theorem orElse_eq_some {x y : Reader α} {a : α} :
    (x <|> y) ts = some (a, rest) ↔
      x ts = some (a, rest) ∨ x ts = none ∧ y ts = some (a, rest) := by
  simp only [HOrElse.hOrElse, OrElse.orElse, Alternative.orElse, StateT.orElse]
  cases x ts <;> simp

/-- What cannot be read is left out. -/
theorem optional_eq_some {x : Reader α} {o : Option α} :
    optional? x ts = some (o, rest) ↔
      (∃ a, o = some a ∧ x ts = some (a, rest)) ∨ x ts = none ∧ o = none ∧ ts = rest := by
  have hmap : ((some <$> x) : Reader (Option α)) ts = (x ts).map fun y => (some y.1, y.2) := by
    simp only [Functor.map, StateT.map, bind]
    cases x ts <;> rfl
  unfold optional?
  rw [orElse_eq_some, hmap, pure_eq_some]
  cases x ts with
  | none => simp [eq_comm]
  | some y =>
    simp only [Option.map_some, Option.some.injEq, Prod.mk.injEq, reduceCtorEq, false_and, or_false]
    constructor
    · rintro ⟨rfl, rfl⟩
      exact ⟨y.1, rfl, rfl⟩
    · rintro ⟨a, rfl, rfl⟩
      exact ⟨rfl, rfl⟩

/-- A reader goes on behind what may be left out. -/
theorem optional_bind {x : Reader α} {f : Option α → Reader β} {b : β} :
    (optional? x >>= f) ts = some (b, rest) ↔
      (∃ a mid, x ts = some (a, mid) ∧ f (some a) mid = some (b, rest)) ∨
        x ts = none ∧ f none ts = some (b, rest) := by
  rw [bind_eq_some]
  constructor
  · rintro ⟨o, mid, ho, hf⟩
    rcases optional_eq_some.mp ho with ⟨a, rfl, ha⟩ | ⟨hn, rfl, rfl⟩
    · exact .inl ⟨a, mid, ha, hf⟩
    · exact .inr ⟨hn, hf⟩
  · rintro (⟨a, mid, ha, hf⟩ | ⟨hn, hf⟩)
    · exact ⟨some a, mid, optional_eq_some.mpr (.inl ⟨a, rfl, ha⟩), hf⟩
    · exact ⟨none, ts, optional_eq_some.mpr (.inr ⟨hn, rfl, rfl⟩), hf⟩

/-! ### Parts of phrases and whole phrases -/

/-- Whether the tokens, if there are any, close all brackets that they open and do not end with a
newline. -/
structure Settled (own : List Token) : Prop where
  balanced : Balanced own
  solid : own = [] ∨ EndsSolid own

/-- No tokens are settled. -/
theorem settled_nil : Settled [] := ⟨balanced_nil, .inl rfl⟩

private theorem Settled.append {a b : List Token} (ha : Settled a) (hb : Settled b) : Settled
    (a ++ b) := by
  refine ⟨ha.balanced.append hb.balanced, ?_⟩
  rcases hb.solid with rfl | hsolid
  · rw [List.append_nil]
    exact ha.solid
  · exact .inr (hsolid.append a)

/-- The parts read the tokens from `ts` up to `rest`, and close all brackets that they open. -/
def Parsed (parts : List Tree) (ts rest : List Token) : Prop :=
  Ordered ts → ∃ own, ts = own ++ rest ∧ Reads parts own ∧ Settled own

/-- The parts read the tokens from `ts` up to `rest`, of which newlines may be the last, and close
all brackets that they open. -/
def Covered (parts : List Tree) (ts rest : List Token) : Prop :=
  Ordered ts → ∃ own, ts = own ++ rest ∧ Reads parts own ∧ Balanced own

/-- The named tree reads the tokens from `ts` up to `rest`. -/
structure Phrased (t : Tree) (ts rest : List Token) : Prop where
  named : t.isNamed = true
  parsed : Parsed [t] ts rest

namespace Parsed

variable {parts more : List Tree} {t : Tree}

/-- No trees read nothing. -/
theorem nil : Parsed [] ts ts := fun _ => ⟨[], rfl, .nil, settled_nil⟩

/-- Trees that read one after the other read together. -/
theorem append (h : Parsed parts ts mid) (h' : Parsed more mid rest) :
    Parsed (parts ++ more) ts rest := by
  intro ho
  obtain ⟨own, rfl, hr, hb⟩ := h ho
  obtain ⟨own', rfl, hr', hb'⟩ := h' ho.right
  exact ⟨own ++ own', by simp, hr.append hr', hb.append hb'⟩

/-- A tree that reads before others reads with them. -/
theorem cons (h : Parsed [t] ts mid) (h' : Parsed parts mid rest) :
    Parsed (t :: parts) ts rest := append h h'

/-- The role does not matter for what a tree reads. -/
theorem asRole (h : Parsed [t] ts rest) (r : Role) : Parsed [t.asRole r] ts rest := by
  intro ho
  obtain ⟨own, rfl, hr, hb⟩ := h ho
  exact ⟨own, rfl, hr.asRole r, hb⟩

/-- A part in another kind; clauses, which may end with a newline, keep theirs. -/
theorem asKind {k : Kind} (h : Parsed [t] ts rest)
    (hs : ∀ l, t.label = .node l → l.isScope = false) (hk : k ∉ .identifier :: composedKinds) :
    Phrased (t.asKind k) ts rest := by
  refine ⟨by cases t; rfl, fun ho => ?_⟩
  obtain ⟨own, rfl, hr, hb⟩ := h ho
  exact ⟨own, rfl, hr.asKind hb.balanced hs hk, hb⟩

/-- A phrase over parts that close all brackets that they open. -/
theorem phrase {k : Kind} (h : Parsed parts ts rest) (hne : parts ≠ [])
    (hf : Formed k parts) : Phrased (.node k parts) ts rest := by
  refine ⟨rfl, fun ho => ?_⟩
  obtain ⟨own, rfl, hr, hb⟩ := h ho
  exact ⟨own, rfl, hr.ofParts hne hb.balanced (hb.solid.resolve_left (hr.ne_nil hne)) hf, hb⟩

/-- Trees that read tokens cover them. -/
theorem covered (h : Parsed parts ts rest) : Covered parts ts rest := by
  intro ho
  obtain ⟨own, rfl, hr, hb⟩ := h ho
  exact ⟨own, rfl, hr, hb.balanced⟩

end Parsed

/-- Trees that cover tokens one after the other cover them together. -/
theorem Covered.append {parts more : List Tree} (h : Covered parts ts mid)
    (h' : Covered more mid rest) : Covered (parts ++ more) ts rest := by
  intro ho
  obtain ⟨own, rfl, hr, hb⟩ := h ho
  obtain ⟨own', rfl, hr', hb'⟩ := h' ho.right
  exact ⟨own ++ own', by simp, hr.append hr', hb.append hb'⟩

/-- The role does not matter for what a tree takes. -/
theorem Phrased.asRole {t : Tree} (h : Phrased t ts rest) (r : Role) :
    Phrased (t.asRole r) ts rest := by
  cases t
  exact ⟨h.named, h.parsed.asRole r⟩

/-- What takes tokens is no line break. -/
theorem Phrased.label_ne {t : Tree} (h : Phrased t ts rest) : t.label ≠ .lineBreak := by
  intro hl
  have hn := h.named
  simp [Tree.isNamed, Tree.kind?, hl] at hn

/-- Newlines stand before the first token that is none. -/
theorem afterNewlines_split (ts : List Token) :
    ∃ newlines, ts = newlines ++ afterNewlines ts ∧ AllNewlines newlines := by
  refine ⟨ts.takeWhile (·.lexeme = .newline), List.takeWhile_append_dropWhile.symm, ?_⟩
  intro t ht
  simpa using List.all_eq_true.mp (List.all_takeWhile (l := ts) (p := (·.lexeme = .newline))) t ht

/-- Tokens stay settled with newlines before them. -/
theorem Settled.skip {newlines own : List Token} (h : Settled own) (hn : AllNewlines newlines)
    (hne : own ≠ []) : Settled (newlines ++ own) :=
  ⟨hn.balanced.append h.balanced, .inr ((h.solid.resolve_left hne).append newlines)⟩

/-- A tree may read newlines before it. -/
theorem Parsed.skip {t : Tree} {parts : List Tree}
    (h : Parsed (t :: parts) (afterNewlines ts) rest) : Parsed (t :: parts) ts rest := by
  obtain ⟨newlines, hts, hn⟩ := afterNewlines_split ts
  intro ho
  obtain ⟨own, hown, hr, hb⟩ := h (hts ▸ ho : Ordered (newlines ++ afterNewlines ts)).right
  exact ⟨newlines ++ own, by rw [List.append_assoc, ← hown, ← hts], hr.skip hn,
    hb.skip hn (hr.ne_nil (List.cons_ne_nil _ _))⟩

/-- A tree may take newlines before it. -/
theorem Phrased.skip {t : Tree} (h : Phrased t (afterNewlines ts) rest) : Phrased t ts rest :=
  ⟨h.named, h.parsed.skip⟩

/-! ### Where parts begin -/

/-- The first part begins where the first token begins that is no newline. -/
theorem Parsed.start_eq {t : Tree} {parts : List Tree} (h : Parsed (t :: parts) ts rest)
    (ho : Ordered ts) :
    ∃ own first, ts = own ++ rest ∧ first ∈ own ∧
      ts.find? (·.lexeme ≠ .newline) = some first ∧ t.start = first.start := by
  obtain ⟨own, rfl, hr, _⟩ := h ho
  obtain ⟨newlines, first, more, rfl, hn, hsolid, hstart⟩ := hr.start_eq
  refine ⟨_, first, rfl, by simp, ?_, hstart⟩
  have hnone : newlines.find? (·.lexeme ≠ .newline) = none := by
    rw [List.find?_eq_none]
    exact fun t ht => by simpa using hn t ht
  rw [List.append_assoc, List.find?_append, hnone, Option.none_or, List.cons_append,
    List.find?_cons_of_pos (by simpa using hsolid)]

/-- A part that is read behind others begins no earlier than what is read with them. -/
theorem Parsed.start_le {t u : Tree} {parts more others : List Tree} {rest' : List Token}
    (hp : Parsed parts ts mid) (ht : Parsed (t :: more) ts rest)
    (hu : Parsed (u :: others) mid rest') (ho : Ordered ts) : t.start ≤ u.start := by
  obtain ⟨_, first, _, _, hfirst, hstart⟩ := ht.start_eq ho
  obtain ⟨own, rfl, _, _⟩ := hp ho
  obtain ⟨_, second, rfl, hmem, hsecond, hstart'⟩ := hu.start_eq ho.right
  rw [List.find?_append] at hfirst
  cases hown : own.find? (·.lexeme ≠ .newline) with
  | none =>
    rw [hown, Option.none_or, hsecond, Option.some.injEq] at hfirst
    have heq : t.start = u.start := by rw [hstart, hstart', hfirst]
    exact Nat.le_of_eq heq
  | some f =>
    rw [hown, Option.some_or, Option.some.injEq] at hfirst
    have := ho.start_lt (List.mem_of_find?_eq_some hown) (List.mem_append_left rest' hmem)
    rw [hstart, hstart', ← hfirst]
    omega

/-- A part that is read behind another begins behind it. -/
theorem Parsed.start_lt {t u : Tree} {more others : List Tree} (ht : Parsed (t :: more) ts mid)
    (hu : Parsed (u :: others) mid rest) (ho : Ordered ts) : t.start < u.start := by
  obtain ⟨own, first, rfl, hmem, _, hstart⟩ := ht.start_eq ho
  obtain ⟨_, second, rfl, hmem', _, hstart'⟩ := hu.start_eq ho.right
  rw [hstart, hstart']
  exact ho.start_lt hmem (List.mem_append_left rest hmem')

/-! ### Single tokens -/

private theorem visible_split (free : Bool) (ts : List Token) :
    ∃ newlines, ts = newlines ++ visible free ts ∧ AllNewlines newlines := by
  cases free with
  | true => exact afterNewlines_split ts
  | false => exact ⟨[], rfl, allNewlines_nil⟩

/-- A leaf reads the tokens that it was made from and newlines before them. -/
private theorem reads_leaf {free : Bool} (own : List Token) (label : Label) {first last : Token}
    (hv : visible free ts = own ++ rest) (hfirst : own.head? = some first)
    (hlast : own.getLast? = some last) (solid : first.lexeme ≠ .newline)
    (spelled : Spelled own label) :
    ∃ newlines, AllNewlines newlines ∧ ts = newlines ++ own ++ rest ∧
      Reads [.leaf label first.start last.stop] (newlines ++ own) := by
  obtain ⟨newlines, hts, hn⟩ := visible_split free ts
  refine ⟨newlines, hn, by rw [hts, hv, List.append_assoc], ?_⟩
  have hleaf : Reads [.mk label none first.start last.stop []] (newlines ++ own ++ []) :=
    .leaf hn hfirst hlast solid spelled .nil
  rwa [List.append_nil] at hleaf

/-- Whether tokens of the class may stand alone: they are neither newlines nor symbols nor
characters out of place. -/
def Solid (x : Lexeme) : Prop := x ≠ .newline ∧ x ≠ .unknown ∧ ∀ c, x ≠ .symbol c

private theorem settled_singleton {u : Token} (hx : Solid u.lexeme) : Settled [u] :=
  ⟨balanced_singleton hx.2.2, .inr ⟨u, rfl, hx.1⟩⟩

/-- A token of a lexeme reads what it takes. -/
theorem lexeme_phrased {free : Bool} {x : Lexeme} {k : Kind} {t : Tree}
    (h : lexeme free x k ts = some (t, rest)) (hx : Solid x)
    (hk : k ∉ composedKinds) (hword : k = .identifier → x = .word) : Phrased t ts rest := by
  unfold lexeme at h
  cases hv : visible free ts with
  | nil => simp [hv] at h
  | cons u us =>
    simp only [hv, Option.ite_none_right_eq_some, Option.some.injEq, Prod.mk.injEq] at h
    obtain ⟨rfl, rfl, rfl⟩ := h
    have hb : Settled [u] := settled_singleton hx
    have hsolid : ∀ v ∈ [u], v.lexeme ≠ .newline ∧ v.lexeme ≠ .unknown := by
      simp [hx.1, hx.2.1]
    obtain ⟨newlines, hn, hts, hr⟩ :=
      reads_leaf [u] (.node k) hv rfl rfl hx.1 ⟨hk, hb.balanced, hsolid, fun h => ⟨u, rfl, hword h⟩⟩
    exact ⟨rfl, fun _ => ⟨_, hts, hr, hb.skip hn (List.cons_ne_nil _ _)⟩⟩

/-- A name reads what it takes. -/
theorem name_phrased {free : Bool} {k : Kind} {t : Tree} (h : name free k ts = some (t, rest))
    (hk : k ∉ composedKinds) : Phrased t ts rest :=
  lexeme_phrased h (by simp [Solid]) hk fun _ => rfl

/-- A name has the label of its kind. -/
theorem label_of_name {free : Bool} {k : Kind} {t : Tree}
    (h : name free k ts = some (t, rest)) : t.label = .node k := by
  unfold name lexeme at h
  split at h
  · simp only [Option.ite_none_right_eq_some, Option.some.injEq, Prod.mk.injEq] at h
    rw [← h.2.1, Tree.leaf, Tree.label]
  · simp at h

/-- A name of another kind. -/
theorem name_asKind {free : Bool} {k l : Kind} {t : Tree} (h : name free k ts = some (t, rest))
    (hk : k ∉ composedKinds) (hs : k.isScope = false)
    (hl : l ∉ .identifier :: composedKinds) : Phrased (t.asKind l) ts rest := by
  refine (name_phrased h hk).parsed.asKind (fun m hm => ?_) hl
  rw [label_of_name h, Label.node.injEq] at hm
  rwa [← hm]

/-- A keyword has its word as the label. -/
theorem label_of_keyword {free : Bool} {w : String} {t : Tree}
    (h : keyword free w ts = some (t, rest)) : t.label = .token w := by
  unfold keyword at h
  split at h
  · simp only [Option.ite_none_right_eq_some, Option.some.injEq, Prod.mk.injEq] at h
    rw [← h.2.1, Tree.leaf, Tree.label]
  · simp at h

/-- A keyword reads what it takes. -/
theorem keyword_parsed {free : Bool} {w : String} {t : Tree}
    (h : keyword free w ts = some (t, rest)) : Parsed [t] ts rest := by
  unfold keyword at h
  cases hv : visible free ts with
  | nil => simp [hv] at h
  | cons u us =>
    simp only [hv, Option.ite_none_right_eq_some, Option.some.injEq, Prod.mk.injEq] at h
    obtain ⟨hu, rfl, rfl⟩ := h
    have hword : u.lexeme = .word := by
      simp only [Token.isWord, Bool.and_eq_true, decide_eq_true_eq] at hu
      exact hu.1
    obtain ⟨newlines, hn, hts, hr⟩ := reads_leaf [u] (.token w) hv rfl rfl
      (by simp [hword]) (.inr ⟨u, rfl, hword⟩)
    exact fun _ => ⟨_, hts, hr,
      (settled_singleton (by simp [Solid, hword])).skip hn (List.cons_ne_nil _ _)⟩

/-- Joined symbols are tokens of one character each. -/
private theorem joined_split {cs : List Char} {stop : Nat}
    (h : joined? cs ts = some (stop, rest)) :
    ∃ own last, ts = own ++ rest ∧ own.map (·.lexeme) = cs.map .symbol ∧
      own.getLast? = some last ∧ last.stop = stop := by
  induction cs generalizing ts with
  | nil => simp [joined?] at h
  | cons c cs ih =>
    cases cs with
    | nil =>
      cases ts with
      | nil => simp [joined?] at h
      | cons t us =>
        simp only [joined?, Option.ite_none_right_eq_some, Option.some.injEq, Prod.mk.injEq] at h
        obtain ⟨ht, rfl, rfl⟩ := h
        exact ⟨[t], t, rfl, by simpa [Token.isSymbolOf] using ht, rfl, rfl⟩
    | cons d cs =>
      match ts, h with
      | [], h => simp [joined?] at h
      | [_], h => simp [joined?] at h
      | t :: u :: us, h =>
        simp only [joined?, Option.ite_none_right_eq_some, Bool.and_eq_true,
          decide_eq_true_eq] at h
        obtain ⟨⟨ht, _⟩, hrest⟩ := h
        obtain ⟨own, last, hus, hown, hlast, hstop⟩ := ih hrest
        refine ⟨t :: own, last, by rw [hus, List.cons_append], ?_, ?_, hstop⟩
        · simp only [List.map_cons, hown]
          congr 1
          simpa [Token.isSymbolOf] using ht
        · cases own with
          | nil => simp at hlast
          | cons v vs => simpa using hlast

/-- A symbol reads a token for each of its characters. -/
theorem symbol_reads {free : Bool} {text : String} {t : Tree}
    (h : symbol free text ts = some (t, rest)) :
    ∃ newlines own, AllNewlines newlines ∧ ts = newlines ++ own ++ rest ∧
      own.map (·.lexeme) = text.toList.map .symbol ∧ Reads [t] (newlines ++ own) := by
  unfold symbol at h
  cases hv : visible free ts with
  | nil => simp [hv] at h
  | cons u us =>
    simp only [hv, Option.map_eq_some_iff, Prod.exists, Prod.mk.injEq] at h
    obtain ⟨stop, rest', hj, rfl, rfl⟩ := h
    obtain ⟨own, last, hsplit, hown, hlast, rfl⟩ := joined_split hj
    cases own with
    | nil => simp at hlast
    | cons v vs =>
      obtain ⟨rfl, rfl⟩ := List.cons.inj hsplit
      have hsolid : u.lexeme ≠ .newline := by
        intro hnew
        cases htext : text.toList with
        | nil => simp [htext] at hown
        | cons c cs => simp [htext, hnew] at hown
      obtain ⟨newlines, hn, hts, hr⟩ := reads_leaf (u :: vs) (.token text)
        hv rfl hlast hsolid (.inl hown)
      exact ⟨newlines, u :: vs, hn, hts, hown, hr⟩

/-- A symbol has its text as the label. -/
theorem label_of_symbol {free : Bool} {text : String} {t : Tree}
    (h : symbol free text ts = some (t, rest)) : t.label = .token text := by
  unfold symbol at h
  split at h
  · simp only [Option.map_eq_some_iff, Prod.exists, Prod.mk.injEq] at h
    obtain ⟨stop, us, _, rfl, _⟩ := h
    rfl
  · simp at h

/-- A symbol is no line break. -/
theorem symbol_label_ne {free : Bool} {text : String} {t : Tree}
    (h : symbol free text ts = some (t, rest)) : t.label ≠ .lineBreak := by
  simp [label_of_symbol h]

private theorem symbol_endsSolid {free : Bool} {text : String} {t : Tree} {own : List Token}
    (h : symbol free text ts = some (t, rest)) (hr : Reads [t] own) : EndsSolid own :=
  hr.endsSolid (by simp [label_of_symbol h])

/-- Whether a symbol has no bracket in it. -/
def isPlain (text : String) : Bool :=
  text.toList.all fun c => closingOf? c = none && !isClosing c

/-- A symbol that is no bracket reads what it takes. -/
theorem symbol_parsed {free : Bool} {text : String} {t : Tree}
    (h : symbol free text ts = some (t, rest)) (hp : isPlain text = true) :
    Parsed [t] ts rest := by
  obtain ⟨newlines, own, hn, hts, hown, hr⟩ := symbol_reads h
  refine fun _ => ⟨_, hts, hr, hn.balanced.append fun s => ?_, .inr (symbol_endsSolid h hr)⟩
  rw [nesting, hown]
  simp only [isPlain, List.all_eq_true, Bool.and_eq_true, decide_eq_true_eq,
    Bool.not_eq_true'] at hp
  generalize text.toList = cs at hp
  induction cs with
  | nil => rfl
  | cons c cs ih =>
    obtain ⟨hopen, hclose⟩ := hp c (List.mem_cons_self ..)
    rw [List.map_cons, List.foldlM_cons]
    simp only [bracketStep, hopen, hclose, Bool.false_eq_true, if_false]
    exact ih fun d hd => hp d (List.mem_cons_of_mem c hd)

/-- The brackets of the grammar. -/
def bracketPairs : List (String × String) := [("(", ")"), ("[", "]"), ("\x7b", "\x7d")]

private theorem nesting_pair {o c : String} (hp : (o, c) ∈ bracketPairs) (s : List Char) :
    ∃ u, (o.toList.map Lexeme.symbol).foldlM bracketStep s = some u ∧
      (c.toList.map Lexeme.symbol).foldlM bracketStep u = some s := by
  simp only [bracketPairs, List.mem_cons, Prod.mk.injEq, List.not_mem_nil, or_false] at hp
  rcases hp with ⟨rfl, rfl⟩ | ⟨rfl, rfl⟩ | ⟨rfl, rfl⟩
  · exact ⟨')' :: s, rfl, rfl⟩
  · exact ⟨']' :: s, rfl, rfl⟩
  · exact ⟨'\x7d' :: s, rfl, rfl⟩

/-- Parts between brackets. -/
theorem Covered.enclosed {free free' : Bool} {o c : String} {opening closing : Tree}
    {parts : List Tree} {ts₁ ts₂ : List Token} (ho : symbol free o ts = some (opening, ts₁))
    (hi : Covered parts ts₁ ts₂) (hc : symbol free' c ts₂ = some (closing, rest))
    (hp : (o, c) ∈ bracketPairs) :
    Parsed (opening :: parts ++ [closing]) ts rest := by
  obtain ⟨newlines, own, hn, rfl, hown, hr⟩ := symbol_reads ho
  intro hord
  obtain ⟨inner, rfl, hri, hbi⟩ := hi hord.right
  obtain ⟨newlines', own', hn', rfl, hown', hr'⟩ := symbol_reads hc
  refine ⟨newlines ++ own ++ inner ++ (newlines' ++ own'), by simp, ?_, fun s => ?_,
    .inr ((symbol_endsSolid hc hr').append _)⟩
  · simpa using (hr.append hri).append hr'
  · obtain ⟨u, hu, hs⟩ := nesting_pair hp s
    have hopen : nesting s own = some u := by rw [nesting, hown, hu]
    have hclose : nesting u own' = some s := by rw [nesting, hown', hs]
    simp only [nesting_append, hn.balanced s, hopen, hbi u, hn'.balanced u, hclose,
      Option.bind_some]

/-- What stands between two brackets reads with them. -/
theorem Parsed.enclosed {free free' : Bool} {o c : String} {opening closing : Tree}
    {parts : List Tree} {ts₁ ts₂ : List Token} (ho : symbol free o ts = some (opening, ts₁))
    (hi : Parsed parts ts₁ ts₂) (hc : symbol free' c ts₂ = some (closing, rest))
    (hp : (o, c) ∈ bracketPairs) :
    Parsed (opening :: parts ++ [closing]) ts rest :=
  Covered.enclosed ho hi.covered hc hp

end GoContracts.Syntax.Grammar

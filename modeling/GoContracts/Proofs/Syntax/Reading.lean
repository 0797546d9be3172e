import GoContracts.Proofs.Syntax.Brackets
import GoContracts.Syntax.Grammar.Reader

/-!
# What a syntax tree reads

A tree reads the tokens that its leaves cover, with newlines between them where the grammar takes
newlines for blanks. Readers of the grammar yield trees for the tokens that they take: `Parsed` says
so for parts of a phrase, in which brackets may be open, and `Phrased` for a whole phrase.
-/

namespace GoContracts.Syntax

/-- Tokens in the order of their positions, none of them empty. -/
def Ordered (ts : List Token) : Prop :=
  (∀ t ∈ ts, t.start < t.stop) ∧ ts.Pairwise fun a b => a.stop ≤ b.start

/-- Whether all tokens are newlines. -/
def AllNewlines (ts : List Token) : Prop := ∀ t ∈ ts, t.lexeme = .newline

/-- The kinds that are no leaves, with children of a certain form. The grammar puts no node around
the statements of a block. -/
def composedKinds : List Kind :=
  [.comment, .statementList, .parenthesizedExpression, .selectorExpression,
    .indexExpression, .typeElem]

/-- Whether the last token is no newline. -/
def EndsSolid (ts : List Token) : Prop := ∃ last, ts.getLast? = some last ∧ last.lexeme ≠ .newline

/-- Whether the tokens are what a leaf of the given label covers: a balanced name or literal, a
keyword, or the characters of a symbol. An identifier is one word. -/
def Spelled (own : List Token) : Label → Prop
  | .node k => k ∉ composedKinds ∧ Balanced own ∧
    (∀ u ∈ own, u.lexeme ≠ .newline ∧ u.lexeme ≠ .unknown) ∧
    (k = .identifier → ∃ u, own = [u] ∧ u.lexeme = .word)
  | .token text =>
    own.map (·.lexeme) = text.toList.map .symbol ∨ ∃ t, own = [t] ∧ t.lexeme = .word
  | .lineBreak => False

/-- The children that a node of the given kind has. -/
def Formed : Kind → List Tree → Prop
  | .comment, _ | .statementList, _ => False
  | .identifier, cs => ∃ c, cs = [c] ∧ (c.isToken "new" ∨ c.isToken "make")
  | .parenthesizedExpression, cs =>
    ∃ opening inner closing, cs = [opening, inner, closing] ∧ opening.isToken "(" ∧
      inner.isNamed ∧ closing.isToken ")"
  | .selectorExpression, cs =>
    ∃ operand dot field, cs = [operand, dot, field] ∧ field.is .fieldIdentifier
  | .indexExpression, cs =>
    ∃ operand opening index closing, cs = [operand, opening, index, closing] ∧ operand.isNamed
  | _, _ => True

/-- The trees read the tokens one after the other. Newlines may stand before each tree, and behind
the last child of a clause. -/
inductive Reads : List Tree → List Token → Prop
  | nil : Reads [] []
  | leaf {label : Label} {role? : Option Role} {newlines own : List Token} {first last : Token}
      {trees : List Tree} {rest : List Token} (blank : AllNewlines newlines)
      (hfirst : own.head? = some first) (hlast : own.getLast? = some last)
      (solid : first.lexeme ≠ .newline) (spelled : Spelled own label) (more : Reads trees rest) :
      Reads (.mk label role? first.start last.stop [] :: trees) (newlines ++ own ++ rest)
  | node {k : Kind} {role? : Option Role} {child final : Tree} {children trees : List Tree}
      {inner newlines rest : List Token} {stop : Nat} (parts : Reads children inner)
      (hfirst : children.head? = some child) (hlast : children.getLast? = some final)
      (balanced : Balanced inner) (formed : Formed k children) (blank : AllNewlines newlines)
      (hstop : stop = (newlines.getLast?.map (·.stop)).getD final.stop)
      (clause : EndsSolid inner ∧ (newlines = [] ∨ k.isScope)) (more : Reads trees rest) :
      Reads (.mk (.node k) role? child.start stop children :: trees) (inner ++ newlines ++ rest)

private theorem formed_of_notMem {k : Kind} {cs : List Tree}
    (h : k ∉ .identifier :: composedKinds) :
    Formed k cs := by
  cases k <;> trivial

/-! ### Ordered tokens and newlines -/

/-- Some of the tokens in order are in order. -/
theorem Ordered.sublist {a b : List Token} (h : Ordered b) (hs : a.Sublist b) : Ordered a :=
  ⟨fun t ht => h.1 t (hs.subset ht), h.2.sublist hs⟩

/-- The last tokens are in order if all are. -/
theorem Ordered.right {a b : List Token} (h : Ordered (a ++ b)) : Ordered b :=
  ⟨fun t ht => h.1 t (List.mem_append_right a ht), (List.pairwise_append.mp h.2).2.1⟩

/-- The first tokens are in order if all are. -/
theorem Ordered.left {a b : List Token} (h : Ordered (a ++ b)) : Ordered a :=
  ⟨fun t ht => h.1 t (List.mem_append_left b ht), (List.pairwise_append.mp h.2).1⟩

/-- Tokens in order begin one after the other. -/
theorem Ordered.start_lt {a b : List Token} {x y : Token} (h : Ordered (a ++ b)) (hx : x ∈ a)
    (hy : y ∈ b) : x.start < y.start := by
  have hsep := (List.pairwise_append.mp h.2).2.2 x hx y hy
  have hpos := h.1 x (List.mem_append_left b hx)
  omega

/-- No tokens are newlines. -/
theorem allNewlines_nil : AllNewlines [] := fun t ht => by simp at ht

/-- A newline alone is nothing but newlines. -/
theorem allNewlines_singleton {m : Token} (hm : m.lexeme = .newline) : AllNewlines [m] :=
  fun _ ht => List.mem_singleton.mp ht ▸ hm

/-- Newlines behind newlines are nothing but newlines. -/
theorem AllNewlines.append {a b : List Token} (ha : AllNewlines a) (hb : AllNewlines b) :
    AllNewlines (a ++ b) := by
  intro t ht
  rcases List.mem_append.mp ht with ht | ht
  · exact ha t ht
  · exact hb t ht

/-- Newlines are balanced. -/
theorem AllNewlines.balanced {a : List Token} (h : AllNewlines a) : Balanced a :=
  balanced_of_newlines h

/-- What ends solid does so behind other tokens. -/
theorem EndsSolid.append (a : List Token) {b : List Token} (h : EndsSolid b) :
    EndsSolid (a ++ b) := by
  obtain ⟨last, hlast, hsolid⟩ := h
  exact ⟨last, by rw [List.getLast?_append, hlast, Option.some_or], hsolid⟩

/-- The last part ends solid if the whole does. -/
theorem EndsSolid.of_append {a b : List Token} (h : EndsSolid (a ++ b)) (hb : b ≠ []) :
    EndsSolid b := by
  obtain ⟨last, hlast, hsolid⟩ := h
  rw [List.getLast?_append_of_ne_nil _ hb] at hlast
  exact ⟨last, hlast, hsolid⟩

/-- A name, literal, keyword or symbol holds no newline and no character out of place. -/
theorem Spelled.solid {own : List Token} {label : Label} (h : Spelled own label) :
    ∀ u ∈ own, u.lexeme ≠ .newline ∧ u.lexeme ≠ .unknown := by
  cases label with
  | node k => exact h.2.2.1
  | token text =>
    intro u hu
    rcases h with hown | ⟨v, rfl, hv⟩
    · have hmem := hown ▸ List.mem_map_of_mem (f := fun t : Token => t.lexeme) hu
      obtain ⟨c, _, hc⟩ := List.mem_map.mp hmem
      simp [← hc]
    · simp [List.mem_singleton.mp hu, hv]
  | lineBreak => exact h.elim

/-! ### Forests -/

namespace Reads

/-- Newlines may be read before the first tree. -/
theorem skip {t : Tree} {trees : List Tree} {newlines ts : List Token} (hn : AllNewlines newlines)
    (h : Reads (t :: trees) ts) : Reads (t :: trees) (newlines ++ ts) := by
  generalize hforest : t :: trees = forest at h
  induction h generalizing t trees newlines with
  | nil => simp at hforest
  | leaf blank hfirst hlast solid spelled more _ =>
    rw [← List.append_assoc, ← List.append_assoc]
    exact .leaf (hn.append blank) hfirst hlast solid spelled more
  | node parts hfirst hlast balanced formed blank hstop clause more ih _ =>
    obtain ⟨cs, rfl⟩ := List.head?_eq_some_iff.mp hfirst
    rw [← List.append_assoc, ← List.append_assoc]
    exact .node (ih hn rfl) hfirst hlast (hn.balanced.append balanced) formed blank hstop
      ⟨clause.1.append newlines, clause.2⟩ more

/-- Trees that read one after the other read together. -/
theorem append {a b : List Tree} {x y : List Token} (ha : Reads a x) (hb : Reads b y) :
    Reads (a ++ b) (x ++ y) := by
  induction ha with
  | nil => exact hb
  | leaf blank hfirst hlast solid spelled _ ih =>
    rw [List.append_assoc]
    exact .leaf blank hfirst hlast solid spelled ih
  | node parts hfirst hlast balanced formed blank hstop clause _ _ ih =>
    rw [List.append_assoc]
    exact .node parts hfirst hlast balanced formed blank hstop clause ih

/-- The first tree reads tokens of its own, and the others the rest. -/
theorem uncons {t : Tree} {trees : List Tree} {ts : List Token} (h : Reads (t :: trees) ts) :
    ∃ x y, ts = x ++ y ∧ Reads [t] x ∧ Reads trees y := by
  cases h with
  | leaf blank hfirst hlast solid spelled more =>
    exact ⟨_, _, rfl, by simpa using Reads.leaf blank hfirst hlast solid spelled .nil, more⟩
  | node parts hfirst hlast balanced formed blank hstop clause more =>
    exact ⟨_, _, rfl, by
      simpa using Reads.node parts hfirst hlast balanced formed blank hstop clause .nil, more⟩

private theorem ofRole {t : Tree} {ts : List Token} (role? : Option Role) (h : Reads [t] ts) :
    Reads [.mk t.label role? t.start t.stop t.children] ts := by
  cases h with
  | leaf blank hfirst hlast solid spelled more =>
    exact .leaf blank hfirst hlast solid spelled more
  | node parts hfirst hlast balanced formed blank hstop clause more =>
    simp only [Tree.label, Tree.start, Tree.stop, Tree.children]
    exact .node parts hfirst hlast balanced formed blank hstop clause more

/-- The role of a tree does not matter for what it reads. -/
theorem asRole {t : Tree} {ts : List Token} (h : Reads [t] ts) (r : Role) :
    Reads [t.asRole r] ts := by
  cases t
  exact h.ofRole (some r)

/-- The role does not matter for what a tree reads. -/
theorem withoutRole {t : Tree} {ts : List Token} (h : Reads [t] ts) :
    Reads [t.withoutRole] ts := by
  cases t
  exact h.ofRole none

/-- No trees read no tokens. -/
theorem eq_nil {ts : List Token} (h : Reads [] ts) : ts = [] := by
  cases h
  rfl

/-- No tree that reads tokens is a line break. -/
theorem label_ne_lineBreak {trees : List Tree} {ts : List Token} (h : Reads trees ts) :
    ∀ t ∈ trees, t.label ≠ .lineBreak := by
  induction h with
  | nil => simp
  | leaf _ _ _ _ spelled _ ih =>
    refine List.forall_mem_cons.mpr ⟨fun hl => ?_, ih⟩
    simp only [Tree.label] at hl
    rw [hl] at spelled
    exact spelled
  | node _ _ _ _ _ _ _ _ _ _ ih =>
    exact List.forall_mem_cons.mpr ⟨by simp [Tree.label], ih⟩

/-- The kind of a tree that ends with its last child does not matter for what it reads. -/
theorem asKind {t : Tree} {ts : List Token} {k : Kind} (h : Reads [t] ts) (hb : Balanced ts)
    (hs : ∀ l, t.label = .node l → l.isScope = false) (hk : k ∉ .identifier :: composedKinds) :
    Reads [t.asKind k] ts := by
  obtain ⟨hi, hnode⟩ := List.ne_and_not_mem_of_not_mem_cons hk
  cases h with
  | @leaf _ _ newlines own _ _ _ _ blank hfirst hlast solid spelled more =>
    rw [more.eq_nil, List.append_nil] at hb ⊢
    have hown := hb.of_append blank.balanced
    have spelled : Spelled own (.node k) := ⟨hnode, hown, spelled.solid, fun h => absurd h hi⟩
    simpa [Tree.asKind] using Reads.leaf blank hfirst hlast solid spelled .nil
  | node parts hfirst hlast balanced _ blank hstop clause more =>
    obtain rfl := clause.2.resolve_right (by simp [hs _ rfl])
    exact .node parts hfirst hlast balanced (formed_of_notMem hk) blank hstop ⟨clause.1, .inl rfl⟩
      more

/-- The children of a node that ends with its last child read what it reads. -/
theorem children {k : Kind} {role? : Option Role} {start stop : Nat} {cs : List Tree}
    {ts : List Token} (h : Reads [.mk (.node k) role? start stop cs] ts)
    (hk : k.isScope = false ∧ (cs ≠ [] ∨ k ∈ composedKinds)) :
    Reads cs ts ∧ Balanced ts ∧ Formed k cs := by
  cases h with
  | leaf _ _ _ _ spelled _ => exact absurd hk.2 (by simp [spelled.1])
  | node parts _ _ balanced formed _ _ clause more =>
    obtain rfl := clause.2.resolve_right (by simp [hk.1])
    rw [more.eq_nil, List.append_nil, List.append_nil]
    exact ⟨parts, balanced, formed⟩

/-- Trees may be replaced by others that read the same. -/
theorem map {f : Tree → Tree} {trees : List Tree} {ts : List Token} (h : Reads trees ts)
    (hf : ∀ t ∈ trees, ∀ us, Reads [t] us → Reads [f t] us) : Reads (trees.map f) ts := by
  induction trees generalizing ts with
  | nil => exact h
  | cons t trees ih =>
    obtain ⟨x, y, rfl, hx, hy⟩ := h.uncons
    exact (hf t (List.mem_cons_self ..) x hx).append
      (ih hy fun u hu => hf u (List.mem_cons_of_mem t hu))

/-- A named tree reads balanced tokens. -/
theorem balanced {t : Tree} {ts : List Token} (h : Reads [t] ts) (hn : t.isNamed = true) :
    Balanced ts := by
  cases h with
  | @leaf label _ newlines own _ _ _ _ blank _ _ _ spelled more =>
    rw [more.eq_nil, List.append_nil]
    cases label with
    | node k => exact blank.balanced.append spelled.2.1
    | token text => simp [Tree.isNamed, Tree.kind?, Tree.label] at hn
    | lineBreak => exact spelled.elim
  | node _ _ _ balanced _ blank _ _ more =>
    rw [more.eq_nil, List.append_nil]
    exact balanced.append blank.balanced

/-- A tree that is no clause ends with a token that is no newline. -/
theorem endsSolid {t : Tree} {ts : List Token} (h : Reads [t] ts)
    (hs : ∀ l, t.label = .node l → l.isScope = false) : EndsSolid ts := by
  cases h with
  | @leaf _ _ newlines own _ last _ _ _ _ hlast _ spelled more =>
    rw [more.eq_nil, List.append_nil]
    exact EndsSolid.append newlines
      ⟨last, hlast, (spelled.solid last (List.mem_of_getLast? hlast)).1⟩
  | node _ _ _ _ _ _ _ clause more =>
    obtain rfl := clause.2.resolve_right (by simp [hs _ rfl])
    rw [more.eq_nil, List.append_nil, List.append_nil]
    exact clause.1

/-- No character out of place is read. -/
theorem lexeme_ne_unknown {trees : List Tree} {ts : List Token} (h : Reads trees ts) :
    ∀ u ∈ ts, u.lexeme ≠ .unknown := by
  have hnewline : ∀ {newlines : List Token}, AllNewlines newlines →
      ∀ u ∈ newlines, u.lexeme ≠ .unknown := fun hn u hu => by simp [hn u hu]
  induction h with
  | nil => simp
  | leaf blank _ _ _ spelled _ ih =>
    intro u hu
    rcases List.mem_append.mp hu with hu | hu
    · rcases List.mem_append.mp hu with hu | hu
      · exact hnewline blank u hu
      · exact (spelled.solid u hu).2
    · exact ih u hu
  | node _ _ _ _ _ blank _ _ _ ihp ih =>
    intro u hu
    rcases List.mem_append.mp hu with hu | hu
    · rcases List.mem_append.mp hu with hu | hu
      · exact ihp u hu
      · exact hnewline blank u hu
    · exact ih u hu

/-- A symbol of one character reads one token. -/
theorem ofToken {t : Tree} {text : String} {c : Char} {ts : List Token} (h : Reads [t] ts)
    (ht : t.isToken text = true) (hc : text.toList = [c]) :
    ∃ newlines u, ts = newlines ++ [u] ∧ AllNewlines newlines ∧
      (u.lexeme = .symbol c ∨ u.lexeme = .word) := by
  cases h with
  | @leaf label _ newlines own _ _ _ _ blank _ _ _ spelled more =>
    obtain rfl : label = .token text := of_decide_eq_true ht
    rw [more.eq_nil, List.append_nil]
    rcases spelled with hown | ⟨u, rfl, hu⟩
    · rw [hc] at hown
      obtain ⟨u, rfl, hu⟩ := List.map_eq_singleton_iff.mp hown
      exact ⟨newlines, u, rfl, blank, .inl hu⟩
    · exact ⟨newlines, u, rfl, blank, .inr hu⟩
  | node => simp [Tree.isToken, Tree.label] at ht

/-- The first tree begins at the first token that is no newline. -/
theorem start_eq {t : Tree} {trees : List Tree} {ts : List Token} (h : Reads (t :: trees) ts) :
    ∃ newlines first rest, ts = newlines ++ first :: rest ∧ AllNewlines newlines ∧
      first.lexeme ≠ .newline ∧ t.start = first.start := by
  generalize hforest : t :: trees = forest at h
  induction h generalizing t trees with
  | nil => simp at hforest
  | @leaf _ _ newlines own first _ _ rest blank hfirst _ solid _ _ _ =>
    obtain ⟨rfl, rfl⟩ := List.cons.inj hforest
    obtain ⟨more, rfl⟩ := List.head?_eq_some_iff.mp hfirst
    exact ⟨newlines, first, more ++ rest, by simp, blank, solid, rfl⟩
  | @node _ _ child _ children _ _ newlines rest _ parts hfirst _ _ _ _ _ _ _ ih _ =>
    obtain ⟨rfl, rfl⟩ := List.cons.inj hforest
    obtain ⟨cs, rfl⟩ := List.head?_eq_some_iff.mp hfirst
    obtain ⟨before, first, more, rfl, hblank, hsolid, hstart⟩ := ih rfl
    exact ⟨before, first, more ++ newlines ++ rest, by simp, hblank, hsolid, hstart⟩

/-- Trees read tokens. -/
theorem ne_nil {trees : List Tree} {ts : List Token} (h : Reads trees ts) (hne : trees ≠ []) :
    ts ≠ [] := by
  obtain ⟨t, more, rfl⟩ := List.exists_cons_of_ne_nil hne
  obtain ⟨newlines, first, rest, rfl, _⟩ := h.start_eq
  simp

/-- The last tree ends with the last token. -/
theorem stop_eq {trees : List Tree} {t : Tree} {ts : List Token} (h : Reads trees ts)
    (ht : trees.getLast? = some t) : ts.getLast?.map (·.stop) = some t.stop := by
  induction h generalizing t with
  | nil => simp at ht
  | @leaf label role? newlines own first last trees rest blank hfirst hlast _ _ more ih =>
    cases trees with
    | nil =>
      rw [more.eq_nil]
      simp only [List.getLast?_singleton, Option.some.injEq] at ht
      rw [List.append_nil, List.getLast?_append, hlast, ← ht]
      rfl
    | cons u us =>
      rw [List.getLast?_cons_cons] at ht
      have hrest := ih ht
      rw [Option.map_eq_some_iff] at hrest
      obtain ⟨final, hfinal, hstop⟩ := hrest
      rw [List.getLast?_append, hfinal, Option.some_or, Option.map_some, hstop]
  | @node _ _ _ final _ trees inner newlines rest stop parts _ hlast _ _ _ hstop _ more ihp ih =>
    cases trees with
    | nil =>
      rw [more.eq_nil]
      simp only [List.getLast?_singleton, Option.some.injEq] at ht
      have hinner := ihp hlast
      rw [List.append_nil, List.getLast?_append, ← ht, Tree.stop, hstop]
      cases newlines.getLast? with
      | none => simpa using hinner
      | some n => simp
    | cons u us =>
      rw [List.getLast?_cons_cons] at ht
      have hrest := ih ht
      rw [Option.map_eq_some_iff] at hrest
      obtain ⟨last, hl, hs⟩ := hrest
      rw [List.getLast?_append, hl, Option.some_or, Option.map_some, hs]

/-- A node over parts that read balanced tokens reads the same tokens. -/
theorem ofParts {k : Kind} {parts : List Tree} {ts : List Token} (h : Reads parts ts)
    (hne : parts ≠ []) (hb : Balanced ts) (hs : EndsSolid ts) (hf : Formed k parts) :
    Reads [.node k parts] ts := by
  obtain ⟨child, hfirst⟩ : ∃ t, parts.head? = some t :=
    Option.isSome_iff_exists.mp (by simpa using hne)
  obtain ⟨final, hlast⟩ : ∃ t, parts.getLast? = some t :=
    Option.isSome_iff_exists.mp (by simpa using hne)
  have hparts : parts.filter (·.label ≠ .lineBreak) = parts := by
    rw [List.filter_eq_self]
    simpa using h.label_ne_lineBreak
  have hnode : Reads [.mk (.node k) none child.start final.stop parts] (ts ++ [] ++ []) :=
    .node h hfirst hlast hb hf allNewlines_nil rfl ⟨hs, .inl rfl⟩ .nil
  rw [Tree.node, hparts, hfirst, hlast]
  simpa using hnode

end Reads

end GoContracts.Syntax

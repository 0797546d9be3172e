import GoContracts.Directive.Anchor
import GoContracts.Proofs.Syntax.Bodies
import GoContracts.Proofs.Syntax.TokenEnds

/-!
# Nodes and tokens

A word is spelled as an identifier, and no symbol begins like one. Every node of the tree of a text
is a comment or begins and ends with names, literals or symbols of the text. So the bytes next to
its ends are neither blank nor part of a comment. An identifier is one word.
-/

namespace GoContracts

/-- Whether the characters spell an identifier. -/
def Text.IsIdentifier (cs : List Char) : Prop :=
  ∃ first rest, cs = first :: rest ∧ Text.isIdentifierStart first = true ∧
    ∀ c ∈ rest, Text.isIdentifierPart c = true

namespace Syntax.Token

variable {c : Char} {cs : List Char} {s : String} {t : Token}

/-- What begins a number, a literal, a comment or a symbol is no word. -/
private theorem lexeme_ne_word (c : Char) (cs : List Char) :
    (∀ x n, number? (c :: cs) = some (x, n) → x ≠ .word ∧ ∀ d, x ≠ .symbol d) ∧
      (scanMark c cs).1 ≠ .word := by
  refine ⟨fun x n h => ?_, ?_⟩
  · unfold number? at h
    simp only at h
    split_ifs at h
    all_goals
      obtain ⟨rfl, _⟩ := Prod.mk.inj (Option.some.inj h)
      simp
  · have hclosed : ∀ (x : Lexeme) (n? : Option Nat), x ≠ .word → (closed x n?).1 ≠ .word := by
      intro x n? hx
      cases n? <;> simp [closed, hx]
    unfold scanMark
    split_ifs
    · exact hclosed _ _ (by simp)
    · exact hclosed _ _ (by simp)
    · exact hclosed _ _ (by simp)
    all_goals split <;> simp

/-- A word begins with a letter and takes what may continue it; no symbol begins with a letter. -/
theorem scan_word (c : Char) (cs : List Char) :
    ((scan c cs).1 = some .word → Text.isIdentifierStart c = true ∧
      (scan c cs).2 = (cs.takeWhile Text.isIdentifierPart).length) ∧
    ∀ d, (scan c cs).1 = some (.symbol d) → Text.isIdentifierStart c = false := by
  obtain ⟨hnumber, hmark⟩ := lexeme_ne_word c cs
  unfold scan
  split
  · simp
  · split
    · simp
    · split
      · next hstart => simp [hstart]
      · next hstart =>
        split
        · next x n hx => exact ⟨fun h => absurd (Option.some.inj h) (hnumber x n hx).1,
            fun _ _ => by simpa using hstart⟩
        · exact ⟨fun h => absurd (Option.some.inj h) hmark, fun _ _ => by simpa using hstart⟩

/-- The text of a word is an identifier. -/
theorem isIdentifier_of_word (h : t ∈ readAll s) (hword : t.lexeme = .word) :
    Text.IsIdentifier (Text.slice s t.start t.stop).toList := by
  obtain ⟨a, c, rest, hs, hstart, hfront⟩ := exists_front_readAll h
  obtain ⟨hx, _, hstop⟩ := front?_eq_some hfront
  obtain ⟨hletter, hlength⟩ := (scan_word c rest).1 (hword ▸ hx)
  have hslice := Text.slice_ofList a (c :: rest.take (scan c rest).2) (rest.drop (scan c rest).2)
  rw [List.append_assoc, front_append, ← hs, String.ofList_toList, hstart, ← hstop] at hslice
  rw [hslice, String.toList_ofList, hlength, ← List.prefix_iff_eq_take.mp (List.takeWhile_prefix _)]
  exact ⟨c, _, rfl, hletter, fun d hd => List.all_eq_true.mp List.all_takeWhile d hd⟩

/-- A word takes all letters and digits that stand side by side. -/
theorem isIdentifierPart_behind {d : Char} (h : t ∈ readAll s) (hword : t.lexeme = .word)
    (hd : Text.CharAt s t.stop d) : Text.isIdentifierPart d = false := by
  obtain ⟨a, c, rest, hs, hstart, hfront⟩ := exists_front_readAll h
  obtain ⟨hx, _, hstop⟩ := front?_eq_some hfront
  obtain ⟨_, hlength⟩ := (scan_word c rest).1 (hword ▸ hx)
  have hsplit : s.toList = a ++ (c :: rest.take (scan c rest).2) ++ rest.drop (scan c rest).2 := by
    rw [List.append_assoc, front_append, hs]
  have hbehind := Text.behind_eq hsplit
  rw [Text.byteLength_append, hstart, ← hstop] at hbehind
  have hparts : rest.takeWhile Text.isIdentifierPart ++
    rest.dropWhile Text.isIdentifierPart = rest :=
    List.takeWhile_append_dropWhile
  have hdrop : rest.drop (rest.takeWhile Text.isIdentifierPart).length =
      rest.dropWhile Text.isIdentifierPart :=
    (congrArg (List.drop _) hparts.symm).trans (List.drop_left ..)
  obtain ⟨b, z, hs', hb⟩ := hd
  rw [← hb, Text.behind_eq hs', hlength, hdrop] at hbehind
  have hnot := List.head?_dropWhile_not Text.isIdentifierPart rest
  rw [← hbehind] at hnot
  exact hnot

/-- No letter is a symbol. -/
theorem isIdentifierStart_of_symbol (h : t ∈ readAll s) (hsymbol : t.lexeme = .symbol c) :
    Text.isIdentifierStart c = false := by
  obtain ⟨a, d, rest, hs, hstart, hfront⟩ := exists_front_readAll h
  have hx := (front?_eq_some hfront).1
  rw [hsymbol] at hx
  have hat : Text.CharAt s t.start d := ⟨a, rest, hs, hstart⟩
  rw [(charAt_symbol h hsymbol).1.unique hat]
  exact (scan_word d rest).2 c hx

end Syntax.Token

end GoContracts

/-! ### Seats -/

namespace GoContracts.Syntax

open Syntax.Tree (preorderAll attachAll)

/-- A node begins and ends with names, literals or symbols; a clause may end behind a newline. An
identifier is one word. -/
structure Seated (ts : List Token) (t : Tree) : Prop where
  isComment : t.isComment = false
  start : ∃ u ∈ ts, u.IsSolid ∧ t.start = u.start
  stop : ∃ u ∈ ts, t.stop = u.stop ∧
    (u.IsSolid ∨ u.lexeme = .newline ∧ t.kind?.any Kind.isScope = true)
  word : t.is .identifier = true →
    ∃ u ∈ ts, u.lexeme = .word ∧ t.start = u.start ∧ t.stop = u.stop

private theorem Seated.mono {few ts : List Token} {t : Tree} (h : Seated few t) (hsub : few ⊆ ts) :
    Seated ts t :=
  let ⟨u, hu, hstart⟩ := h.start
  let ⟨v, hv, hstop⟩ := h.stop
  ⟨h.isComment, ⟨u, hsub hu, hstart⟩, ⟨v, hsub hv, hstop⟩, fun hidentifier =>
    let ⟨w, hw, hword⟩ := h.word hidentifier
    ⟨w, hsub hw, hword⟩⟩

/-- A node of comments is one of them. -/
theorem mem_of_mem_preorderAll {comments : List Tree} (h : ∀ c ∈ comments, c.children = [])
    {t : Tree} (ht : t ∈ preorderAll comments) : t ∈ comments := by
  obtain ⟨c, hc, ht⟩ := Tree.mem_preorderAll.mp ht
  cases c with
  | mk label role? start stop children =>
    obtain rfl : children = [] := h _ hc
    rw [Tree.preorder, Tree.preorderAll, List.mem_singleton] at ht
    rwa [ht]

/-- Whether a token is no comment and no letter out of place. -/
def IsProper (u : Token) : Prop :=
  u.lexeme ≠ .comment ∧ ∀ c, u.lexeme = .symbol c → Text.isIdentifierStart c = false

/-- The name of a predeclared function is one word. -/
theorem Reads.word {t : Tree} {ts : List Token} (h : Reads [t] ts) (hts : ∀ u ∈ ts, IsProper u)
    (ht : t.isToken "new" = true ∨ t.isToken "make" = true) :
    ∃ u ∈ ts, u.lexeme = .word ∧ t.start = u.start ∧ t.stop = u.stop := by
  cases h with
  | @leaf label _ newlines own first last _ rest _ hfirst hlast _ spelled _ =>
    have hmem := List.mem_of_head? hfirst
    obtain ⟨c, cs, hlabel, hc⟩ : ∃ c cs, label = .token (String.ofList (c :: cs)) ∧
        Text.isIdentifierStart c = true := by
      rcases ht with ht | ht
      · exact ⟨'n', ['e', 'w'], of_decide_eq_true ht, by decide⟩
      · exact ⟨'m', ['a', 'k', 'e'], of_decide_eq_true ht, by decide⟩
    subst hlabel
    rcases spelled with hown | ⟨u, rfl, hu⟩
    · obtain ⟨more, rfl⟩ := List.head?_eq_some_iff.mp hfirst
      rw [String.toList_ofList, List.map_cons, List.map_cons] at hown
      have hletter := (hts first (by simp)).2 c (List.cons.inj hown).1
      rw [hc] at hletter
      exact absurd hletter (Bool.true_eq_false_eq_False)
    · obtain rfl := Option.some.inj hfirst
      obtain rfl := Option.some.inj hlast
      exact ⟨u, by simp, hu, rfl, rfl⟩
  | node => rcases ht with ht | ht <;> simp [Tree.isToken, Tree.label] at ht

/-- A word, a literal or a symbol is seated where it is read. -/
private theorem seated_leaf {label : Label} {role? : Option Role} {own : List Token}
    {first last : Token} {children : List Tree} (hfirst : own.head? = some first)
    (hlast : own.getLast? = some last) (spelled : Spelled own label)
    (hts : ∀ u ∈ own, IsProper u) :
    Seated own (.mk label role? first.start last.stop children) := by
  have hsolid : ∀ v ∈ own, v.IsSolid := fun v hv =>
    ⟨(spelled.solid v hv).1, (hts v hv).1, (spelled.solid v hv).2⟩
  have hmemFirst := List.mem_of_head? hfirst
  have hmemLast := List.mem_of_getLast? hlast
  refine ⟨decide_eq_false ?_, ⟨first, hmemFirst, hsolid first hmemFirst, rfl⟩,
    ⟨last, hmemLast, rfl, .inl (hsolid last hmemLast)⟩, fun hidentifier => ?_⟩
  · rintro rfl
    exact absurd (by decide) spelled.1
  · obtain rfl : label = .node .identifier := of_decide_eq_true hidentifier
    obtain ⟨v, rfl, hword⟩ := spelled.2.2.2 rfl
    obtain rfl := Option.some.inj hfirst
    obtain rfl := Option.some.inj hlast
    exact ⟨v, hmemFirst, hword, rfl, rfl⟩

section Node

variable {k : Kind} {role? : Option Role} {child final : Tree} {children inside : List Tree}
  {inner newlines : List Token} {stop : Nat}

/-- A node ends with its last child, a clause may end behind a newline. -/
private theorem exists_stop_node (parts : Reads children inner)
    (hlast : children.getLast? = some final) (blank : AllNewlines newlines)
    (hstop : stop = (newlines.getLast?.map (·.stop)).getD final.stop)
    (clause : EndsSolid inner ∧ (newlines = [] ∨ k.isScope)) (hts : ∀ u ∈ inner, IsProper u) :
    ∃ u ∈ inner ++ newlines, stop = u.stop ∧
      (u.IsSolid ∨ u.lexeme = .newline ∧ k.isScope = true) := by
  cases hnewline : newlines.getLast? with
  | some newline =>
    have hmem := List.mem_of_getLast? hnewline
    rw [hnewline] at hstop
    exact ⟨newline, List.mem_append_right _ hmem, hstop,
      .inr ⟨blank newline hmem, clause.2.resolve_left (List.ne_nil_of_mem hmem)⟩⟩
  | none =>
    obtain ⟨last, hlastToken, hend⟩ := Option.map_eq_some_iff.mp (parts.stop_eq hlast)
    obtain ⟨last', hlast', hsolid⟩ := clause.1
    obtain rfl : last' = last := Option.some.inj (hlast'.symm.trans hlastToken)
    have hmem := List.mem_of_getLast? hlast'
    rw [hnewline] at hstop
    exact ⟨last', List.mem_append_left _ hmem, hstop.trans hend.symm,
      .inl ⟨hsolid, (hts last' hmem).1, parts.lexeme_ne_unknown last' hmem⟩⟩

/-- A node is seated where its children are read. -/
private theorem seated_node (parts : Reads children inner) (hfirst : children.head? = some child)
    (hlast : children.getLast? = some final) (formed : Formed k children)
    (blank : AllNewlines newlines)
    (hstop : stop = (newlines.getLast?.map (·.stop)).getD final.stop)
    (clause : EndsSolid inner ∧ (newlines = [] ∨ k.isScope)) (hts : ∀ u ∈ inner, IsProper u) :
    Seated (inner ++ newlines) (.mk (.node k) role? child.start stop inside) := by
  obtain ⟨cs, rfl⟩ := List.head?_eq_some_iff.mp hfirst
  have hkind : k ≠ .comment := by
    rintro rfl
    exact formed
  refine ⟨decide_eq_false fun h => hkind (Label.node.inj h), ?_,
    exists_stop_node parts hlast blank hstop clause hts, fun hidentifier => ?_⟩
  · obtain ⟨before, first, behind, rfl, _, hsolid, hstart⟩ := parts.start_eq
    have hmem : first ∈ before ++ first :: behind := by simp
    exact ⟨first, List.mem_append_left _ hmem,
      ⟨hsolid, (hts first hmem).1, parts.lexeme_ne_unknown first hmem⟩, hstart⟩
  · obtain rfl : k = .identifier := Label.node.inj (of_decide_eq_true hidentifier)
    obtain ⟨c, hone, htoken⟩ := formed
    obtain ⟨rfl, rfl⟩ := List.cons.inj hone
    obtain rfl := clause.2.resolve_right (by decide)
    obtain rfl := Option.some.inj hlast
    obtain ⟨v, hv, hword, hvstart, hvstop⟩ := parts.word hts htoken
    exact ⟨v, List.mem_append_left _ hv, hword, hvstart, hstop.trans hvstop⟩

end Node

/-- A node of trees among which comments are placed is one of the comments, the first tree, a node
in it or a node of the trees behind it. -/
private theorem mem_preorderAll_attachAll_cons {label : Label} {role? : Option Role}
    {start stop : Nat} {children trees comments : List Tree} {t : Tree}
    (hbare : ∀ c ∈ comments, c.children = [])
    (ht : t ∈ preorderAll (attachAll (.mk label role? start stop children :: trees) comments)) :
    t ∈ comments ∨
      (∃ inside ⊆ comments, t = .mk label role? start stop (attachAll children inside) ∨
        t ∈ preorderAll (attachAll children inside)) ∨
      ∃ behind ⊆ comments, t ∈ preorderAll (attachAll trees behind) := by
  rw [Tree.attachAll_cons, Tree.mem_preorderAll] at ht
  obtain ⟨u, hu, ht⟩ := ht
  rcases List.mem_append.mp hu with hu | hu
  · exact .inl (List.mem_of_mem_filter (mem_of_mem_preorderAll
      (fun c hc => hbare c (List.mem_of_mem_filter hc)) (Tree.mem_preorderAll.mpr ⟨u, hu, ht⟩)))
  rcases List.mem_cons.mp hu with rfl | hu
  · rw [Tree.preorder] at ht
    exact .inr (.inl ⟨_, List.filter_sublist.subset, List.mem_cons.mp ht⟩)
  · exact .inr (.inr ⟨_, List.filter_sublist.subset, Tree.mem_preorderAll.mpr ⟨u, hu, ht⟩⟩)

/-- The nodes of trees that read tokens, with comments placed among them. -/
theorem Reads.seated {trees : List Tree} {ts : List Token} (h : Reads trees ts)
    (hts : ∀ u ∈ ts, IsProper u) {comments : List Tree}
    (hbare : ∀ c ∈ comments, c.children = []) :
    ∀ t ∈ preorderAll (attachAll trees comments), t ∈ comments ∨ Seated ts t := by
  induction h generalizing comments with
  | nil =>
    intro t ht
    rw [attachAll] at ht
    exact .inl (mem_of_mem_preorderAll hbare ht)
  | @leaf label role? newlines own first last trees rest blank hfirst hlast _ spelled more ih =>
    intro t ht
    rcases mem_preorderAll_attachAll_cons hbare ht with hc | ⟨inside, hin, rfl | ht⟩ |
      ⟨behind, hin, ht⟩
    · exact .inl hc
    · exact .inr ((seated_leaf hfirst hlast spelled fun v hv => hts v (by simp [hv])).mono
        fun v hv => by simp [hv])
    · rw [attachAll] at ht
      exact .inl (hin (mem_of_mem_preorderAll (fun c hc => hbare c (hin hc)) ht))
    · refine (ih (fun v hv => hts v (by simp [hv])) (fun c hc => hbare c (hin hc)) t ht).imp
        (fun hc => hin hc) fun hseated => ?_
      exact hseated.mono (List.subset_append_right _ _)
  | @node k role? child final children trees inner newlines rest stop parts hfirst hlast _ formed
      blank hstop clause more ihp ih =>
    intro t ht
    have hinner : ∀ u ∈ inner, IsProper u := fun u hu => hts u (by simp [hu])
    rcases mem_preorderAll_attachAll_cons hbare ht with hc | ⟨inside, hin, rfl | ht⟩ |
      ⟨behind, hin, ht⟩
    · exact .inl hc
    · exact .inr ((seated_node parts hfirst hlast formed blank hstop clause hinner).mono
        (List.subset_append_left _ _))
    · refine (ihp hinner (fun c hc => hbare c (hin hc)) t ht).imp (fun hc => hin hc)
        fun hseated => ?_
      exact hseated.mono fun v hv => by simp [hv]
    · refine (ih (fun v hv => hts v (by simp [hv])) (fun c hc => hbare c (hin hc)) t ht).imp
        (fun hc => hin hc) fun hseated => ?_
      exact hseated.mono (List.subset_append_right _ _)

namespace Tree

mutual

/-- The nodes inside a node of a tree are nodes of the tree. -/
theorem mem_preorder_of_mem {t u : Tree} (ht : t ∈ preorderAll u.children) :
    ∀ root : Tree, u ∈ root.preorder → t ∈ root.preorder
  | mk l r s e cs => by
    intro hu
    rw [preorder] at hu ⊢
    refine List.mem_cons_of_mem _ ?_
    rcases List.mem_cons.mp hu with rfl | hu
    · exact ht
    · exact mem_preorderAll_of_mem ht cs hu

/-- The nodes inside a node of trees are nodes of the trees. -/
theorem mem_preorderAll_of_mem {t u : Tree} (ht : t ∈ preorderAll u.children) :
    ∀ trees : List Tree, u ∈ preorderAll trees → t ∈ preorderAll trees
  | [] => by
    intro hu
    simp [preorderAll] at hu
  | v :: vs => by
    intro hu
    rw [preorderAll] at hu ⊢
    rcases List.mem_append.mp hu with hu | hu
    · exact List.mem_append_left _ (mem_preorder_of_mem ht v hu)
    · exact List.mem_append_right _ (mem_preorderAll_of_mem ht vs hu)

end

/-- The children of a node in trees are nodes of the trees. -/
theorem mem_preorderAll_of_mem_children {t u : Tree} {trees : List Tree} (ht : t ∈ u.children)
    (hu : u ∈ preorderAll trees) : t ∈ preorderAll trees :=
  mem_preorderAll_of_mem (mem_preorderAll.mpr ⟨t, ht, mem_preorder_self t⟩) trees hu

end Tree

namespace Grammar

/-- Every node of the tree of a text but its root is one of the comments or is seated. -/
theorem seated_readSource (text : String) : ∀ t ∈ preorderAll (readSource text).1.children,
    t ∈ comments (Token.readAll text) ∨ Seated (significant (Token.readAll text)) t := by
  have ho := Token.ordered_readAll text
  unfold readSource
  simp only [StateT.run]
  split
  · next items rest hitems =>
    obtain ⟨newlines, _, hparsed, _⟩ := fileItems_parsed (sound_rulesTo _) hitems
    obtain ⟨own, hown, hreads, _⟩ := hparsed (ho.sublist (significant_sublist _))
    have hsub : own ⊆ significant (Token.readAll text) := by
      rw [hown]
      exact List.subset_append_left _ _
    have hbare : ∀ c ∈ comments (Token.readAll text), c.children = [] := by
      intro c hc
      obtain ⟨u, _, rfl⟩ := List.mem_map.mp hc
      rfl
    intro t ht
    rcases hreads.seated (fun u hu => ⟨lexeme_ne_comment (hsub hu), fun c hsymbol =>
        Token.isIdentifierStart_of_symbol ((significant_sublist _).subset (hsub hu)) hsymbol⟩)
          hbare t ht with hc | hseated
    · exact .inl hc
    · exact .inr (hseated.mono hsub)
  · intro t ht
    simp [sourceFile, Tree.children, Tree.preorderAll] at ht

/-- If all of a text fits the grammar, no character of it is out of place and all its comments are
in the tree. -/
theorem complete_readSource {text : String} (h : (readSource text).2 = true) :
    (∀ u ∈ Token.readAll text, u.lexeme ≠ .unknown) ∧
      ∀ c ∈ comments (Token.readAll text), c ∈ (readSource text).1.preorder := by
  have ho := Token.ordered_readAll text
  unfold readSource at h ⊢
  simp only [StateT.run] at h ⊢
  split at h
  · next items rest hitems =>
    refine ⟨fun u hu hunknown => ?_, fun c hc => Tree.mem_preorder_attach hc _⟩
    obtain ⟨newlines, hnewlines, hparsed, _⟩ := fileItems_parsed (sound_rulesTo _) hitems
    obtain ⟨own, hown, hreads, _⟩ := hparsed (ho.sublist (significant_sublist _))
    obtain ⟨others, hrest, hothers⟩ := afterNewlines_split rest
    rw [List.isEmpty_iff.mp h, List.append_nil] at hrest
    have hsolid : u ∈ (significant (Token.readAll text)).filter isSolid := by
      rw [filter_significant]
      exact List.mem_filter.mpr ⟨hu, by simp [isSolid, hunknown]⟩
    have hmem := (List.mem_filter.mp hsolid).1
    rw [hown, hrest] at hmem
    rcases List.mem_append.mp hmem with hmem | hmem
    · exact hreads.lexeme_ne_unknown u hmem hunknown
    · have := hnewlines.append hothers u hmem
      simp [hunknown] at this
  · simp at h

end Grammar

end GoContracts.Syntax

namespace GoContracts

open Syntax (Tree Token Seated)

/-- The nodes of a file stand on the tokens of its text. -/
structure SourceFile.OnTokens (file : SourceFile) : Prop where
  inOrder : file.InOrder
  comment : ∀ c ∈ file.comments, ∃ u ∈ Token.readAll file.text, u.lexeme = .comment ∧
    c.start = u.start ∧ c.stop = u.stop
  seated : ∀ t ∈ Tree.preorderAll file.tree.children, t.isComment = false →
    Seated (Token.readAll file.text) t

/-- The nodes of a parsed file stand on its tokens. -/
theorem SourceFile.onTokens_parse (path text : String) : (parse path text).OnTokens := by
  have hseated := Syntax.Grammar.seated_readSource text
  have hsub : Syntax.Grammar.significant (Token.readAll text) ⊆ Token.readAll text :=
    (Syntax.Grammar.significant_sublist _).subset
  refine ⟨inOrder_parse path text, fun c hc => ?_, fun t ht hcomment => ?_⟩
  · rw [(inOrder_parse path text).comments_eq] at hc
    obtain ⟨hmem, hcomment⟩ := List.mem_filter.mp hc
    rcases hseated c hmem with hc | hseated
    · obtain ⟨u, hu, rfl⟩ := List.mem_map.mp hc
      obtain ⟨hu, hlexeme⟩ := List.mem_filter.mp hu
      exact ⟨u, hu, of_decide_eq_true hlexeme, rfl, rfl⟩
    · rw [hseated.isComment] at hcomment
      exact absurd hcomment Bool.false_ne_true
  · rcases hseated t ht with hc | hseated
    · obtain ⟨u, _, rfl⟩ := List.mem_map.mp hc
      simp [Tree.isComment, Tree.is, Tree.leaf, Tree.label] at hcomment
    · exact hseated.mono hsub

/-- All characters of a file without errors are in place, and its comments are those of its text. -/
theorem SourceFile.complete_parse {path text : String} (h : (parse path text).hasErrors = false) :
    (∀ u ∈ Token.readAll text, u.lexeme ≠ .unknown) ∧
      ∀ u ∈ Token.readAll text, u.lexeme = .comment →
        ∃ c ∈ (parse path text).comments, c.start = u.start ∧ c.stop = u.stop := by
  obtain ⟨hknown, hcomments⟩ := @Syntax.Grammar.complete_readSource text
    (by simpa [parse] using h)
  refine ⟨hknown, fun u hu hcomment => ⟨.leaf (.node .comment) u.start u.stop,
    List.mem_filter.mpr ⟨hcomments _ (List.mem_map_of_mem (List.mem_filter.mpr ⟨hu, ?_⟩)), ?_⟩,
    rfl, rfl⟩⟩
  · simp [hcomment]
  · rfl

namespace SourceFile.OnTokens

variable {file : SourceFile} (h : file.OnTokens)
include h

/-- A directive stands where its comment does. -/
theorem anchor {anchor : Anchor} (hanchor : anchor ∈ file.anchors) :
    ∃ u ∈ Token.readAll file.text, u.lexeme = .comment ∧ anchor.start = u.start ∧
      anchor.stop = u.stop ∧ anchor.inline = !Text.startsLine file.text u.start := by
  obtain ⟨c, hc, hanchor⟩ := List.mem_filterMap.mp hanchor
  obtain ⟨directive, _, rfl⟩ := Option.map_eq_some_iff.mp hanchor
  obtain ⟨u, hu, hlexeme, hstart, hstop⟩ := h.comment c hc
  exact ⟨u, hu, hlexeme, hstart, hstop, by rw [← hstart]⟩

omit h in
/-- The statements of a body are nodes of the file and no comments. -/
theorem mem_of_mem_statements (h : file.InOrder) {body : Body} {statement : Tree}
    (hbody : body ∈ Body.all file.tree) (hmem : statement ∈ body.statements) :
    statement ∈ Tree.preorderAll file.tree.children ∧ statement.isComment = false := by
  rw [h.bodies_eq] at hbody
  obtain ⟨t, ht, hbody⟩ := List.mem_filterMap.mp hbody
  obtain ⟨_, hsub, _⟩ := Body.of_eq_some (h.laid.node_children t ht).flat hbody
  obtain ⟨hchild, hfilter⟩ := List.mem_filter.mp (hsub.subset hmem)
  rw [Bool.and_eq_true, Bool.not_eq_true'] at hfilter
  exact ⟨Tree.mem_preorderAll_of_mem_children (List.mem_of_mem_tail hchild) ht, hfilter.2⟩

/-- The statements of a body are seated. -/
theorem statement {body : Body} {statement : Tree} (hbody : body ∈ Body.all file.tree)
    (hmem : statement ∈ body.statements) : Seated (Token.readAll file.text) statement :=
  let ⟨hnode, hcomment⟩ := mem_of_mem_statements h.inOrder hbody hmem
  h.seated _ hnode hcomment

end SourceFile.OnTokens

end GoContracts

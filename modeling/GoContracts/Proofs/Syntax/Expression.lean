import GoContracts.Proofs.Syntax.Grammar.File
import GoContracts.Proofs.Syntax.Tokens
import GoContracts.Syntax.Expression

/-!
# What is accepted as an expression

A tree begins with the first of its tokens that is no newline and ends with the last one. What
stands around all tokens of a text is blank.

A text is accepted as an expression if the file around it has one parenthesized expression as its
first value. That expression ends with the first bracket that closes the one before the text. It
spans the text exactly if no bracket of the text does so; otherwise what follows in the text are
further declarations of the file.
-/

namespace GoContracts.Syntax

variable {pos : Nat} {cs : List Char} {own : List Token} {t : Tree}

/-- A tree begins and ends with tokens that it reads, and the others lie between them. -/
theorem Reads.bounds (h : Reads [t] own) (ho : Ordered own) :
    (∃ first ∈ own, t.start = first.start) ∧ (∃ last ∈ own, t.stop = last.stop) ∧
      (∀ u ∈ own, u.lexeme ≠ .newline → t.start ≤ u.start) ∧ ∀ u ∈ own, u.stop ≤ t.stop := by
  obtain ⟨newlines, first, rest, rfl, hblank, _, hstart⟩ := h.start_eq
  obtain ⟨last, hlast, hstop⟩ := Option.map_eq_some_iff.mp (h.stop_eq (t := t) rfl)
  refine ⟨⟨first, by simp, hstart⟩, ⟨last, List.mem_of_getLast? hlast, hstop.symm⟩,
    fun u hu hsolid => ?_, fun u hu => ?_⟩
  · rw [hstart]
    rcases List.mem_append.mp hu with hu | hu
    · exact absurd (hblank u hu) hsolid
    · rcases List.mem_cons.mp hu with rfl | hu
      · exact Nat.le_refl _
      · have htail : Ordered ([first] ++ rest) := ho.right
        exact Nat.le_of_lt (htail.start_lt (List.mem_singleton_self first) hu)
  · obtain ⟨before, hbefore⟩ := List.getLast?_eq_some_iff.mp hlast
    rw [hbefore] at hu ho
    rw [← hstop]
    rcases List.mem_append.mp hu with hu | hu
    · have hle := (List.pairwise_append.mp ho.2).2.2 u hu last (List.mem_singleton_self last)
      have hpos := ho.1 last (by simp)
      omega
    · rw [List.mem_singleton.mp hu]

/-- A tree over tokens of a text covers the middle of the text. -/
theorem Reads.extent (h : Reads [t] own) (ho : Ordered own)
    (hown : ∀ u ∈ own, u ∈ Token.readFrom pos cs) :
    ∃ a m b, cs = a ++ m ++ b ∧ t.start = pos + Text.byteLength a ∧
      t.stop = pos + Text.byteLength a + Text.byteLength m := by
  obtain ⟨⟨first, hfirst, hstart⟩, ⟨last, hlast, hstop⟩, _, hbound⟩ := h.bounds ho
  obtain ⟨a, m, b, hcs, _, ha, hm, _⟩ := Token.mem_readFrom (hown first hfirst)
  obtain ⟨c, n, d, hcs', _, hc, hn, _⟩ := Token.mem_readFrom (hown last hlast)
  have hle := hbound first hfirst
  have hcut : a ++ (m ++ b) = (c ++ n) ++ d := by
    rw [← hcs', hcs, List.append_assoc]
  obtain ⟨middle, hmiddle, _⟩ := Text.exists_middle hcut (by
    rw [Text.byteLength_append]
    omega)
  refine ⟨a, middle, d, by rw [hcs', hmiddle], by rw [hstart, ha], ?_⟩
  have hlength := congrArg Text.byteLength hmiddle
  rw [Text.byteLength_append, Text.byteLength_append] at hlength
  omega

/-- What stands before and behind all tokens of a text that are no newlines is blank. -/
theorem isBlank_of_outside (pos : Nat) {a m b : List Char} (hcs : cs = a ++ m ++ b)
    (hstart : ∀ u ∈ Token.readFrom pos cs, u.lexeme ≠ .newline →
      pos + Text.byteLength a ≤ u.start)
    (hstop : ∀ u ∈ Token.readFrom pos cs, u.lexeme ≠ .newline →
      u.stop ≤ pos + Text.byteLength a + Text.byteLength m) :
    (∀ c ∈ a, Text.isBlank c = true) ∧ ∀ c ∈ b, Text.isBlank c = true := by
  constructor
  · intro c hc
    by_contra hsolid
    obtain ⟨x, y, rfl⟩ := List.append_of_mem hc
    have hsplit : cs = x ++ c :: (y ++ m ++ b) := by simp [hcs]
    obtain ⟨u, hu, hnew, hle, _⟩ := Token.exists_mem_readFrom pos (a := x)
      (b := y ++ m ++ b) (by simpa using hsolid)
    have hbefore := hstart u (hsplit ▸ hu) hnew
    have hpos := c.utf8Size_pos
    rw [Text.byteLength_append, Text.byteLength_cons] at hbefore
    omega
  · intro c hc
    by_contra hsolid
    obtain ⟨x, y, rfl⟩ := List.append_of_mem hc
    have hsplit : cs = (a ++ m ++ x) ++ c :: y := by simp [hcs]
    obtain ⟨u, hu, hnew, _, hlt⟩ := Token.exists_mem_readFrom pos (a := a ++ m ++ x)
      (b := y) (by simpa using hsolid)
    have hbehind := hstop u (hsplit ▸ hu) hnew
    rw [Text.byteLength_append, Text.byteLength_append] at hlt
    omega

end GoContracts.Syntax

/-! ### Expressions -/

namespace GoContracts.Syntax.Grammar

/-! ### The file around an expression -/

/-- The tokens before an expression. -/
def openingTokens : List Token :=
  [⟨.word, "package", 0, 7⟩, ⟨.word, "p", 8, 9⟩, ⟨.newline, "\n", 9, 10⟩, ⟨.word, "var", 10, 13⟩,
    ⟨.word, "_", 14, 15⟩, ⟨.symbol '=', "=", 16, 17⟩, ⟨.symbol '(', "(", 18, 19⟩]

/-- The package clause before an expression. -/
def openingClause : Tree :=
  .node .packageClause [.leaf (.token "package") 0 7, .leaf (.node .packageIdentifier) 8 9]

variable {n : Nat} {source rest us : List Token} {items : List Tree}

/-- The first item is the package clause, and a second one follows if all tokens fit the grammar. -/
theorem fileItems_opening {rules : Rules}
    (h : fileItems rules (openingTokens ++ source) = some (items, rest))
    (hrest : AllNewlines rest) :
    ∃ declaration more us,
      topLevel rules (openingTokens.drop 3 ++ source) = some (declaration, us) ∧
      items = openingClause :: .leaf .lineBreak 9 10 :: declaration :: more := by
  obtain ⟨groups, _, hg, h⟩ := bind_eq_some.mp h
  obtain ⟨rfl, rfl⟩ := pure_eq_some.mp h
  have hfirst : fileItem rules (openingTokens ++ source) =
      some (some [openingClause, .leaf .lineBreak 9 10], openingTokens.drop 3 ++ source) := rfl
  rcases gather_go_cases hg with ⟨hnone, _⟩ | ⟨a, groups, mid, ha, htail, rfl⟩
  · exact absurd (hfirst.symm.trans hnone) (by simp)
  obtain ⟨hsome, rfl⟩ := Prod.mk.inj (Option.some.inj (hfirst.symm.trans ha))
  obtain rfl := Option.some.inj hsome
  rcases gather_go_cases htail with ⟨hnone, _⟩ | ⟨b, groups, us, hb, _, rfl⟩
  · -- What does not fit the grammar would be left behind.
    rcases fileItem_cases hnone with ⟨_, rfl⟩ | ⟨_, _, _, hsome, _⟩
    · have hvar := hrest ⟨.word, "var", 10, 13⟩ (by simp [openingTokens])
      simp at hvar
    · simp at hsome
  · rcases fileItem_cases hb with ⟨hnone, _⟩ | ⟨declaration, group, mid, hsome, hd, hended⟩
    · simp at hnone
    · obtain rfl := Option.some.inj hsome
      refine ⟨declaration, b.drop 1 ++ groups.flatten, mid, hd, ?_⟩
      rcases optional_bind.mp hended with ⟨stop, vs, hstop, h⟩ | ⟨_, h⟩
      · obtain ⟨rfl, rfl⟩ := pure_eq_some.mp h
        rfl
      · simp only [looking_bind] at h
        rw [require_bind, pure_eq_some] at h
        obtain ⟨_, rfl, rfl⟩ := h
        rfl

/-- The second item declares a variable with the expressions behind the equals sign. -/
theorem topLevel_opening {d : Tree}
    (h : topLevel (rulesTo (n + 1)) (openingTokens.drop 3 ++ source) = some (d, us)) :
    ∃ list, expressionList (rulesTo n) onLine (openingTokens.drop 6 ++ source) = some (list, us) ∧
      d = .node .varDeclaration [.leaf (.token "var") 10 13, .node .varSpec
        [.mk (.node .identifier) (some .name) 14 15 [], .leaf (.token "=") 16 17,
          list.asRole .value]] := by
  replace h : declaration (rulesTo n) (openingTokens.drop 3 ++ source) = some (d, us) := h
  have hvar : atWord true "var" (openingTokens.drop 3 ++ source) = true := rfl
  have hword : keyword true "var" (openingTokens.drop 3 ++ source) =
      some (.leaf (.token "var") 10 13, openingTokens.drop 4 ++ source) := rfl
  have hsingle : atSymbol true "(" (openingTokens.drop 4 ++ source) = false := rfl
  have hnames : names .identifier (openingTokens.drop 4 ++ source) =
      some ([.mk (.node .identifier) (some .name) 14 15 []], openingTokens.drop 5 ++ source) := rfl
  have hassigned : atSymbol true "=" (openingTokens.drop 5 ++ source) = true := rfl
  have hequals : symbol true "=" (openingTokens.drop 5 ++ source) =
      some (.leaf (.token "=") 16 17, openingTokens.drop 6 ++ source) := rfl
  rw [declaration, get_bind, if_pos hvar, bind_of hword] at h
  obtain ⟨specs, _, hspecs, h⟩ := bind_eq_some.mp h
  obtain ⟨rfl, rfl⟩ := pure_eq_some.mp h
  rw [specifications, looking_bind, hsingle, if_neg Bool.false_ne_true] at hspecs
  obtain ⟨spec, _, hspec, hspecs⟩ := bind_eq_some.mp hspecs
  obtain ⟨rfl, rfl⟩ := pure_eq_some.mp hspecs
  rw [varSpec, bind_of hnames, looking_bind, hassigned, if_pos rfl] at hspec
  obtain ⟨assigned, _, hvalues, hspec⟩ := bind_eq_some.mp hspec
  obtain ⟨rfl, rfl⟩ := pure_eq_some.mp hspec
  rw [values, bind_of hequals] at hvalues
  obtain ⟨list, _, hlist, hvalues⟩ := bind_eq_some.mp hvalues
  obtain ⟨rfl, rfl⟩ := pure_eq_some.mp hvalues
  exact ⟨list, hlist, rfl⟩

/-- The expression is what the parentheses of the only value hold. -/
theorem valueNode_opening {text : String} {node : Tree}
    (h : fileItems (rulesTo (n + 1)) (openingTokens ++ source) = some (items, rest))
    (hrest : AllNewlines rest)
    (hv : Expression.valueNode? (sourceFile text items) = some node) :
    ∃ wrapped us, Phrased wrapped (openingTokens.drop 6 ++ source) us ∧
      wrapped.is .parenthesizedExpression = true ∧ wrapped.items.head? = some node := by
  obtain ⟨d, more, us, hd, rfl⟩ := fileItems_opening h hrest
  obtain ⟨list, hlist, rfl⟩ := topLevel_opening hd
  obtain ⟨first, mid, hfirst, hlist⟩ := bind_eq_some.mp hlist
  obtain ⟨others, _, _, hlist⟩ := bind_eq_some.mp hlist
  obtain ⟨rfl, rfl⟩ := pure_eq_some.mp hlist
  have hphrased := expression_phrased (sound_rulesTo n) hfirst rfl
  refine ⟨first, mid, hphrased, ?_⟩
  simp only [Expression.valueNode?, bind, Option.bind_eq_some_iff] at hv
  obtain ⟨d, hd, spec, hspec, values, hvalues, hv⟩ := hv
  obtain rfl := Option.some.inj hd
  obtain rfl := Option.some.inj hspec
  obtain rfl := Option.some.inj hvalues
  have hchildren :
      ((Tree.node .expressionList (first :: others.flatten)).asRole .value).namedChildren =
        first :: (others.flatten.filter (·.label ≠ .lineBreak)).filter (·.isNamed) := by
    simp only [Tree.namedChildren, Tree.node, Tree.asRole, Tree.children]
    rw [List.filter_cons_of_pos (by simpa using hphrased.label_ne),
      List.filter_cons_of_pos hphrased.named]
  rw [hchildren] at hv
  split at hv
  · next wrapped hone =>
    obtain ⟨rfl, _⟩ := List.cons.inj hone
    split at hv
    · next hparen => exact ⟨hparen, hv⟩
    · simp at hv
  · simp at hv

/-- An expression between parentheses reads what stands between two tokens, the second of which
closes the bracket that the first one opens. -/
theorem parenthesized_reads {opening : Token} {wrapped node : Tree}
    (ho : Ordered (opening :: source)) (hopen : opening.lexeme = .symbol '(')
    (hw : Phrased wrapped (opening :: source) us)
    (hp : wrapped.is .parenthesizedExpression = true) (hn : wrapped.items.head? = some node) :
    ∃ inner newlines closing, source = inner ++ newlines ++ closing :: us ∧ Reads [node] inner ∧
      Balanced inner ∧ AllNewlines newlines ∧ closing.lexeme = .symbol ')' := by
  obtain ⟨own, hown, hr, _⟩ := hw.parsed ho
  obtain ⟨label, role?, start, stop, cs⟩ := wrapped
  obtain rfl : label = .node .parenthesizedExpression := of_decide_eq_true hp
  obtain ⟨hparts, hbalanced, left, inner, right, rfl, hleft, hinner, hright⟩ :=
    hr.children ⟨rfl, .inr (by decide)⟩
  obtain ⟨x, _, rfl, hx, hparts⟩ := hparts.uncons
  obtain ⟨y, z, rfl, hy, hz⟩ := hparts.uncons
  have hnode : node = inner := by
    have hl : left.isNamed = false := by
      simp [Tree.isNamed, Tree.kind?, of_decide_eq_true hleft]
    have hr : right.isNamed = false := by
      simp [Tree.isNamed, Tree.kind?, of_decide_eq_true hright]
    simp only [Tree.items, Tree.namedChildren, Tree.children, List.filter_cons, hl, hinner, hr,
      Bool.false_eq_true, if_false, if_true, List.filter_nil] at hn
    split at hn
    · exact (Option.some.inj hn).symm
    · simp at hn
  obtain ⟨newlines, u, rfl, hblank, _⟩ := hx.ofToken hleft rfl
  obtain ⟨newlines', v, rfl, hblank', hv⟩ := hz.ofToken hright rfl
  obtain ⟨rfl, rfl⟩ : newlines = [] ∧ u = opening := by
    cases newlines with
    | nil => exact ⟨rfl, (List.cons.inj hown).1.symm⟩
    | cons w ws =>
      have := hblank w (List.mem_cons_self ..)
      obtain ⟨rfl, _⟩ := List.cons.inj hown
      simp [hopen] at this
  have hy' := hy.balanced hinner
  have hclosing : v.lexeme = .symbol ')' := by
    refine hv.resolve_right fun hword => ?_
    -- A word would leave the bracket open.
    have hnesting := hbalanced []
    have hleft : nesting [] [u] = some [')'] := by rw [nesting_cons, hopen]; rfl
    have hright : nesting [')'] [v] = some [')'] := by rw [nesting_cons, hword]; rfl
    simp only [List.nil_append, nesting_append, hleft, hy' _, hblank'.balanced _, hright,
      Option.bind_some] at hnesting
    simp at hnesting
  exact ⟨y, newlines', v, by simpa using (List.cons.inj hown).2, hnode ▸ hy, hy', hblank', hclosing⟩

end GoContracts.Syntax.Grammar

namespace GoContracts.Expression

open Syntax Syntax.Grammar

variable {text : String} {e : Expression}

/-- The tokens of a text on its own. -/
def tokens (text : String) : List Token := Token.readFrom 0 text.toList

/-- The characters of a text between the newlines around it. -/
def lined (text : String) : List Char := '\n' :: text.toList ++ ['\n']

/-- The parenthesis that closes the one before the text. -/
def closingToken (text : String) : Token :=
  let pos := 19 + Text.byteLength (lined text)
  ⟨.symbol ')', ")", pos, pos + 1⟩

/-- The tokens of the file behind the parenthesis before the text. -/
def source (text : String) : List Token :=
  Token.readFrom 19 (lined text) ++ [closingToken text, Token.newlineAt (closingToken text).stop]

private theorem readFrom_lined (text : String) :
    Token.readFrom 19 (lined text) = Token.newlineAt 19 :: (Token.readFrom 20 text.toList ++
      [Token.newlineAt (20 + Text.byteLength text.toList)]) := by
  rw [lined, List.cons_append, Token.readFrom_newline,
    Token.readFrom_append 20 text.toList [] (by simp), Token.readFrom_nil]

private theorem readAll_around (text : String) :
    Token.readAll (opening ++ text ++ closing) = openingTokens ++ source text := by
  have hopen : Token.readFrom 0 "package p\nvar _ = (".toList = openingTokens := by
    decide +kernel
  have hclose : ∀ pos, Token.readFrom pos [')', '\n'] =
      [⟨.symbol ')', ")", pos, pos + 1⟩, Token.newlineAt (pos + 1)] := by
    intro pos
    have hscan : Token.scan ')' ['\n'] = (some (.symbol ')'), 0) := by decide +kernel
    rw [Token.readFrom_cons, hscan, List.drop_zero, Token.readFrom_newline, Token.readFrom_nil]
    simp only [Token.front?, hscan]
    rfl
  have htext : (opening ++ text ++ closing).toList =
      "package p\nvar _ = (".toList ++ '\n' :: (text.toList ++ '\n' :: [')', '\n']) := by
    simp [opening, closing]
  have hread : Token.readAll (opening ++ text ++ closing) =
      Token.readFrom 0 (opening ++ text ++ closing).toList := by
    rw [Token.readAll, Text.chars_eq, htext]
    rfl
  have hlength : Text.byteLength (lined text) = 2 + Text.byteLength text.toList := by
    simp only [lined, Text.byteLength_append, Text.byteLength_cons, Text.byteLength_nil]
    change 1 + _ + (1 + 0) = _
    omega
  have hplain : ∀ c ∈ "package p\nvar _ = (".toList, c ∉ Token.marks := fun c hc =>
    of_decide_eq_true (List.all_eq_true.mp
      (show "package p\nvar _ = (".toList.all (fun c => decide (c ∉ Token.marks)) = true by decide)
      c hc)
  rw [hread, htext, Token.readFrom_append _ _ _ fun c hc hmark => absurd hmark (hplain c hc), hopen,
    Token.readFrom_append _ _ _ (by simp [Token.marks]), hclose, source, readFrom_lined,
    closingToken, hlength]
  have hstart : 0 + Text.byteLength "package p\nvar _ = (".toList = 19 := by decide
  have hstop : 19 + (2 + Text.byteLength text.toList) = 20 + Text.byteLength text.toList + 1 := by
    omega
  simp only [hstart, hstop, List.cons_append, List.append_assoc, List.nil_append]

/-! ### Accepted texts -/

/-- The expression of an accepted text reads tokens up to a parenthesis that closes the one before
the text. -/
theorem parse?_reads (h : parse? text = some e) :
    e.file.text = opening ++ text ++ closing ∧ (∀ u ∈ source text, u.lexeme ≠ .comment) ∧
      ∃ inner newlines closing more,
        significant (source text) = inner ++ newlines ++ closing :: more ∧
        Reads [e.node] inner ∧ Balanced inner ∧ AllNewlines newlines ∧
        closing.lexeme = .symbol ')' := by
  unfold parse? at h
  split at h
  · simp at h
  simp only at h
  split at h
  · simp at h
  next hvalid =>
  simp only [Bool.or_eq_true, Bool.not_eq_true', not_or, Bool.not_eq_true,
    Bool.not_eq_false, List.isEmpty_iff] at hvalid
  obtain ⟨hcomplete, hcomments⟩ := hvalid
  obtain ⟨node, hnode, h⟩ := Option.bind_eq_some_iff.mp h
  obtain rfl := Option.some.inj h
  refine ⟨rfl, ?_⟩
  have hread : readSource (opening ++ text ++ closing) =
      ((SourceFile.parse "expr.go" (opening ++ text ++ closing)).tree, true) :=
    Prod.ext rfl (by simpa [SourceFile.parse] using hcomplete)
  obtain ⟨items, rest, hitems, hrest, htree⟩ := readSource_complete hread
  rw [SourceFile.comments, List.filter_eq_nil_iff, htree] at hcomments
  obtain ⟨hnone, hattach⟩ := attach_comments fun u hu => by simpa using hcomments u hu
  rw [htree, hattach] at hnode
  have hsource : significant (openingTokens ++ source text) =
      openingTokens ++ significant (source text) := rfl
  have hordered : Ordered (openingTokens ++ significant (source text)) := by
    rw [← hsource, ← readAll_around]
    exact (Token.ordered_readAll _).sublist (significant_sublist _)
  rw [readAll_around, hsource] at hitems
  rw [readAll_around] at hnone
  refine ⟨fun u hu => hnone u (List.mem_append_right _ hu), ?_⟩
  obtain ⟨wrapped, us, hw, hparen, hitem⟩ := valueNode_opening hitems hrest hnode
  have htail : Ordered (openingTokens.drop 6 ++ significant (source text)) :=
    Ordered.right (a := openingTokens.take 6) hordered
  obtain ⟨inner, newlines, closing, hsplit, hr, hb, hn, hc⟩ :=
    parenthesized_reads htail rfl hw hparen hitem
  exact ⟨inner, newlines, closing, us, hsplit, hr, hb, hn, hc⟩

/-- Newlines and comments are no symbols. -/
private theorem not_symbol (t : Token) (h : isSolid t = false) (c : Char) :
    t.lexeme ≠ .symbol c := by
  intro hc
  simp [isSolid, hc] at h

private theorem filter_isSolid_newlines {newlines : List Token} (h : AllNewlines newlines) :
    newlines.filter isSolid = [] := by
  rw [List.filter_eq_nil_iff]
  intro t ht
  simp [isSolid, h t ht]

/-- Behind the newlines and comments the file has the tokens of the text and the parenthesis. -/
private theorem filter_source (text : String) :
    (source text).filter isSolid =
      (Token.readFrom 20 text.toList).filter isSolid ++ [closingToken text] := by
  rw [source, readFrom_lined]
  simp [List.filter_append, isSolid, Token.newlineAt, closingToken]

private theorem nesting_tokens (text : String) (s : List Char) :
    nesting s (tokens text) = nesting s (Token.readFrom 20 text.toList) := by
  rw [nesting, nesting, tokens, Token.map_lexeme_readFrom 0 20]

private theorem neverOvercloses_tokens (text : String) :
    NeverOvercloses (tokens text) ↔ NeverOvercloses (Token.readFrom 20 text.toList) := by
  rw [NeverOvercloses, NeverOvercloses, tokens, Token.map_lexeme_readFrom 0 20]

/-- The text that a part of the expression covers is the middle of the text between its
newlines. -/
private theorem textOf_eq {t : Tree} {a m b : List Char}
    (hfile : e.file.text = opening ++ text ++ closing) (hcs : lined text = a ++ m ++ b)
    (hstart : t.start = 19 + Text.byteLength a)
    (hstop : t.stop = 19 + Text.byteLength a + Text.byteLength m) :
    e.textOf t = String.ofList m := by
  have htext : opening ++ text ++ closing =
      String.ofList (("package p\nvar _ = (".toList ++ a) ++ m ++ (b ++ [')', '\n'])) := by
    have hparts : ("package p\nvar _ = (".toList ++ a) ++ m ++ (b ++ [')', '\n']) =
        "package p\nvar _ = (".toList ++ lined text ++ [')', '\n'] := by
      rw [hcs]
      simp only [List.append_assoc]
    rw [hparts]
    simp [opening, closing, lined, ← String.toList_inj]
  have hopen : Text.byteLength "package p\nvar _ = (".toList = 19 := by decide
  rw [textOf, SourceFile.textOf, hfile, htext, hstart, hstop, ← hopen, ← Text.byteLength_append]
  exact Text.slice_ofList _ _ _

private theorem stripWhile_lined (text : String) :
    Text.stripWhile Text.isBlank (lined text) = Text.stripWhile Text.isBlank text.toList :=
  Text.stripWhile_append (a := ['\n']) (b := ['\n']) (List.all_eq_true.mp rfl)
    (List.all_eq_true.mp rfl) text.toList

private theorem trim_textOf (text : String) {t : Tree} {m : List Char}
    (h : e.textOf t = String.ofList m) :
    Text.trim (e.textOf t) = Text.trim text ↔
      Text.stripWhile Text.isBlank m = Text.stripWhile Text.isBlank (lined text) := by
  rw [h, Text.trim, Text.trim, String.toList_ofList, stripWhile_lined, String.ofList_inj]

private theorem ordered_source (text : String) : Ordered (source text) := by
  have := Token.ordered_readAll (opening ++ text ++ closing)
  rw [readAll_around] at this
  exact this.right

/-- A token of the file that ends where another one begins that is no newline belongs to the text
or the newlines around it. -/
private theorem mem_lined {u closing : Token} (hu : u ∈ source text) (hc : closing ∈ source text)
    (hsolid : closing.lexeme ≠ .newline) (hle : u.stop ≤ closing.start) :
    u ∈ Token.readFrom 19 (lined text) := by
  have hlast : closing.start ≤ 19 + Text.byteLength (lined text) := by
    rcases List.mem_append.mp hc with hc | hc
    · obtain ⟨a, m, b, hcs, _, hstart, _⟩ := Token.mem_readFrom hc
      rw [hcs, hstart, Text.byteLength_append, Text.byteLength_append]
      omega
    · rcases List.mem_cons.mp hc with rfl | hc
      · exact Nat.le_refl _
      · rw [List.mem_singleton.mp hc] at hsolid
        exact absurd rfl hsolid
  have hpos := (ordered_source text).1 u hu
  rcases List.mem_append.mp hu with hu | hu
  · exact hu
  · have hfirst : 19 + Text.byteLength (lined text) ≤ u.start := by
      rcases List.mem_cons.mp hu with rfl | hu
      · exact Nat.le_refl _
      · rw [List.mem_singleton.mp hu]
        exact Nat.le_succ _
    omega

/-- The expression of an accepted text spans it and all brackets are closed, or the text closes the
parenthesis before it and goes on. -/
private theorem spans_or_overcloses (h : parse? text = some e) :
    (Text.trim (e.textOf e.node) = Text.trim text ∧ Balanced (tokens text)) ∨
      (Text.trim (e.textOf e.node) ≠ Text.trim text ∧ ¬NeverOvercloses (tokens text)) := by
  obtain ⟨hfile, hnone, inner, newlines, closing, more, hsplit, hr, hb, hn, hc⟩ := parse?_reads h
  have hsub := significant_sublist (source text)
  have hordered := (ordered_source text).sublist hsub
  rw [hsplit] at hordered hsub
  have hbefore : ∀ u ∈ inner, u.stop ≤ closing.start := fun u hu =>
    (List.pairwise_append.mp hordered.2).2.2 u (List.mem_append_left _ hu) closing
      (List.mem_cons_self ..)
  have hinner : ∀ u ∈ inner, u ∈ Token.readFrom 19 (lined text) := fun u hu =>
    mem_lined (hsub.subset (by simp [hu])) (hsub.subset (by simp)) (by simp [hc]) (hbefore u hu)
  obtain ⟨a, m, b, hcs, hstart, hstop⟩ := hr.extent hordered.left.left hinner
  obtain ⟨_, ⟨last, hlast, hlaststop⟩, hlower, hupper⟩ := hr.bounds hordered.left.left
  have htrim := trim_textOf text (textOf_eq hfile hcs hstart hstop)
  have hsolid : isSolid closing = true := by simp [isSolid, hc]
  have hfilter : inner.filter isSolid ++ closing :: more.filter isSolid =
      (Token.readFrom 20 text.toList).filter isSolid ++ [closingToken text] := by
    rw [← filter_source, ← filter_significant (source text), hsplit, List.filter_append,
      List.filter_append,
      filter_isSolid_newlines hn, List.append_nil, List.filter_cons_of_pos hsolid]
  rcases List.eq_nil_or_concat (more.filter isSolid) with hnil | ⟨others, z, hmore⟩
  · left
    rw [hnil] at hfilter
    obtain ⟨hown, _⟩ := List.append_inj' hfilter rfl
    refine ⟨htrim.mpr ?_, fun s => ?_⟩
    · have hmem : ∀ u ∈ Token.readFrom 19 (lined text), u.lexeme ≠ .newline → u ∈ inner := by
        intro u hu hnew
        have hcomment := hnone u (List.mem_append_left _ hu)
        rw [readFrom_lined] at hu
        have hu : u ∈ Token.readFrom 20 text.toList := by
          simp only [List.mem_cons, List.mem_append, List.not_mem_nil, or_false] at hu
          rcases hu with rfl | hu | rfl
          · exact absurd rfl hnew
          · exact hu
          · exact absurd rfl hnew
        have hkept : u ∈ inner.filter isSolid := by
          rw [hown]
          exact List.mem_filter.mpr ⟨hu, by simp [isSolid, hnew, hcomment]⟩
        exact (List.mem_filter.mp hkept).1
      obtain ⟨ha, hb⟩ := isBlank_of_outside 19 hcs
        (fun u hu hnew => hstart ▸ hlower u (hmem u hu hnew) hnew)
        (fun u hu hnew => hstop ▸ hupper u (hmem u hu hnew))
      rw [hcs, Text.stripWhile_append ha hb]
    · rw [nesting_tokens, ← nesting_filter not_symbol, ← hown, nesting_filter not_symbol, hb s]
  · right
    have hown : (Token.readFrom 20 text.toList).filter isSolid =
        inner.filter isSolid ++ closing :: others := by
      rw [hmore, List.concat_eq_append, ← List.cons_append, ← List.append_assoc] at hfilter
      exact (List.append_inj' hfilter rfl).1.symm
    refine ⟨fun heq => ?_, fun hnever => ?_⟩
    · have hclosing : closing ∈ Token.readFrom 19 (lined text) := by
        have hkept : closing ∈ (Token.readFrom 20 text.toList).filter isSolid := by simp [hown]
        rw [readFrom_lined]
        simp [(List.mem_filter.mp hkept).1]
      obtain ⟨x, _, y, hxy, _, hx, _, hchar⟩ := Token.mem_readFrom hclosing
      obtain rfl := hchar ')' hc
      have hle := hbefore last hlast
      obtain ⟨middle, _, hbehind⟩ := Text.exists_middle (a := a ++ m) (b := b) (c := x)
        (d := [')'] ++ y) (by rw [← hcs, hxy, List.append_assoc]) (by
          rw [Text.byteLength_append]
          omega)
      have hcount := congrArg (List.countP (!Text.isBlank ·)) (htrim.mp heq)
      have hparen : Text.isBlank ')' = false := by decide
      rw [Text.countP_stripWhile, Text.countP_stripWhile, hcs, hbehind] at hcount
      simp [List.countP_append, hparen] at hcount
      omega
    · refine Balanced.not_neverOvercloses (a := inner.filter isSolid) (b := others) (t := closing)
        (fun s => ?_) (by rw [hc]; rfl) (by rw [hc]; rfl) ?_
      · rw [nesting_filter not_symbol, hb s]
      · rw [← hown]
        exact ((neverOvercloses_tokens text).mp hnever).filter not_symbol

/-- An accepted text is one expression, spanned by its node and with all brackets closed, exactly if
it closes no bracket that it has not opened. -/
theorem spans_iff_neverOvercloses (h : parse? text = some e) :
    (Text.trim (e.textOf e.node) = Text.trim text ↔ NeverOvercloses (tokens text)) ∧
      (Balanced (tokens text) ↔ NeverOvercloses (tokens text)) := by
  rcases spans_or_overcloses h with ⟨hspans, hbalanced⟩ | ⟨hspans, hover⟩
  · have hnever := hbalanced.neverOvercloses
    exact ⟨iff_of_true hspans hnever, iff_of_true hbalanced hnever⟩
  · exact ⟨iff_of_false hspans hover, iff_of_false (fun hb => hover hb.neverOvercloses) hover⟩

/-- A text that closes the parenthesis before it and opens another one. -/
def reopening : String := "x)\ntype T int\nvar _ = (y"

/-- A text that closes a parenthesis which it did not open. -/
theorem spans_iff_neverOvercloses_reopening :
    ∃ e, parse? reopening = some e ∧
      (Text.trim (e.textOf e.node) = Text.trim reopening ↔ NeverOvercloses (tokens reopening)) ∧
      (Balanced (tokens reopening) ↔ NeverOvercloses (tokens reopening)) := by
  have hvalid : (parse? reopening).isSome = true := by decide +kernel
  obtain ⟨e, he⟩ := Option.isSome_iff_exists.mp hvalid
  exact ⟨e, he, spans_iff_neverOvercloses he⟩

/-- The text is accepted with its first operand for the whole, and a declaration follows that. -/
theorem parse?_accepts_reopening :
    ¬∀ text e, parse? text = some e →
      Text.trim (e.textOf e.node) = Text.trim text ∧ Balanced (tokens text) := by
  intro h
  have hfirst : (parse? reopening).map (fun e => e.textOf e.node) = some "x" := by decide +kernel
  obtain ⟨e, he, hnode⟩ := Option.map_eq_some_iff.mp hfirst
  have hspans := (h reopening e he).1
  rw [hnode] at hspans
  exact absurd hspans (by decide +kernel)

end GoContracts.Expression

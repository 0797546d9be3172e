import GoContracts.Proofs.Lists
import GoContracts.Proofs.Syntax.Grammar.HeaderReading
import GoContracts.Proofs.Syntax.Grammar.ImportLists
import GoContracts.Proofs.Syntax.Grammar.SpecFreeStatements
import GoContracts.Proofs.Syntax.Layout

/-!
# Imports of files

The imports of a file are those of its header: what stands behind the header declares none. Reading
a header gives the items that its tokens spell, and a header that tokens spell is read.
-/

namespace GoContracts

open Syntax (Kind Label Token Tree Ordered AllNewlines specFree specFree_cons
  specFree_leaf specFree_nil)
open Syntax.Tree (attachAll)

namespace Syntax.Grammar

open Import (Spread Specs Declaration Item Header)

variable {text : String} {ts mid rest own : List Token} {items : List Tree} {t : Tree}
  {is : List Import} {n : Nat}

/-! ### Items of a header -/

/-- The tokens spell an item of a header, for which the tree stands. In a list of imports
other import specs may stand. -/
structure Heads (text : String) (own : List Token) (t : Tree) : Prop where
  item : Item own (importsIn text [t])
  stop : ∃ last, own.getLast? = some last ∧ isSolid last = true ∧ t.stop = last.stop
  list : ∀ l ∈ t.children, l.label = .node .importSpecList → ∃ front body closing,
    own = front ++ (body ++ [closing]) ∧ closing.lexeme = .symbol ')' ∧ l.stop = closing.stop ∧
      front.getLast?.any isSolid = true ∧ Specs body (importsIn text [t]) ∧
      ∀ body' closing' is, Specs body' is → closing'.lexeme = .symbol ')' →
        Item (front ++ (body' ++ [closing'])) is

private theorem packageClause_heads (h : packageClause ts = some (t, rest)) :
    ∃ own, ts = own ++ rest ∧ Heads text own t := by
  simp only [packageClause, bind_eq_some, pure_eq_some] at h
  obtain ⟨_, _, hkeyword, _, _, hread, rfl, rfl⟩ := h
  obtain ⟨newlines, word, hn, rfl, hword, rfl⟩ := keyword_eq_some.mp hkeyword
  obtain ⟨newlines', name, hn', rfl, hname, rfl⟩ := (lexeme_eq_some (by decide)).mp hread
  have hsolid : isSolid word = true := by
    simp only [Token.isWord, Bool.and_eq_true, decide_eq_true_eq] at hword
    simp [isSolid, hword.1]
  have hown : Spread (newlines ++ word :: (newlines' ++ [name])) [word, name] :=
    .cons hn hsolid (.cons hn' (by simp [isSolid, hname]) .nil)
  have hfree : specFree [Tree.leaf (.token "package") word.start word.stop,
      Tree.leaf (.node .packageIdentifier) name.start name.stop] := by
    simpa using ⟨specFree_leaf (by simp), specFree_leaf (by simp)⟩
  refine ⟨_, by simp, ⟨?_, ⟨name, hown.getLast?, by simp [isSolid, hname], rfl⟩, ?_⟩⟩
  · rw [importsIn_node (by decide) (by simp [Tree.leaf, Tree.label]), importsIn_of_specFree hfree]
    exact .clause hown hword hname
  · intro l hl hlabel
    rw [Tree.node, Tree.children] at hl
    obtain rfl | rfl := List.mem_pair.mp (List.mem_of_mem_filter hl) <;> cases hlabel

/-- An import declaration is read as its tokens spell it. -/
theorem importDeclaration_heads (h : importDeclaration ts = some (t, rest))
    (htext : Faithful text ts) : ∃ own, ts = own ++ rest ∧ Heads text own t := by
  simp only [importDeclaration, bind_eq_some, pure_eq_some] at h
  obtain ⟨_, ts₁, hkeyword, parts, ts₂, hparts, rfl, rfl⟩ := h
  obtain ⟨newlines, word, hn, rfl, hword, rfl⟩ := keyword_eq_some.mp hkeyword
  have hsolid : isSolid word = true := by
    simp only [Token.isWord, Bool.and_eq_true, decide_eq_true_eq] at hword
    simp [isSolid, hword.1]
  have htext₁ : Faithful text ts₁ := fun u hu => htext u (by simp [hu])
  rw [specifications, looking_bind] at hparts
  split at hparts
  · simp only [bind_eq_some, pure_eq_some] at hparts
    obtain ⟨_, us, hopening, specs, vs, hspecs, _, ws, hclosing, rfl, rfl⟩ := hparts
    obtain ⟨newlines₁, opening, hn₁, rfl, ho, rfl⟩ := (symbol_eq_some (c := '(') rfl).mp hopening
    obtain ⟨newlines₂, closing, hn₂, rfl, hc, rfl⟩ := (symbol_eq_some (c := ')') rfl).mp hclosing
    obtain ⟨⟨body, rfl, hbody⟩, hbreaks⟩ :=
      specList_spells hspecs fun u hu => htext₁ u (by simp [hu])
    have ho : opening.lexeme = .symbol '(' := of_decide_eq_true ho
    have hc : closing.lexeme = .symbol ')' := of_decide_eq_true hc
    have hfront : Spread (newlines ++ word :: (newlines₁ ++ [opening])) [word, opening] :=
      .cons hn hsolid (.cons hn₁ (by simp [isSolid, ho]) .nil)
    have hstop : (Tree.node .importSpecList (Tree.leaf (.token "(") opening.start opening.stop ::
        specs ++ [Tree.leaf (.token ")") closing.start closing.stop])).stop = closing.stop := by
      rw [Tree.node, Tree.stop, List.getLast?_concat]
      rfl
    have hput : ∀ body' closing' is, Specs body' is → closing'.lexeme = .symbol ')' →
        Item (newlines ++ word :: (newlines₁ ++ [opening]) ++ (body' ++ [closing'])) is :=
      fun body' closing' is hbody' hc' => .declaration (.list hfront hword ho hbody' hc')
    refine ⟨newlines ++ word :: (newlines₁ ++ [opening]) ++ (body ++ newlines₂ ++ [closing]),
      by simp, ⟨?_, ⟨closing, ?_, by simp [isSolid, hc], hstop⟩, ?_⟩⟩
    · rw [importsIn_list hbreaks]
      exact hput _ _ _ (hbody.trailed hn₂) hc
    · rw [List.getLast?_append, List.getLast?_concat]
      rfl
    · intro l hl hlist
      rw [Tree.node, Tree.children] at hl
      rcases List.mem_cons.mp (List.mem_of_mem_filter hl) with rfl | hmem
      · cases hlist
      · obtain rfl := List.mem_singleton.mp hmem
        refine ⟨_, _, closing, rfl, hc, hstop, ?_, ?_, hput⟩
        · rw [hfront.getLast?]
          simp [isSolid, ho]
        · rw [importsIn_list hbreaks]
          exact hbody.trailed hn₂
  · simp only [bind_eq_some, pure_eq_some] at hparts
    obtain ⟨spec, ts₃, hspec, rfl, rfl⟩ := hparts
    obtain ⟨own, i, last, rfl, ⟨us, hus, hi⟩, himport, hlast, hstop⟩ :=
      importSpec_spells hspec htext₁
    have hlabel := label_importSpec hspec
    have hown : Spread (newlines ++ word :: own) (word :: us) := .cons hn hsolid hus
    refine ⟨newlines ++ word :: own, by simp,
      ⟨?_, ⟨last, ?_, hus.isSolid_of_getLast? hlast, ?_⟩, ?_⟩⟩
    · rw [importsIn_single hlabel, himport]
      exact .declaration (.single hown hword hi)
    · rw [List.getLast?_append, List.getLast?_cons, hlast]
      rfl
    · rw [← hstop]
      rfl
    · intro l hl hlist
      rw [Tree.node, Tree.children] at hl
      rcases List.mem_cons.mp (List.mem_of_mem_filter hl) with rfl | hmem
      · cases hlist
      · rw [List.mem_singleton.mp hmem, hlabel] at hlist
        cases hlist

/-- A package clause or an import declaration of a file is read as its tokens spell it. -/
theorem topLevel_heads (h : topLevel (rulesTo n) ts = some (t, rest))
    (ht : t.is .packageClause ∨ t.is .importDeclaration) (htext : Faithful text ts) :
    ∃ own, ts = own ++ rest ∧ Heads text own t := by
  rcases topLevel_cases h with ⟨_, h⟩ | ⟨_, _, h⟩ | hother
  · exact packageClause_heads h
  · exact importDeclaration_heads h htext
  · rcases ht with ht | ht
    · exact absurd (of_decide_eq_true ht) hother.2
    · exact absurd (of_decide_eq_true ht) hother.1

/-- Tokens that spell an item of a header are read, whatever stands behind them. -/
theorem exists_topLevel (h : Item own is) (htext : Faithful text (own ++ rest)) :
    ∃ t, topLevel (rulesTo n) (own ++ rest) = some (t, rest) ∧ importsIn text [t] = is ∧
      atEnd (own ++ rest) = false := by
  suffices hread : ∃ t, topLevel (rulesTo n) (own ++ rest) = some (t, rest) ∧
      importsIn text [t] = is ∧ ∃ u more, afterNewlines (own ++ rest) = u :: more by
    obtain ⟨t, ht, himports, u, more, hfirst⟩ := hread
    exact ⟨t, ht, himports, by rw [atEnd, hfirst]; rfl⟩
  cases h with
  | @clause word name hown hword hname =>
    obtain ⟨newlines, more, _, rfl, hmore, hfirst⟩ := afterNewlines_spread hown rest
    obtain ⟨newlines', more, _, rfl, hmore, hnext⟩ := afterNewlines_spread hmore rest
    cases hmore
    have hread : packageClause (newlines ++ word :: (newlines' ++ [name]) ++ rest) = some
        (.node .packageClause [.leaf (.token "package") word.start word.stop,
          .leaf (.node .packageIdentifier) name.start name.stop], rest) := by
      refine (bind_of ((keyword_eq hfirst).trans (if_pos hword))).trans (bind_of ?_)
      exact (lexeme_eq hnext).trans (if_pos hname)
    have hfree : specFree [Tree.leaf (.token "package") word.start word.stop,
        Tree.leaf (.node .packageIdentifier) name.start name.stop] := by
      simpa using ⟨specFree_leaf (by simp), specFree_leaf (by simp)⟩
    rw [topLevel, get_bind, if_pos ((atWord_eq hfirst).trans hword)]
    refine ⟨_, hread, ?_, _, _, hfirst⟩
    rw [importsIn_node (by decide) (by simp [Tree.leaf, Tree.label]), importsIn_of_specFree hfree]
  | declaration h =>
    have himport : ∀ {word : Token} {more : List Token}, word.IsImport →
        afterNewlines (own ++ rest) = word :: more →
        topLevel (rulesTo n) (own ++ rest) = importDeclaration (own ++ rest) := by
      intro word more hword hfirst
      have hpackage : atWord true "package" (own ++ rest) = false := by
        rw [atWord_eq hfirst]
        simp only [Token.IsImport, Token.isWord, Bool.and_eq_true, decide_eq_true_eq] at hword
        simp [Token.isWord, hword.2]
      rw [topLevel, get_bind, if_neg (by simp [hpackage]), if_pos ((atWord_eq hfirst).trans hword)]
    cases h with
    | @single _ us word i hown hword hspec =>
      obtain ⟨newlines, more, _, rfl, hmore, hfirst⟩ := afterNewlines_spread hown rest
      rw [himport hword hfirst]
      have htextMore : Faithful text (more ++ rest) := fun u hu => htext u (by simp_all)
      obtain ⟨spec, hread, himports⟩ := exists_importSpec ⟨us, hmore, hspec⟩ htextMore
      have hopening := atSymbol_spec ⟨us, hmore, hspec⟩ rest (c := '(') (s := "(") rfl (by decide)
      have hparts : specifications (fun specs => [.node .importSpecList specs]) importSpec
          (more ++ rest) = some ([spec], rest) := by
        rw [specifications, looking_bind, if_neg (by simp [hopening])]
        exact bind_of hread
      refine ⟨_, bind_of ((keyword_eq hfirst).trans (if_pos hword)) |>.trans
        (bind_of hparts), ?_, _,
        _, hfirst⟩
      exact (importsIn_single (label_importSpec hread)).trans himports
    | @list front body word opening closing is hfront hword ho hbody hc =>
      have hassoc : front ++ (body ++ [closing]) ++ rest = front ++ (body ++ closing :: rest) := by
        simp
      rw [hassoc] at himport htext ⊢
      obtain ⟨newlines, more, _, rfl, hmore, hfirst⟩ :=
        afterNewlines_spread hfront (body ++ closing :: rest)
      rw [himport hword hfirst]
      obtain ⟨newlines', more, _, rfl, hmore, hnext⟩ :=
        afterNewlines_spread hmore (body ++ closing :: rest)
      cases hmore
      have htextBody : Faithful text (body ++ closing :: rest) := htext.right
      obtain ⟨specs, newlines₂, hspecs, hnewlines, himports, hbreaks⟩ :=
        exists_specList hc hbody htextBody
      have hopening : opening.isSymbolOf '(' = true := decide_eq_true ho
      have hclosing : afterNewlines (newlines₂ ++ closing :: rest) = closing :: rest :=
        afterNewlines_eq_cons.mpr ⟨newlines₂, hnewlines, rfl, by simp [hc]⟩
      have hparts : specifications (fun specs => [.node .importSpecList specs]) importSpec
          (newlines' ++ [opening] ++ (body ++ closing :: rest)) =
          some ([.node .importSpecList (.leaf (.token "(") opening.start opening.stop :: specs ++
            [.leaf (.token ")") closing.start closing.stop])], rest) := by
        rw [specifications, looking_bind, if_pos ((atSymbol_eq hnext rfl).trans hopening)]
        refine (bind_of ((symbol_eq hnext rfl).trans (if_pos hopening))).trans ?_
        refine (bind_of hspecs).trans (bind_of ?_)
        exact (symbol_eq hclosing rfl).trans (if_pos (decide_eq_true hc))
      refine ⟨_, bind_of ((keyword_eq hfirst).trans (if_pos hword)) |>.trans
        (bind_of hparts), ?_, _,
        _, hfirst⟩
      exact (importsIn_list hbreaks).trans himports

/-! ### Items in turn -/

/-- The parts of an item with its terminator: the tokens of the item, and what is behind it. -/
theorem fileItem_spells {group : List Tree} (h : fileItem (rulesTo n) ts = some (some group, rest))
    (ho : Ordered ts) : ∃ t stops own mid, group = t :: stops ∧ ts = own ++ mid ∧
      topLevel (rulesTo n) ts = some (t, mid) ∧ Reads [t] own ∧ t.isNamed = true ∧
      specFree stops ∧ (∀ stop ∈ stops, stop.isNamed = false) ∧
      ((∃ m, mid = m :: rest ∧ m.IsTerminator) ∨ mid = [] ∧ rest = []) := by
  rcases fileItem_cases h with ⟨hnone, _⟩ | ⟨t, _, mid, hsome, hitem, hended⟩
  · simp at hnone
  obtain rfl := Option.some.inj hsome
  have hphrased := topLevel_phrased (sound_rulesTo n) hitem
  obtain ⟨own, hown, hreads, _⟩ := hphrased.parsed ho
  obtain ⟨stops, rfl, hfree, hstop⟩ := ended_spells hended
  obtain ⟨_, _, hgroup, hnamed⟩ := ended_cases hended
  obtain ⟨_, rfl⟩ := List.cons.inj hgroup
  refine ⟨t, stops, own, mid, rfl, hown, hitem, hreads, hphrased.named, hfree, hnamed, ?_⟩
  rcases hstop with hstop | ⟨rfl, hend, hnone⟩
  · exact .inl hstop
  · -- Only newlines stand where a file ends, and each of them would be a terminator.
    cases mid with
    | nil => exact .inr ⟨rfl, rfl⟩
    | cons m more =>
      exact absurd (.inl (allNewlines_of_atEnd hend m (List.mem_cons_self ..))) (hnone m rfl)

/-- What ends a line holds no import specs. -/
theorem specFree_of_lineBreak (h : fileItems (rulesTo n) ts = some (items, rest))
    (ho : Ordered ts) : ∀ p ∈ items, p.label = .lineBreak → specFree p := by
  obtain ⟨groups, _, hgroups, h⟩ := bind_eq_some.mp h
  obtain ⟨rfl, _⟩ := pure_eq_some.mp h
  refine gather_induction (P := fun groups ts _ => Ordered ts →
    ∀ p ∈ groups.flatten, p.label = .lineBreak → specFree p) hgroups (by simp) (by simp)
    (fun group groups ts mid rest h ih ho p hp hl => ?_) ho
  obtain ⟨t, stops, own, mid', rfl, rfl, _, _, hnamed, hfree, _, hmid⟩ := fileItem_spells h ho
  rw [List.flatten_cons, List.cons_append, List.mem_cons, List.mem_append] at hp
  rcases hp with rfl | hp | hp
  · simp [Tree.isNamed, Tree.kind?, hl] at hnamed
  · exact hfree p hp
  · refine ih ?_ p hp hl
    rcases hmid with ⟨m, rfl, _⟩ | ⟨rfl, rfl⟩
    · exact (List.append_cons own m mid ▸ ho).right
    · exact ho.right

private theorem length_pos_of_not_atEnd (h : atEnd ts = false) : 0 < ts.length := by
  cases ts with
  | nil => simp [atEnd, afterNewlines] at h
  | cons => simp

/-- An item that can be read is the first one of a file. -/
theorem gather_fileItem {group : List Tree} {groups : List (List Tree)} {last : List Token}
    {k : Nat}
    (hopen : atEnd ts = false) (ht : topLevel (rulesTo n) ts = some (t, mid))
    (hended : ended atEnd t mid = some (group, rest))
    (hgroups : gather.go (fileItem (rulesTo n)) (k + 1) ts = some (groups, last)) :
    ∃ more, groups = group :: more ∧
      gather.go (fileItem (rulesTo n)) k rest = some (more, last) := by
  have hitem : fileItem (rulesTo n) ts = some (some group, rest) := by
    rw [fileItem, looking_bind, if_neg (by simp [hopen])]
    exact optional_eq_some.mpr (.inl ⟨group, rfl, (bind_of ht).trans hended⟩)
  rcases gather_go_cases hgroups with ⟨hnone, _⟩ | ⟨_, more, _, hsome, hmore, rfl⟩
  · simp [hitem] at hnone
  · rw [hitem] at hsome
    obtain ⟨hgroup, rfl⟩ := Prod.mk.inj (Option.some.inj hsome)
    obtain rfl := Option.some.inj hgroup
    exact ⟨more, rfl, hmore⟩

/-- Tokens without the word `import` give no imports. -/
theorem specFree_gather {groups : List (List Tree)} {k : Nat}
    (h : gather.go (fileItem (rulesTo n)) k ts = some (groups, rest)) (ho : Ordered ts)
    (hwords : ∀ u ∈ ts, ¬u.IsImport) : specFree groups.flatten := by
  refine gather_go_induction (P := fun groups ts _ => Ordered ts → (∀ u ∈ ts, ¬u.IsImport) →
    specFree groups.flatten) h (by simp) (by simp)
    (fun group groups ts mid rest h ih ho hwords => ?_) ho hwords
  obtain ⟨t, stops, own, mid', rfl, rfl, hitem, _, _, hfree, _, hmid⟩ := fileItem_spells h ho
  have ht : specFree t := by
    refine (topLevel_specFree hitem).resolve_right fun himport => ?_
    simp only [importDeclaration, bind_eq_some] at himport
    obtain ⟨_, _, hkeyword, _⟩ := himport
    obtain ⟨newlines, word, _, hts, hword, _⟩ := keyword_eq_some.mp hkeyword
    exact hwords word (by rw [hts]; simp) hword
  have hrest : Ordered mid ∧ ∀ u ∈ mid, ¬u.IsImport := by
    rcases hmid with ⟨m, rfl, _⟩ | ⟨rfl, rfl⟩
    · exact ⟨(List.append_cons own m mid ▸ ho).right, fun u hu => hwords u (by simp [hu])⟩
    · exact ⟨ho.right, by simp⟩
  rw [List.flatten_cons, List.cons_append, specFree_cons, specFree_append]
  exact ⟨ht, hfree, ih hrest.1 hrest.2⟩

/-- A file has the imports of the header that its tokens spell. -/
theorem importsIn_gather {iss : List (List Import)} (h : Header Item iss ts) (ho : Ordered ts)
    (htext : Faithful text ts) {k : Nat} (hk : ts.length ≤ k) {groups : List (List Tree)}
    (hgroups : gather.go (fileItem (rulesTo n)) k ts = some (groups, rest)) :
    importsIn text groups.flatten = iss.flatten := by
  induction h generalizing k groups with
  | rest hwords => exact importsIn_of_specFree (specFree_gather hgroups ho hwords)
  | @last own is hitem =>
    have hown := List.append_nil own
    obtain ⟨t, ht, himports, hopen⟩ : ∃ t, topLevel (rulesTo n) (own ++ []) = some (t, []) ∧
        importsIn text [t] = is ∧ atEnd (own ++ []) = false :=
      exists_topLevel hitem (hown.symm ▸ htext)
    rw [hown] at ht hopen
    have hpos := length_pos_of_not_atEnd hopen
    obtain ⟨k, rfl⟩ : ∃ j, k = j + 1 := ⟨k - 1, by omega⟩
    obtain ⟨more, rfl, hmore⟩ :=
      gather_fileItem hopen ht (ended_of_atEnd (by simp) rfl t) hgroups
    have hfree := specFree_gather hmore (by simp [Ordered]) (by simp)
    rw [List.flatten_cons, importsIn_group specFree_nil, himports, importsIn_of_specFree hfree]
    rfl
  | @item own ts m is iss hitem hm _ ih =>
    obtain ⟨t, ht, himports, hopen⟩ := exists_topLevel (n := n) hitem htext
    obtain ⟨stop, hended, hfree⟩ := exists_ended atEnd hm t ts
    rw [List.length_append, List.length_cons] at hk
    obtain ⟨k, rfl⟩ : ∃ j, k = j + 1 := ⟨k - 1, by omega⟩
    obtain ⟨more, rfl, hmore⟩ := gather_fileItem hopen ht hended hgroups
    rw [List.append_cons] at ho htext
    rw [List.flatten_cons, importsIn_group (by simpa using hfree), himports,
      ih ho.right htext.right (by omega) hmore]
    rfl

/-- Whether the tree is a declaration or a statement. -/
def IsDeclared (t : Tree) : Bool := t.isNamed && !t.isComment

private theorem Heads.ne_nil (h : Heads text own t) : own ≠ [] := by
  obtain ⟨last, hlast, _⟩ := h.stop
  rintro rfl
  simp at hlast

private theorem header_nil {ds : List Tree} (h : Header (Heads text) ds []) : ds = [] := by
  generalize hts : ([] : List Token) = ts at h
  cases h with
  | rest => rfl
  | last hd => exact absurd hts.symm hd.ne_nil
  | item => simp at hts

/-- If a file begins with the package clause and import declarations, and nothing else has the word
`import`, its tokens spell them. -/
theorem header_gather {groups : List (List Tree)} {k : Nat}
    (h : gather.go (fileItem (rulesTo n)) k ts = some (groups, rest)) (ho : Ordered ts)
    (htext : Faithful text ts) {ds others : List Tree}
    (hnamed : groups.flatten.filter IsDeclared = ds ++ others)
    (hds : ∀ d ∈ ds, d.is .packageClause ∨ d.is .importDeclaration)
    (hwords : ∀ u ∈ ts, u.IsImport → ∃ d ∈ ds, d.start = u.start) :
    Header (Heads text) ds ts := by
  refine gather_go_induction (P := fun groups ts _ => ∀ ds others, Ordered ts → Faithful text ts →
    groups.flatten.filter IsDeclared = ds ++ others →
    (∀ d ∈ ds, d.is .packageClause ∨ d.is .importDeclaration) →
    (∀ u ∈ ts, u.IsImport → ∃ d ∈ ds, d.start = u.start) → Header (Heads text) ds ts) h
    (fun ts ds others _ _ hnamed _ hwords => ?_) (fun ts rest _ ds others _ _ hnamed _ hwords => ?_)
    (fun group groups ts mid rest h ih ds others ho htext hnamed hds hwords => ?_)
    ds others ho htext hnamed hds hwords
  · obtain ⟨rfl, _⟩ := List.append_eq_nil_iff.mp hnamed.symm
    exact .rest fun u hu himport => by simpa using hwords u hu himport
  · obtain ⟨rfl, _⟩ := List.append_eq_nil_iff.mp hnamed.symm
    exact .rest fun u hu himport => by simpa using hwords u hu himport
  cases ds with
  | nil => exact .rest fun u hu himport => by simpa using hwords u hu himport
  | cons d ds =>
    obtain ⟨t, stops, own, mid', rfl, rfl, hitem, hreads, htnamed, _, hstops, hmid⟩ :=
      fileItem_spells h ho
    have htdeclared : IsDeclared t = true := by
      simp [IsDeclared, htnamed, hreads.isComment_eq_false t (List.mem_cons_self ..)]
    have hnone : stops.filter IsDeclared = [] := by
      rw [List.filter_eq_nil_iff]
      intro stop hstop
      simp [IsDeclared, hstops stop hstop]
    rw [List.flatten_cons, List.cons_append, List.filter_cons_of_pos htdeclared, List.filter_append,
      hnone, List.nil_append, List.cons_append] at hnamed
    obtain ⟨rfl, hmore⟩ := List.cons.inj hnamed
    obtain ⟨hd, hds⟩ := List.forall_mem_cons.mp hds
    have hheads : Heads text own t := by
      obtain ⟨own', hown, hheads⟩ := topLevel_heads hitem hd htext
      obtain rfl := List.append_cancel_right hown
      exact hheads
    obtain ⟨_, first, _, hfirst, _, _, hstart⟩ := hreads.start_eq
    have hfirst : first ∈ own := by simp [hfirst]
    have hlater : ∀ u ∈ mid', u.IsImport → ∃ d ∈ ds, d.start = u.start := by
      intro u hu himport
      obtain ⟨d, hd, hdstart⟩ := hwords u (List.mem_append_right own hu) himport
      rcases List.mem_cons.mp hd with rfl | hd
      · have hlt := ho.start_lt hfirst hu
        omega
      · exact ⟨d, hd, hdstart⟩
    rcases hmid with ⟨m, rfl, hm⟩ | ⟨rfl, rfl⟩
    · rw [List.append_cons] at ho htext
      exact .item hheads hm (ih ds others ho.right htext.right hmore hds fun u hu =>
        hlater u (List.mem_cons_of_mem m hu))
    · rw [header_nil (ih ds others ho.right htext.right hmore hds hlater), List.append_nil]
      exact .last hheads

/-! ### Trees with comments -/

/-- Whether the tree is another one with comments among its children. -/
def IsCommented (t u : Tree) : Prop :=
  t.label = u.label ∧ t.start = u.start ∧ t.stop = u.stop ∧
    ∃ few, (∀ c ∈ few, IsLeafComment c) ∧ t.children = attachAll u.children few

/-- The nodes of some labels among trees with comments are those of the trees, with comments in
them. -/
theorem forall₂_attachAll {p : Tree → Bool} (hp : ∀ t u : Tree, t.label = u.label → p t = p u)
    (hnone : ∀ c, IsLeafComment c → p c = false) (trees : List Tree) {comments : List Tree}
    (hc : ∀ c ∈ comments, IsLeafComment c) :
    List.Forall₂ IsCommented ((attachAll trees comments).filter p) (trees.filter p) := by
  have hnone : ∀ few : List Tree, (∀ c ∈ few, IsLeafComment c) → few.filter p = [] := by
    intro few hfew
    rw [List.filter_eq_nil_iff]
    intro c hmem
    simp [hnone c (hfew c hmem)]
  induction trees generalizing comments with
  | nil =>
    rw [attachAll, hnone _ hc]
    exact .nil
  | cons t trees ih =>
    have hfew : ∀ p : Tree → Bool, ∀ c ∈ comments.filter p, IsLeafComment c :=
      fun p c hmem => hc c (List.mem_of_mem_filter hmem)
    cases t with
    | mk label role? start stop children =>
      rw [Tree.attachAll_cons, List.filter_append, hnone _ (hfew _), List.nil_append]
      have hsame : ∀ children', p (.mk label role? start stop children') =
          p (.mk label role? start stop children) := fun _ => hp _ _ rfl
      cases ht : p (.mk label role? start stop children) with
      | true =>
        rw [List.filter_cons_of_pos ((hsame _).trans ht), List.filter_cons_of_pos ht]
        exact .cons ⟨rfl, rfl, rfl, _, hfew _, rfl⟩ (ih (hfew _))
      | false =>
        rw [List.filter_cons_of_neg (by simp [hsame, ht]), List.filter_cons_of_neg (by simp [ht])]
        exact ih (hfew _)

private theorem isLeafComment_of_mem {tokens : List Token} {c : Tree} (h : c ∈ comments tokens) :
    IsLeafComment c := by
  obtain ⟨u, _, rfl⟩ := List.mem_map.mp h
  exact ⟨u.start, u.stop, rfl⟩

private theorem faithful_significant (text : String) :
    Faithful text (significant (Token.readAll text)) :=
  fun _ hu => (Token.text_eq ((significant_sublist _).subset hu)).symm

/-- A loop over steps that are never refused is not refused. -/
theorem exists_gather {α : Type} {step : Reader (Option α)}
    (h : ∀ ts, ∃ o rest, step ts = some (o, rest)) (ts : List Token) :
    ∃ as rest, gather step ts = some (as, rest) := by
  unfold gather
  generalize ts.length = n
  induction n generalizing ts with
  | zero => exact ⟨[], ts, rfl⟩
  | succ n ih =>
    obtain ⟨o, mid, ho⟩ := h ts
    cases o with
    | none => exact ⟨[], mid, gather_go_none ho⟩
    | some a =>
      obtain ⟨as, rest, has⟩ := ih mid
      exact ⟨a :: as, rest, gather_go_item ho has⟩

/-- A file is read up to the first text that fits no rule. -/
theorem exists_groups (n : Nat) (ts : List Token) :
    ∃ groups rest, gather (fileItem (rulesTo n)) ts = some (groups, rest) := by
  refine exists_gather (fun ts => ?_) ts
  rw [fileItem, looking_bind]
  split
  · exact ⟨none, ts, rfl⟩
  · cases hread : (do
        let t ← topLevel (rulesTo n)
        ended atEnd t : Reader (List Tree)) ts with
    | none => exact ⟨none, ts, optional_eq_some.mpr (.inr ⟨hread, rfl, rfl⟩)⟩
    | some result =>
      exact ⟨some result.1, result.2, optional_eq_some.mpr (.inl ⟨result.1, rfl, hread⟩)⟩

/-- The tree of a text is made of items that the grammar takes from its tokens. -/
theorem readSource_groups (text : String) : ∃ n groups rest,
    gather (fileItem (rulesTo n)) (significant (Token.readAll text)) = some (groups, rest) ∧
      (readSource text).1 =
        (sourceFile text groups.flatten).attach (comments (Token.readAll text)) := by
  obtain ⟨groups, rest, hgroups⟩ := exists_groups
    (8 * (significant (Token.readAll text)).length + 16) (significant (Token.readAll text))
  have hitems : fileItems (rulesTo (8 * (significant (Token.readAll text)).length + 16))
      (significant (Token.readAll text)) = some (groups.flatten, rest) := bind_of hgroups
  refine ⟨_, groups, rest, hgroups, ?_⟩
  unfold readSource
  simp only [StateT.run, hitems]

end Syntax.Grammar

/-! ### Files -/

open Syntax.Grammar
open Import (Item Header)

namespace SourceFile

variable {path text : String}

/-- Whether each word `import` of a file begins an import declaration, as a keyword does. -/
def KeywordImport (file : SourceFile) : Prop :=
  ∀ u ∈ Token.readAll file.text, u.IsImport → ∃ d ∈ file.importDeclarations, d.start = u.start

/-- Whether a file is a package clause, import declarations and then other declarations. All of it
fits the grammar, `import` is a keyword, and the null character is not in it. -/
structure IsGo (file : SourceFile) : Prop where
  complete : file.hasErrors = false
  null : '\x00' ∉ file.text.toList
  order : ∃ clause imports others, file.tree.items = clause :: (imports ++ others) ∧
    clause.is .packageClause ∧ (∀ d ∈ imports, d.is .importDeclaration) ∧
      ∀ d ∈ others, ¬d.is .importDeclaration
  keyword : file.KeywordImport

private theorem imports_eq (file : SourceFile) : file.imports = importsIn file.text
    [file.tree] := by
  rw [importsIn, Tree.preorderAll, Tree.preorderAll, List.append_nil]
  rfl

/-- A file has the imports and the declarations that the grammar reads. -/
theorem exists_items (path text : String) : ∃ n groups rest,
    gather (fileItem (rulesTo n)) (significant (Token.readAll text)) = some (groups, rest) ∧
      (parse path text).imports = importsIn text groups.flatten ∧
      List.Forall₂ IsCommented (parse path text).tree.items (groups.flatten.filter IsDeclared) := by
  obtain ⟨n, groups, rest, hgroups, htree⟩ := readSource_groups text
  have hcomments : ∀ c ∈ Syntax.Grammar.comments (Token.readAll text), IsLeafComment c :=
    fun c hc => isLeafComment_of_mem hc
  have htree : (parse path text).tree = .mk (.node .sourceFile) none 0 (Text.size text)
      (attachAll (groups.flatten.filter (·.label ≠ .lineBreak))
        (Syntax.Grammar.comments (Token.readAll text))) := by
    rw [← Tree.attach, ← sourceFile, ← htree]
    rfl
  have ho := (Token.ordered_readAll text).sublist (significant_sublist _)
  refine ⟨n, groups, rest, hgroups, ?_, ?_⟩
  · rw [imports_eq, htree, importsIn_cons, if_neg (by simp), importsIn_attachAll _ _ hcomments,
      importsIn_nil, List.append_nil, List.nil_append]
    exact importsIn_filter (specFree_of_lineBreak (bind_of hgroups) ho)
  · have hkept : groups.flatten.filter IsDeclared =
        (groups.flatten.filter (·.label ≠ .lineBreak)).filter IsDeclared := by
      rw [List.filter_filter]
      refine List.filter_congr fun t _ => ?_
      by_cases hl : t.label = .lineBreak
      · simp [IsDeclared, Tree.isNamed, Tree.kind?, hl]
      · simp [hl]
    have hitems : (parse path text).tree.items =
      (parse path text).tree.children.filter IsDeclared := by
      rw [Tree.items, Tree.namedChildren, List.filter_filter]
      exact List.filter_congr fun t _ => Bool.and_comm ..
    rw [hitems, htree, Tree.children, hkept]
    refine forall₂_attachAll (fun t u hl => ?_) (fun c hc => ?_) _ hcomments
    · simp [IsDeclared, Tree.isNamed, Tree.isComment, Tree.is, Tree.kind?, hl]
    · obtain ⟨start, stop, rfl⟩ := hc
      simp [IsDeclared, Tree.isComment, Tree.is, Tree.leaf, Tree.label]

/-- A file has the imports of the header that its tokens spell. -/
theorem imports_of_header {iss : List (List Import)}
    (h : Header Item iss (significant (Token.readAll text))) :
    (parse path text).imports = iss.flatten := by
  obtain ⟨n, groups, rest, hgroups, himports, _⟩ := exists_items path text
  rw [himports]
  exact importsIn_gather h ((Token.ordered_readAll text).sublist (significant_sublist _))
    (faithful_significant text) (Nat.le_refl _) hgroups

/-- The import declarations of a file, as they stand among its declarations. -/
theorem importDeclarations_eq {file : SourceFile} {clause : Tree} {imports others : List Tree}
    (hitems : file.tree.items = clause :: (imports ++ others)) (hclause : clause.is .packageClause)
    (himports : ∀ d ∈ imports, d.is .importDeclaration)
    (hothers : ∀ d ∈ others, ¬d.is .importDeclaration) : file.importDeclarations = imports := by
  have hnamed : file.importDeclarations = file.tree.items.filter (·.is .importDeclaration) := by
    rw [importDeclarations, Tree.items, List.filter_filter]
    refine List.filter_congr fun t _ => ?_
    cases his : t.is .importDeclaration with
    | true =>
      have hlabel : t.label = .node .importDeclaration := of_decide_eq_true his
      simp [Tree.isComment, Tree.is, hlabel]
    | false => rfl
  have hlabel : clause.label = .node .packageClause := of_decide_eq_true hclause
  rw [hnamed, hitems, List.filter_cons_of_neg (by simp [Tree.is, hlabel]), List.filter_append,
    List.filter_eq_self.mpr himports, List.filter_eq_nil_iff.mpr hothers, List.append_nil]

/-- The tokens of a file spell the package clause and the import declarations that it begins
with. -/
theorem exists_header (hkeyword : (parse path text).KeywordImport) {clause : Tree}
    {imports others : List Tree} (hitems : (parse path text).tree.items =
      clause :: (imports ++ others))
    (hclause : clause.is .packageClause) (himports : ∀ d ∈ imports, d.is .importDeclaration)
    (hothers : ∀ d ∈ others, ¬d.is .importDeclaration) :
    ∃ ds, List.Forall₂ IsCommented (clause :: imports) ds ∧
      Header (Heads text) ds (significant (Token.readAll text)) := by
  obtain ⟨n, groups, rest, hgroups, _, hdeclared⟩ := exists_items path text
  rw [hitems, ← List.cons_append] at hdeclared
  have hds := List.forall₂_take (clause :: imports).length hdeclared
  rw [List.take_left] at hds
  have hkinds : ∀ d ∈ clause :: imports, d.is .packageClause ∨ d.is .importDeclaration :=
    List.forall_mem_cons.mpr ⟨.inl hclause, fun d hd => .inr (himports d hd)⟩
  refine ⟨_, hds, header_gather hgroups ((Token.ordered_readAll text).sublist
    (significant_sublist _)) (faithful_significant text) (List.take_append_drop ..).symm
    (fun d hd => ?_) fun u hu hword => ?_⟩
  · obtain ⟨t, ht, hlabel, _⟩ := Paired.exists_mem hds.flip hd
    simpa [Tree.is, hlabel] using hkinds t ht
  · obtain ⟨t, ht, hstart⟩ := hkeyword u ((significant_sublist _).subset hu) hword
    rw [importDeclarations_eq hitems hclause himports hothers] at ht
    obtain ⟨d, hd, _, hdstart, _⟩ := Paired.exists_mem hds (List.mem_cons_of_mem clause ht)
    exact ⟨d, hd, hdstart.symm.trans hstart⟩

end SourceFile

end GoContracts

/-!
## Imports that are put into headers

A header takes more declarations behind its last one, and a list of imports takes more lines before
the parenthesis that closes it.
-/

namespace GoContracts

open Syntax (Token Tree)
open Syntax.Grammar (Heads isSolid)

namespace Import

variable {text : String} {ts own : List Token} {ds : List Tree} {d l : Tree}

private theorem Header.map {δ ε : Type} {P : List Token → δ → Prop} {Q : List Token → ε → Prop}
    {f : δ → ε}
    {ds : List δ} (hf : ∀ own d, P own d → Q own (f d)) (h : Header P ds ts) :
    Header Q (ds.map f) ts := by
  induction h with
  | rest h => exact .rest h
  | last hd => exact .last (hf _ _ hd)
  | item hd hm _ ih => exact .item (hf _ _ hd) hm ih

/-- The imports of each item of a header. -/
def importsOf (text : String) (ds : List Tree) : List (List Import) :=
  ds.map fun d => importsIn text [d]

/-- A header of texts is one of items. -/
theorem Header.items (h : Header (Heads text) ds ts) : Header Item (importsOf text ds) ts :=
  h.map fun _ _ hd => hd.item

/-- Items may be put in behind the last one of a header. -/
theorem Header.behind (h : Header (Heads text) ds ts) (hlast : ds.getLast? = some d) :
    ∃ a tail last, ts = a ++ tail ∧ a.getLast? = some last ∧ isSolid last = true ∧
      d.stop = last.stop ∧ (∀ m ∈ tail.head?, m.IsTerminator) ∧ (∀ u ∈ tail, ¬u.IsImport) ∧
      ∀ m new iss, m.IsTerminator → Header Item iss new →
        Header Item (importsOf text ds ++ iss) (a ++ m :: new) := by
  induction h with
  | rest => simp at hlast
  | @last own t ht =>
    obtain rfl := Option.some.inj hlast
    obtain ⟨last, htoken, hsolid, hstop⟩ := ht.stop
    exact ⟨own, [], last, (List.append_nil own).symm, htoken, hsolid, hstop, by simp, by simp,
      fun m new iss hm hnew => .item ht.item hm hnew⟩
  | @item own ts m t ds ht hm more ih =>
    cases ds with
    | nil =>
      obtain rfl := Option.some.inj hlast
      obtain ⟨last, htoken, hsolid, hstop⟩ := ht.stop
      cases more with
      | rest hrest =>
        refine ⟨own, m :: ts, last, rfl, htoken, hsolid, hstop, by simpa using hm,
          List.forall_mem_cons.mpr ⟨hm.not_isImport, hrest⟩,
          fun m new iss hm hnew => .item ht.item hm hnew⟩
    | cons e ds =>
      rw [List.getLast?_cons_cons] at hlast
      obtain ⟨a, tail, last, rfl, htoken, hsolid, hstop, hterminator, hwords, hput⟩ := ih hlast
      refine ⟨own ++ m :: a, tail, last, by simp, ?_, hsolid, hstop, hterminator, hwords,
        fun m' new iss hm' hnew => ?_⟩
      · rw [List.getLast?_append, List.getLast?_cons, htoken]
        rfl
      · rw [List.append_assoc, List.cons_append]
        exact .item ht.item hm (hput m' new iss hm' hnew)

/-- A list of imports in a header may be another one. What stands behind it may stand further
behind. -/
theorem Header.within (h : Header (Heads text) ds ts) (hd : d ∈ ds) (hl : l ∈ d.children)
    (hlabel : l.label = .node .importSpecList) :
    ∃ front body closing rest before is after, ts = front ++ (body ++ closing :: rest) ∧
      closing.lexeme = .symbol ')' ∧ l.stop = closing.stop ∧ front.getLast?.any isSolid = true ∧
      importsOf text ds = before ++ is :: after ∧ Specs body is ∧
      ∀ body' is' n, Specs body' is' → Header Item (before ++ is' :: after)
        (front ++ (body' ++ closing.moved n :: rest.map (Token.moved n))) := by
  induction h with
  | rest => simp at hd
  | @last own t ht =>
    obtain rfl := List.mem_singleton.mp hd
    obtain ⟨front, body, closing, rfl, hc, hstop, hsolid, hbody, hput⟩ := ht.list l hl hlabel
    exact ⟨front, body, closing, [], [], _, [], rfl, hc, hstop, hsolid, rfl, hbody,
      fun body' is' n hbody' => .last (hput body' (closing.moved n) is' hbody' hc)⟩
  | @item own ts m t ds ht hm more ih =>
    rcases List.mem_cons.mp hd with rfl | hd
    · obtain ⟨front, body, closing, rfl, hc, hstop, hsolid, hbody, hput⟩ := ht.list l hl hlabel
      refine ⟨front, body, closing, m :: ts, [], _, importsOf text ds, by simp, hc, hstop, hsolid,
        rfl, hbody, fun body' is' n hbody' => ?_⟩
      have hnew := Header.item (hput body' (closing.moved n) is' hbody' hc) (m := m.moved n) hm
        (more.items.moved n)
      simpa using hnew
    · obtain ⟨front, body, closing, rest, before, is, after, rfl, hc, hstop, hsolid,
        himports, hbody,
        hput⟩ := ih hd
      refine ⟨own ++ m :: front, body, closing, rest, importsIn text [t] :: before, is, after,
        by simp, hc, hstop, ?_, ?_, hbody, fun body' is' n hbody' => ?_⟩
      · rw [List.getLast?_append, List.getLast?_cons]
        cases hlast : front.getLast? with
        | none => simp [hlast] at hsolid
        | some u => simpa [hlast] using hsolid
      · rw [importsOf, List.map_cons, ← importsOf, himports, List.cons_append]
      · have hnew := Header.item ht.item hm (hput body' is' n hbody')
        simpa using hnew

end Import

end GoContracts

import GoContracts.Proofs.Syntax.Grammar.Imports
import GoContracts.Proofs.Syntax.Seats
import GoContracts.Weaving.Imports

/-!
# Lists of imports

What a file has as import declarations was read as such, so the first list of imports ends with a
parenthesis.
-/

namespace GoContracts

namespace Syntax

variable {ts mid rest : List Token} {t : Tree}

namespace Grammar

private theorem Parsed.suffix {parts : List Tree} (h : Parsed parts ts rest) (ho : Ordered ts) :
    rest <:+ ts := by
  obtain ⟨own, rfl, _⟩ := h ho
  exact List.suffix_append own rest

private theorem Terminated.suffix {parts : List Tree} (h : Terminated parts ts rest)
    (ho : Ordered ts) :
    rest <:+ ts := by
  obtain ⟨newlines, _, hparsed, _⟩ := h
  exact (List.suffix_append newlines rest).trans (hparsed.suffix ho)

/-- A terminator is no named node. -/
theorem terminator_spec {stop : Tree} (h : terminator ts = some (stop, rest)) :
    rest <:+ ts ∧ stop.isNamed = false := by
  have hsymbol : ∀ {text : String}, symbol false text ts = some (stop, rest) →
      rest <:+ ts ∧ stop.isNamed = false := by
    intro text hsymbol
    obtain ⟨newlines, own, _, rfl, _⟩ := symbol_reads hsymbol
    exact ⟨List.suffix_append _ _, by rw [Tree.isNamed, Tree.kind?, label_of_symbol hsymbol]; rfl⟩
  unfold terminator at h
  rcases orElse_eq_some.mp h with h | ⟨_, h⟩
  · cases ts with
    | nil => simp [terminator.lineBreak] at h
    | cons u us =>
      simp only [terminator.lineBreak, Option.ite_none_right_eq_some, Option.some.injEq,
        Prod.mk.injEq] at h
      obtain ⟨_, rfl, rfl⟩ := h
      exact ⟨List.suffix_cons u us, rfl⟩
  · rcases orElse_eq_some.mp h with h | ⟨_, h⟩
    · exact hsymbol h
    · exact hsymbol h

/-- Behind an item stands its terminator, if it has one. -/
theorem ended_cases {atEnd : List Token → Bool} {group : List Tree}
    (h : ended atEnd t ts = some (group, rest)) :
    rest <:+ ts ∧ ∃ stops, group = t :: stops ∧ ∀ stop ∈ stops, stop.isNamed = false := by
  rcases optional_bind.mp h with ⟨stop, mid, hstop, h⟩ | ⟨_, h⟩
  · obtain ⟨rfl, rfl⟩ := pure_eq_some.mp h
    obtain ⟨hsuffix, hnamed⟩ := terminator_spec hstop
    exact ⟨hsuffix, [stop], rfl, by simpa using hnamed⟩
  · simp only [looking_bind] at h
    rw [require_bind, pure_eq_some] at h
    obtain ⟨_, rfl, rfl⟩ := h
    exact ⟨List.suffix_rfl, [], rfl, by simp⟩

/-- An import declaration among the items of a file was read as one. -/
theorem exists_importDeclaration {n : Nat} {items : List Tree}
    (h : fileItems (rulesTo n) ts = some (items, rest)) (ho : Ordered ts) (ht : t ∈ items)
    (hlabel : t.label = .node .importDeclaration) :
    ∃ us mid, us <:+ ts ∧ importDeclaration us = some (t, mid) := by
  obtain ⟨groups, _, hgroups, hitems⟩ := bind_eq_some.mp h
  obtain ⟨rfl, _⟩ := pure_eq_some.mp hitems
  refine gather_induction (P := fun groups ts rest => Ordered ts → t ∈ groups.flatten →
    ∃ us mid, us <:+ ts ∧ importDeclaration us = some (t, mid)) hgroups
      (fun ts _ ht => by simp at ht)
    (fun ts rest _ _ ht => by simp at ht) (fun group groups ts mid rest h ih ho ht => ?_) ho ht
  rcases fileItem_cases h with ⟨hnone, _⟩ | ⟨item, _, us, hsome, hitem, hended⟩
  · simp at hnone
  obtain rfl := Option.some.inj hsome
  obtain ⟨hsuffix, stops, rfl, hstops⟩ := ended_cases hended
  have hus := (topLevel_phrased (sound_rulesTo n) hitem).parsed.suffix ho
  rw [List.flatten_cons, List.mem_append, List.mem_cons] at ht
  rcases ht with (rfl | ht) | ht
  · rcases topLevel_cases hitem with ⟨_, hclause⟩ | ⟨_, _, himport⟩ | hother
    · simp only [packageClause, bind_eq_some, pure_eq_some] at hclause
      obtain ⟨_, _, _, _, _, _, rfl, _⟩ := hclause
      exact absurd (Label.node.inj hlabel) (by decide)
    · exact ⟨ts, us, List.suffix_rfl, himport⟩
    · exact absurd hlabel hother.1
  · have hnamed := hstops t ht
    rw [Tree.isNamed, Tree.kind?, hlabel] at hnamed
    simp at hnamed
  · obtain ⟨vs, last, hvs, himport⟩ := ih (ho.sublist (hsuffix.trans hus).sublist) ht
    exact ⟨vs, last, hvs.trans (hsuffix.trans hus), himport⟩

/-- A list of imports in a declaration ends with its parenthesis. -/
theorem exists_closing (h : importDeclaration ts = some (t, rest)) (ho : Ordered ts) {list : Tree}
    (hlist : list ∈ t.children) (hlabel : list.label = .node .importSpecList) :
    ∃ u ∈ ts, u.lexeme = .symbol ')' ∧ list.stop = u.stop := by
  simp only [importDeclaration, bind_eq_some, pure_eq_some] at h
  obtain ⟨word, ts₁, hw, parts, ts₂, hs, rfl, rfl⟩ := h
  have hpart : list ∈ parts := by
    rw [Tree.node, Tree.children] at hlist
    rcases List.mem_cons.mp (List.mem_of_mem_filter hlist) with rfl | hpart
    · obtain ⟨_, _, _, _, _, rfl⟩ := keyword_eq_some.mp hw
      simp [Tree.leaf, Tree.label] at hlabel
    · exact hpart
  rw [specifications, looking_bind] at hs
  split at hs
  · simp only [bind_eq_some, pure_eq_some] at hs
    obtain ⟨opening, us, hopening, specs, vs, hspecs, closing, ws, hclosing, rfl, rfl⟩ := hs
    obtain rfl := List.mem_singleton.mp hpart
    have hword := (keyword_parsed hw).suffix ho
    have hus : us <:+ ts := by
      obtain ⟨_, _, _, rfl, _⟩ := symbol_reads hopening
      exact (List.suffix_append _ us).trans hword
    have hvs := (terminatedList_parsed hspecs importSpec_phrased).suffix (ho.sublist hus.sublist)
    obtain ⟨_, u, _, rfl, hu, rfl⟩ := (symbol_eq_some (c := ')') rfl).mp hclosing
    refine ⟨u, (hvs.trans hus).subset (List.mem_append_right _ (List.mem_cons_self ..)),
      of_decide_eq_true hu, ?_⟩
    rw [Tree.node, Tree.stop, List.getLast?_concat]
    rfl
  · simp only [importSpec, bind_eq_some, pure_eq_some] at hs
    obtain ⟨_, _, ⟨_, _, _, _, _, _, rfl, _⟩, rfl, _⟩ := hs
    obtain rfl := List.mem_singleton.mp hpart
    exact absurd (Label.node.inj hlabel) (by decide)

end Grammar

/-- The nodes among trees with comments are comments or the trees themselves with comments in
them. -/
theorem Tree.mem_attachAll {trees comments : List Tree} (h : t ∈ Tree.attachAll trees comments) :
    t ∈ comments ∨ ∃ u ∈ trees, ∃ few, few ⊆ comments ∧ t.label = u.label ∧ t.start = u.start ∧
      t.stop = u.stop ∧ t.children = Tree.attachAll u.children few := by
  induction trees generalizing comments with
  | nil =>
    rw [Tree.attachAll] at h
    exact .inl h
  | cons u trees ih =>
    cases u with
    | mk label role? start stop children =>
      rw [Tree.attachAll_cons, List.mem_append, List.mem_cons] at h
      rcases h with h | rfl | h
      · exact .inl (List.mem_of_mem_filter h)
      · exact .inr ⟨_, List.mem_cons_self .., _, List.filter_subset_self _, rfl, rfl, rfl, rfl⟩
      · rcases ih h with h | ⟨u, hu, few, hfew, hsame⟩
        · exact .inl (List.mem_of_mem_filter h)
        · exact .inr ⟨u, List.mem_cons_of_mem _ hu, few,
            fun c hc => List.mem_of_mem_filter (hfew hc), hsame⟩

namespace Grammar

/-- A declaration of a file that is no comment was read as an item of the file, perhaps with
comments in it. -/
theorem exists_item {text : String} {t : Tree} (hcomment : t.isComment = false)
    (h : t ∈ (readSource text).1.children) :
    ∃ n items rest few, fileItems (rulesTo n) (significant (Token.readAll text)) =
        some (items, rest) ∧ few ⊆ comments (Token.readAll text) ∧
          ∃ item ∈ items, t.label = item.label ∧
        t.start = item.start ∧ t.stop = item.stop ∧
        t.children = Tree.attachAll item.children few := by
  unfold readSource at h
  simp only [StateT.run] at h
  split at h
  · next items rest hitems =>
    rw [sourceFile, Tree.attach, Tree.children] at h
    rcases Tree.mem_attachAll h with h | ⟨item, hitem, few, hfew, hsame⟩
    · obtain ⟨u, _, rfl⟩ := List.mem_map.mp h
      exact absurd hcomment (by simp [Tree.isComment, Tree.is, Tree.leaf, Tree.label])
    · exact ⟨_, items, rest, few, hitems, hfew, item, List.mem_of_mem_filter hitem, hsame⟩
  · simp [sourceFile, Tree.children] at h

end Grammar

end Syntax

open Syntax (Tree Token)
open Text (Boundary)

/-- The first list of imports ends with a parenthesis. -/
theorem SourceFile.closing_importList {path text : String} {list : Tree}
    (h : (parse path text).importList? = some list) :
    ∃ u ∈ Token.readAll text, u.lexeme = .symbol ')' ∧ list.stop - 1 = u.start := by
  obtain ⟨declaration, hdeclaration, hfind⟩ := List.exists_of_findSome?_eq_some h
  obtain ⟨hmem, hkind⟩ := List.mem_filter.mp hdeclaration
  have hlabel : declaration.label = .node .importDeclaration := of_decide_eq_true hkind
  have hlist : list.label = .node .importSpecList := of_decide_eq_true
    (List.find?_some (p := fun t : Tree => t.is .importSpecList) hfind)
  obtain ⟨n, items, rest, few, hitems, hfew, item, hitem, hsame, _, _, hchildren⟩ :=
    Syntax.Grammar.exists_item (by simp [Tree.isComment, Tree.is, hlabel])
      (List.mem_of_mem_filter hmem)
  have ho := (Token.ordered_readAll text).sublist (Syntax.Grammar.significant_sublist _)
  obtain ⟨us, mid, hus, himport⟩ :=
    Syntax.Grammar.exists_importDeclaration hitems ho hitem (hsame ▸ hlabel)
  have hchild := List.mem_of_mem_filter (List.mem_of_find?_eq_some hfind)
  rw [hchildren] at hchild
  rcases Tree.mem_attachAll hchild with hcomment | ⟨part, hpart, _, _, hpartLabel, _, hstop, _⟩
  · obtain ⟨u, _, rfl⟩ := List.mem_map.mp (hfew hcomment)
    simp [Tree.leaf, Tree.label] at hlist
  · obtain ⟨u, hu, hsymbol, hend⟩ := Syntax.Grammar.exists_closing himport (ho.sublist hus.sublist)
      hpart (hpartLabel ▸ hlist)
    have hsource := (Syntax.Grammar.significant_sublist _).subset (hus.subset hu)
    obtain ⟨_, hsize⟩ := Token.charAt_symbol hsource hsymbol
    have hone : Char.utf8Size ')' = 1 := rfl
    exact ⟨u, hsource, hsymbol, by rw [hstop, hend, hsize, hone, Nat.add_sub_cancel]⟩

/-- A character ends the list of imports. -/
theorem SourceFile.boundary_importList {path text : String} {list : Tree}
    (h : (parse path text).importList? = some list) : Boundary text (list.stop - 1) := by
  obtain ⟨u, hu, _, hstart⟩ := closing_importList h
  rw [hstart]
  exact (Token.boundaries hu).1

end GoContracts

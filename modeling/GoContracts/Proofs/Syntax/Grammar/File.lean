import GoContracts.Proofs.Syntax.Attachment
import GoContracts.Proofs.Syntax.Grammar.Statements
import GoContracts.Proofs.Syntax.Tokens
import GoContracts.Syntax.Grammar.File

/-!
# What the grammar takes

The rules of the grammar are sound down to every depth, and the declarations and statements of a
file read its tokens as far as the file fits the grammar. The grammar sees the tokens of a text
without its comments: if all of them fit, the tree of the text reads them.
-/

namespace GoContracts.Syntax.Grammar

variable {ts mid rest : List Token} {t : Tree} {rules : Rules}

/-- The rules of every depth read what they take. -/
theorem sound_rulesTo (n : Nat) : Sound (rulesTo n) := by
  induction n with
  | zero =>
    exact {
      binary := fun _ h => (failure_eq_some.mp h).elim
      operand := fun _ h => (failure_eq_some.mp h).elim
      type := fun h => (failure_eq_some.mp h).elim
      parameters := fun h => (failure_eq_some.mp h).elim
      block := fun h => (failure_eq_some.mp h).elim
      statement := fun h => (failure_eq_some.mp h).elim }
  | succ n ih =>
    exact {
      binary := fun hc h => binary_phrased ih hc h
      operand := fun hs h => operand_phrased ih hs h
      type := fun h => type_phrased ih h
      parameters := fun h => parameters_phrased ih h
      block := fun h => block_phrased ih h
      statement := fun h => statement_phrased ih h }

/-! ### Declarations of a file -/

private theorem packageClause_phrased (h : packageClause ts = some (t, rest)) :
    Phrased t ts rest := by
  simp only [packageClause, bind_eq_some, pure_eq_some] at h
  obtain ⟨word, ts₁, hw, name, ts₂, hn, rfl, rfl⟩ := h
  exact ((keyword_parsed hw).cons (name_phrased hn (by decide)).parsed).phrase (by simp)
    (by trivial)

/-- A specification of an import reads what it takes. -/
theorem importSpec_phrased (h : importSpec ts = some (t, rest)) : Phrased t ts rest := by
  simp only [importSpec, bind_eq_some, pure_eq_some] at h
  obtain ⟨name, ts₁, hn, path, ts₂, hp, rfl, rfl⟩ := h
  have hpath : Phrased path ts₁ ts₂ := by
    rcases orElse_eq_some.mp hp with hp | ⟨_, hp⟩
    · exact lexeme_phrased hp (by simp [Solid]) (by decide) (by decide)
    · exact lexeme_phrased hp (by simp [Solid]) (by decide) (by decide)
  have hname : Parsed (name.map (·.asRole .name)).toList ts ts₁ := by
    rcases optional_eq_some.mp hn with ⟨n, rfl, hread⟩ | ⟨_, rfl, rfl⟩
    · rcases orElse_eq_some.mp hread with hn | ⟨_, hn⟩
      · simp only [importSpec.dot, bind_eq_some, pure_eq_some] at hn
        obtain ⟨dot, us, hdot, rfl, rfl⟩ := hn
        have hlabel : ∀ l, dot.label = .node l → l.isScope = false := fun l hl => by
          rw [label_of_symbol hdot] at hl
          simp at hl
        have hkind := (symbol_parsed hdot (by decide)).asKind (k := .dot) hlabel (by decide)
        exact (hkind.asRole .name).parsed
      · rw [importSpec.packageName, looking_bind] at hn
        refine ((name_phrased hn ?_).asRole .name).parsed
        split <;> decide
    · exact .nil
  exact (hname.append (hpath.asRole .path).parsed).phrase (by simp) (by trivial)

private theorem importDeclaration_phrased (h : importDeclaration ts = some (t, rest)) :
    Phrased t ts rest := by
  simp only [importDeclaration, bind_eq_some, pure_eq_some] at h
  obtain ⟨word, ts₁, hw, parts, ts₂, hs, rfl, rfl⟩ := h
  exact listed_phrased hw hs importSpec_phrased (fun _ => trivial) fun _ => trivial

section

variable (hr : Sound rules)
include hr

private theorem functionRest_parsed {parts : List Tree}
    (h : functionRest rules ts = some (parts, rest)) :
    Parsed parts ts rest := by
  obtain ⟨result, ts₁, hresult, h⟩ := bind_eq_some.mp h
  have hresult := result_parsed hr hresult
  rw [looking_bind] at h
  split at h
  · simp only [bind_eq_some, pure_eq_some] at h
    obtain ⟨body, ts₂, hb, _, _, ⟨rfl, rfl⟩, rfl, rfl⟩ := h
    exact hresult.append ((hr.block hb).asRole .body).parsed
  · rw [pure_bind_apply] at h
    obtain ⟨rfl, rfl⟩ := pure_eq_some.mp h
    exact hresult.append .nil

private theorem functionDeclaration_phrased (h : functionDeclaration rules ts = some (t, rest)) :
    Phrased t ts rest := by
  simp only [functionDeclaration, bind_eq_some, pure_eq_some] at h
  obtain ⟨word, ts₁, hw, declared, ts₂, hd, generic, ts₃, hg, parameters, ts₄, hp, more, ts₅, hm,
    rfl, rfl⟩ := h
  have hgeneric : Parsed (generic.map (·.asRole .typeParameters)).toList ts₂ ts₃ := by
    rcases optional_eq_some.mp hg with ⟨g, rfl, hread⟩ | ⟨_, rfl, rfl⟩
    · exact ((typeParameters_phrased hr hread).asRole .typeParameters).parsed
    · exact .nil
  have hhead := (keyword_parsed hw).cons ((name_phrased hd (by decide)).asRole .name).parsed
  have htail := ((hr.parameters hp).asRole .parameters).parsed.cons (functionRest_parsed hr hm)
  exact ((hhead.append hgeneric).append htail).phrase (by simp) (by trivial)

private theorem methodDeclaration_phrased (h : methodDeclaration rules ts = some (t, rest)) :
    Phrased t ts rest := by
  simp only [methodDeclaration, bind_eq_some, pure_eq_some] at h
  obtain ⟨word, ts₁, hw, receiver, ts₂, hreceiver, declared, ts₃, hd, parameters, ts₄, hp, more,
    ts₅, hm, rfl, rfl⟩ := h
  have htail := ((hr.parameters hp).asRole .parameters).parsed.cons (functionRest_parsed hr hm)
  exact ((keyword_parsed hw).cons (((hr.parameters hreceiver).asRole .receiver).parsed.cons
    (((name_phrased hd (by decide)).asRole .name).parsed.cons htail))).phrase (by simp) (by trivial)

/-- A declaration of a file reads what it takes. -/
theorem topLevel_phrased (h : topLevel rules ts = some (t, rest)) : Phrased t ts rest := by
  rw [topLevel, get_bind] at h
  rcases ite_eq_some.mp h with ⟨_, h⟩ | ⟨_, h⟩
  · exact packageClause_phrased h
  rcases ite_eq_some.mp h with ⟨_, h⟩ | ⟨_, h⟩
  · exact importDeclaration_phrased h
  rcases ite_eq_some.mp h with ⟨_, h⟩ | ⟨_, h⟩
  · rcases orElse_eq_some.mp h with h | ⟨_, h⟩
    · exact functionDeclaration_phrased hr h
    rcases orElse_eq_some.mp h with h | ⟨_, h⟩
    · exact methodDeclaration_phrased hr h
    · exact hr.statement h
  · exact hr.statement h

omit hr in
/-- A file ends, or the next item does not fit, or an item is read with its terminator. -/
theorem fileItem_cases {o : Option (List Tree)} (h : fileItem rules ts = some (o, rest)) :
    (o = none ∧ ts = rest) ∨ ∃ t group mid, o = some group ∧
      topLevel rules ts = some (t, mid) ∧ ended atEnd t mid = some (group, rest) := by
  rw [fileItem, looking_bind] at h
  split at h
  · obtain ⟨rfl, rfl⟩ := pure_eq_some.mp h
    exact .inl ⟨rfl, rfl⟩
  · rcases optional_eq_some.mp h with ⟨group, rfl, hread⟩ | ⟨_, rfl, rfl⟩
    · obtain ⟨t, mid, ht, hended⟩ := bind_eq_some.mp hread
      exact .inr ⟨t, group, mid, rfl, ht, hended⟩
    · exact .inl ⟨rfl, rfl⟩

/-- The declarations and statements of a file read its tokens up to where they stop. -/
theorem fileItems_parsed {items : List Tree} (h : fileItems rules ts = some (items, rest)) :
    Terminated items ts rest := by
  obtain ⟨groups, mid, hg, h⟩ := bind_eq_some.mp h
  obtain ⟨rfl, rfl⟩ := pure_eq_some.mp h
  refine gather_induction (P := fun groups ts rest => Terminated groups.flatten ts rest) hg
    (fun _ => .nil) (fun ts rest h => ?_) (fun group groups ts mid rest h hgroups => ?_)
  · rcases fileItem_cases h with ⟨_, rfl⟩ | ⟨_, _, _, hsome, _⟩
    · exact .nil
    · simp at hsome
  · rcases fileItem_cases h with ⟨hnone, _⟩ | ⟨t, _, _, hsome, ht, hended⟩
    · simp at hnone
    · obtain rfl := Option.some.inj hsome
      exact ended_parsed (topLevel_phrased hr ht) hended hgroups

end

variable {ts : List Token}

/-! ### Significant tokens -/

private theorem significant_cons (t : Token) (ts : List Token) :
    (t.lexeme = .comment ∧ significant (t :: ts) = significant ts) ∨
    (t.lexeme ≠ .comment ∧ significant (t :: ts) = t :: significant ts) ∨
    (t.lexeme = .newline ∧ ∃ u more, u.lexeme = .newline ∧ significant ts = u :: more ∧
      significant (t :: ts) = t :: more) := by
  rw [significant]
  by_cases hc : t.lexeme = .comment
  · exact .inl ⟨hc, by rw [if_pos hc]⟩
  rw [if_neg hc]
  by_cases hn : t.lexeme = .newline
  · rw [if_pos hn]
    cases hrest : significant ts with
    | nil => exact .inr (.inl ⟨hc, rfl⟩)
    | cons u more =>
      by_cases hu : u.lexeme = .newline
      · exact .inr (.inr ⟨hn, u, more, hu, rfl, if_pos hu⟩)
      · exact .inr (.inl ⟨hc, if_neg hu⟩)
  · exact .inr (.inl ⟨hc, if_neg hn⟩)

/-- The significant tokens are some of the tokens. -/
theorem significant_sublist (ts : List Token) : (significant ts).Sublist ts := by
  induction ts with
  | nil => rw [significant]
  | cons t ts ih =>
    rcases significant_cons t ts with ⟨_, h⟩ | ⟨_, h⟩ | ⟨_, u, more, _, hrest, h⟩
    · rw [h]
      exact ih.cons t
    · rw [h]
      exact ih.cons_cons t
    · rw [h]
      rw [hrest] at ih
      exact ((List.sublist_cons_self u more).trans ih).cons_cons t

/-- Whether a token is neither a newline nor a comment. -/
def isSolid (t : Token) : Bool := t.lexeme ≠ .newline && t.lexeme ≠ .comment

/-- All tokens but comments and newlines are significant. -/
theorem filter_significant (ts : List Token) :
    (significant ts).filter isSolid = ts.filter isSolid := by
  induction ts with
  | nil => rw [significant]
  | cons t ts ih =>
    rw [List.filter_cons, ← ih]
    rcases significant_cons t ts with ⟨hc, h⟩ | ⟨_, h⟩ | ⟨hn, u, more, hu, hrest, h⟩
    · simp [h, isSolid, hc]
    · rw [h, List.filter_cons]
    · simp [h, hrest, isSolid, hn, hu]

/-- No comment is significant. -/
theorem lexeme_ne_comment {t : Token} (h : t ∈ significant ts) : t.lexeme ≠ .comment := by
  induction ts with
  | nil => simp [significant] at h
  | cons u us ih =>
    rcases significant_cons u us with ⟨_, hs⟩ | ⟨hc, hs⟩ | ⟨hn, v, more, _, hrest, hs⟩
    · rw [hs] at h
      exact ih h
    · rw [hs] at h
      rcases List.mem_cons.mp h with rfl | h
      · exact hc
      · exact ih h
    · rw [hs] at h
      rcases List.mem_cons.mp h with rfl | h
      · rw [hn]
        decide
      · rw [hrest] at ih
        exact ih (List.mem_cons_of_mem v h)

/-! ### Trees of texts -/

/-- Nothing but newlines stands at the end. -/
theorem allNewlines_of_atEnd (h : atEnd ts = true) : AllNewlines ts := by
  obtain ⟨newlines, hts, hn⟩ := afterNewlines_split ts
  rw [List.isEmpty_iff.mp h, List.append_nil] at hts
  rwa [hts]

/-- The tree of a text that fits the grammar is made of what the grammar takes from its tokens. -/
theorem readSource_complete {text : String} {tree : Tree} (h : readSource text = (tree, true)) :
    let source := significant (Token.readAll text)
    ∃ items rest, fileItems (rulesTo (8 * source.length + 16)) source = some (items, rest) ∧
      AllNewlines rest ∧ tree = (sourceFile text items).attach (comments (Token.readAll text)) := by
  intro source
  unfold readSource at h
  simp only [StateT.run] at h
  split at h
  · next items rest hitems =>
    obtain ⟨rfl, hend⟩ := Prod.mk.inj h
    exact ⟨items, rest, hitems, allNewlines_of_atEnd hend, rfl⟩
  · simp at h

/-- A tree without comments has none left out. -/
theorem attach_comments {t : Tree} {tokens : List Token}
    (h : ∀ u ∈ (t.attach (comments tokens)).preorder, u.isComment = false) :
    (∀ u ∈ tokens, u.lexeme ≠ .comment) ∧ t.attach (comments tokens) = t := by
  have hnone : tokens.filter (·.lexeme = .comment) = [] := by
    rw [List.filter_eq_nil_iff]
    intro u hu hc
    have hmem : Tree.leaf (.node .comment) u.start u.stop ∈ comments tokens :=
      List.mem_map_of_mem (List.mem_filter.mpr ⟨hu, hc⟩)
    have := h _ (Tree.mem_preorder_attach hmem t)
    simp [Tree.isComment, Tree.is, Tree.leaf, Tree.label] at this
  refine ⟨by simpa using hnone, ?_⟩
  rw [comments, hnone, List.map_nil, Tree.attach_nil]

end GoContracts.Syntax.Grammar

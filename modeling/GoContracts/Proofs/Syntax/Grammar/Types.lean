import GoContracts.Proofs.Syntax.Repetition
import GoContracts.Syntax.Grammar.Types

/-!
# What the rules for types take

Every tree that a rule for types yields reads the tokens that the rule took, provided the rules of
its parts do. `Sound` is that promise for all phrases.
-/

namespace GoContracts.Syntax.Grammar

variable {free : Bool} {ts rest : List Token} {t : Tree} {rules : Rules}

/-- The trees read the tokens one after the other, each of them balanced. -/
def Taken : List Tree → List Token → List Token → Prop
  | [], ts, rest => ts = rest
  | t :: trees, ts, rest => ∃ mid, Parsed [t] ts mid ∧ Taken trees mid rest

/-- One more tree is taken behind others. -/
theorem Taken.concat {trees : List Tree} {mid : List Token} (h : Taken trees ts mid)
    (ht : Parsed [t] mid rest) : Taken (trees ++ [t]) ts rest := by
  induction trees generalizing ts with
  | nil =>
    obtain rfl := h
    exact ⟨rest, ht, rfl⟩
  | cons u trees ih =>
    obtain ⟨us, hu, hus⟩ := h
    exact ⟨us, hu, ih hus⟩

/-- The trees that are taken read what they take. -/
theorem Taken.parsed {trees : List Tree} (h : Taken trees ts rest) : Parsed trees ts rest := by
  induction trees generalizing ts with
  | nil =>
    obtain rfl := h
    exact .nil
  | cons u trees ih =>
    obtain ⟨us, hu, hus⟩ := h
    exact hu.cons (ih hus)

/-- Trees of the rules read the tokens that the rules take. An operand that is given the stars
before it may take them as well. -/
structure Sound (rules : Rules) : Prop where
  binary : ∀ {c level ts t rest}, c.stars = [] →
    rules (.binary c level) ts = some (t, rest) → Phrased t ts rest
  operand : ∀ {c ts₀ ts t rest}, Taken c.stars ts₀ ts →
    rules (.operand c) ts = some (t, rest) → Phrased t ts rest ∨ Phrased t ts₀ rest
  type : ∀ {free ts t rest}, rules (.type free) ts = some (t, rest) → Phrased t ts rest
  parameters : ∀ {ts t rest}, rules .parameters ts = some (t, rest) → Phrased t ts rest
  block : ∀ {ts t rest}, rules .block ts = some (t, rest) → Phrased t ts rest
  statement : ∀ {ts t rest}, rules .statement ts = some (t, rest) → Phrased t ts rest

variable (hr : Sound rules)
include hr

/-! ### Types -/

private theorem typeElement_phrased (h : typeElement rules free ts = some (t, rest)) :
    Phrased t ts rest := by
  simp only [typeElement, bind_eq_some, pure_eq_some] at h
  obtain ⟨first, ts₁, hfirst, more, ts₂, hmore, rfl, rfl⟩ := h
  exact ((hr.type hfirst).parsed.cons
    (separated_parsed (f := id) hmore (fun h => (hr.type h).parsed) (by decide))).phrase
    (by simp) (by trivial)

private theorem typeArguments_phrased (h : typeArguments rules free ts = some (t, rest)) :
    Phrased t ts rest := by
  simp only [typeArguments, bind_eq_some, ↓require_bind, pure_eq_some] at h
  obtain ⟨opening, ts₁, ho, items, ts₂, hi, _, closing, ts₃, hc, rfl, rfl⟩ := h
  exact (Parsed.enclosed ho
    (commaList_parsed hi fun h => (typeElement_phrased hr h).parsed) hc (by decide)).phrase
      (by simp) (by trivial)

private theorem namedType_phrased (h : namedType rules free ts = some (t, rest)) :
    Phrased t ts rest := by
  simp only [namedType, bind_eq_some, looking_bind] at h
  obtain ⟨first, ts₁, hfirst, h⟩ := h
  have generic {base arguments : Tree} {mid rest : List Token} (hbase : Phrased base ts mid)
      (ha : typeArguments rules free mid = some (arguments, rest)) :
      Phrased (.node .genericType [base.asRole .type, arguments.asRole .typeArguments]) ts rest :=
    ((hbase.asRole _).parsed.cons ((typeArguments_phrased hr ha).asRole _).parsed).phrase
      (by simp) (by trivial)
  split at h
  · obtain ⟨dot, ts₂, hdot, h⟩ := bind_eq_some.mp h
    obtain ⟨member, ts₃, hmember, h⟩ := bind_eq_some.mp h
    rw [pure_bind_apply] at h
    have hpackage := name_asKind (l := .packageIdentifier) hfirst (by decide)
      (by decide) (by decide)
    have hmember := name_phrased hmember (by decide)
    have hparts := (hpackage.asRole .package).parsed.cons
      ((symbol_parsed hdot (by decide)).cons (hmember.asRole .name).parsed)
    have hbase : Phrased (.node .qualifiedType _) ts ts₃ := hparts.phrase (by simp) (by trivial)
    rcases optional_bind.mp h with ⟨arguments, us, ha, h⟩ | ⟨_, h⟩
    · obtain ⟨rfl, rfl⟩ := pure_eq_some.mp h
      exact generic hbase ha
    · obtain ⟨rfl, rfl⟩ := pure_eq_some.mp h
      exact hbase
  · rw [pure_bind_apply] at h
    have hbase := name_phrased hfirst (by decide)
    rcases optional_bind.mp h with ⟨arguments, us, ha, h⟩ | ⟨_, h⟩
    · obtain ⟨rfl, rfl⟩ := pure_eq_some.mp h
      exact generic hbase ha
    · obtain ⟨rfl, rfl⟩ := pure_eq_some.mp h
      exact hbase

/-- A result reads what it takes. -/
theorem result_parsed {o : Option Tree} (h : result? rules free ts = some (o, rest)) :
    Parsed o.toList ts rest := by
  simp only [result?, looking_bind] at h
  split at h
  · simp only [bind_eq_some, pure_eq_some] at h
    obtain ⟨parameters, ts₁, hp, rfl, rfl⟩ := h
    exact ((hr.parameters hp).asRole _).parsed
  · rw [looking_bind] at h
    split at h
    · simp only [bind_eq_some, pure_eq_some] at h
      obtain ⟨type, ts₁, ht, rfl, rfl⟩ := h
      exact ((hr.type ht).asRole _).parsed
    · obtain ⟨rfl, rfl⟩ := pure_eq_some.mp h
      exact .nil

/-- A signature reads what it takes. -/
theorem signature_parsed {parts : List Tree} (h : signature rules free ts = some (parts, rest)) :
    Parsed parts ts rest := by
  simp only [signature, bind_eq_some, pure_eq_some] at h
  obtain ⟨parameters, ts₁, hp, result, ts₂, hres, rfl, rfl⟩ := h
  exact ((hr.parameters hp).asRole _).parsed.cons (result_parsed hr hres)

private theorem functionType_phrased (h : functionType rules free ts = some (t, rest)) :
    Phrased t ts rest := by
  simp only [functionType, bind_eq_some, pure_eq_some] at h
  obtain ⟨func, ts₁, hfunc, parts, ts₂, hparts, rfl, rfl⟩ := h
  exact ((keyword_parsed hfunc).cons (signature_parsed hr hparts)).phrase (by simp) (by trivial)

private theorem mapType_phrased (h : mapType rules free ts = some (t, rest)) :
    Phrased t ts rest := by
  simp only [mapType, bind_eq_some, pure_eq_some] at h
  obtain ⟨map, ts₁, hmap, opening, ts₂, ho, key, ts₃, hkey, closing, ts₄, hc, value, ts₅, hvalue,
    rfl, rfl⟩ := h
  have hkey := Parsed.enclosed ho ((hr.type hkey).asRole .key).parsed hc (by decide)
  exact ((keyword_parsed hmap).cons (hkey.append ((hr.type hvalue).asRole _).parsed)).phrase
    (by simp) (by trivial)

/-- A channel type reads what it takes. -/
theorem channelType_phrased (h : channelType rules free ts = some (t, rest)) :
    Phrased t ts rest := by
  have value {marks : List Tree} {mid : List Token} (hmarks : Parsed marks ts mid)
      (h : (do
        let value ← rules (.type free)
        return .node .channelType (marks ++ [value.asRole .value]) : Reader Tree) mid =
          some (t, rest)) : Phrased t ts rest := by
    simp only [bind_eq_some, pure_eq_some] at h
    obtain ⟨value, us, hvalue, rfl, rfl⟩ := h
    exact (hmarks.append ((hr.type hvalue).asRole _).parsed).phrase (by simp) (by trivial)
  rw [channelType, looking_bind] at h
  split at h
  · simp only [bind_eq_some (x := symbol _ _), bind_eq_some (x := keyword _ _),
      pure_bind_apply] at h
    obtain ⟨arrow, ts₁, harrow, chan, ts₂, hchan, h⟩ := h
    exact value ((symbol_parsed harrow (by decide)).cons (keyword_parsed hchan)) h
  · obtain ⟨chan, ts₁, hchan, h⟩ := bind_eq_some.mp h
    rcases optional_bind.mp h with ⟨arrow, ts₂, harrow, h⟩ | ⟨_, h⟩
    · exact value ((keyword_parsed hchan).cons (symbol_parsed harrow (by decide))) h
    · exact value (keyword_parsed hchan) h

private theorem arrayType_phrased (h : arrayType rules free ts = some (t, rest)) :
    Phrased t ts rest := by
  simp only [arrayType, bind_eq_some (x := symbol _ _), ↓optional_bind] at h
  obtain ⟨opening, ts₁, ho, ⟨closing, ts₂, hc, h⟩ | ⟨_, h⟩⟩ := h
  · simp only [bind_eq_some, pure_eq_some] at h
    obtain ⟨element, ts₃, helement, rfl, rfl⟩ := h
    exact ((Parsed.enclosed ho .nil hc (by decide)).append
      ((hr.type helement).asRole _).parsed).phrase (by simp) (by trivial)
  · simp only [bind_eq_some, pure_eq_some] at h
    obtain ⟨length, ts₂, hlength, closing, ts₃, hc, element, ts₄, helement, rfl, rfl⟩ := h
    have hlength := Parsed.enclosed ho ((hr.binary rfl hlength).asRole .length).parsed hc
      (by decide)
    exact (hlength.append ((hr.type helement).asRole _).parsed).phrase (by simp) (by trivial)

omit hr in
private theorem tag_parsed {tag : List Tree} (h : tag? ts = some (tag, rest)) :
    Parsed tag ts rest := by
  simp only [tag?, bind_eq_some, pure_eq_some] at h
  obtain ⟨o, ts₁, ho, rfl, rfl⟩ := h
  rcases optional_eq_some.mp ho with ⟨t, rfl, ht⟩ | ⟨_, rfl, rfl⟩
  · rcases orElse_eq_some.mp ht with ht | ⟨_, ht⟩
    · exact ((lexeme_phrased ht (by simp [Solid]) (by decide) (by decide)).asRole _).parsed
    · exact ((lexeme_phrased ht (by simp [Solid]) (by decide) (by decide)).asRole _).parsed
  · exact .nil

omit hr in
/-- Names read what they take. -/
theorem names_parsed {k : Kind} {declared : List Tree} (h : names k ts = some (declared, rest))
    (hk : k ∉ composedKinds) : Parsed declared ts rest := by
  simp only [names, bind_eq_some, pure_eq_some] at h
  obtain ⟨first, ts₁, hfirst, more, ts₂, hmore, rfl, rfl⟩ := h
  exact ((name_phrased hfirst hk).asRole _).parsed.cons
    (separated_parsed (f := Tree.asRole .name) hmore
      (fun h => ((name_phrased h hk).asRole _).parsed) (by decide))

private theorem fieldDeclaration_phrased (h : fieldDeclaration rules ts = some (t, rest)) :
    Phrased t ts rest := by
  rcases orElse_eq_some.mp h with h | ⟨_, h⟩
  · simp only [fieldDeclaration.embedded, bind_eq_some, looking_bind, require_eq_some,
      pure_eq_some] at h
    obtain ⟨star, ts₁, hstar, type, ts₂, htype, _, _, ⟨_, rfl⟩, tag, ts₃, htag, rfl, rfl⟩ := h
    have hstar := Parsed.optional hstar fun h => symbol_parsed h (by decide)
    exact (hstar.append (((namedType_phrased hr htype).asRole _).parsed.cons
      (tag_parsed htag))).phrase (by simp) (by trivial)
  · simp only [fieldDeclaration.named, bind_eq_some, pure_eq_some] at h
    obtain ⟨fields, ts₁, hfields, type, ts₂, htype, tag, ts₃, htag, rfl, rfl⟩ := h
    exact ((names_parsed hfields (by decide)).append (((hr.type htype).asRole _).parsed.cons
      (tag_parsed htag))).phrase (by simp) (by trivial)

private theorem structType_phrased (h : structType rules free ts = some (t, rest)) :
    Phrased t ts rest := by
  simp only [structType, bind_eq_some, pure_eq_some] at h
  obtain ⟨struct, ts₁, hstruct, opening, ts₂, ho, fields, ts₃, hf, closing, ts₄, hc, rfl, rfl⟩ := h
  have hfields := Terminated.phrase (k := .fieldDeclarationList) [] .nil ho
    (terminatedList_parsed hf (fieldDeclaration_phrased hr)) hc (by decide) fun _ => trivial
  exact ((keyword_parsed hstruct).cons hfields.parsed).phrase (by simp) (by trivial)

private theorem methodElement_phrased (h : methodElement rules ts = some (t, rest)) :
    Phrased t ts rest := by
  simp only [methodElement, bind_eq_some, pure_eq_some] at h
  obtain ⟨method, ts₁, hmethod, parts, ts₂, hparts, rfl, rfl⟩ := h
  exact (((name_phrased hmethod (by decide)).asRole _).parsed.cons
    (signature_parsed hr hparts)).phrase (by simp) (by trivial)

private theorem interfaceType_phrased (h : interfaceType rules free ts = some (t, rest)) :
    Phrased t ts rest := by
  simp only [interfaceType, bind_eq_some, pure_eq_some] at h
  obtain ⟨interface, ts₁, hinterface, opening, ts₂, ho, elements, ts₃, he, closing, ts₄, hc, rfl,
    rfl⟩ := h
  have helements := terminatedList_parsed he fun h => by
    rcases orElse_eq_some.mp h with h | ⟨_, h⟩
    · exact methodElement_phrased hr h
    · exact typeElement_phrased hr h
  exact Terminated.phrase [interface] (keyword_parsed hinterface) ho helements hc (by decide)
    fun _ => trivial

/-- A type reads what it takes. -/
theorem type_phrased (h : type rules free ts = some (t, rest)) : Phrased t ts rest := by
  rw [type, skipNewlines_bind, get_bind] at h
  refine Phrased.skip ?_
  repeat' split at h
  · exact functionType_phrased hr h
  · exact mapType_phrased hr h
  · exact channelType_phrased hr h
  · exact structType_phrased hr h
  · exact interfaceType_phrased hr h
  · exact arrayType_phrased hr h
  · simp only [bind_eq_some, pure_eq_some] at h
    obtain ⟨star, ts₁, hstar, target, ts₂, htarget, rfl, rfl⟩ := h
    exact ((symbol_parsed hstar (by decide)).cons (hr.type htarget).parsed).phrase (by simp)
      (by trivial)
  · simp only [bind_eq_some, pure_eq_some] at h
    obtain ⟨mark, ts₁, hmark, target, ts₂, htarget, rfl, rfl⟩ := h
    exact ((symbol_parsed hmark (by decide)).cons (hr.type htarget).parsed).phrase (by simp)
      (by trivial)
  · simp only [bind_eq_some, pure_eq_some] at h
    obtain ⟨opening, ts₁, ho, inner, ts₂, hinner, closing, ts₃, hc, rfl, rfl⟩ := h
    exact (Parsed.enclosed ho (hr.type hinner).parsed hc (by decide)).phrase (by simp) (by trivial)
  · exact namedType_phrased hr h

/-! ### Parameters -/

/-- The entry reads the tokens from `ts` up to `rest`, and so do the parts of a declaration that may
take names before it. -/
def ParameterEntry.Reads (ts rest : List Token) : ParameterEntry → Prop
  | .lone t => Parsed [t] ts rest ∧ t.label = .node .identifier
  | .declared t takesNames =>
    Parsed [t] ts rest ∧ (takesNames = true → Parsed t.children ts rest)
  | .comma t => Parsed [t] ts rest

/-- The entries read the tokens one after the other. -/
def EntriesRead : List ParameterEntry → List Token → List Token → Prop
  | [], ts, rest => ts = rest
  | e :: es, ts, rest => ∃ mid, e.Reads ts mid ∧ EntriesRead es mid rest

omit hr in
private theorem EntriesRead.append {a b : List ParameterEntry} {mid : List Token}
    (ha : EntriesRead a ts mid) (hb : EntriesRead b mid rest) : EntriesRead (a ++ b) ts rest := by
  induction a generalizing ts with
  | nil =>
    obtain rfl := ha
    exact hb
  | cons e a ih =>
    obtain ⟨us, he, hes⟩ := ha
    exact ⟨us, he, ih hes⟩

private theorem parameterEntry_reads {e : ParameterEntry}
    (h : parameterEntry rules ts = some (e, rest)) : e.Reads ts rest := by
  unfold parameterEntry at h
  rcases orElse_eq_some.mp h with h | ⟨_, h⟩
  · simp only [parameterEntry.variadic, bind_eq_some, pure_eq_some] at h
    obtain ⟨name, ts₁, hname, dots, ts₂, hdots, type, ts₃, htype, rfl, rfl⟩ := h
    refine ⟨Phrased.parsed (Parsed.phrase ?_ (by simp) (by trivial)), by simp⟩
    have hrest := (symbol_parsed hdots (by decide)).cons ((hr.type htype).asRole .type).parsed
    rcases optional_eq_some.mp hname with ⟨n, rfl, hn⟩ | ⟨_, rfl, rfl⟩
    · exact ((name_phrased hn (by decide)).asRole _).parsed.cons hrest
    · exact hrest
  rcases orElse_eq_some.mp h with h | ⟨_, h⟩
  · simp only [parameterEntry.bare, parameterEntry.atEntryEnd, bind_eq_some, looking_bind,
      require_eq_some, pure_eq_some] at h
    obtain ⟨word, ts₁, hword, _, _, ⟨_, rfl⟩, rfl, rfl⟩ := h
    exact ⟨(name_phrased hword (by decide)).parsed, label_of_name hword⟩
  rcases orElse_eq_some.mp h with h | ⟨_, h⟩
  · simp only [parameterEntry.alone, parameterEntry.atEntryEnd, bind_eq_some, looking_bind,
      require_eq_some, pure_eq_some] at h
    obtain ⟨type, ts₁, htype, _, _, ⟨_, rfl⟩, rfl, rfl⟩ := h
    exact ⟨(((hr.type htype).asRole .type).parsed.phrase (by simp) (by trivial)).parsed, by simp⟩
  · simp only [parameterEntry.typed, parameterEntry.atEntryEnd, bind_eq_some, looking_bind,
      require_eq_some, pure_eq_some] at h
    obtain ⟨word, ts₁, hword, type, ts₂, htype, _, _, ⟨_, rfl⟩, rfl, rfl⟩ := h
    have hword := (name_phrased hword (by decide)).asRole .name
    have htype := (hr.type htype).asRole .type
    have hparts := hword.parsed.cons htype.parsed
    refine ⟨(hparts.phrase (by simp) (by trivial)).parsed, fun _ => ?_⟩
    rw [Tree.node, Tree.children, List.filter_eq_self.mpr]
    · exact hparts
    · simpa using ⟨hword.label_ne, htype.label_ne⟩

omit hr in
/-- The names before a declaration that takes them read their tokens. -/
private theorem joined_read {es : List ParameterEntry} {more : List Tree} {k : Nat}
    (h : declareParameters.joined es = some (more, k)) (hes : EntriesRead es ts rest) :
    ∃ mid, Parsed more ts mid ∧ EntriesRead (es.drop k) mid rest := by
  fun_induction declareParameters.joined es generalizing ts more k with
  | case1 c d _ =>
    obtain ⟨rfl, rfl⟩ := Prod.mk.inj (Option.some.inj h)
    obtain ⟨ts₁, hc, ts₂, hd, hes⟩ := hes
    exact ⟨ts₂, hc.cons (hd.2 rfl), hes⟩
  | case2 c t es ih =>
    simp only [Option.map_eq_some_iff, Prod.mk.injEq, Prod.exists] at h
    obtain ⟨more, k, hj, rfl, rfl⟩ := h
    obtain ⟨ts₁, hc, ts₂, ht, hes⟩ := hes
    obtain ⟨mid, hmore, hrest⟩ := ih hj hes
    exact ⟨mid, hc.cons ((ht.1.asRole .name).cons hmore), hrest⟩
  | case3 => simp at h

omit hr in
private theorem declareParameters_parsed {es : List ParameterEntry} (hes : EntriesRead es ts rest) :
    Parsed (declareParameters es) ts rest := by
  fun_induction declareParameters es generalizing ts with
  | case1 =>
    obtain rfl := hes
    exact .nil
  | case2 t es more k hj ih =>
    obtain ⟨ts₁, ht, hes⟩ := hes
    obtain ⟨mid, hmore, hrest⟩ := joined_read hj hes
    exact (((ht.1.asRole .name).cons hmore).phrase (by simp) (by trivial)).parsed.cons (ih hrest)
  | case3 t es hj ih =>
    obtain ⟨ts₁, ht, hes⟩ := hes
    have hlabel : ∀ l, t.label = .node l → l.isScope = false := fun l hl => by
      rw [ht.2, Label.node.injEq] at hl
      rw [← hl]
      rfl
    have htype := ht.1.asKind (k := .typeIdentifier) hlabel (by decide)
    exact ((htype.asRole .type).parsed.phrase (by simp) (by trivial)).parsed.cons (ih hes)
  | case4 t takesNames es ih =>
    obtain ⟨ts₁, ht, hes⟩ := hes
    exact ht.1.cons (ih hes)
  | case5 t es ih =>
    obtain ⟨ts₁, ht, hes⟩ := hes
    exact Parsed.cons ht (ih hes)

/-- One round of a list of parameters. -/
private theorem entryStep_read {o : Option (List ParameterEntry)}
    (h : (do
        if ← looking (atSymbol true ")") then return none
        let entry ← optional? (parameterEntry rules)
        match ← optional? (symbol true ",") with
        | some comma => return some (entry.toList ++ [.comma comma])
        | none =>
          require entry.isSome
          return some entry.toList : Reader (Option (List ParameterEntry))) ts = some (o, rest)) :
    EntriesRead (o.getD []) ts rest := by
  rw [looking_bind] at h
  split at h
  · obtain ⟨rfl, rfl⟩ := pure_eq_some.mp h
    rfl
  · obtain ⟨entry, ts₁, he, h⟩ := bind_eq_some.mp h
    have hentry : EntriesRead entry.toList ts ts₁ := by
      rcases optional_eq_some.mp he with ⟨e, rfl, hread⟩ | ⟨_, rfl, rfl⟩
      · exact ⟨ts₁, parameterEntry_reads hr hread, rfl⟩
      · rfl
    rcases optional_bind.mp h with ⟨comma, ts₂, hc, h⟩ | ⟨_, h⟩
    · obtain ⟨rfl, rfl⟩ := pure_eq_some.mp h
      exact hentry.append ⟨ts₂, symbol_parsed hc (by decide), rfl⟩
    · obtain ⟨_, h⟩ := require_bind.mp h
      obtain ⟨rfl, rfl⟩ := pure_eq_some.mp h
      exact hentry

/-- Parameters read what they take. -/
theorem parameters_phrased (h : parameters rules ts = some (t, rest)) : Phrased t ts rest := by
  obtain ⟨opening, ts₁, ho, h⟩ := bind_eq_some.mp h
  obtain ⟨groups, ts₂, hg, h⟩ := bind_eq_some.mp h
  simp only [bind_eq_some, require_eq_some, pure_eq_some] at h
  obtain ⟨_, _, ⟨_, rfl⟩, closing, ts₃, hc, rfl, rfl⟩ := h
  refine (Parsed.enclosed ho (declareParameters_parsed ?_) hc (by decide)).phrase (by simp)
    (by trivial)
  exact gather_induction (P := fun groups ts rest => EntriesRead groups.flatten ts rest) hg
    (fun _ => rfl) (fun _ _ h => entryStep_read hr h)
    (fun _ _ _ _ _ h hgroups => (entryStep_read hr h).append hgroups)

private theorem typeParameterDeclaration_phrased
    (h : typeParameterDeclaration rules ts = some (t, rest)) : Phrased t ts rest := by
  simp only [typeParameterDeclaration, bind_eq_some, pure_eq_some] at h
  obtain ⟨parameters, ts₁, hp, element, ts₂, he, rfl, rfl⟩ := h
  have hlabel : ∀ l, element.label = .node l → l.isScope = false := by
    simp only [typeElement, bind_eq_some, pure_eq_some] at he
    obtain ⟨first, us₁, _, more, us₂, _, rfl, rfl⟩ := he
    intro l hl
    obtain rfl := Label.node.inj hl
    rfl
  have helement := (typeElement_phrased hr he).parsed.asKind (k := .typeConstraint) hlabel
    (by decide)
  exact ((names_parsed hp (by decide)).append (helement.asRole .type).parsed).phrase (by simp)
    (by trivial)

/-- Type parameters read what they take. -/
theorem typeParameters_phrased (h : typeParameters rules ts = some (t, rest)) :
    Phrased t ts rest := by
  simp only [typeParameters, bind_eq_some, ↓require_bind, pure_eq_some] at h
  obtain ⟨opening, ts₁, ho, items, ts₂, hi, _, closing, ts₃, hc, rfl, rfl⟩ := h
  exact (Parsed.enclosed ho
    (commaList_parsed hi fun h => (typeParameterDeclaration_phrased hr h).parsed) hc
      (by decide)).phrase (by simp) (by trivial)

end GoContracts.Syntax.Grammar

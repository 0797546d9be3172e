import GoContracts.Proofs.Syntax.Grammar.SpecFree
import GoContracts.Proofs.Syntax.Grammar.SpelledTypes

/-!
# Import specs in types

What the rules for types and parameters make is free of import specs if their parts are.
-/

namespace GoContracts.Syntax.Grammar

variable {rules : Rules} {c : Context} {free : Bool}

/-- Whether the rules yield trees without import specs from such trees. -/
structure Untouched (rules : Rules) : Prop where
  binary : ∀ {c : Context} {level : Nat}, specFree c.stars → Clean (rules (.binary c level))
  operand : ∀ {c : Context}, specFree c.stars → Clean (rules (.operand c))
  type : ∀ {free : Bool}, Clean (rules (.type free))
  parameters : Clean (rules .parameters)
  block : Clean (rules .block)
  statement : Clean (rules .statement)

private theorem clean_tag : Clean tag? :=
  clean_optional_bind (yields_orElse (clean_lexeme (by decide)) (clean_lexeme (by decide)))
    (fun _ h => yields_pure (by simp [h])) (yields_pure (by simp))

/-- Names have no specification. -/
theorem clean_names {k : Kind} (hk : k ≠ .importSpec) : Clean (names k) :=
  clean_bind (clean_name hk) fun _ hfirst =>
    clean_bind (clean_separated (clean_name hk) (f := (·.asRole .name)) fun _ h => by simp [h])
      fun _ hmore => yields_pure (by simp [hfirst, hmore])

section

variable (hr : Untouched rules)
include hr

/-! ### Types -/

private theorem clean_typeElement : Clean (typeElement rules free) :=
  clean_bind hr.type fun _ hfirst => clean_bind (clean_separated hr.type (f := id) fun _ h => h)
    fun _ hmore => yields_pure (by simp [hfirst, hmore])

private theorem clean_typeArguments : Clean (typeArguments rules free) :=
  clean_bind clean_symbol fun _ ho => clean_bind (clean_commaList (clean_typeElement hr))
    fun _ hitems => yields_bind fun _ => clean_bind clean_symbol fun _ hc =>
      yields_pure (by simp [ho, hitems, hc])

private theorem clean_namedType : Clean (namedType rules free) := by
  refine clean_bind (clean_name (by decide)) fun first hfirst => yields_bind fun _ => yields_ite
    (clean_bind clean_symbol fun _ hdot => clean_bind (clean_name (by decide)) fun _ hmember =>
      clean_bind (yields_pure (by simp [hfirst, hdot, hmember])) ?_)
    (clean_bind (yields_pure hfirst) ?_)
  all_goals
    exact fun _ hbase => clean_optional_bind (clean_typeArguments hr)
      (fun _ ha => yields_pure (by simp [hbase, ha])) (yields_pure hbase)

/-- A result has no specification. -/
theorem clean_result : Clean (result? rules free) :=
  yields_bind fun _ => yields_ite
    (clean_bind hr.parameters fun _ h => yields_pure (by simpa using h))
    (yields_bind fun _ => yields_ite (clean_bind hr.type fun _ h => yields_pure (by simpa using h))
      (yields_pure specFree_none))

/-- A signature has no specification. -/
theorem clean_signature : Clean (signature rules free) :=
  clean_bind hr.parameters fun _ hp => clean_bind (clean_result hr) fun _ hresult =>
    yields_pure (by simp [hp, hresult])

private theorem clean_functionType : Clean (functionType rules free) :=
  clean_bind clean_keyword fun _ hf => clean_bind (clean_signature hr) fun _ hs =>
    yields_pure (by simp [hf, hs])

private theorem clean_mapType : Clean (mapType rules free) :=
  clean_bind clean_keyword fun _ hmap => clean_bind clean_symbol fun _ ho =>
    clean_bind hr.type fun _ hkey => clean_bind clean_symbol fun _ hc =>
      clean_bind hr.type fun _ hvalue => yields_pure (by simp [hmap, ho, hkey, hc, hvalue])

/-- A channel type has no specification. -/
theorem clean_channelType : Clean (channelType rules free) := by
  refine yields_bind fun _ => yields_ite
    (clean_bind clean_symbol fun _ harrow => clean_bind clean_keyword fun _ hchan =>
      clean_bind (yields_pure (by simp [harrow, hchan])) ?_)
    (clean_bind clean_keyword fun _ hchan => clean_optional_bind clean_symbol
      (fun _ harrow => clean_bind (yields_pure (by simp [hchan, harrow])) ?_)
      (clean_bind (yields_pure (by simp [hchan])) ?_))
  all_goals exact fun _ hmarks => clean_bind hr.type fun _ hvalue =>
    yields_pure (by simp [hmarks, hvalue])

private theorem clean_arrayType : Clean (arrayType rules free) :=
  clean_bind clean_symbol fun _ ho => clean_optional_bind clean_symbol
    (fun _ hc => clean_bind hr.type fun _ helement => yields_pure (by simp [ho, hc, helement]))
    (clean_bind (hr.binary specFree_nil) fun _ hlength => clean_bind clean_symbol fun _ hc =>
      clean_bind hr.type fun _ helement => yields_pure (by simp [ho, hlength, hc, helement]))

private theorem clean_fieldDeclaration : Clean (fieldDeclaration rules) :=
  yields_orElse
    (clean_bind (clean_optional clean_symbol) fun _ hstar => clean_bind (clean_namedType hr)
      fun _ htype => yields_bind fun _ => yields_bind fun _ => clean_bind clean_tag fun _ htag =>
        yields_pure (by simp [hstar, htype, htag]))
    (clean_bind (clean_names (by decide)) fun _ hnames => clean_bind hr.type fun _ htype =>
      clean_bind clean_tag fun _ htag => yields_pure (by simp [hnames, htype, htag]))

private theorem clean_structType : Clean (structType rules free) :=
  clean_bind clean_keyword fun _ hs => clean_bind clean_symbol fun _ ho =>
    clean_bind (clean_terminatedList (clean_fieldDeclaration hr)) fun _ hfields =>
      clean_bind clean_symbol fun _ hc => yields_pure (by simp [hs, ho, hfields, hc])

private theorem clean_methodElement : Clean (methodElement rules) :=
  clean_bind (clean_name (by decide)) fun _ hmethod => clean_bind (clean_signature hr)
    fun _ hs => yields_pure (by simp [hmethod, hs])

private theorem clean_interfaceType : Clean (interfaceType rules free) :=
  clean_bind clean_keyword fun _ hi => clean_bind clean_symbol fun _ ho =>
    clean_bind (clean_terminatedList
      (yields_orElse (clean_methodElement hr) (clean_typeElement hr))) fun _ helements =>
      clean_bind clean_symbol fun _ hc => yields_pure (by simp [hi, ho, helements, hc])

/-- A type has no specification. -/
theorem clean_type : Clean (type rules free) :=
  yields_bind fun _ => yields_bind fun _ => yields_ite (clean_functionType hr) <|
    yields_ite (clean_mapType hr) <| yields_ite (clean_channelType hr) <|
    yields_ite (clean_structType hr) <| yields_ite (clean_interfaceType hr) <|
    yields_ite (clean_arrayType hr) <|
    yields_ite (clean_bind clean_symbol fun _ hs => clean_bind hr.type fun _ ht =>
      yields_pure (by simp [hs, ht])) <|
    yields_ite (clean_bind clean_symbol fun _ hs => clean_bind hr.type fun _ ht =>
      yields_pure (by simp [hs, ht])) <|
    yields_ite (clean_bind clean_symbol fun _ ho => clean_bind hr.type fun _ ht =>
      clean_bind clean_symbol fun _ hc => yields_pure (by simp [ho, ht, hc])) <|
    clean_namedType hr

end

/-! ### Parameters -/

instance : HoldsTrees ParameterEntry :=
  ⟨fun entry => match entry with
    | .lone t => specFree t
    | .declared t _ => specFree t
    | .comma t => specFree t⟩

/-- An entry of one tree has no specification if the tree has none. -/
@[simp] theorem specFree_lone {t : Tree} : specFree (ParameterEntry.lone t) ↔ specFree t := .rfl

/-- An entry that is declared has no specification if its tree has none. -/
@[simp] theorem specFree_declared {t : Tree} {takesNames : Bool} :
    specFree (ParameterEntry.declared t takesNames) ↔ specFree t := .rfl

/-- A comma has no specification if its tree has none. -/
@[simp] theorem specFree_comma {t : Tree} : specFree (ParameterEntry.comma t) ↔ specFree t := .rfl

private theorem clean_parameterEntry (hr : Untouched rules) : Clean (parameterEntry rules) := by
  have hend : Clean (parameterEntry.atEntryEnd) := yields_bind fun _ => fun _ _ _ _ => trivial
  refine yields_orElse ?variadic (yields_orElse ?bare (yields_orElse ?alone ?typed))
  case variadic =>
    exact clean_bind (clean_optional (clean_name (by decide))) fun o ho =>
      clean_bind clean_symbol fun _ hdots => clean_bind hr.type fun _ ht => yields_pure
        (specFree_node (by decide) (by
          simpa [hdots, ht] using specFree_mapOption ho fun _ h => by simpa using h))
  case bare =>
    exact clean_bind (clean_name (by decide)) fun _ hword => yields_bind fun _ => yields_pure hword
  case alone =>
    exact clean_bind hr.type fun _ ht => yields_bind fun _ =>
      yields_pure (specFree_node (by decide) (by simp [ht]))
  case typed =>
    exact clean_bind (clean_name (by decide)) fun _ hword => clean_bind hr.type fun _ ht =>
      yields_bind fun _ => yields_pure (specFree_node (by decide) (by simp [hword, ht]))

private theorem specFree_joined {entries : List ParameterEntry} (h : specFree entries)
    {more : List Tree}
    {k : Nat} (hjoined : declareParameters.joined entries = some (more, k)) : specFree more := by
  fun_induction declareParameters.joined entries generalizing more k with
  | case1 c d rest =>
    obtain ⟨rfl, _⟩ := Prod.mk.inj (Option.some.inj hjoined)
    simp only [specFree_cons, specFree_comma, specFree_declared] at h ⊢
    exact ⟨h.1, specFree_children h.2.1⟩
  | case2 c t rest ih =>
    obtain ⟨⟨some, n⟩, hrest, heq⟩ := Option.map_eq_some_iff.mp hjoined
    obtain ⟨rfl, _⟩ := Prod.mk.inj heq
    simp only [specFree_cons, specFree_comma, specFree_lone] at h
    simp [h.1, h.2.1, ih h.2.2 hrest]
  | case3 entries => simp at hjoined

private theorem specFree_declareParameters {entries : List ParameterEntry} (h : specFree entries) :
    specFree (declareParameters entries) := by
  fun_induction declareParameters entries with
  | case1 => exact specFree_nil
  | case2 t rest more k hjoined ih =>
    obtain ⟨ht, hrest⟩ := specFree_cons.mp h
    have hdrop : specFree (rest.drop k) := fun entry hentry =>
      hrest entry (List.mem_of_mem_drop hentry)
    have hmore := specFree_joined hrest hjoined
    exact specFree_cons.mpr ⟨specFree_node (by decide) (by simpa [hmore] using ht), ih hdrop⟩
  | case3 t rest hjoined ih =>
    obtain ⟨ht, hrest⟩ := specFree_cons.mp h
    refine specFree_cons.mpr ⟨specFree_node (by decide) ?_, ih hrest⟩
    simpa using specFree_asKind (k := .typeIdentifier) (by decide) ht
  | case4 t takesNames rest ih =>
    obtain ⟨ht, hrest⟩ := specFree_cons.mp h
    exact specFree_cons.mpr ⟨ht, ih hrest⟩
  | case5 t rest ih =>
    obtain ⟨ht, hrest⟩ := specFree_cons.mp h
    exact specFree_cons.mpr ⟨ht, ih hrest⟩

/-- Parameters have no specification. -/
theorem clean_parameters (hr : Untouched rules) : Clean (parameters rules) := by
  unfold parameters
  refine clean_bind clean_symbol fun _ ho => clean_bind (clean_gather ?_) fun _ hentries =>
    yields_bind fun _ => clean_bind clean_symbol fun _ hc => yields_pure (specFree_node (by decide)
      (by simp [ho, hc, specFree_declareParameters (specFree_flatten.mpr hentries)]))
  exact yields_bind fun _ => yields_ite (yields_pure specFree_none)
    (clean_bind (clean_optional (clean_parameterEntry hr)) fun _ hentry =>
      clean_optional_bind clean_symbol (fun _ hcomma => yields_pure (by simp [hentry, hcomma]))
        (yields_bind fun _ => yields_pure (by simp [hentry])))

section

variable (hr : Untouched rules)
include hr

private theorem clean_typeParameterDeclaration : Clean (typeParameterDeclaration rules) :=
  clean_bind (clean_names (by decide)) fun _ hnames => clean_bind (clean_typeElement hr)
    fun _ helement => yields_pure (by simp [hnames, helement])

/-- Type parameters have no specification. -/
theorem clean_typeParameters : Clean (typeParameters rules) :=
  clean_bind clean_symbol fun _ ho => clean_bind
    (clean_commaList (clean_typeParameterDeclaration hr)) fun _ hitems => yields_bind fun _ =>
      clean_bind clean_symbol fun _ hc => yields_pure (by simp [ho, hitems, hc])

end

end GoContracts.Syntax.Grammar

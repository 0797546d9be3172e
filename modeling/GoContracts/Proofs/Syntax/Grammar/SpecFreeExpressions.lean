import GoContracts.Proofs.Syntax.Grammar.Expressions
import GoContracts.Proofs.Syntax.Grammar.SpecFreeTypes

/-!
# Import specs in expressions

What the rules for expressions make is free of import specs if their parts and the stars before an
operand are.
-/

namespace GoContracts.Syntax.Grammar

variable {rules : Rules} {c : Context} {free : Bool} {t u : Tree} {stars : List Tree}

/-! ### Readings -/

/-- The type that an expression spells is made of its parts. -/
theorem specFree_spelledType (h : specFree t) (hu : spelledType? t = some u) : specFree u := by
  fun_induction spelledType? t generalizing u with
  | case1 role start stop =>
    obtain rfl := Option.some.inj hu
    exact specFree_withoutRole.mpr (specFree_asKind (by decide) h)
  | case2 role start stop operand dot field ho =>
    obtain rfl := Option.some.inj hu
    obtain ⟨_, hparts⟩ := specFree_mk.mp h
    simp only [specFree_cons] at hparts
    have hoperand := specFree_asKind (k := .packageIdentifier) (by decide) hparts.1
    have hfield := specFree_asKind (k := .typeIdentifier) (by decide) hparts.2.2.1
    exact specFree_node (by decide) (by simp [hparts.2.1, hoperand, hfield])
  | case3 => simp at hu
  | case4 role start stop operator operand ih =>
    simp only [Option.bind_eq_bind, Option.bind_eq_some_iff, Option.filter_eq_some_iff,
      Option.ite_none_right_eq_some, Option.some.injEq] at hu
    obtain ⟨type, ⟨htype, _⟩, _, rfl⟩ := hu
    obtain ⟨_, hparts⟩ := specFree_mk.mp h
    simp only [specFree_cons] at hparts
    exact specFree_node (by decide) (by simp [hparts.1, ih hparts.2.1 htype])
  | case5 role start stop opening inner closing ih =>
    simp only [Option.bind_eq_bind, Option.bind_eq_some_iff, Option.filter_eq_some_iff,
      Option.some.injEq] at hu
    obtain ⟨type, ⟨htype, _⟩, rfl⟩ := hu
    obtain ⟨_, hparts⟩ := specFree_mk.mp h
    simp only [specFree_cons] at hparts
    exact specFree_node (by decide) (by simp [hparts.1, hparts.2.2.1, ih hparts.2.1 htype])
  | case6 role start stop left operator right ih₁ ih₂ =>
    simp only [Option.bind_eq_bind, Option.bind_eq_some_iff, Option.filter_eq_some_iff,
      Option.ite_none_right_eq_some, Option.some.injEq] at hu
    obtain ⟨first, hfirst, second, ⟨hsecond, _⟩, _, rfl⟩ := hu
    obtain ⟨_, hparts⟩ := specFree_mk.mp h
    simp only [specFree_cons] at hparts
    have helements : specFree (if first.is .typeElem then first.children else [first]) := by
      have hspelled := ih₁ hparts.1 hfirst
      split
      · exact specFree_children hspelled
      · exact specFree_cons.mpr ⟨hspelled, specFree_nil⟩
    exact specFree_node (by decide) (by simp [helements, hparts.2.1, ih₂ hparts.2.2.1 hsecond])
  | case7 role start stop operand opening index closing ih₁ ih₂ =>
    simp only [Option.bind_eq_bind, Option.bind_eq_some_iff, Option.filter_eq_some_iff,
      Option.some.injEq] at hu
    obtain ⟨base, ⟨hbase, _⟩, element, hindex, rfl⟩ := hu
    obtain ⟨_, hparts⟩ := specFree_mk.mp h
    simp only [specFree_cons] at hparts
    have helement : specFree
      (if element.is .typeElem then element else .node .typeElem [element]) := by
      have hspelled := ih₂ hparts.2.2.1 hindex
      split
      · exact hspelled
      · exact specFree_node (by decide) (specFree_cons.mpr ⟨hspelled, specFree_nil⟩)
    have harguments : specFree (Tree.node .typeArguments [opening, _, closing]) :=
      specFree_node (by decide) (by simpa [hparts.2.1, hparts.2.2.2.1] using helement)
    exact specFree_node (by decide) (by simpa [ih₁ hparts.1 hbase] using harguments)
  | case8 role start stop type opening items hn =>
    obtain rfl := Option.some.inj hu
    obtain ⟨_, hparts⟩ := specFree_mk.mp h
    simp only [specFree_cons] at hparts
    have hitems : specFree (items.map fun t => if isType t then .node .typeElem [t] else t) :=
      specFree_map hparts.2.2 fun t ht => by
        split
        · exact specFree_node (by decide) (specFree_cons.mpr ⟨ht, specFree_nil⟩)
        · exact ht
    have harguments := specFree_node (k := .typeArguments) (by decide)
      (specFree_cons.mpr ⟨hparts.2.1, hitems⟩)
    exact specFree_node (by decide) (by simpa [hparts.1] using harguments)
  | case9 => simp at hu
  | case10 k role start stop cs =>
    simp only [Option.ite_none_right_eq_some, Option.some.injEq] at hu
    obtain ⟨_, rfl⟩ := hu
    exact specFree_withoutRole.mpr h
  | case11 k role start stop cs _ hk => simp [hk] at hu
  | case12 => simp at hu

private theorem specFree_typeReading (h : specFree t) (hu : typeReading? t = some u) : specFree u :=
  specFree_spelledType h (Option.filter_eq_some_iff.mp hu).1

private theorem specFree_elementReading (h : specFree t) (hu : elementReading? t = some u) :
    specFree u := by
  obtain ⟨type, htype, rfl⟩ := Option.map_eq_some_iff.mp hu
  have hspelled := specFree_spelledType h htype
  split
  · exact hspelled
  · exact specFree_node (by decide) (specFree_cons.mpr ⟨hspelled, specFree_nil⟩)

private theorem specFree_pointerType (hs : specFree stars) (ht : specFree t) :
    specFree (pointerType stars t) := by
  induction stars with
  | nil => exact ht
  | cons star stars ih =>
    obtain ⟨hstar, hstars⟩ := specFree_cons.mp hs
    exact specFree_node (by decide)
      (specFree_cons.mpr ⟨hstar, specFree_cons.mpr ⟨ih hstars, specFree_nil⟩⟩)

private theorem specFree_conversion {type arguments : Tree} (htype : specFree type)
    (ha : specFree arguments) (h : conversion? type arguments = some t) : specFree t := by
  unfold conversion? at h
  split at h
  · simp only [Option.ite_none_left_eq_some, Option.some.injEq] at h
    obtain ⟨_, rfl⟩ := h
    have hmap := specFree_map (specFree_children ha)
      (f := fun t => if t.isNamed then t.asRole .operand else t) fun t ht => by
        split
        · exact specFree_asRole.mpr ht
        · exact ht
    exact specFree_node (by decide) (by simpa [htype] using hmap)
  · simp at h

private theorem specFree_callOf {function arguments : Tree} (hf : specFree function)
    (ha : specFree arguments) : specFree (callOf function arguments) := by
  simp [callOf, hf, ha]

private theorem specFree_genericCall {function typeArguments arguments : Tree}
    (hf : specFree function)
    (ht : specFree typeArguments) (ha : specFree arguments) :
    specFree (genericCall function typeArguments arguments) := by
  simp [genericCall, hf, ht, ha]

private theorem specFree_applied {operand arguments : Tree} (hs : specFree stars)
    (ho : specFree operand)
    (ha : specFree arguments) (h : applied? stars operand arguments = some t) : specFree t := by
  rcases applied_cases h with ⟨type, htype, hconversion⟩ |
    ⟨role?, start, stop, function, opening, index, closing, element, rfl, helement, rfl⟩ | rfl
  · exact specFree_conversion (specFree_pointerType hs (specFree_typeReading ho htype)) ha
      hconversion
  · obtain ⟨_, hparts⟩ := specFree_mk.mp ho
    simp only [specFree_cons] at hparts
    have hindex := specFree_elementReading hparts.2.2.1 helement
    exact specFree_genericCall hparts.1
      (specFree_node (by decide) (by simp [hparts.2.1, hindex, hparts.2.2.2.1])) ha
  · exact specFree_callOf ho ha

private theorem specFree_indexed {operand opening index closing : Tree} (hs : specFree stars)
    (ho : specFree operand) (hopening : specFree opening) (hi : specFree index)
    (hc : specFree closing) : specFree (indexed stars operand opening index closing) := by
  have hplain : specFree (Tree.node .indexExpression
      [operand.asRole .operand, opening, index.asRole .index, closing]) :=
    specFree_node (by decide) (by simp [ho, hopening, hi, hc])
  unfold indexed
  split
  · next type element htype helement =>
    have htyped : specFree (Tree.node .typeInstantiationExpression
        [(pointerType stars type).asRole .type, opening, element, closing]) :=
      specFree_node (by decide) (by simp [specFree_pointerType hs (specFree_typeReading ho htype),
        hopening, specFree_typeReading hi helement, hc])
    simp only
    split
    · exact htyped
    · exact hplain
  · exact hplain

/-! ### Arguments and elements -/

section

variable (hr : Untouched rules)
include hr

/-- An expression has no specification. -/
theorem clean_expression (hc : specFree c.stars) : Clean (expression rules c) :=
  clean_bind (hr.binary hc) fun _ h => yields_bind fun _ => yields_pure h

private theorem clean_argument : Clean (argument rules) :=
  clean_bind (clean_expression hr specFree_nil) fun _ ht => clean_optional_bind clean_symbol
    (fun _ hdots => yields_pure (by simp [ht, hdots])) (yields_pure ht)

omit hr in
private theorem clean_argumentList {first rest : Reader Tree} (hfirst : Clean first)
    (hrest : Clean rest) :
    Clean (argumentList first rest) :=
  clean_bind clean_symbol fun _ ho => yields_bind fun _ => yields_ite
    (clean_bind clean_symbol fun _ hc => yields_pure (by simp [ho, hc]))
    (clean_bind hfirst fun _ hitem => clean_bind (clean_trailed hrest) fun _ hmore =>
      clean_bind clean_symbol fun _ hc => yields_pure (by simp [ho, hitem, hmore, hc]))

private theorem clean_arguments : Clean (argumentList (argument rules) (argument rules)) :=
  clean_argumentList (clean_argument hr) (clean_argument hr)

private theorem clean_literalValue (n : Nat) : Clean (literalValue rules n) := by
  induction n with
  | zero => exact yields_failure
  | succ n ih =>
    have helement : Clean (do
        let value ←
          if ← looking (atSymbol true "\x7b") then literalValue rules n else expression rules {}
        return Tree.node .literalElement [value]) :=
      yields_bind fun _ => yields_ite
        (clean_bind ih fun _ h => yields_pure (by simp [h]))
        (clean_bind (clean_expression hr specFree_nil) fun _ h => yields_pure (by simp [h]))
    refine clean_bind clean_symbol fun _ ho => clean_bind (clean_commaList (clean_bind helement
      fun _ hfirst => yields_bind fun _ => yields_ite (clean_bind clean_symbol fun _ hcolon =>
        clean_bind helement fun _ hvalue => yields_pure (by simp [hfirst, hcolon, hvalue]))
      (yields_pure hfirst))) fun _ hitems => clean_bind clean_symbol fun _ hc =>
        yields_pure (by simp [ho, hitems, hc])

private theorem clean_compositeLiteral (ht : specFree t) : Clean (compositeLiteral rules t) :=
  clean_bind (fun ts => clean_literalValue hr (ts.length + 1) ts) fun _ hbody =>
    yields_pure (by simp [ht, hbody])

/-! ### Suffixes -/

private theorem clean_selection (ht : specFree t) : Clean (selection rules c t) :=
  yields_bind fun _ => clean_bind clean_symbol fun _ hdot => yields_bind fun _ => yields_ite
    (clean_bind clean_symbol fun _ ho => clean_bind hr.type fun _ htype =>
      clean_bind clean_symbol fun _ hc => yields_pure (by simp [ht, hdot, ho, htype, hc]))
    (clean_bind (clean_name (by decide)) fun _ hfield => yields_pure (by simp [ht, hdot, hfield]))

private theorem clean_sliceOf {opening : Tree} {first : List Tree} (ht : specFree t)
    (ho : specFree opening) (hfirst : specFree first) :
    Clean (sliceOf rules t opening first) := by
  have hbound : ∀ r, Clean (do
      if ← looking fun ts => atSymbol true "]" ts || atSymbol true ":" ts then return []
      return [(← expression rules {}).asRole r]) := fun r =>
    yields_bind fun _ => yields_ite (yields_pure specFree_nil)
      (clean_bind (clean_expression hr specFree_nil) fun _ h => yields_pure (by simp [h]))
  refine clean_bind clean_symbol fun _ hcolon => clean_bind (hbound _) fun _ hfinish =>
    yields_bind fun _ => yields_ite (clean_bind clean_symbol fun _ hs => clean_bind
      (clean_expression hr specFree_nil) fun _ hcapacity =>
        clean_bind (yields_pure (by simp [hs, hcapacity])) ?_)
          (clean_bind (yields_pure specFree_nil) ?_)
  all_goals
    exact fun _ hrest => clean_bind clean_symbol fun _ hc =>
      yields_pure (by simp [ht, ho, hfirst, hcolon, hfinish, hrest, hc])

omit hr in
private theorem clean_spelledItems {reading? : Tree → Option Tree} {items : List Tree}
    (hread : ∀ {t u}, specFree t → reading? t = some u → specFree u) (hitems : specFree items) :
    Clean (spelledItems reading? items) := by
  refine clean_mapM hitems fun t ht => yields_ite ?_ (yields_pure ht)
  split
  · next u hu => exact yields_pure (hread ht hu)
  · exact yields_failure

private theorem clean_bracketed (hc : specFree c.stars) (ht : specFree t) :
    Clean (bracketed rules c t) := by
  refine clean_bind clean_symbol fun opening ho => yields_bind fun _ => yields_ite
    (yields_bind fun _ => clean_sliceOf hr ht ho specFree_nil) ?_
  refine clean_bind (hr.binary specFree_nil) fun first hfirst => yields_bind fun _ => yields_ite
    (yields_bind fun _ => yields_bind fun _ => clean_sliceOf hr ht ho (by simp [hfirst])) ?_
  refine clean_bind (clean_trailed (hr.binary specFree_nil)) fun more hmore =>
    clean_bind clean_symbol fun closing hclosing => yields_bind fun called => yields_ite ?_ ?_
  · exact yields_ite (yields_pure (by simp [ht, ho, hfirst, hclosing]))
      (yields_pure (specFree_indexed hc ht ho hfirst hclosing))
  have hspelled : specFree (first :: more.flatten) := by simp [hfirst, hmore]
  refine yields_ite ?_ ?_
  · refine clean_bind (clean_arguments hr) fun arguments ha => clean_bind
      (clean_spelledItems specFree_elementReading hspelled) fun items hitems => ?_
    have hlist : specFree (Tree.node .typeArguments (opening :: items ++ [closing])) := by
      simp [ho, hitems, hclosing]
    dsimp only
    split
    · next u hu =>
      refine yields_pure ?_
      rcases List.mem_append.mp (mem_of_heaviest hu) with hmem | hmem
      · obtain ⟨base, hbase, hconversion⟩ := Option.bind_eq_some_iff.mp (Option.mem_toList.mp hmem)
        simp only [Option.ite_none_right_eq_some] at hconversion
        refine specFree_conversion (specFree_pointerType hc (specFree_node (by decide) ?_)) ha
          hconversion.2
        simpa [specFree_typeReading ht hbase] using hlist
      · obtain rfl := List.mem_singleton.mp hmem
        exact specFree_genericCall ht hlist ha
    · exact yields_failure
  · split
    · next type htype =>
      exact clean_bind (clean_spelledItems specFree_typeReading hspelled) fun items hitems =>
        yields_pure (by
          simp [specFree_pointerType hc (specFree_typeReading ht htype), ho, hitems, hclosing])
    · exact yields_failure

private theorem clean_literalAfter (ht : specFree t) : Clean (literalAfter? rules c t) := by
  unfold literalAfter?
  split
  · exact yields_pure specFree_none
  · next type htype =>
    have hliteral := clean_compositeLiteral hr (t := type)
      (specFree_typeReading ht (Option.filter_eq_some_iff.mp htype).1)
    exact yields_ite (clean_bind hliteral fun _ h => yields_pure (specFree_some.mpr h))
      (yields_ite (yields_pure specFree_none) (clean_optional (clean_bind hliteral fun _ h =>
        yields_bind fun _ => yields_bind fun _ => yields_pure h)))

private theorem clean_suffix (hc : specFree c.stars) (ht : specFree t) : Clean
    (suffix? rules c t) := by
  refine yields_bind fun ts => yields_ite (yields_pure specFree_none) (yields_ite
    (yields_ite (yields_pure specFree_none)
      (clean_bind (clean_selection hr ht) fun _ h => yields_pure (specFree_some.mpr h)))
    (yields_ite ?_ (yields_ite
      (clean_bind (clean_bracketed hr hc ht) fun _ h => yields_pure (specFree_some.mpr h))
      (yields_ite (clean_literalAfter hr ht) (yields_pure specFree_none)))))
  refine clean_bind (clean_arguments hr) fun arguments ha => ?_
  split
  · next u hu => exact yields_pure (specFree_some.mpr (specFree_applied hc ht ha hu))
  · exact yields_failure

/-! ### Operands -/

private theorem clean_function : Clean (function rules c) :=
  clean_bind clean_keyword fun _ hf => clean_bind (clean_signature hr) fun _ hparts =>
    clean_optional_bind hr.block (fun _ hbody => yields_pure (by simp [hf, hparts, hbody]))
      (yields_pure (by simp [hf, hparts]))

private theorem clean_implicitArrayType : Clean (implicitArrayType rules) :=
  clean_bind clean_symbol fun _ ho => clean_bind clean_symbol fun _ hdots =>
    clean_bind clean_symbol fun _ hc => clean_bind hr.type fun _ helement => yields_bind fun _ =>
      yields_bind fun _ => yields_pure (by simp [ho, hdots, hc, helement])

private theorem clean_allocation : Clean (allocation rules c) :=
  clean_bind (yields_orElse clean_keyword clean_keyword) fun _ hword => yields_bind fun _ =>
    yields_ite (clean_bind (clean_argumentList hr.type (clean_expression hr specFree_nil))
      fun _ ha => yields_pure (specFree_callOf (by simp [hword]) ha))
      (yields_pure (by simp [hword]))

private theorem clean_primary : Clean (primary rules c) := by
  have hkind : ∀ w, wordKind w ≠ .importSpec := by
    intro w
    unfold wordKind
    split_ifs <;> decide
  refine yields_bind fun _ => yields_bind fun ts => ?_
  split
  · exact yields_failure
  · next token _ =>
    split
    · exact clean_lexeme (by decide)
    · exact clean_lexeme (by decide)
    · exact clean_lexeme (by decide)
    · exact clean_lexeme (by decide)
    · exact clean_lexeme (by decide)
    · exact clean_lexeme (by decide)
    · exact yields_ite (clean_function hr) (yields_ite hr.type (yields_ite (clean_allocation hr)
        (clean_name (hkind _))))
    · refine clean_bind clean_symbol fun _ ho => clean_bind (hr.binary specFree_nil) fun inner hi =>
        clean_bind clean_symbol fun _ hclosing => yields_pure (specFree_node ?_ ?_)
      · split <;> decide
      · simp [ho, hi, hclosing]
    · exact yields_orElse (clean_implicitArrayType hr) hr.type
    · exact hr.type
    · exact yields_failure

private theorem clean_suffixed (hc : specFree c.stars) (ht : specFree t) : Clean
    (suffixed rules c t) :=
  clean_extend ht fun _ h => clean_suffix hr hc h

/-- An operand has no specification. -/
theorem clean_operand (hc : specFree c.stars) : Clean (operand rules c) := by
  have hunary : ∀ op, Clean (operand.unary rules c op) := by
    intro op
    refine clean_bind clean_symbol fun operator ho => clean_bind (hr.operand ?_) fun t ht =>
      yields_ite (yields_pure ht) (yields_ite
        (yields_bind fun _ => yields_pure (by simp [ho, ht])) (yields_pure (by simp [ho, ht])))
    split
    · simp [hc, ho]
    · exact specFree_nil
  refine yields_bind fun _ => yields_bind fun ts => ?_
  split
  · exact clean_bind (clean_primary hr) fun _ h => clean_suffixed hr hc h
  · exact yields_orElse (clean_bind (clean_channelType hr) fun _ h => clean_suffixed hr hc h)
      (hunary _)
  · exact hunary _

/-! ### Binary operators -/

/-- A binary expression has no specification. -/
theorem clean_binary {level : Nat} (hc : specFree c.stars) : Clean (binary rules c level) := by
  refine clean_bind (hr.operand hc) fun first hfirst => clean_extend hfirst fun left hleft =>
    yields_bind fun ts => ?_
  split
  · exact yields_pure specFree_none
  · exact yields_ite (yields_pure specFree_none) (yields_bind fun _ => clean_bind clean_symbol
      fun _ ho => clean_bind (hr.binary hc) fun _ hright => yields_bind fun _ =>
        yields_pure (by simp [hleft, ho, hright]))

/-- A list of expressions has no specification. -/
theorem clean_expressionList (hc : specFree c.stars) : Clean (expressionList rules c) :=
  clean_bind (clean_expression hr hc) fun _ hfirst =>
    clean_bind (clean_separated (clean_expression hr hc) (f := id) fun _ h => h) fun _ hmore =>
      yields_pure (by simp [hfirst, hmore])

end

end GoContracts.Syntax.Grammar

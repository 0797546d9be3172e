import GoContracts.Proofs.Syntax.Grammar.SpelledTypes

/-!
# What the rules for expressions take

Every tree that a rule for expressions yields reads the tokens that the rule took, provided the
rules of its parts do. An operand may also read the stars before it, when they belong to the type of
a conversion; it is typeless from then on, so that no later suffix takes them again.
-/

namespace GoContracts.Syntax.Grammar

variable {free : Bool} {ts ts₀ mid rest : List Token} {t u : Tree} {rules : Rules} {c : Context}

/-! ### Readings -/

/-- A node's parts read the same tokens as children. -/
theorem Parsed.children {k : Kind} {parts : List Tree} (h : Parsed parts ts rest) :
    Parsed (Tree.node k parts).children ts rest := by
  intro ho
  obtain ⟨own, rfl, hr, hb⟩ := h ho
  refine ⟨own, rfl, ?_, hb⟩
  rw [Tree.node, Tree.children, List.filter_eq_self.mpr]
  · exact hr
  · simpa using hr.label_ne_lineBreak

/-- Stars make a pointer type of the type after them. -/
theorem pointerType_phrased {stars : List Tree} {type : Tree} (hs : Taken stars ts₀ ts)
    (ht : Phrased type ts rest) : Phrased (pointerType stars type) ts₀ rest := by
  induction stars generalizing ts₀ with
  | nil =>
    obtain rfl := hs
    exact ht
  | cons star stars ih =>
    obtain ⟨us, hstar, hstars⟩ := hs
    exact (hstar.cons (ih hstars).parsed).phrase (by simp) (by trivial)

/-- What a conversion is made of, read as one. -/
theorem conversion_phrased {type arguments : Tree} (htype : Phrased type ts mid)
    (hargs : Parsed arguments.children mid rest) (h : conversion? type arguments = some t) :
    Phrased t ts rest ∧ Typeless t := by
  unfold conversion? at h
  split at h
  · simp only [Option.ite_none_left_eq_some, Option.some.injEq] at h
    obtain ⟨_, rfl⟩ := h
    have hmap : Parsed
        (arguments.children.map fun t => if t.isNamed then t.asRole .operand else t) mid rest := by
      intro ho
      obtain ⟨own, rfl, hr, hb⟩ := hargs ho
      refine ⟨own, rfl, hr.map fun t _ us ht => ?_, hb⟩
      split
      · exact ht.asRole .operand
      · exact ht
    exact ⟨((htype.asRole .type).parsed.cons hmap).phrase (by simp) (by trivial), typeless_node
      (by decide)⟩
  · simp at h

/-- The heaviest reading is one of them. -/
theorem mem_of_heaviest {readings : List Tree} (h : heaviest readings = some t) :
    t ∈ readings := by
  cases readings with
  | nil => simp [heaviest] at h
  | cons u us =>
    simp only [heaviest, Option.some.injEq] at h
    have hmem : ∀ (l : List Tree) (best : Tree),
        l.foldl (fun best u => if weight best < weight u then u else best) best ∈ best :: l := by
      intro l
      induction l with
      | nil => simp
      | cons v l ih =>
        intro best
        rw [List.foldl_cons]
        split
        · exact List.mem_cons_of_mem _ (ih v)
        · rcases List.mem_cons.mp (ih best) with hb | hb
          · rw [hb]
            exact List.mem_cons_self ..
          · exact List.mem_cons_of_mem _ (List.mem_cons_of_mem _ hb)
    exact h ▸ hmem us u

/-- The readings of an operand before an argument list. -/
theorem applied_cases {stars : List Tree} {operand arguments : Tree}
    (h : applied? stars operand arguments = some t) :
    (∃ type, typeReading? operand = some type ∧
      conversion? (pointerType stars type) arguments = some t) ∨
    (∃ role? start stop function opening index closing element,
      operand = .mk (.node .indexExpression) role? start stop [function, opening, index, closing] ∧
      elementReading? index = some element ∧
      t = genericCall function (.node .typeArguments [opening, element, closing]) arguments) ∨
    t = callOf operand arguments := by
  unfold applied? at h
  simp only at h
  split at h
  · obtain ⟨type, htype, ht⟩ := Option.bind_eq_some_iff.mp h
    exact .inl ⟨type, htype, ht⟩
  · have hmem := mem_of_heaviest h
    simp only [List.mem_append, Option.mem_toList, List.mem_singleton] at hmem
    rcases hmem with (hconversion | hgeneric) | hcall
    · obtain ⟨type, htype, ht⟩ := Option.bind_eq_some_iff.mp hconversion
      exact .inl ⟨type, htype, ht⟩
    · obtain ⟨label, role?, start, stop, cs⟩ := operand
      split at hgeneric
      · next function opening index closing hlabel hcs =>
        obtain ⟨element, he, rfl⟩ := Option.map_eq_some_iff.mp hgeneric
        obtain rfl : label = _ := hlabel
        obtain rfl : cs = _ := hcs
        exact .inr (.inl ⟨_, _, _, _, _, _, _, _, rfl, he, rfl⟩)
      · simp at hgeneric
    · exact .inr (.inr hcall)

/-- The call of a generic function reads what the index and the arguments read. -/
theorem genericCall_phrased {role? : Option Role} {start stop : Nat}
    {function opening index closing element arguments : Tree}
    (h : Phrased (.mk (.node .indexExpression) role? start stop [function, opening, index, closing])
      ts mid)
    (he : elementReading? index = some element) (ha : Phrased arguments mid rest) :
    Phrased (genericCall function (.node .typeArguments [opening, element, closing]) arguments)
      ts rest := by
  have hparts : Parsed [function.asRole .function,
      (Tree.node .typeArguments [opening, element, closing]).asRole .typeArguments] ts mid := by
    intro ho
    obtain ⟨own, rfl, hr, hb⟩ := h.parsed ho
    obtain ⟨hcs, _, _, _, _, _, heq, hn⟩ := hr.children ⟨rfl, .inl (by simp)⟩
    obtain ⟨rfl, rfl, rfl, rfl⟩ : _ ∧ _ ∧ _ ∧ _ := by simpa using heq
    obtain ⟨x, yzw, rfl, hx, hyzw⟩ := hcs.uncons
    obtain ⟨y, zw, rfl, hy, hzw⟩ := hyzw.uncons
    obtain ⟨z, w, rfl, hz, hw⟩ := hzw.uncons
    have hlist := hy.append ((elementReading_reads hz he).2.append hw)
    have hsolid := hr.endsSolid fun l hl => by rw [← Label.node.inj hl]; rfl
    have harguments := hlist.ofParts (k := .typeArguments) (by simp)
      (hb.balanced.of_append (hx.balanced hn)) (hsolid.of_append (hlist.ne_nil (by simp))) trivial
    exact ⟨_, rfl, (hx.asRole .function).append (harguments.asRole .typeArguments), hb⟩
  exact (hparts.append (ha.asRole .arguments).parsed).phrase (by simp) (by trivial)

/-- The tree reads the tokens from `ts` up to `rest`, or it is typeless and has taken the stars from
`ts₀` up to `ts` as well. -/
def Stem (t : Tree) (ts₀ ts rest : List Token) : Prop :=
  Phrased t ts rest ∨ Typeless t ∧ Phrased t ts₀ rest

private theorem Stem.extended (h : Stem u ts₀ ts mid)
    (hp : ∀ {us}, Phrased u us mid → Phrased t us rest) (ho : Typeless u → Typeless t) :
    Stem t ts₀ ts rest :=
  h.imp hp fun h => ⟨ho h.1, hp h.2⟩

private theorem Stem.typeless {t : Tree} (ht : Typeless t)
    (h : Phrased t ts rest ∨ Phrased t ts₀ rest) :
    Stem t ts₀ ts rest :=
  h.imp_right fun h => ⟨ht, h⟩

private theorem applied_stem {stars : List Tree} {operand arguments : Tree}
    (hs : Taken stars ts₀ ts)
    (ho : Stem operand ts₀ ts mid) (ha : Phrased arguments mid rest)
    (hargs : Parsed arguments.children mid rest) (h : applied? stars operand arguments = some t) :
    Stem t ts₀ ts rest := by
  rcases applied_cases h with ⟨type, htype, ht⟩ | ⟨_, _, _, _, _, _, _, _, rfl, he, rfl⟩ | rfl
  · rcases ho with ho | ⟨ho, _⟩
    · obtain ⟨hphrase, htypeless⟩ :=
        conversion_phrased (pointerType_phrased hs (typeReading_phrased ho htype)) hargs ht
      exact .inr ⟨htypeless, hphrase⟩
    · rw [ho.typeReading] at htype
      simp at htype
  · refine .typeless (typeless_node (by decide)) ?_
    rcases ho with ho | ⟨_, ho⟩
    · exact .inl (genericCall_phrased ho he ha)
    · exact .inr (genericCall_phrased ho he ha)
  · refine .typeless (typeless_node (by decide)) ?_
    rcases ho with ho | ⟨_, ho⟩
    · exact .inl (((ho.asRole .function).parsed.cons (ha.asRole .arguments).parsed).phrase (by simp)
        (by trivial))
    · exact .inr (((ho.asRole .function).parsed.cons (ha.asRole .arguments).parsed).phrase (by simp)
        (by trivial))

variable (hr : Sound rules)
include hr

/-! ### Arguments and elements -/

/-- An expression reads what it takes. -/
theorem expression_phrased (h : expression rules c ts = some (t, rest)) (hc : c.stars = []) :
    Phrased t ts rest := by
  simp only [expression, requireExpression, bind_eq_some, require_eq_some, pure_eq_some] at h
  obtain ⟨t, ts₁, ht, _, _, ⟨_, rfl⟩, rfl, rfl⟩ := h
  exact hr.binary hc ht

private theorem argument_phrased (h : argument rules ts = some (t, rest)) : Phrased t ts rest := by
  obtain ⟨t, ts₁, ht, h⟩ := bind_eq_some.mp h
  have ht := expression_phrased hr ht rfl
  rcases optional_bind.mp h with ⟨dots, ts₂, hdots, h⟩ | ⟨_, h⟩
  · obtain ⟨rfl, rfl⟩ := pure_eq_some.mp h
    exact (ht.parsed.cons (symbol_parsed hdots (by decide))).phrase (by simp) (by trivial)
  · obtain ⟨rfl, rfl⟩ := pure_eq_some.mp h
    exact ht

omit hr in
private theorem argumentList_phrased {first more : Reader Tree}
    (h : argumentList first more ts = some (t, rest))
    (hfirst : ∀ {ts t rest}, first ts = some (t, rest) → Phrased t ts rest)
    (hmore : ∀ {ts t rest}, more ts = some (t, rest) → Phrased t ts rest) :
    Phrased t ts rest ∧ Parsed t.children ts rest := by
  obtain ⟨opening, ts₁, ho, h⟩ := bind_eq_some.mp h
  rw [looking_bind] at h
  split at h
  · simp only [bind_eq_some, pure_eq_some] at h
    obtain ⟨closing, ts₂, hc, rfl, rfl⟩ := h
    have hparts := Parsed.enclosed ho .nil hc (by decide)
    exact ⟨hparts.phrase (by simp) (by trivial), hparts.children⟩
  · obtain ⟨item, ts₂, hi, h⟩ := bind_eq_some.mp h
    obtain ⟨groups, ts₃, hg, h⟩ := bind_eq_some.mp h
    simp only [bind_eq_some, pure_eq_some] at h
    obtain ⟨closing, ts₄, hc, rfl, rfl⟩ := h
    have hparts := Parsed.enclosed ho
      ((hfirst hi).parsed.cons (trailed_parsed hg fun h => (hmore h).parsed)) hc (by decide)
    exact ⟨hparts.phrase (by simp) (by trivial), hparts.children⟩

private theorem literalValue_phrased {n : Nat} (h : literalValue rules n ts = some (t, rest)) :
    Phrased t ts rest := by
  induction n generalizing ts t rest with
  | zero => simp [literalValue, failure_eq_some] at h
  | succ n ih =>
    have element {ts rest : List Token} {t : Tree} (h : (do
        let value ←
          if ← looking (atSymbol true "\x7b") then literalValue rules n else expression rules {}
        return .node .literalElement [value] : Reader Tree) ts = some (t, rest)) :
        Phrased t ts rest := by
      rw [looking_bind] at h
      split at h
      · simp only [bind_eq_some, pure_eq_some] at h
        obtain ⟨value, ts₁, hv, rfl, rfl⟩ := h
        exact (ih hv).parsed.phrase (by simp) (by trivial)
      · simp only [bind_eq_some, pure_eq_some] at h
        obtain ⟨value, ts₁, hv, rfl, rfl⟩ := h
        exact (expression_phrased hr hv rfl).parsed.phrase (by simp) (by trivial)
    rw [literalValue] at h
    obtain ⟨opening, ts₁, ho, h⟩ := bind_eq_some.mp h
    obtain ⟨items, ts₂, hi, h⟩ := bind_eq_some.mp h
    simp only [bind_eq_some (x := symbol _ _), pure_eq_some] at h
    obtain ⟨closing, ts₃, hc, rfl, rfl⟩ := h
    refine (Parsed.enclosed ho (commaList_parsed hi fun h => ?_) hc (by decide)).phrase (by simp)
      (by trivial)
    obtain ⟨first, us₁, hfirst, h⟩ := bind_eq_some.mp h
    rw [looking_bind] at h
    split at h
    · obtain ⟨colon, us₂, hcolon, h⟩ := bind_eq_some.mp h
      obtain ⟨value, us₃, hvalue, h⟩ := bind_eq_some.mp h
      obtain ⟨rfl, rfl⟩ := pure_eq_some.mp h
      exact ((((element hfirst).asRole .key).parsed.cons ((symbol_parsed hcolon (by decide)).cons
        ((element hvalue).asRole .value).parsed)).phrase (by simp) (by trivial)).parsed
    · obtain ⟨rfl, rfl⟩ := pure_eq_some.mp h
      exact (element hfirst).parsed

private theorem compositeLiteral_phrased {type : Tree} (ht : Phrased type ts mid)
    (h : compositeLiteral rules type mid = some (t, rest)) : Phrased t ts rest := by
  obtain ⟨body, ts₁, hb, h⟩ := bind_eq_some.mp h
  obtain ⟨rfl, rfl⟩ := pure_eq_some.mp h
  exact ((ht.asRole .type).parsed.cons ((literalValue_phrased hr hb).asRole .body).parsed).phrase
    (by simp) (by trivial)

/-! ### Suffixes of an operand -/

private theorem selection_stem {operand : Tree} (ho : Stem operand ts₀ ts mid)
    (h : selection rules c operand mid = some (t, rest)) : Stem t ts₀ ts rest := by
  simp only [selection, requireExpression, require_bind] at h
  obtain ⟨dot, ts₁, hdot, h⟩ := bind_eq_some.mp h.2
  rw [looking_bind] at h
  split at h
  · simp only [bind_eq_some, pure_eq_some] at h
    obtain ⟨opening, ts₂, hopen, type, ts₃, htype, closing, ts₄, hc, rfl, rfl⟩ := h
    refine ho.extended (fun h => ?_) fun _ => typeless_node (by decide)
    have htype := Parsed.enclosed hopen ((hr.type htype).asRole .type).parsed hc (by decide)
    exact ((h.asRole .operand).parsed.cons ((symbol_parsed hdot (by decide)).cons htype)).phrase
      (by simp) (by trivial)
  · simp only [bind_eq_some, pure_eq_some] at h
    obtain ⟨field, ts₂, hfield, rfl, rfl⟩ := h
    have hname := (name_phrased hfield (by decide)).asRole .field
    have hfield : (field.asRole .field).is .fieldIdentifier = true := by
      have hlabel := label_of_name hfield
      cases field
      exact decide_eq_true hlabel
    refine ho.extended (fun h => ?_) fun h => ?_
    · exact ((h.asRole .operand).parsed.cons ((symbol_parsed hdot (by decide)).cons
        hname.parsed)).phrase
        (by simp) ⟨_, _, _, rfl, hfield⟩
    · refine typeless_selector (h.asRole .operand) ?_
      have hlabel : (operand.asRole .operand).label ≠ .lineBreak := by
        rcases ho with ho | ⟨_, ho⟩
        · exact (ho.asRole .operand).label_ne
        · exact (ho.asRole .operand).label_ne
      simpa using ⟨hlabel, symbol_label_ne hdot, hname.label_ne⟩

private theorem slice_stem {operand opening : Tree} {first : List Tree} {us : List Token}
    (ho : Stem operand ts₀ ts us) (hopen : symbol free "[" us = some (opening, mid))
    {cur : List Token} (hf : Parsed first mid cur)
    (h : sliceOf rules operand opening first cur = some (t, rest)) : Stem t ts₀ ts rest := by
  have bound {r : Role} {ts rest : List Token} {parts : List Tree} (h : (do
      if ← looking fun ts => atSymbol true "]" ts || atSymbol true ":" ts then return []
      return [(← expression rules {}).asRole r] : Reader (List Tree)) ts = some (parts, rest)) :
      Parsed parts ts rest := by
    rw [looking_bind] at h
    split at h
    · obtain ⟨rfl, rfl⟩ := pure_eq_some.mp h
      exact .nil
    · simp only [bind_eq_some, pure_eq_some] at h
      obtain ⟨t, ts₁, ht, rfl, rfl⟩ := h
      exact ((expression_phrased hr ht rfl).asRole r).parsed
  rw [sliceOf] at h
  obtain ⟨colon, ts₁, hcolon, h⟩ := bind_eq_some.mp h
  obtain ⟨finish, ts₂, hfinish, h⟩ := bind_eq_some.mp h
  have whole {more : List Tree} {us : List Token} (hmore : Parsed more ts₂ us) (h : (do
      let closing ← symbol true "]"
      return .node .sliceExpression (operand.asRole .operand :: opening :: first ++
        colon :: finish ++ more ++ [closing]) : Reader Tree) us = some (t, rest)) :
      Stem t ts₀ ts rest := by
    simp only [bind_eq_some, pure_eq_some] at h
    obtain ⟨closing, ts₄, hc, rfl, rfl⟩ := h
    have hbounds := (hf.append ((symbol_parsed hcolon (by decide)).cons (bound hfinish))).append
      hmore
    refine ho.extended (fun h => ?_) fun _ => typeless_node (by decide)
    have hparts := (h.asRole .operand).parsed.cons (Parsed.enclosed hopen hbounds hc (by decide))
    simpa using hparts.phrase (k := .sliceExpression) (by simp) (by trivial)
  rw [looking_bind] at h
  split at h
  · obtain ⟨second, us₁, hs, h⟩ := bind_eq_some.mp h
    obtain ⟨capacity, us₂, hcap, h⟩ := bind_eq_some.mp h
    rw [pure_bind_apply] at h
    have hcap := (expression_phrased hr hcap rfl).asRole .capacity
    exact whole ((symbol_parsed hs (by decide)).cons hcap.parsed) h
  · rw [pure_bind_apply] at h
    exact whole .nil h

omit hr in
/-- What the items of a list spell reads the tokens of the items. -/
theorem spelledItems_read {reading? : Tree → Option Tree} {trees spelled : List Tree}
    (hread : ∀ {t u own}, Reads [t] own → reading? t = some u → Reads [u] own)
    (h : spelledItems reading? trees ts = some (spelled, rest)) :
    ts = rest ∧ ∀ own, Reads trees own → Reads spelled own := by
  unfold spelledItems at h
  induction trees generalizing ts spelled with
  | nil =>
    rw [List.mapM_nil] at h
    obtain ⟨rfl, rfl⟩ := pure_eq_some.mp h
    exact ⟨rfl, fun _ h => h⟩
  | cons t trees ih =>
    simp only [List.mapM_cons, bind_eq_some, pure_eq_some] at h
    obtain ⟨u, ts₁, hu, us, ts₂, hus, rfl, rfl⟩ := h
    have htree : ts = ts₁ ∧ ∀ own, Reads [t] own → Reads [u] own := by
      split at hu
      · cases htype : reading? t with
        | some type =>
          rw [htype] at hu
          obtain ⟨rfl, rfl⟩ := pure_eq_some.mp hu
          exact ⟨rfl, fun own h => hread h htype⟩
        | none =>
          rw [htype] at hu
          exact (failure_eq_some.mp hu).elim
      · obtain ⟨rfl, rfl⟩ := pure_eq_some.mp hu
        exact ⟨rfl, fun _ h => h⟩
    obtain ⟨rfl, htree⟩ := htree
    obtain ⟨rfl, htrees⟩ := ih hus
    refine ⟨rfl, fun own h => ?_⟩
    obtain ⟨x, y, rfl, hx, hy⟩ := h.uncons
    exact (htree x hx).append (htrees y hy)

omit hr in
/-- An instantiated type reads the stars before it, or there are none. -/
theorem instantiation_stem {stars items : List Tree} {type opening : Tree}
    (hs : Taken stars ts₀ ts) (ht : Phrased type ts mid)
    (hi : Parsed (opening :: items) mid rest) (ho : opening.label ≠ .lineBreak) :
    Stem (.node .typeInstantiationExpression
      ((pointerType stars type).asRole .type :: opening :: items)) ts₀ ts rest := by
  have hpointer := (pointerType_phrased hs ht).asRole .type
  cases stars with
  | nil =>
    obtain rfl := hs
    exact .inl ((hpointer.parsed.cons hi).phrase (by simp) (by trivial))
  | cons star stars =>
    exact .inr ⟨typeless_instantiation rfl (by simpa using ⟨hpointer.label_ne, ho⟩),
      (hpointer.parsed.cons hi).phrase (by simp) (by trivial)⟩

omit hr in
private theorem index_stem {operand opening index closing : Tree} {ts₁ ts₂ : List Token}
    (ho : Stem operand ts₀ ts mid) (hopen : symbol free "[" mid = some (opening, ts₁))
    (hi : Phrased index ts₁ ts₂) (hc : symbol true "]" ts₂ = some (closing, rest)) :
    Stem (.node .indexExpression
      [operand.asRole .operand, opening, index.asRole .index, closing]) ts₀ ts rest := by
  have hindex := Parsed.enclosed hopen (hi.asRole .index).parsed hc (by decide)
  refine ho.extended (fun h => ?_) fun h => ?_
  · have hoperand := h.asRole .operand
    exact (hoperand.parsed.cons hindex).phrase (by simp) ⟨_, _, _, _, rfl, hoperand.named⟩
  · refine typeless_index (h.asRole .operand) ?_
    have hlabel : (operand.asRole .operand).label ≠ .lineBreak := by
      rcases ho with ho | ⟨_, ho⟩
      · exact (ho.asRole .operand).label_ne
      · exact (ho.asRole .operand).label_ne
    simpa using ⟨hlabel, symbol_label_ne hopen, (hi.asRole .index).label_ne, symbol_label_ne hc⟩

omit hr in
private theorem indexed_stem {stars : List Tree} {operand opening index closing : Tree}
    {ts₁ ts₂ : List Token} (hs : Taken stars ts₀ ts) (ho : Stem operand ts₀ ts mid)
    (hopen : symbol free "[" mid = some (opening, ts₁)) (hi : Phrased index ts₁ ts₂)
    (hc : symbol true "]" ts₂ = some (closing, rest)) :
    Stem (indexed stars operand opening index closing) ts₀ ts rest := by
  have hplain := index_stem ho hopen hi hc
  unfold indexed
  simp only
  split
  · next type element htype helement =>
    split
    · rcases ho with ho | ⟨ho, _⟩
      · have helement := typeReading_phrased hi helement
        exact instantiation_stem hs (typeReading_phrased ho htype)
          (Parsed.enclosed hopen helement.parsed hc (by decide)) (symbol_label_ne hopen)
      · rw [ho.typeReading] at htype
        simp at htype
    · exact hplain
  · exact hplain

omit hr in
/-- What is read of arguments behind type arguments: a conversion to the instantiated type, or a
call of an instantiated function. -/
private theorem instantiated_stem {stars : List Tree} {operand typeArguments arguments : Tree}
    {ts₁ : List Token} (hs : Taken stars ts₀ ts) (ho : Stem operand ts₀ ts mid)
    (htypes : Phrased typeArguments mid ts₁) (ha : Phrased arguments ts₁ rest)
    (hargs : Parsed arguments.children ts₁ rest)
    (h : t ∈ ((do
        let base ← typeReading? operand
        if isNamedType base then
          conversion? (pointerType stars (.node .genericType
            [base.asRole .type, typeArguments.asRole .typeArguments])) arguments
        else none) : Option Tree).toList ++ [genericCall operand typeArguments arguments]) :
    Stem t ts₀ ts rest := by
  simp only [List.mem_append, Option.mem_toList, List.mem_singleton] at h
  rcases h with hconversion | rfl
  · simp only [Option.bind_eq_bind, Option.bind_eq_some_iff,
      Option.ite_none_right_eq_some] at hconversion
    obtain ⟨base, hbase, _, hconversion⟩ := hconversion
    rcases ho with ho | ⟨ho, _⟩
    · have hgeneric := (((typeReading_phrased ho hbase).asRole .type).parsed.cons
        (htypes.asRole .typeArguments).parsed).phrase (k := .genericType) (by simp) (by trivial)
      obtain ⟨hphrase, htypeless⟩ :=
        conversion_phrased (pointerType_phrased hs hgeneric) hargs hconversion
      exact .inr ⟨htypeless, hphrase⟩
    · rw [ho.typeReading] at hbase
      simp at hbase
  · refine ho.extended (fun h => ?_) fun _ => typeless_node (by decide)
    exact ((h.asRole .function).parsed.cons ((htypes.asRole .typeArguments).parsed.cons
      (ha.asRole .arguments).parsed)).phrase (by simp) (by trivial)

private theorem bracketed_stem {operand : Tree} (hs : Taken c.stars ts₀ ts)
    (ho : Stem operand ts₀ ts mid) (h : bracketed rules c operand mid = some (t, rest)) :
    Stem t ts₀ ts rest := by
  rw [bracketed] at h
  obtain ⟨opening, ts₁, hopen, h⟩ := bind_eq_some.mp h
  rw [looking_bind] at h
  split at h
  · simp only [requireExpression, require_bind] at h
    exact slice_stem hr ho hopen .nil h.2
  obtain ⟨first, ts₂, hfirst, h⟩ := bind_eq_some.mp h
  have hfirst := hr.binary rfl hfirst
  rw [looking_bind] at h
  split at h
  · simp only [requireExpression, require_bind] at h
    exact slice_stem hr ho hopen (hfirst.asRole .start).parsed h.2.2
  obtain ⟨groups, ts₃, hg, h⟩ := bind_eq_some.mp h
  have hitems := hfirst.parsed.cons (trailed_parsed hg fun h => (hr.binary rfl h).parsed)
  obtain ⟨closing, ts₄, hc, h⟩ := bind_eq_some.mp h
  rw [looking_bind] at h
  split at h
  · next hplain =>
    simp only [Bool.and_eq_true, List.isEmpty_iff] at hplain
    rw [hplain.1.1] at hitems
    have hindex : Phrased first ts₁ ts₃ := ⟨hfirst.named, hitems⟩
    split at h
    · obtain ⟨rfl, rfl⟩ := pure_eq_some.mp h
      exact index_stem ho hopen hindex hc
    · obtain ⟨rfl, rfl⟩ := pure_eq_some.mp h
      exact indexed_stem hs ho hopen hindex hc
  -- Only types can be meant inside these brackets.
  have elements {reading? : Tree → Option Tree} {spelled : List Tree} {us vs : List Token}
      (hread : ∀ {t u own}, Reads [t] own → reading? t = some u → Reads [u] own)
      (h : spelledItems reading? (first :: groups.flatten) us = some (spelled, vs)) :
      us = vs ∧ Parsed (opening :: spelled ++ [closing]) mid ts₄ := by
    obtain ⟨heq, hspelled⟩ := spelledItems_read hread h
    refine ⟨heq, Parsed.enclosed hopen (fun hord => ?_) hc (by decide)⟩
    obtain ⟨own, rfl, hreads, hb⟩ := hitems hord
    exact ⟨own, rfl, hspelled own hreads, hb⟩
  split at h
  · obtain ⟨arguments, ts₅, ha, h⟩ := bind_eq_some.mp h
    obtain ⟨spelled, ts₆, he, h⟩ := bind_eq_some.mp h
    obtain ⟨rfl, hlist⟩ := elements (fun h he => (elementReading_reads h he).2) he
    obtain ⟨ha, hargs⟩ := argumentList_phrased ha (argument_phrased hr) (argument_phrased hr)
    have htypes := hlist.phrase (k := .typeArguments) (by simp) (by trivial)
    generalize hreading : heaviest _ = o at h
    cases o with
    | none => exact (failure_eq_some.mp h).elim
    | some reading =>
      obtain ⟨rfl, rfl⟩ := pure_eq_some.mp h
      exact instantiated_stem hs ho htypes ha hargs (mem_of_heaviest hreading)
  · cases htype : typeReading? operand with
    | none =>
      rw [htype] at h
      exact (failure_eq_some.mp h).elim
    | some type =>
      rw [htype] at h
      obtain ⟨spelled, ts₆, he, h⟩ := bind_eq_some.mp h
      obtain ⟨rfl, rfl⟩ := pure_eq_some.mp h
      obtain ⟨rfl, hlist⟩ := elements typeReading_reads he
      rcases ho with ho | ⟨ho, _⟩
      · exact instantiation_stem hs (typeReading_phrased ho htype) hlist (symbol_label_ne hopen)
      · rw [ho.typeReading] at htype
        simp at htype

private theorem literalAfter_stem {operand : Tree} {o : Option Tree} (ho : Stem operand ts₀ ts mid)
    (h : literalAfter? rules c operand mid = some (o, rest)) :
    Stem (o.getD operand) ts₀ ts rest := by
  rw [literalAfter?] at h
  cases htype : (typeReading? operand).filter isLiteralType with
  | none =>
    rw [htype] at h
    obtain ⟨rfl, rfl⟩ := pure_eq_some.mp h
    exact ho
  | some type =>
    rw [htype] at h
    obtain ⟨htype, _⟩ := Option.filter_eq_some_iff.mp htype
    have literal {t : Tree} {rest : List Token}
        (h : compositeLiteral rules type mid = some (t, rest)) : Stem t ts₀ ts rest := by
      rcases ho with ho | ⟨ho, _⟩
      · exact .inl (compositeLiteral_phrased hr (typeReading_phrased ho htype) h)
      · rw [ho.typeReading] at htype
        simp at htype
    rw [ite_eq_some, ite_eq_some] at h
    rcases h with ⟨_, h⟩ | ⟨_, ⟨_, h⟩ | ⟨_, h⟩⟩
    · obtain ⟨t, ts₁, ht, h⟩ := bind_eq_some.mp h
      obtain ⟨rfl, rfl⟩ := pure_eq_some.mp h
      exact literal ht
    · obtain ⟨rfl, rfl⟩ := pure_eq_some.mp h
      exact ho
    · rcases optional_eq_some.mp h with ⟨t, rfl, hread⟩ | ⟨_, rfl, rfl⟩
      · obtain ⟨t, ts₁, ht, hread⟩ := bind_eq_some.mp hread
        rw [looking_bind, require_bind, pure_eq_some] at hread
        obtain ⟨_, rfl, rfl⟩ := hread
        exact literal ht
      · exact ho

private theorem suffix_stem {operand : Tree} {o : Option Tree} (hs : Taken c.stars ts₀ ts)
    (ho : Stem operand ts₀ ts mid) (h : suffix? rules c operand mid = some (o, rest)) :
    Stem (o.getD operand) ts₀ ts rest := by
  rw [suffix?, get_bind] at h
  split at h
  · obtain ⟨rfl, rfl⟩ := pure_eq_some.mp h
    exact ho
  split at h
  · split at h
    · obtain ⟨rfl, rfl⟩ := pure_eq_some.mp h
      exact ho
    · obtain ⟨t, ts₁, ht, h⟩ := bind_eq_some.mp h
      obtain ⟨rfl, rfl⟩ := pure_eq_some.mp h
      exact selection_stem hr ho ht
  split at h
  · obtain ⟨arguments, ts₁, ha, h⟩ := bind_eq_some.mp h
    obtain ⟨ha, hargs⟩ := argumentList_phrased ha (argument_phrased hr) (argument_phrased hr)
    cases ht : applied? c.stars operand arguments with
    | some t =>
      rw [ht] at h
      obtain ⟨rfl, rfl⟩ := pure_eq_some.mp h
      exact applied_stem hs ho ha hargs ht
    | none =>
      rw [ht] at h
      exact (failure_eq_some.mp h).elim
  split at h
  · obtain ⟨t, ts₁, ht, h⟩ := bind_eq_some.mp h
    obtain ⟨rfl, rfl⟩ := pure_eq_some.mp h
    exact bracketed_stem hr hs ho ht
  split at h
  · exact literalAfter_stem hr ho h
  · obtain ⟨rfl, rfl⟩ := pure_eq_some.mp h
    exact ho

/-- Suffixes extend what an operand reads. -/
theorem suffixed_stem {first : Tree} (hs : Taken c.stars ts₀ ts) (hf : Phrased first ts mid)
    (h : suffixed rules c first mid = some (t, rest)) : Stem t ts₀ ts rest :=
  extend_induction (P := fun t cur => Stem t ts₀ ts cur) h (.inl hf)
    (fun _ _ _ ho h => suffix_stem hr hs ho h) (fun _ _ _ _ ho h => suffix_stem hr hs ho h)

/-! ### Operands -/

private theorem function_phrased (h : function rules c ts = some (t, rest)) :
    Phrased t ts rest := by
  obtain ⟨func, ts₁, hfunc, h⟩ := bind_eq_some.mp h
  obtain ⟨parts, ts₂, hparts, h⟩ := bind_eq_some.mp h
  have hparts := (keyword_parsed hfunc).cons (signature_parsed hr hparts)
  rcases optional_bind.mp h with ⟨body, ts₃, hbody, h⟩ | ⟨_, h⟩
  · obtain ⟨rfl, rfl⟩ := pure_eq_some.mp h
    exact (hparts.append ((hr.block hbody).asRole .body).parsed).phrase (by simp) (by trivial)
  · obtain ⟨rfl, rfl⟩ := pure_eq_some.mp h
    exact hparts.phrase (by simp) (by trivial)

private theorem implicitArrayType_phrased (h : implicitArrayType rules ts = some (t, rest)) :
    Phrased t ts rest := by
  simp only [implicitArrayType, bind_eq_some, looking_bind, require_eq_some, pure_eq_some] at h
  obtain ⟨opening, ts₁, ho, dots, ts₂, hdots, closing, ts₃, hc, element, ts₄, he, _, _, ⟨_, rfl⟩,
    rfl, rfl⟩ := h
  exact ((Parsed.enclosed ho (symbol_parsed hdots (by decide)) hc (by decide)).append
    ((hr.type he).asRole .element).parsed).phrase (by simp) (by trivial)

private theorem allocation_phrased (h : allocation rules c ts = some (t, rest)) :
    Phrased t ts rest := by
  obtain ⟨word, ts₁, hword, h⟩ := bind_eq_some.mp h
  have hfunction : Phrased (.node .identifier [word]) ts ts₁ := by
    rcases orElse_eq_some.mp hword with hword | ⟨_, hword⟩
    · exact (keyword_parsed hword).phrase (by simp)
        ⟨word, rfl, .inl (decide_eq_true (label_of_keyword hword))⟩
    · exact (keyword_parsed hword).phrase (by simp)
        ⟨word, rfl, .inr (decide_eq_true (label_of_keyword hword))⟩
  simp only [looking_bind] at h
  split at h
  · simp only [bind_eq_some, pure_eq_some] at h
    obtain ⟨arguments, ts₂, ha, rfl, rfl⟩ := h
    have ha := (argumentList_phrased ha hr.type fun h => expression_phrased hr h rfl).1
    exact ((hfunction.asRole .function).parsed.cons (ha.asRole .arguments).parsed).phrase (by simp)
      (by trivial)
  · obtain ⟨rfl, rfl⟩ := pure_eq_some.mp h
    exact hfunction

omit hr in
private theorem wordKind_notMem (w : String) : wordKind w ∉ composedKinds := by
  unfold wordKind
  repeat' split
  all_goals decide

private theorem primary_phrased (h : primary rules c ts = some (t, rest)) : Phrased t ts rest := by
  rw [primary, skipNewlines_bind, get_bind] at h
  refine Phrased.skip ?_
  cases hhead : (afterNewlines ts).head? with
  | none =>
    rw [hhead] at h
    exact (failure_eq_some.mp h).elim
  | some u =>
    rw [hhead] at h
    cases hx : u.lexeme
    all_goals
      simp only [hx] at h
    all_goals first
      | exact lexeme_phrased h (by simp [Solid]) (by decide) (by decide)
      | exact (failure_eq_some.mp h).elim
      | skip
    case word =>
      repeat' split at h
      · exact function_phrased hr h
      · exact hr.type h
      · exact allocation_phrased hr h
      · exact name_phrased h (wordKind_notMem u.text)
    case symbol mark =>
      by_cases hround : mark = '('
      · subst hround
        simp only [bind_eq_some, pure_eq_some] at h
        obtain ⟨opening, ts₁, ho, inner, ts₂, hi, closing, ts₃, hc, rfl, rfl⟩ := h
        have hinner := hr.binary rfl hi
        have hparts := Parsed.enclosed ho hinner.parsed hc (by decide)
        split
        · exact hparts.phrase (by simp) (by trivial)
        · exact hparts.phrase (by simp) ⟨_, _, _, rfl, decide_eq_true (label_of_symbol ho),
            hinner.named, decide_eq_true (label_of_symbol hc)⟩
      by_cases hsquare : mark = '['
      · subst hsquare
        rcases orElse_eq_some.mp h with h | ⟨_, h⟩
        · exact implicitArrayType_phrased hr h
        · exact hr.type h
      by_cases htilde : mark = '~'
      · subst htilde
        exact hr.type h
      · simp [hround, hsquare, htilde, failure_eq_some] at h

omit hr in
private theorem isPlain_of_mem_unaryOperators :
    ∀ op ∈ unaryOperators, isPlain op = true := by decide

/-- An operand behind an operator. What begins before the operator has taken it already. -/
theorem unary_phrased {op : String} (hop : isPlain op = true) (hs : Taken c.stars ts₀ ts)
    (h : operand.unary rules c op (afterNewlines ts) = some (t, rest)) :
    Phrased t ts rest ∨ Phrased t ts₀ rest := by
  obtain ⟨operator, ts₁, ho, h⟩ := bind_eq_some.mp h
  obtain ⟨u, ts₂, hu, h⟩ := bind_eq_some.mp h
  have hoperator : Parsed [operator] ts ts₁ := (symbol_parsed ho hop).skip
  have hu : Phrased u ts₁ ts₂ ∨ Phrased u ts₀ ts₂ := by
    split at hu
    · exact hr.operand (hs.concat hoperator) hu
    · exact .inl ((hr.operand (show Taken [] ts₁ ts₁ from rfl) hu).elim id id)
  split at h
  · next hle =>
    obtain ⟨rfl, rfl⟩ := pure_eq_some.mp h
    rcases hu with hu | hu
    · refine .inl ⟨hu.named, fun hord => ?_⟩
      have := hoperator.start_lt hu.parsed hord
      omega
    · exact .inr hu
  · next hlt =>
    have pair {k : Kind} {r : Option Role} {star target : Tree}
        (hstar : Parsed [star] ts ts₁)
        (htarget : ∀ {us}, Phrased u us ts₂ → Phrased target us ts₂)
        (hk : ∀ cs, Formed k cs) :
        Phrased (.node k [star, target]) ts ts₂ ∨ Phrased (.node k [star, target]) ts₀ ts₂ := by
      rcases hu with hu | hu
      · exact .inl ((hstar.cons (htarget hu).parsed).phrase (by simp) (hk _))
      · refine .inr ⟨rfl, fun hord => ?_⟩
        have := hs.parsed.start_le hu.parsed hoperator hord
        omega
    split at h
    · rw [require_bind, pure_eq_some] at h
      obtain ⟨_, rfl, rfl⟩ := h
      exact pair (r := none) hoperator id fun _ => trivial
    · obtain ⟨rfl, rfl⟩ := pure_eq_some.mp h
      exact pair (r := none) (hoperator.asRole .operator) (fun h => h.asRole .operand)
        fun _ => trivial

/-- An operand reads what it takes, alone or with the stars before it. -/
theorem operand_phrased (hs : Taken c.stars ts₀ ts)
    (h : operand rules c ts = some (t, rest)) : Phrased t ts rest ∨ Phrased t ts₀ rest := by
  rw [operand, skipNewlines_bind, get_bind] at h
  have suffixes {first : Tree} {mid : List Token} (hf : Phrased first (afterNewlines ts) mid)
      (h : suffixed rules c first mid = some (t, rest)) :
      Phrased t ts rest ∨ Phrased t ts₀ rest :=
    (suffixed_stem hr hs hf.skip h).imp_right And.right
  cases hop : longestSymbol? true unaryOperators (afterNewlines ts) with
  | none =>
    rw [hop] at h
    obtain ⟨first, ts₁, hf, h⟩ := bind_eq_some.mp h
    exact suffixes (primary_phrased hr hf) h
  | some op =>
    rw [hop] at h
    have hplain := isPlain_of_mem_unaryOperators op (mem_of_longestSymbol hop)
    by_cases hreceive : op = "<-"
    · subst hreceive
      rcases orElse_eq_some.mp h with h | ⟨_, h⟩
      · obtain ⟨type, ts₁, ht, h⟩ := bind_eq_some.mp h
        exact suffixes (channelType_phrased hr ht) h
      · exact unary_phrased hr hplain hs h
    · simp only at h
      exact unary_phrased hr hplain hs h

/-! ### Binary operators -/

omit hr in
private theorem isPlain_of_mem_binaryOperators :
    ∀ p ∈ binaryOperators, isPlain p.1 = true := by decide

/-- A binary expression reads what it takes. -/
theorem binary_phrased {level : Nat} (hc : c.stars = [])
    (h : binary rules c level ts = some (t, rest)) : Phrased t ts rest := by
  obtain ⟨first, ts₁, hf, h⟩ := bind_eq_some.mp h
  have hstars : Taken c.stars ts ts := by
    rw [hc]
    rfl
  have hf : Phrased first ts ts₁ := (hr.operand hstars hf).elim id id
  have step {left : Tree} {o : Option Tree} {mid rest : List Token} (hleft : Phrased left ts mid)
      (h : binary.step rules c level left mid = some (o, rest)) :
      Phrased (o.getD left) ts rest := by
    rw [binary.step, get_bind] at h
    cases hop : binaryOperator? c mid with
    | none =>
      rw [hop] at h
      obtain ⟨rfl, rfl⟩ := pure_eq_some.mp h
      exact hleft
    | some p =>
      obtain ⟨op, l⟩ := p
      rw [hop] at h
      have hplain : isPlain op = true := by
        simp only [binaryOperator?, Option.bind_eq_bind, Option.bind_eq_some_iff] at hop
        obtain ⟨_, _, hfind⟩ := hop
        exact isPlain_of_mem_binaryOperators _ (List.mem_of_find?_eq_some hfind)
      rw [ite_eq_some] at h
      rcases h with ⟨_, h⟩ | ⟨_, h⟩
      · obtain ⟨rfl, rfl⟩ := pure_eq_some.mp h
        exact hleft
      · simp only [requireExpression, require_bind] at h
        obtain ⟨operator, ts₂, ho, h⟩ := bind_eq_some.mp h.2
        obtain ⟨right, ts₃, hright, h⟩ := bind_eq_some.mp h
        rw [require_bind, pure_eq_some] at h
        obtain ⟨_, rfl, rfl⟩ := h
        exact ((hleft.asRole .left).parsed.cons (((symbol_parsed ho hplain).asRole .operator).cons
          ((hr.binary hc hright).asRole .right).parsed)).phrase (by simp) (by trivial)
  exact extend_induction (P := fun t cur => Phrased t ts cur) h hf
    (fun _ _ _ hl h => step hl h) (fun _ _ _ _ hl h => step hl h)

/-- A list of expressions reads what it takes. -/
theorem expressionList_phrased (h : expressionList rules c ts = some (t, rest))
    (hc : c.stars = []) : Phrased t ts rest := by
  obtain ⟨first, ts₁, hf, h⟩ := bind_eq_some.mp h
  obtain ⟨groups, ts₂, hg, h⟩ := bind_eq_some.mp h
  obtain ⟨rfl, rfl⟩ := pure_eq_some.mp h
  exact ((expression_phrased hr hf hc).parsed.cons
    (separated_parsed (f := id) hg (fun h => (expression_phrased hr h hc).parsed)
      (by decide))).phrase (by simp) (by trivial)

end GoContracts.Syntax.Grammar

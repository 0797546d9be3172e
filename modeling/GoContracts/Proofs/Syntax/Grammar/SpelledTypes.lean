import GoContracts.Proofs.Syntax.Grammar.Types
import GoContracts.Syntax.Grammar.Expressions

/-!
# What an expression that spells a type reads

The type that an expression spells reads the tokens that the expression reads. A typeless tree
spells no type; what has taken the stars before an operand is one.
-/

namespace GoContracts.Syntax.Grammar

variable {ts mid rest : List Token} {t u : Tree}

/-! ### Names and kinds -/

private theorem isNamed_of_isType (h : isType t = true) : t.isNamed = true := by
  unfold isType at h
  unfold Tree.isNamed
  cases hk : t.kind? with
  | none => simp [hk] at h
  | some k => rfl

private theorem isNamed_of_is {k : Kind} (h : t.is k = true) : t.isNamed = true := by
  simp only [Tree.is, decide_eq_true_eq] at h
  simp [Tree.isNamed, Tree.kind?, h]

private theorem isNamed_of_isNamedType (h : isNamedType t = true) : t.isNamed = true := by
  unfold isNamedType at h
  rcases Bool.or_eq_true_iff.mp h with h | h
  · exact isNamed_of_is h
  · exact isNamed_of_is h

private theorem isScope_of_is {k : Kind} (h : t.is k = true) (hk : k.isScope = false) :
    ∀ l, t.label = .node l → l.isScope = false := by
  intro l hl
  simp only [Tree.is, decide_eq_true_eq, hl, Label.node.injEq] at h
  rwa [h]

private theorem isScope_of_isTypeKind {k : Kind} (h : isTypeKind k = true) : k.isScope = false := by
  cases k <;> first | rfl | exact absurd h (by decide)

private theorem isScope_of_isType (h : isType t = true) :
    ∀ l, t.label = .node l → l.isScope = false := by
  intro l hl
  simp only [isType, Tree.kind?, hl, Option.any_some] at h
  exact isScope_of_isTypeKind h

/-! ### Spelled types -/

/-- No clause spells a type. -/
theorem isScope_of_spelledType (h : spelledType? t = some u) :
    ∀ l, t.label = .node l → l.isScope = false := by
  intro l hl
  rw [spelledType?.eq_def] at h
  split at h
  · next k _ _ _ cs =>
    obtain rfl : k = l := Label.node.inj hl
    dsimp only at h
    split at h
    all_goals first
      | rfl
      | exact isScope_of_isTypeKind (Option.ite_none_right_eq_some.mp h).1
  · simp at h

/-- The children of a node that is no clause read what it reads. -/
private theorem parts_of_node {k : Kind} {role? : Option Role} {start stop : Nat} {c : Tree}
    {cs : List Tree} {own : List Token} (h : Reads [.mk (.node k) role? start stop (c :: cs)] own)
    (hk : k.isScope = false) :
    Reads (c :: cs) own ∧ Balanced own ∧ EndsSolid own ∧ Formed k (c :: cs) := by
  obtain ⟨hparts, hb, hf⟩ := h.children ⟨hk, .inl (by simp)⟩
  refine ⟨hparts, hb, h.endsSolid fun l hl => ?_, hf⟩
  rwa [← Label.node.inj hl]

/-- Three trees read one part each. -/
private theorem exists_three_parts {a b c : Tree} {own : List Token} (h : Reads [a, b, c] own) :
    ∃ x y z, own = x ++ (y ++ z) ∧ Reads [a] x ∧ Reads [b] y ∧ Reads [c] z := by
  obtain ⟨x, yz, rfl, hx, hyz⟩ := h.uncons
  obtain ⟨y, z, rfl, hy, hz⟩ := hyz.uncons
  exact ⟨x, y, z, rfl, hx, hy, hz⟩

/-- A type alone is an element of a list of types. -/
private theorem typeElem_reads {own : List Token} (h : Reads [t] own) (hn : t.isNamed = true)
    (hs : EndsSolid own) : Reads [.node .typeElem [t]] own :=
  h.ofParts (by simp) (h.balanced hn) hs trivial

/-- The types of an element read what the element reads. -/
private theorem types_reads {own : List Token} (h : Reads [t] own) :
    Reads (if t.is .typeElem then t.children else [t]) own := by
  split
  · next hk =>
    obtain ⟨label, role?, start, stop, cs⟩ := t
    obtain rfl : label = .node .typeElem := of_decide_eq_true hk
    exact (h.children ⟨rfl, .inr (by decide)⟩).1
  · exact h

/-- A package and a name in it read what the selector of two names reads. -/
private theorem qualifiedType_reads {operand dot field : Tree} {own : List Token}
    (h : Reads [operand, dot, field] own) (hoperand : operand.is .identifier = true)
    (hfield : field.is .fieldIdentifier = true) (hb : Balanced own) (hs : EndsSolid own) :
    Reads [.node .qualifiedType [(operand.asKind .packageIdentifier).asRole .package, dot,
      (field.asKind .typeIdentifier).asRole .name]] own := by
  obtain ⟨x, y, z, rfl, hx, hy, hz⟩ := exists_three_parts h
  have hpackage := hx.asKind (k := .packageIdentifier) (hx.balanced (isNamed_of_is hoperand))
    (isScope_of_is hoperand rfl) (by decide)
  have hname := hz.asKind (k := .typeIdentifier) (hz.balanced (isNamed_of_is hfield))
    (isScope_of_is hfield rfl) (by decide)
  exact ((hpackage.asRole .package).append (hy.append (hname.asRole .name))).ofParts
    (by simp) hb hs trivial

/-- A type and its arguments read what the two read. -/
private theorem genericType_reads {opening : Tree} {arguments : List Tree} {x y : List Token}
    (htype : Reads [t] x) (hx : Balanced x) (harguments : Reads (opening :: arguments) y)
    (hb : Balanced (x ++ y)) (hs : EndsSolid (x ++ y)) :
    Reads [.node .genericType [t,
      (Tree.node .typeArguments (opening :: arguments)).asRole .typeArguments]] (x ++ y) := by
  have hlist := harguments.ofParts (k := .typeArguments) (by simp) (hb.of_append hx)
    (hs.of_append (harguments.ne_nil (by simp))) trivial
  exact (htype.append (hlist.asRole .typeArguments)).ofParts (by simp) hb hs trivial

/-- A type that an expression spells reads what the expression reads. -/
theorem spelledType_reads {own : List Token} (h : Reads [t] own) (hu : spelledType? t = some u) :
    u.isNamed = true ∧ Reads [u] own := by
  fun_induction spelledType? t generalizing u own with
  | case1 role start stop =>
    obtain rfl := Option.some.inj hu
    have hkind := h.asKind (k := .typeIdentifier) (h.balanced rfl)
      (by rintro l ⟨⟩; rfl) (by decide)
    exact ⟨rfl, hkind.withoutRole⟩
  | case2 role start stop operand dot field ho =>
    obtain rfl := Option.some.inj hu
    obtain ⟨hparts, hb, hs, _, _, _, hcs, hf⟩ := parts_of_node h rfl
    obtain ⟨rfl, rfl, rfl⟩ : _ ∧ _ ∧ _ := by simpa using hcs
    exact ⟨rfl, qualifiedType_reads hparts ho hf hb hs⟩
  | case3 => simp at hu
  | case4 role start stop operator operand ih =>
    simp only [Option.bind_eq_bind, Option.bind_eq_some_iff, Option.filter_eq_some_iff,
      Option.ite_none_right_eq_some, Option.some.injEq] at hu
    obtain ⟨type, ⟨htype, _⟩, _, rfl⟩ := hu
    obtain ⟨hparts, hb, hs, _⟩ := parts_of_node h rfl
    obtain ⟨x, y, rfl, hx, hy⟩ := hparts.uncons
    exact ⟨rfl, (hx.withoutRole.append (ih hy htype).2).ofParts (by simp) hb hs trivial⟩
  | case5 role start stop opening inner closing ih =>
    simp only [Option.bind_eq_bind, Option.bind_eq_some_iff, Option.filter_eq_some_iff,
      Option.some.injEq] at hu
    obtain ⟨type, ⟨htype, _⟩, rfl⟩ := hu
    obtain ⟨hparts, hb, hs, _⟩ := parts_of_node h rfl
    obtain ⟨x, y, z, rfl, hx, hy, hz⟩ := exists_three_parts hparts
    exact ⟨rfl, (hx.append ((ih hy htype).2.append hz)).ofParts (by simp) hb hs trivial⟩
  | case6 role start stop left operator right ih₁ ih₂ =>
    simp only [Option.bind_eq_bind, Option.bind_eq_some_iff, Option.filter_eq_some_iff,
      Option.ite_none_right_eq_some, Option.some.injEq] at hu
    obtain ⟨first, hfirst, second, ⟨hsecond, _⟩, _, rfl⟩ := hu
    obtain ⟨hparts, hb, hs, _⟩ := parts_of_node h rfl
    obtain ⟨x, y, z, rfl, hx, hy, hz⟩ := exists_three_parts hparts
    have helements := (types_reads (ih₁ hx hfirst).2).append
      (hy.withoutRole.append (ih₂ hz hsecond).2)
    exact ⟨rfl, helements.ofParts (by simp) hb hs trivial⟩
  | case7 role start stop operand opening index closing ih₁ ih₂ =>
    simp only [Option.bind_eq_bind, Option.bind_eq_some_iff, Option.filter_eq_some_iff,
      Option.some.injEq] at hu
    obtain ⟨base, ⟨hbase, _⟩, element, hindex, rfl⟩ := hu
    obtain ⟨hparts, hb, hs, _⟩ := parts_of_node h rfl
    obtain ⟨x, yzw, rfl, hx, hyzw⟩ := hparts.uncons
    obtain ⟨y, z, w, rfl, hy, hz, hw⟩ := exists_three_parts hyzw
    obtain ⟨hnamed, hreads⟩ := ih₁ hx hbase
    have helement : Reads [if element.is .typeElem then element else .node .typeElem [element]]
        z := by
      obtain ⟨hn, he⟩ := ih₂ hz hindex
      split
      · exact he
      · exact typeElem_reads he hn (hz.endsSolid (isScope_of_spelledType hindex))
    exact ⟨rfl, genericType_reads (hreads.asRole .type) (hreads.balanced hnamed)
      (hy.append (helement.append hw)) hb hs⟩
  | case8 role start stop type opening items hn =>
    obtain rfl := Option.some.inj hu
    obtain ⟨hparts, hb, hs, _⟩ := parts_of_node h rfl
    obtain ⟨x, yz, rfl, hx, hyz⟩ := hparts.uncons
    obtain ⟨y, z, rfl, hy, hz⟩ := hyz.uncons
    have hitems := hz.map (f := fun t => if isType t then .node .typeElem [t] else t)
      fun t _ us ht => by
        split
        · next hk =>
          exact typeElem_reads ht (isNamed_of_isType hk) (ht.endsSolid (isScope_of_isType hk))
        · exact ht
    exact ⟨rfl, genericType_reads hx (hx.balanced (isNamed_of_isNamedType hn))
      (hy.append hitems) hb hs⟩
  | case9 => simp at hu
  | case10 k role start stop cs =>
    simp only [Option.ite_none_right_eq_some, Option.some.injEq] at hu
    obtain ⟨_, rfl⟩ := hu
    exact ⟨rfl, h.withoutRole⟩
  | case11 k role start stop cs _ hk => simp [hk] at hu
  | case12 => simp at hu

/-- An argument that an expression spells reads what the expression reads. -/
theorem elementReading_reads {own : List Token} (h : Reads [t] own)
    (hu : elementReading? t = some u) : u.isNamed = true ∧ Reads [u] own := by
  simp only [elementReading?, Option.map_eq_some_iff] at hu
  obtain ⟨type, htype, rfl⟩ := hu
  obtain ⟨hn, hreads⟩ := spelledType_reads h htype
  split
  · exact ⟨hn, hreads⟩
  · exact ⟨rfl, typeElem_reads hreads hn (h.endsSolid (isScope_of_spelledType htype))⟩

/-- A type that is read from an expression reads what the expression reads. -/
theorem typeReading_reads {own : List Token} (h : Reads [t] own)
    (hu : typeReading? t = some u) : Reads [u] own :=
  (spelledType_reads h (Option.filter_eq_some_iff.mp hu).1).2

/-- A type that is read from an expression takes what the expression takes. -/
theorem typeReading_phrased (h : Phrased t ts rest) (hu : typeReading? t = some u) :
    Phrased u ts rest := by
  refine ⟨isNamed_of_isType (Option.filter_eq_some_iff.mp hu).2, fun ho => ?_⟩
  obtain ⟨own, rfl, hr, hb⟩ := h.parsed ho
  exact ⟨own, rfl, typeReading_reads hr hu, hb⟩

/-! ### Typeless trees -/

/-- Whether the tree spells no type and is no name. -/
def Typeless (t : Tree) : Prop := spelledType? t = none ∧ t.is .identifier = false

/-- No type is read from a typeless tree. -/
theorem Typeless.typeReading (h : Typeless t) : typeReading? t = none := by
  rw [typeReading?, h.1, Option.filter_none]

/-- Conversions, calls, slices and type assertions are no types, whatever their parts are. -/
theorem typeless_node {k : Kind} {parts : List Tree}
    (hk : k ∈ [Kind.typeConversionExpression, .callExpression, .sliceExpression,
      .typeAssertionExpression]) : Typeless (.node k parts) := by
  simp only [List.mem_cons, List.not_mem_nil, or_false] at hk
  rcases hk with rfl | rfl | rfl | rfl
  all_goals exact ⟨by simp [Tree.node, spelledType?, isTypeKind], rfl⟩

/-- A selection from a typeless tree is typeless. -/
theorem typeless_selector {operand dot field : Tree} (h : Typeless operand)
    (hl : ∀ t ∈ [operand, dot, field], t.label ≠ .lineBreak) :
    Typeless (.node .selectorExpression [operand, dot, field]) := by
  refine ⟨?_, rfl⟩
  simp only [List.forall_mem_cons] at hl
  simp [Tree.node, hl, spelledType?, h.2]

/-- An element of a typeless tree is typeless. -/
theorem typeless_index {operand opening index closing : Tree} (h : Typeless operand)
    (hl : ∀ t ∈ [operand, opening, index, closing], t.label ≠ .lineBreak) :
    Typeless (.node .indexExpression [operand, opening, index, closing]) := by
  refine ⟨?_, rfl⟩
  simp only [List.forall_mem_cons] at hl
  simp [Tree.node, hl, spelledType?, h.1]

/-- The instantiation of a type that has no name is typeless. -/
theorem typeless_instantiation {type opening : Tree} {items : List Tree}
    (h : isNamedType type = false) (hl : ∀ t ∈ [type, opening], t.label ≠ .lineBreak) :
    Typeless (.node .typeInstantiationExpression (type :: opening :: items)) := by
  refine ⟨?_, rfl⟩
  simp only [List.forall_mem_cons] at hl
  simp [Tree.node, hl, spelledType?, h]

/-- The role of a tree does not matter for the type that it spells. -/
private theorem spelledType_asRole (r : Role) : spelledType? (t.asRole r) = spelledType? t := by
  obtain ⟨label, role?, start, stop, cs⟩ := t
  cases label with
  | node k =>
    unfold Tree.asRole spelledType?
    rfl
  | token => rfl
  | lineBreak => rfl

/-- A typeless tree is typeless in each role. -/
theorem Typeless.asRole (h : Typeless t) (r : Role) : Typeless (t.asRole r) := by
  refine ⟨by rw [spelledType_asRole, h.1], ?_⟩
  cases t
  exact h.2

end GoContracts.Syntax.Grammar

import GoContracts.Proofs.Guard.Folding

/-!
# Conditions without variables

Conditions that are composed of truth values and of comparisons between signed integer literals have
one value, and it is found, if the literals are in range: signs do not lead out of a symmetric
range. So a condition of this kind is reported exactly if it is false.
-/

namespace GoContracts.Constant

open Syntax (Tree)

variable {textOf : Tree → String} {t x y : Tree} {operator : String} {c : Constant}

/-! ### Conditions -/

/-- The tree is an integer literal in range, with signs and parentheses around it. -/
inductive IsInteger (textOf : Tree → String) : Tree → Prop
  | numeral {t : Tree} {n : Nat} (ht : t.is .intLiteral) (htext : IsNumeral (textOf t).toList n)
      (hn : n ≤ 2 ^ 127 - 1) : IsInteger textOf t
  | signed {t x : Tree} {operator : String} (ht : IsUnary textOf t operator)
      (hoperator : operator ∈ ["+", "-"]) (hx : t.child? .operand = some x)
      (h : IsInteger textOf x) : IsInteger textOf t
  | enclosed {t x : Tree} (ht : t.is .parenthesizedExpression) (hx : t.items.head? = some x)
      (h : IsInteger textOf x) : IsInteger textOf t

/-- The tree is a condition of truth values and comparisons of integers. -/
inductive IsCondition (textOf : Tree → String) : Tree → Prop
  | literal {t : Tree} {b : Bool} (h : IsLiteral textOf t (.bool b)) : IsCondition textOf t
  | enclosed {t x : Tree} (ht : t.is .parenthesizedExpression) (hx : t.items.head? = some x)
      (h : IsCondition textOf x) : IsCondition textOf t
  | negation {t x : Tree} (ht : IsUnary textOf t "!") (hx : t.child? .operand = some x)
      (h : IsCondition textOf x) : IsCondition textOf t
  | comparison {t x y : Tree} {operator : String} (ht : IsBinary textOf t operator)
      (hoperator : operator ∈ ["==", "!=", "<", "<=", ">", ">="])
      (hx : t.child? .left = some x) (hy : t.child? .right = some y)
      (h : IsInteger textOf x) (h' : IsInteger textOf y) : IsCondition textOf t
  | operation {t x y : Tree} {operator : String} (ht : IsBinary textOf t operator)
      (hoperator : operator ∈ ["&&", "||", "==", "!="])
      (hx : t.child? .left = some x) (hy : t.child? .right = some y)
      (h : IsCondition textOf x) (h' : IsCondition textOf y) : IsCondition textOf t

/-! ### Values -/

/-- The value is found, and it is the only one that the expression has. -/
structure Settled (textOf : Tree → String) (t : Tree) (c : Constant) : Prop where
  found : fold? textOf t = some c
  sound : Sound textOf t
  evaluates : ∀ (α : Type) (assigned : Tree → Option (Value α)),
    Evaluates textOf assigned t (.constant c)

private theorem Settled.evaluates_iff (h : Settled textOf t c) {α : Type}
    {assigned : Tree → Option (Value α)} {v : Value α} :
    Evaluates textOf assigned t v ↔ v = .constant c := by
  constructor
  · intro hv
    exact h.sound α assigned v c hv h.found
  · rintro rfl
    exact h.evaluates α assigned

private theorem not_negatesLeast {k : Syntax.Kind} (ht : t.is k) (hk : k ≠ .unaryExpression) :
    ¬NegatesLeast textOf t := by
  rintro ⟨⟨hunary, -⟩, -⟩
  simp [Tree.is_eq_false ht hk] at hunary

/-- The parts of an expression of a kind have it as their seat. -/
theorem IsPart.cases_of_is {k : Syntax.Kind} (ht : t.is k) (h : IsPart t x) :
    k = .parenthesizedExpression ∧ t.items.head? = some x ∨
    k = .unaryExpression ∧ t.child? .operand = some x ∨
    k = .binaryExpression ∧ (t.child? .left = some x ∨ t.child? .right = some x) := by
  have hkind {k' : Syntax.Kind} (h : t.is k') : k = k' :=
    Syntax.Label.node.inj ((of_decide_eq_true ht).symm.trans (of_decide_eq_true h))
  cases h with
  | enclosed h hx => exact .inl ⟨hkind h, hx⟩
  | operand h hx => exact .inr (.inl ⟨hkind h, hx⟩)
  | left h hx => exact .inr (.inr ⟨hkind h, .inl hx⟩)
  | right h hx => exact .inr (.inr ⟨hkind h, .inr hx⟩)

private theorem settled_literal (h : IsLiteral textOf t c) (hfound : fold? textOf t = some c) :
    Settled textOf t c where
  found := hfound
  sound := by
    obtain ⟨k, ht, hk⟩ : ∃ k, t.is k ∧ k ∉ [.parenthesizedExpression, .unaryExpression,
        .binaryExpression] := by
      cases h with
      | truth h => exact ⟨_, h, by decide⟩
      | falsehood h => exact ⟨_, h, by decide⟩
      | trueName h => exact ⟨_, h, by decide⟩
      | falseName h => exact ⟨_, h, by decide⟩
      | numeral h => exact ⟨_, h, by decide⟩
    simp only [List.mem_cons, List.not_mem_nil, or_false, not_or] at hk
    refine sound_of_parts (fun x hx => ?_) (not_negatesLeast ht hk.2.1)
    rcases hx.cases_of_is ht with ⟨h, -⟩ | ⟨h, -⟩ | ⟨h, -⟩
    · exact absurd h hk.1
    · exact absurd h hk.2.1
    · exact absurd h hk.2.2
  evaluates := fun α assigned => .literal h

private theorem settled_enclosed (ht : t.is .parenthesizedExpression) (hx : t.items.head? = some x)
    (h : Settled textOf x c) : Settled textOf t c where
  found := by rw [fold?_enclosed ht, hx, Option.bind_some, h.found]
  sound := by
    refine sound_of_parts (fun y hy => ?_) (not_negatesLeast ht (by decide))
    rcases hy.cases_of_is ht with ⟨-, hy⟩ | ⟨h, -⟩ | ⟨h, -⟩
    · obtain rfl := Option.some.inj (hx.symm.trans hy)
      exact h.sound
    · cases h
    · cases h
  evaluates := fun α assigned => .enclosed ht hx (h.evaluates α assigned)

private theorem settled_unary {a : Constant} (ht : IsUnary textOf t operator)
    (hx : t.child? .operand = some x) (h : Settled textOf x a) (hc : Unary operator a c)
    (hfound : unary? operator a = some c) (hleast : a ≠ .int (-intBound)) : Settled textOf t c where
  found := by rw [fold?_unary ht, foldChild?_of hx, h.found, Option.bind_some, hfound]
  sound := by
    refine sound_of_parts (fun y hy => ?_) fun hnegates => hleast ?_
    · rcases hy.cases_of_is ht.1 with ⟨h, -⟩ | ⟨-, hy⟩ | ⟨h, -⟩
      · cases h
      · obtain rfl := Option.some.inj (hx.symm.trans hy)
        exact h.sound
      · cases h
    · have hoperand := hnegates.2.1
      rw [foldChild?_of hx, h.found] at hoperand
      exact Option.some.inj hoperand
  evaluates := fun α assigned => .unary ht hx (h.evaluates α assigned) hc

section

variable {a b : Constant}

/-- A binary operation of settled operands is settled, if it has the value that is found. -/
theorem settled_of_operands (ht : IsBinary textOf t operator) (hx : t.child? .left = some x)
    (hy : t.child? .right = some y) (h : Settled textOf x a) (h' : Settled textOf y b)
    (hfound : binary? operator (some a) (some b) = some c)
    (hevaluates : ∀ (α : Type) (assigned : Tree → Option (Value α)),
      Evaluates textOf assigned t (.constant c)) : Settled textOf t c where
  found := by rw [fold?_binary ht, foldChild?_of hx, foldChild?_of hy, h.found, h'.found, hfound]
  sound := by
    refine sound_of_parts (fun z hz => ?_) (not_negatesLeast ht.1 (by decide))
    rcases hz.cases_of_is ht.1 with ⟨h, -⟩ | ⟨h, -⟩ | ⟨-, hz | hz⟩
    · cases h
    · cases h
    · obtain rfl := Option.some.inj (hx.symm.trans hz)
      exact h.sound
    · obtain rfl := Option.some.inj (hy.symm.trans hz)
      exact h'.sound
  evaluates := hevaluates

private theorem settled_binary (ht : IsBinary textOf t operator) (hx : t.child? .left = some x)
    (hy : t.child? .right = some y) (h : Settled textOf x a) (h' : Settled textOf y b)
    (hc : Binary operator a b c) (hfound : binary? operator (some a) (some b) = some c) :
    Settled textOf t c :=
  settled_of_operands ht hx hy h h' hfound fun α assigned =>
    .binary ht hx hy (h.evaluates α assigned) (h'.evaluates α assigned) hc

end

/-- A logical operation of settled operands is decided by one of them, or by neither. -/
theorem settled_logical {a b decisive : Bool} (ht : IsBinary textOf t operator)
    (hoperator : Decides operator decisive) (hx : t.child? .left = some x)
    (hy : t.child? .right = some y) (h : Settled textOf x (.bool a))
    (h' : Settled textOf y (.bool b)) :
    Settled textOf t (.bool (if a = decisive then a else b)) := by
  refine settled_of_operands ht hx hy h h' ((binary?_logical hoperator).mpr ?_) fun α assigned => ?_
  · cases a <;> cases b <;> cases decisive <;> simp
  · split
    · next heq =>
      subst heq
      exact .decided ht hx (h.evaluates α assigned) hoperator
    · next hne =>
      have hnot : decisive = !a := by
        cases a <;> cases decisive <;> simp at hne ⊢
      subst hnot
      exact .undecided ht hx hy (h.evaluates α assigned) hoperator (h'.evaluates α assigned)

/-! ### Which conditions are settled -/

private theorem IsInteger.settled (h : IsInteger textOf t) :
    ∃ i, -intBound < i ∧ i < intBound ∧ Settled textOf t (.int i) := by
  induction h with
  | @numeral t n ht htext hn =>
    have hrange : -intBound < (n : Int) ∧ (n : Int) < intBound := by
      have hbound : intBound = 2 ^ 127 := by decide
      rw [hbound]
      omega
    have hfound : fold? textOf t = some (.int n) :=
      (fold?_literal (.numeral ht htext)).trans (if_pos ⟨hrange.1.le, hrange.2⟩)
    exact ⟨n, hrange.1, hrange.2, settled_literal (.numeral ht htext) hfound⟩
  | @signed t x operator ht hoperator hx _ ih =>
    obtain ⟨i, hlow, hhigh, h⟩ := ih
    have hleast : Constant.int i ≠ .int (-intBound) := fun heq => hlow.ne' (Constant.int.inj heq)
    simp only [List.mem_cons, List.not_mem_nil, or_false] at hoperator
    rcases hoperator with rfl | rfl
    · exact ⟨i, hlow, hhigh, settled_unary ht hx h (.plus i) rfl hleast⟩
    · refine ⟨-i, by omega, by omega, settled_unary ht hx h (.minus i) ?_ hleast⟩
      rw [unary?, if_pos rfl, negate, if_neg hlow.ne']
  | enclosed ht hx _ ih =>
    obtain ⟨i, hlow, hhigh, h⟩ := ih
    exact ⟨i, hlow, hhigh, settled_enclosed ht hx h⟩

private theorem IsCondition.settled (h : IsCondition textOf t) : ∃ b, Settled textOf t
    (.bool b) := by
  induction h with
  | @literal t b h => exact ⟨b, settled_literal h (fold?_literal h)⟩
  | enclosed ht hx _ ih =>
    obtain ⟨b, h⟩ := ih
    exact ⟨b, settled_enclosed ht hx h⟩
  | negation ht hx _ ih =>
    obtain ⟨b, h⟩ := ih
    exact ⟨!b, settled_unary ht hx h (.not b) rfl (by simp)⟩
  | @comparison t x y operator ht hoperator hx hy h h' =>
    obtain ⟨i, -, -, hi⟩ := h.settled
    obtain ⟨j, -, -, hj⟩ := h'.settled
    simp only [List.mem_cons, List.not_mem_nil, or_false] at hoperator
    rcases hoperator with rfl | rfl | rfl | rfl | rfl | rfl
    · exact ⟨_, settled_binary ht hx hy hi hj (.equal i j) rfl⟩
    · exact ⟨_, settled_binary ht hx hy hi hj (.unequal i j) rfl⟩
    · exact ⟨_, settled_binary ht hx hy hi hj (.less i j) rfl⟩
    · exact ⟨_, settled_binary ht hx hy hi hj (.lessEqual i j) rfl⟩
    · exact ⟨_, settled_binary ht hx hy hi hj (.greater i j) rfl⟩
    · exact ⟨_, settled_binary ht hx hy hi hj (.greaterEqual i j) rfl⟩
  | @operation t x y operator ht hoperator hx hy _ _ ih ih' =>
    obtain ⟨a, ha⟩ := ih
    obtain ⟨b, hb⟩ := ih'
    simp only [List.mem_cons, List.not_mem_nil, or_false] at hoperator
    rcases hoperator with rfl | rfl | rfl | rfl
    · exact ⟨_, settled_logical ht (.inl ⟨rfl, rfl⟩) hx hy ha hb⟩
    · exact ⟨_, settled_logical ht (.inr ⟨rfl, rfl⟩) hx hy ha hb⟩
    · exact ⟨_, settled_binary ht hx hy ha hb (.same a b) (by simp [binary?, strictBinary?])⟩
    · exact ⟨_, settled_binary ht hx hy ha hb (.different a b) (by simp [binary?, strictBinary?])⟩

/-- A condition without variables has one value, whatever others have, and folding finds it. So it
is reported exactly if it is false. -/
theorem fold?_of_isCondition {e : Expression} (h : IsCondition e.textOf e.node) :
    ∃ b, (∀ (α : Type) (assigned : Tree → Option (Value α)) (v : Value α),
        Evaluates e.textOf assigned e.node v ↔ v = .constant (.bool b)) ∧
      fold? e.textOf e.node = some (.bool b) ∧ (e.isConstantFalse ↔ b = false) := by
  obtain ⟨b, hb⟩ := h.settled
  refine ⟨b, fun α assigned v => hb.evaluates_iff, hb.found, ?_⟩
  rw [Expression.isConstantFalse, hb.found]
  simp

/-- A condition with literals of three bases. -/
def threeBases : String := "0x1F == 0_37 && -8 > 1_0"

set_option synthInstance.maxSize 1000 in
private theorem threeBases_run : ∃ e, Expression.parse? threeBases = some e ∧
    IsBinary e.textOf e.node "&&" ∧
    (∃ l, e.node.child? .left = some l ∧ IsBinary e.textOf l "==" ∧
      (∃ h, l.child? .left = some h ∧ h.is .intLiteral ∧ e.textOf h = "0x1F") ∧
      ∃ o, l.child? .right = some o ∧ o.is .intLiteral ∧ e.textOf o = "0_37") ∧
    ∃ r, e.node.child? .right = some r ∧ IsBinary e.textOf r ">" ∧
      (∃ m, r.child? .left = some m ∧ IsUnary e.textOf m "-" ∧
        ∃ k, m.child? .operand = some k ∧ k.is .intLiteral ∧ e.textOf k = "8") ∧
      ∃ d, r.child? .right = some d ∧ d.is .intLiteral ∧ e.textOf d = "1_0" := by
  decide +kernel

/-- A condition over integers of three bases folds to the value that evaluation gives it. -/
theorem fold?_threeBases : ∃ e, Expression.parse? threeBases = some e ∧
    IsCondition e.textOf e.node ∧
    ∃ b, (∀ (α : Type) (assigned : Tree → Option (Value α)) (v : Value α),
        Evaluates e.textOf assigned e.node v ↔ v = .constant (.bool b)) ∧
      fold? e.textOf e.node = some (.bool b) ∧ (e.isConstantFalse ↔ b = false) := by
  obtain ⟨e, he, ht, ⟨l, hl, hequal, ⟨h, hh, hhex, hhtext⟩, o, ho, hoctal, hotext⟩, r, hr, hgreater,
    ⟨m, hm, hsign, k, hk, height, hktext⟩, d, hd, hdecimal, hdtext⟩ := threeBases_run
  have hinteger {t : Tree} {s : String} (ht : t.is .intLiteral) (htext : e.textOf t = s) {n : Nat}
      (h : IsNumeral s.toList n) (hn : n ≤ 2 ^ 127 - 1) : IsInteger e.textOf t :=
    .numeral ht (htext ▸ h) hn
  have hhex : IsInteger e.textOf h := by
    have hdigits : Digits 16 (['1'] ++ ['F']) (1 * 16 + 15) :=
      .next (.single ⟨by decide, .inl rfl⟩) ⟨by decide, .inr rfl⟩
    exact hinteger hhex hhtext (.based (.head _) (.plain hdigits)) (by decide)
  have hoctal : IsInteger e.textOf o := by
    have hdigits : Digits 8 (['3'] ++ ['7']) (3 * 8 + 7) :=
      .next (.single ⟨by decide, .inl rfl⟩) ⟨by decide, .inl rfl⟩
    exact hinteger hoctal hotext (.octal (.separated hdigits)) (by decide)
  have height : IsInteger e.textOf k := by
    have hdigits : Digits 10 ['8'] 8 := .single ⟨by decide, .inl rfl⟩
    exact hinteger height hktext (.decimal (by decide) hdigits) (by decide)
  have hdecimal : IsInteger e.textOf d := by
    have hdigits : Digits 10 (['1'] ++ ['_', '0']) (1 * 10 + 0) :=
      .separated (.single ⟨by decide, .inl rfl⟩) ⟨by decide, .inl rfl⟩
    exact hinteger hdecimal hdtext (.decimal (by decide) hdigits) (by decide)
  have hcondition : IsCondition e.textOf e.node :=
    .operation ht (by decide) hl hr (.comparison hequal (by decide) hh ho hhex hoctal)
      (.comparison hgreater (by decide) hm hd (.signed hsign (by decide) hk height) hdecimal)
  exact ⟨e, he, hcondition, fold?_of_isCondition hcondition⟩

end GoContracts.Constant

import GoContracts.Proofs.Guard.Evaluation
import GoContracts.Proofs.Syntax.Seats

/-!
# Soundness of folding

A folded expression has no other value than the one found, whatever its other parts hold, unless a
minus sign stands before an expression that is the least integer of the range: only there does
folding leave the integers. Comparisons and logical operations of literals are all folded.
-/

namespace GoContracts

/-- What is inside a node of a tree is inside the tree. -/
theorem Syntax.Tree.mem_preorder_trans {t u root : Syntax.Tree} (ht : t ∈ u.preorder)
    (hu : u ∈ root.preorder) : t ∈ root.preorder := by
  cases u with
  | mk label role start stop children =>
    rw [preorder] at ht
    rcases List.mem_cons.mp ht with rfl | ht
    · exact hu
    · exact mem_preorder_of_mem ht root hu

namespace Constant

open Syntax (Tree)

variable {textOf : Tree → String} {t x y : Tree} {operator : String} {a b c d : Constant}
  {a? b? : Option Constant}

/-- No evaluation of the expression disagrees with folding. -/
def Sound (textOf : Tree → String) (t : Tree) : Prop :=
  ∀ (α : Type) (assigned : Tree → Option (Value α)) (v : Value α) (c : Constant),
    Evaluates textOf assigned t v → fold? textOf t = some c → v = .constant c

/-- The expression is a minus sign before the least integer of the range, and has a value. -/
def NegatesLeast (textOf : Tree → String) (t : Tree) : Prop :=
  IsUnary textOf t "-" ∧ foldChild? textOf t .operand = some (.int (-intBound)) ∧
    ∃ (α : Type) (assigned : Tree → Option (Value α)) (v : Value α), Evaluates textOf assigned t v

/-! ### Operators -/

private theorem eq_of_ranged {i : Int} (h : ranged i = some c) : c = .int i := by
  obtain ⟨-, h⟩ := Option.ite_none_right_eq_some.mp h
  exact (Option.some.inj h).symm

/-- Folding a unary operation is exact but for the sign before the least integer. -/
theorem Unary.eq (h : Unary operator a c) (hd : unary? operator a = some d) :
    d = c ∨ operator = "-" ∧ a = .int (-intBound) := by
  cases h with
  | not b => exact .inl (Option.some.inj hd).symm
  | plus i => exact .inl (Option.some.inj hd).symm
  | minus i =>
    by_cases hleast : i = -intBound
    · exact .inr ⟨rfl, by rw [hleast]⟩
    · left
      obtain rfl := Option.some.inj hd
      rw [negate, if_neg hleast]

/-- Folding a binary operation is exact. -/
theorem Binary.eq (h : Binary operator a b c) (hd : strictBinary? operator a b = some d) :
    d = c := by
  cases h with
  | sum i j => exact eq_of_ranged hd
  | difference i j => exact eq_of_ranged hd
  | product i j => exact eq_of_ranged hd
  | _ => exact (Option.some.inj hd).symm

private theorem Binary.not_logical (h : Binary operator a b c) :
    operator ≠ "&&" ∧ operator ≠ "||" := by
  cases h <;> decide

/-- The operands of other operators have to be constant. -/
theorem exists_of_binary? (h : binary? operator a? b? = some c)
    (hop : operator ≠ "&&" ∧ operator ≠ "||") :
    ∃ a b, a? = some a ∧ b? = some b ∧ strictBinary? operator a b = some c := by
  rw [binary?, if_neg (by simp [hop.1]), if_neg (by simp [hop.2])] at h
  obtain ⟨a, ha, h⟩ := Option.bind_eq_some_iff.mp h
  obtain ⟨b, hb, h⟩ := Option.bind_eq_some_iff.mp h
  exact ⟨a, b, ha, hb, h⟩

/-- A logical operation is folded if an operand decides it, or both are constant and do not. -/
theorem binary?_logical {b : Bool} (hop : Decides operator b) :
    binary? operator a? b? = some c ↔
      (a? = some (.bool b) ∨ b? = some (.bool b)) ∧ c = .bool b ∨
      a? = some (.bool !b) ∧ b? = some (.bool !b) ∧ c = .bool !b := by
  rcases hop with ⟨rfl, rfl⟩ | ⟨rfl, rfl⟩
  all_goals
    rcases a? with _ | ⟨_ | _⟩ | i <;> rcases b? with _ | ⟨_ | _⟩ | j <;>
      simp [binary?, strictBinary?, intBinary?, eq_comm]

/-- A left operand that decides is the value. -/
theorem binary?_of_decides {b : Bool} (hop : Decides operator b)
    (hleft : ∀ a, a? = some a → a = .bool b) (h : binary? operator a? b? = some c) :
    c = .bool b := by
  rcases (binary?_logical hop).mp h with ⟨-, rfl⟩ | ⟨ha, -, rfl⟩
  · rfl
  · exact hleft _ ha

/-- Behind a left operand that does not decide, the right one is the value. -/
theorem binary?_of_not_decides {a b : Bool} (hop : Decides operator !a)
    (hleft : ∀ c, a? = some c → c = .bool a) (hright : ∀ c, b? = some c → c = .bool b)
    (h : binary? operator a? b? = some c) : c = .bool b := by
  rcases (binary?_logical hop).mp h with ⟨ha | hb, rfl⟩ | ⟨-, hb, rfl⟩
  · have hsame := Constant.bool.inj (hleft _ ha)
    simp at hsame
  · exact hright _ hb
  · exact hright _ hb

/-! ### Soundness -/

/-- The value found for a part is its value. -/
theorem Sound.eq {α : Type} {assigned : Tree → Option (Value α)} (h : Sound textOf x)
    (hx : Evaluates textOf assigned x (.constant a)) (hc : fold? textOf x = some c) : c = a := by
  have heq := h α assigned _ c hx hc
  injection heq with heq
  exact heq.symm

private theorem Sound.not_other {α : Type} {assigned : Tree → Option (Value α)} {e : α}
    (h : Sound textOf x) (hx : Evaluates textOf assigned x (.other e)) : fold? textOf x = none := by
  rw [Option.eq_none_iff_forall_ne_some]
  intro c hc
  have heq := h α assigned _ c hx hc
  injection heq

/-- If folding is sound for the parts of an expression, it is for the expression, unless that
negates the least integer. -/
theorem sound_of_parts (hparts : ∀ x, IsPart t x → Sound textOf x)
    (hleast : ¬NegatesLeast textOf t) : Sound textOf t := by
  intro α assigned v c hv hfold
  have hvalue := hv
  cases hv with
  | @literal _ d h =>
    rw [fold?_literal h] at hfold
    cases d with
    | bool b =>
      obtain rfl := Option.some.inj hfold
      rfl
    | int i => rw [eq_of_ranged hfold]
  | enclosed ht hx h =>
    rw [fold?_enclosed ht, hx, Option.bind_some] at hfold
    exact hparts _ (.enclosed ht hx) α assigned v c h hfold
  | @unary _ x _ a d ht hx h hd =>
    rw [fold?_unary ht] at hfold
    obtain ⟨e, he, hfold⟩ := Option.bind_eq_some_iff.mp hfold
    obtain rfl := (hparts x (.operand ht.1 hx)).eq h (foldChild?_of hx ▸ he)
    rcases hd.eq hfold with rfl | ⟨rfl, rfl⟩
    · rfl
    · exact absurd ⟨ht, he, α, assigned, _, hvalue⟩ hleast
  | @binary _ x y _ a b d ht hx hy h h' hd =>
    rw [fold?_binary ht] at hfold
    obtain ⟨e, e', he, he', hfold⟩ := exists_of_binary? hfold hd.not_logical
    obtain rfl := (hparts x (.left ht.1 hx)).eq h (foldChild?_of hx ▸ he)
    obtain rfl := (hparts y (.right ht.1 hy)).eq h' (foldChild?_of hy ▸ he')
    rw [hd.eq hfold]
  | @decided _ x _ b ht hx h hb =>
    rw [fold?_binary ht] at hfold
    rw [binary?_of_decides hb (fun a ha => ?_) hfold]
    exact (hparts x (.left ht.1 hx)).eq h (foldChild?_of hx ▸ ha)
  | @undecided _ x y _ a b ht hx hy h ha h' =>
    rw [fold?_binary ht] at hfold
    rw [binary?_of_not_decides ha (fun a ha => ?_) (fun b hb => ?_) hfold]
    · exact (hparts x (.left ht.1 hx)).eq h (foldChild?_of hx ▸ ha)
    · exact (hparts y (.right ht.1 hy)).eq h' (foldChild?_of hy ▸ hb)
  | @foreign _ x _ e _ ht h hv =>
    rcases ht with ⟨ht, hx⟩ | ⟨ht, hx | hx, hop⟩
    · rw [fold?_unary ht, foldChild?_of hx, (hparts x (.operand ht.1 hx)).not_other h] at hfold
      cases hfold
    · rw [fold?_binary ht, foldChild?_of hx, (hparts x (.left ht.1 hx)).not_other h] at hfold
      obtain ⟨_, _, hnone, _⟩ := exists_of_binary? hfold (by simpa using hop)
      cases hnone
    · rw [fold?_binary ht, foldChild?_of hx, (hparts x (.right ht.1 hx)).not_other h] at hfold
      obtain ⟨_, _, _, hnone, _⟩ := exists_of_binary? hfold (by simpa using hop)
      cases hnone
  | assigned ht hv => exact absurd (isComposed_of_fold? hfold) ht

private theorem IsPart.mem (h : IsPart t x) : x ∈ t.children := by
  cases h with
  | enclosed _ h => exact List.mem_of_mem_filter (List.mem_of_mem_filter (List.mem_of_head? h))
  | operand _ h => exact List.mem_of_find?_eq_some h
  | left _ h => exact List.mem_of_find?_eq_some h
  | right _ h => exact List.mem_of_find?_eq_some h

private theorem IsPart.mem_preorder (h : IsPart t x) : x ∈ t.preorder := by
  cases t with
  | mk label role start stop children =>
    rw [Tree.preorder]
    exact List.mem_cons_of_mem _ (Tree.mem_preorderAll.mpr ⟨x, h.mem, x.mem_preorder_self⟩)

/-- Nothing is negated to the least integer inside an expression: then folding is sound for it. -/
theorem sound_of_preorder (t : Tree) (h : ∀ s ∈ t.preorder, ¬NegatesLeast textOf s) :
    Sound textOf t := by
  match t with
  | .mk label role start stop children =>
    refine sound_of_parts (fun x hx => ?_) (h _ (Tree.mem_preorder_self _))
    have hmem : x ∈ children := hx.mem
    have hsize := List.sizeOf_lt_of_mem hmem
    exact sound_of_preorder x fun s hs => h s (Tree.mem_preorder_trans hs hx.mem_preorder)
termination_by sizeOf t
decreasing_by
  simp only [Tree.mk.sizeOf_spec]
  omega

private theorem IsUnary.unique {operator' : String} (h : IsUnary textOf t operator)
    (h' : IsUnary textOf t operator') : operator = operator' := by
  obtain ⟨-, op, hop, rfl⟩ := h
  obtain ⟨-, op', hop', rfl⟩ := h'
  obtain rfl := Option.some.inj (hop.symm.trans hop')
  rfl

/-- A unary operation has its value from that of its operand. -/
theorem IsUnary.inversion {α : Type} {assigned : Tree → Option (Value α)} {v : Value α}
    (ht : IsUnary textOf t operator) (hmem : operator ∈ ["!", "+", "-"])
    (h : Evaluates textOf assigned t v) :
    ∃ x, t.child? .operand = some x ∧
      ((∃ a c, Evaluates textOf assigned x (.constant a) ∧ Unary operator a c ∧ v = .constant c) ∨
        ∃ a, Evaluates textOf assigned x (.other a)) := by
  have hkind {k : Syntax.Kind} (hk : t.is k) (hne : k ≠ .unaryExpression) : False := by
    simp [Tree.is_eq_false ht.1 hne.symm] at hk
  cases h with
  | literal h =>
    cases h with
    | truth h => exact (hkind h (by decide)).elim
    | falsehood h => exact (hkind h (by decide)).elim
    | trueName h => exact (hkind h (by decide)).elim
    | falseName h => exact (hkind h (by decide)).elim
    | numeral h => exact (hkind h (by decide)).elim
  | enclosed h => exact (hkind h (by decide)).elim
  | unary h hx hv hc =>
    obtain rfl := ht.unique h
    exact ⟨_, hx, .inl ⟨_, _, hv, hc, rfl⟩⟩
  | binary h => exact (hkind h.1 (by decide)).elim
  | decided h => exact (hkind h.1 (by decide)).elim
  | undecided h => exact (hkind h.1 (by decide)).elim
  | foreign h hv =>
    rcases h with ⟨-, hx⟩ | ⟨h, -⟩
    · exact ⟨_, hx, .inr ⟨_, hv⟩⟩
    · exact (hkind h.1 (by decide)).elim
  | assigned h => exact absurd (.unary ht hmem) h

/-- The integer found for the negative of the least one is not its value. -/
theorem NegatesLeast.unsound (h : NegatesLeast textOf t)
    (hparts : ∀ x, IsPart t x → Sound textOf x) : ¬Sound textOf t := by
  obtain ⟨ht, hleast, α, assigned, v, hv⟩ := h
  intro hsound
  have hfold : fold? textOf t = some (.int (-intBound)) := by
    rw [fold?_unary ht, hleast]
    rfl
  obtain rfl := hsound α assigned v _ hv hfold
  obtain ⟨x, hx, ⟨a, c, ha, hc, heq⟩ | ⟨a, ha⟩⟩ := ht.inversion (by decide) hv
  · rw [foldChild?_of hx] at hleast
    obtain rfl := (hparts x (.operand ht.1 hx)).eq ha hleast
    have hc : c = .int (- -intBound) := by
      generalize hop : "-" = operator at hc
      cases hc with
      | plus i => exact absurd hop (by decide)
      | minus i => rfl
    injection heq with heq
    have hsame := Constant.int.inj (heq.trans hc)
    have hpositive : 0 < intBound := by decide
    omega
  · rw [foldChild?_of hx, (hparts x (.operand ht.1 hx)).not_other ha] at hleast
    cases hleast

/-- Folding is sound for an expression and all that is inside it exactly if no minus sign there
stands before the least integer. An expression for which it is sound and that is reported as false
is true for no values of its parts. -/
theorem folding_sound_iff (e : Expression) :
    ((∀ s ∈ e.node.preorder, Sound e.textOf s) ↔
      ∀ s ∈ e.node.preorder, ¬NegatesLeast e.textOf s) ∧
    (Sound e.textOf e.node → e.isConstantFalse → ∀ (α : Type) (assigned : Tree → Option (Value α)),
      ¬Evaluates e.textOf assigned e.node (.constant (.bool true))) := by
  refine ⟨⟨fun hsound s hs hleast => ?_, fun h s hs => ?_⟩, ?_⟩
  · exact hleast.unsound (fun x hx =>
      hsound x (Tree.mem_preorder_trans hx.mem_preorder hs)) (hsound s hs)
  · exact sound_of_preorder s fun u hu => h u (Tree.mem_preorder_trans hu hs)
  · intro hsound hfalse α assigned htrue
    have heq := hsound α assigned _ _ htrue (of_decide_eq_true hfalse)
    simp at heq

/-- A condition in which the least integer is negated. -/
def leastNegated : String := "-(-170141183460469231731687303715884105727 - 1) > 0"

set_option synthInstance.maxSize 1000 in
private theorem leastNegated_run :
    ∃ e, Expression.parse? leastNegated = some e ∧ e.isConstantFalse ∧
    IsBinary e.textOf e.node ">" ∧
    (∃ l, e.node.child? .left = some l ∧ IsUnary e.textOf l "-" ∧
      ∃ p, l.child? .operand = some p ∧ p.is .parenthesizedExpression ∧
      ∃ d, p.items.head? = some d ∧ IsBinary e.textOf d "-" ∧
        (∃ m, d.child? .left = some m ∧ IsUnary e.textOf m "-" ∧
          ∃ k, m.child? .operand = some k ∧ k.is .intLiteral ∧
            e.textOf k = "170141183460469231731687303715884105727") ∧
        ∃ o, d.child? .right = some o ∧ o.is .intLiteral ∧ e.textOf o = "1") ∧
    ∃ z, e.node.child? .right = some z ∧ z.is .intLiteral ∧ e.textOf z = "0" := by
  decide +kernel

/-- The condition is reported as false and is true. -/
theorem leastNegated_unsound : ¬∀ (text : String) (e : Expression),
    Expression.parse? text = some e → Sound e.textOf e.node ∧ (e.isConstantFalse →
      ∀ (α : Type) (assigned : Tree → Option (Value α)),
        ¬Evaluates e.textOf assigned e.node (.constant (.bool true))) := by
  intro h
  obtain ⟨e, he, hfalse, ht, ⟨l, hl, hminus, p, hp, hparen, d, hd, hdifference,
    ⟨m, hm, hsign, k, hk, hgreatest, hktext⟩, o, ho, hone, hotext⟩, z, hz, hzero, hztext⟩ :=
    leastNegated_run
  have hnumeral (t : Tree) (ht : t.is .intLiteral) (n : Nat)
      (h : IsNumeral (e.textOf t).toList n) :
      Evaluates e.textOf (fun _ => none) t (.constant (.int n) : Value Empty) :=
    .literal (.numeral ht h)
  have hdecimal (c : Char) (cs : List Char) (n : Nat) (hc : c ≠ '0')
      (hn : digits? 10 (c :: cs) = some n) : IsNumeral (c :: cs) n :=
    .decimal hc (digits_of_digits? hn (by decide))
  have hgreatest := hnumeral k hgreatest 170141183460469231731687303715884105727
    (hktext ▸ hdecimal _ _ _ (by decide) (by decide +kernel))
  have hone := hnumeral o hone 1 (hotext ▸ hdecimal _ _ _ (by decide) (by decide +kernel))
  have hzero := hnumeral z hzero 0 (hztext ▸ .zero)
  have hleast := Evaluates.binary hdifference hm ho (.unary hsign hk hgreatest (.minus _)) hone
    (.difference _ _)
  have hnegated := Evaluates.unary hminus hp (.enclosed hparen hd hleast) (.minus _)
  exact (h leastNegated e he).2 hfalse Empty _
    (.binary ht hl hz hnegated hzero (.greater _ _))

end Constant

end GoContracts

import GoContracts.Proofs.Guard.Numerals
import GoContracts.Proofs.Syntax.Attachment

/-!
# Values of expressions

The rules of the language for the value of an expression of truth values and integers. Integers are
exact. What is neither a literal nor one of the operations that are folded has the value assigned to
it, which may be of any type: a variable, a call, a quotient.
-/

namespace GoContracts.Constant

open Syntax (Tree)

/-- A value: a truth value, an integer or a value of another type. -/
inductive Value (α : Type) where
  | constant (c : Constant)
  | other (a : α)

/-! ### Operators -/

/-- What a unary operator makes of its operand. -/
inductive Unary : String → Constant → Constant → Prop
  | not (b : Bool) : Unary "!" (.bool b) (.bool !b)
  | plus (i : Int) : Unary "+" (.int i) (.int i)
  | minus (i : Int) : Unary "-" (.int i) (.int (-i))

/-- What a binary operator makes of its operands, `&&` and `||` apart. -/
inductive Binary : String → Constant → Constant → Constant → Prop
  | sum (i j : Int) : Binary "+" (.int i) (.int j) (.int (i + j))
  | difference (i j : Int) : Binary "-" (.int i) (.int j) (.int (i - j))
  | product (i j : Int) : Binary "*" (.int i) (.int j) (.int (i * j))
  | equal (i j : Int) : Binary "==" (.int i) (.int j) (.bool (i = j))
  | unequal (i j : Int) : Binary "!=" (.int i) (.int j) (.bool (i ≠ j))
  | less (i j : Int) : Binary "<" (.int i) (.int j) (.bool (i < j))
  | lessEqual (i j : Int) : Binary "<=" (.int i) (.int j) (.bool (i ≤ j))
  | greater (i j : Int) : Binary ">" (.int i) (.int j) (.bool (j < i))
  | greaterEqual (i j : Int) : Binary ">=" (.int i) (.int j) (.bool (j ≤ i))
  | same (a b : Bool) : Binary "==" (.bool a) (.bool b) (.bool (a = b))
  | different (a b : Bool) : Binary "!=" (.bool a) (.bool b) (.bool (a ≠ b))

/-- Whether the left operand of a logical operator decides the value. -/
def Decides (operator : String) (b : Bool) : Prop :=
  operator = "&&" ∧ b = false ∨ operator = "||" ∧ b = true

/-! ### Expressions -/

/-- The parts of an expression that have values of their own. -/
inductive IsPart (t : Tree) : Tree → Prop
  | enclosed {x : Tree} (ht : t.is .parenthesizedExpression)
    (h : t.items.head? = some x) : IsPart t x
  | operand {x : Tree} (ht : t.is .unaryExpression) (h : t.child? .operand = some x) : IsPart t x
  | left {x : Tree} (ht : t.is .binaryExpression) (h : t.child? .left = some x) : IsPart t x
  | right {x : Tree} (ht : t.is .binaryExpression) (h : t.child? .right = some x) : IsPart t x

section

variable (textOf : Tree → String)

/-- The tree is a literal with the given value. -/
inductive IsLiteral (t : Tree) : Constant → Prop
  | truth (h : t.is .trueLiteral) : IsLiteral t (.bool true)
  | falsehood (h : t.is .falseLiteral) : IsLiteral t (.bool false)
  | trueName (h : t.is .identifier) (htext : textOf t = "true") : IsLiteral t (.bool true)
  | falseName (h : t.is .identifier) (htext : textOf t = "false") : IsLiteral t (.bool false)
  | numeral {n : Nat} (h : t.is .intLiteral) (htext : IsNumeral (textOf t).toList n) :
      IsLiteral t (.int n)

/-- The tree is a unary operation with the given operator. -/
def IsUnary (t : Tree) (operator : String) : Prop :=
  t.is .unaryExpression ∧ ∃ op, t.child? .operator = some op ∧ textOf op = operator

/-- The tree is a binary operation with the given operator. -/
def IsBinary (t : Tree) (operator : String) : Prop :=
  t.is .binaryExpression ∧ ∃ op, t.child? .operator = some op ∧ textOf op = operator

instance (t : Tree) (operator : String) : Decidable (IsUnary textOf t operator) :=
  inferInstanceAs (Decidable (_ ∧ ∃ op, _ = some op ∧ _))

instance (t : Tree) (operator : String) : Decidable (IsBinary textOf t operator) :=
  inferInstanceAs (Decidable (_ ∧ ∃ op, _ = some op ∧ _))

/-- Whether the value of the tree is composed of those of its parts. -/
inductive IsComposed (t : Tree) : Prop
  | literal (h : t.is .trueLiteral ∨ t.is .falseLiteral ∨ t.is .intLiteral)
  | name (h : t.is .identifier) (htext : textOf t = "true" ∨ textOf t = "false")
  | enclosed (h : t.is .parenthesizedExpression)
  | unary {operator : String} (h : IsUnary textOf t operator) (hmem : operator ∈ ["!", "+", "-"])
  | binary {operator : String} (h : IsBinary textOf t operator)
      (hmem : operator ∈ ["&&", "||", "+", "-", "*", "==", "!=", "<", "<=", ">", ">="])

/-- The tree has the value, if others have the values that are assigned to them. -/
inductive Evaluates {α : Type} (assigned : Tree → Option (Value α)) : Tree → Value α → Prop
  | literal {t : Tree} {c : Constant} (h : IsLiteral textOf t c) :
    Evaluates assigned t (.constant c)
  | enclosed {t x : Tree} {v : Value α} (ht : t.is .parenthesizedExpression)
      (hx : t.items.head? = some x) (h : Evaluates assigned x v) : Evaluates assigned t v
  | unary {t x : Tree} {operator : String} {a c : Constant} (ht : IsUnary textOf t operator)
      (hx : t.child? .operand = some x) (h : Evaluates assigned x (.constant a))
      (hc : Unary operator a c) : Evaluates assigned t (.constant c)
  | binary {t x y : Tree} {operator : String} {a b c : Constant} (ht : IsBinary textOf t operator)
      (hx : t.child? .left = some x) (hy : t.child? .right = some y)
      (h : Evaluates assigned x (.constant a)) (h' : Evaluates assigned y (.constant b))
      (hc : Binary operator a b c) : Evaluates assigned t (.constant c)
  | decided {t x : Tree} {operator : String} {b : Bool} (ht : IsBinary textOf t operator)
      (hx : t.child? .left = some x) (h : Evaluates assigned x (.constant (.bool b)))
      (hc : Decides operator b) : Evaluates assigned t (.constant (.bool b))
  | undecided {t x y : Tree} {operator : String} {a b : Bool} (ht : IsBinary textOf t operator)
      (hx : t.child? .left = some x) (hy : t.child? .right = some y)
      (h : Evaluates assigned x (.constant (.bool a))) (hc : Decides operator !a)
      (h' : Evaluates assigned y (.constant (.bool b))) : Evaluates assigned t (.constant (.bool b))
  -- An operation of values of other types, such as a comparison of texts.
  | foreign {t x : Tree} {operator : String} {a : α} {v : Value α}
      (ht : IsUnary textOf t operator ∧ t.child? .operand = some x ∨ IsBinary textOf t operator ∧
        (t.child? .left = some x ∨ t.child? .right = some x) ∧ operator ∉ ["&&", "||"])
      (h : Evaluates assigned x (.other a)) (hv : assigned t = some v) : Evaluates assigned t v
  | assigned {t : Tree} {v : Value α} (ht : ¬IsComposed textOf t) (hv : assigned t = some v) :
      Evaluates assigned t v

end

/-! ### What folding asks of the parts -/

section

variable {textOf : Tree → String} {t : Tree} {operator : String} {c : Constant} {ts : List Tree}

private theorem foldFirst?_eq : foldFirst? textOf ts =
    ((ts.filter (·.isNamed)).filter (!·.isComment)).head?.bind (fold? textOf) := by
  induction ts with
  | nil => rfl
  | cons t ts ih =>
    rw [foldFirst?]
    by_cases hnamed : t.isNamed
    · by_cases hcomment : t.isComment
      · rw [if_neg (by simp [hcomment]), ih, List.filter_cons_of_pos hnamed,
          List.filter_cons_of_neg (by simp [hcomment])]
      · rw [if_pos (by simp [hnamed, hcomment]), List.filter_cons_of_pos hnamed,
          List.filter_cons_of_pos (by simp [hcomment]), List.head?_cons, Option.bind_some]
    · rw [if_neg (by simp [hnamed]), ih, List.filter_cons_of_neg hnamed]

private theorem foldRole?_eq {r : Syntax.Role} :
    foldRole? textOf r ts = (ts.find? (·.role? = some r)).bind (fold? textOf) := by
  induction ts with
  | nil => rfl
  | cons t ts ih =>
    rw [foldRole?]
    by_cases hrole : t.role? = some r
    · rw [if_pos hrole, List.find?_cons_of_pos (by simpa using hrole), Option.bind_some]
    · rw [if_neg hrole, ih, List.find?_cons_of_neg (by simpa using hrole)]

/-- The value of the part in a role. -/
abbrev foldChild? (textOf : Tree → String) (t : Tree) (r : Syntax.Role) : Option Constant :=
  (t.child? r).bind (fold? textOf)

/-- A child is folded by its role. -/
theorem foldChild?_of {x : Tree} {r : Syntax.Role} (hx : t.child? r = some x) :
    foldChild? textOf t r = fold? textOf x := by
  rw [foldChild?, hx, Option.bind_some]

/-- Parentheses do not matter for folding. -/
theorem fold?_enclosed (ht : t.is .parenthesizedExpression) :
    fold? textOf t = t.items.head?.bind (fold? textOf) := by
  obtain ⟨label, role, start, stop, cs⟩ := t
  obtain rfl : label = .node .parenthesizedExpression := of_decide_eq_true ht
  rw [fold?, foldFirst?_eq]
  rfl

/-- A unary operation folds to the operation on what its operand folds to. -/
theorem fold?_unary (ht : IsUnary textOf t operator) :
    fold? textOf t = (foldChild? textOf t .operand).bind (unary? operator) := by
  obtain ⟨hkind, op, hop, rfl⟩ := ht
  obtain ⟨label, role, start, stop, cs⟩ := t
  obtain rfl : label = .node .unaryExpression := of_decide_eq_true hkind
  have hfind : cs.find? (·.role? = some .operator) = some op := hop
  rw [fold?, hfind, foldRole?_eq]
  rfl

/-- A binary operation folds to the operation on what its operands fold to. -/
theorem fold?_binary (ht : IsBinary textOf t operator) :
    fold? textOf t = binary? operator (foldChild? textOf t .left) (foldChild? textOf t .right) := by
  obtain ⟨hkind, op, hop, rfl⟩ := ht
  obtain ⟨label, role, start, stop, cs⟩ := t
  obtain rfl : label = .node .binaryExpression := of_decide_eq_true hkind
  have hfind : cs.find? (·.role? = some .operator) = some op := hop
  rw [fold?, hfind, foldRole?_eq, foldRole?_eq]
  rfl

/-- A literal is folded to its value, if that is in range. -/
theorem fold?_literal (h : IsLiteral textOf t c) :
    fold? textOf t = match c with
      | .bool b => some (.bool b)
      | .int i => ranged i := by
  obtain ⟨label, role, start, stop, cs⟩ := t
  cases h with
  | truth h =>
    obtain rfl : label = .node .trueLiteral := of_decide_eq_true h
    rw [fold?]
  | falsehood h =>
    obtain rfl : label = .node .falseLiteral := of_decide_eq_true h
    rw [fold?]
  | trueName h htext =>
    obtain rfl : label = .node .identifier := of_decide_eq_true h
    simp only [fold?, htext]
  | falseName h htext =>
    obtain rfl : label = .node .identifier := of_decide_eq_true h
    simp only [fold?, htext]
  | numeral h htext =>
    obtain rfl : label = .node .intLiteral := of_decide_eq_true h
    rw [fold?, htext.literal?_eq]

private theorem mem_of_unary? {a : Constant} (h : unary? operator a = some c) :
    operator ∈ ["!", "+", "-"] := by
  cases a with
  | bool b =>
    simp only [unary?, Option.ite_none_right_eq_some] at h
    simp [h.1]
  | int i =>
    rw [unary?] at h
    split at h
    · next hminus => simp [hminus]
    · next =>
      rw [Option.ite_none_right_eq_some] at h
      simp [h.1]

private theorem mem_of_strictBinary? {a b : Constant} (h : strictBinary? operator a b = some c) :
    operator ∈ ["&&", "||", "+", "-", "*", "==", "!=", "<", "<=", ">", ">="] := by
  unfold strictBinary? at h
  split at h
  · unfold intBinary? at h
    split at h <;> simp at h ⊢
  · split at h <;> simp at h ⊢
  · split at h <;> simp at h ⊢

private theorem mem_of_binary? {a? b? : Option Constant} (h : binary? operator a? b? = some c) :
    operator ∈ ["&&", "||", "+", "-", "*", "==", "!=", "<", "<=", ">", ">="] := by
  unfold binary? at h
  split at h
  · next hand => simp [of_decide_eq_true (Bool.and_eq_true_iff.mp hand).1]
  split at h
  · next hor => simp [of_decide_eq_true (Bool.and_eq_true_iff.mp hor).1]
  obtain ⟨a, -, h⟩ := Option.bind_eq_some_iff.mp h
  obtain ⟨b, -, h⟩ := Option.bind_eq_some_iff.mp h
  exact mem_of_strictBinary? h

/-- Only what is composed is folded. -/
theorem isComposed_of_fold? (h : fold? textOf t = some c) : IsComposed textOf t := by
  have hkind {k : Syntax.Kind} (t : Tree) (hk : t.label = .node k) : t.is k = true :=
    decide_eq_true hk
  unfold fold? at h
  split at h
  · next k role start stop cs =>
    split at h
    · exact .literal (.inl (hkind _ rfl))
    · exact .literal (.inr (.inl (hkind _ rfl)))
    · refine .name (hkind _ rfl) ?_
      split at h
      · next htext => exact .inl htext
      · next htext => exact .inr htext
      · cases h
    · exact .literal (.inr (.inr (hkind _ rfl)))
    · exact .enclosed (hkind _ rfl)
    · obtain ⟨op, hop, h⟩ := Option.bind_eq_some_iff.mp h
      obtain ⟨a, -, h⟩ := Option.bind_eq_some_iff.mp h
      exact .unary ⟨hkind _ rfl, op, hop, rfl⟩ (mem_of_unary? h)
    · obtain ⟨op, hop, h⟩ := Option.bind_eq_some_iff.mp h
      exact .binary ⟨hkind _ rfl, op, hop, rfl⟩ (mem_of_binary? h)
    · cases h
  · cases h

end

end GoContracts.Constant

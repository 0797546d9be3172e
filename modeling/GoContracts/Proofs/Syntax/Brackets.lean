import GoContracts.Syntax.Token
import Mathlib.Data.List.Basic

/-!
# Brackets among tokens

Tokens open and close brackets of three kinds; a literal is one token, whatever it holds. Reading
tokens from left to right changes the stack of brackets that are still to be closed.
-/

namespace GoContracts.Syntax

/-- The bracket that closes the one a symbol opens. -/
def closingOf? (c : Char) : Option Char :=
  if c = '(' then some ')'
  else if c = '[' then some ']'
  else if c = '\x7b' then some '\x7d' else none

/-- Whether a symbol closes a bracket. -/
def isClosing (c : Char) : Bool := c = ')' || c = ']' || c = '\x7d'

/-- The brackets still to be closed after one more token; nothing if the token closes a bracket that
is not the innermost open one. -/
def bracketStep (open? : List Char) (x : Lexeme) : Option (List Char) :=
  match x with
  | .symbol c =>
    match closingOf? c with
    | some d => some (d :: open?)
    | none =>
      if isClosing c then
        match open? with
        | d :: rest => if c = d then some rest else none
        | [] => none
      else some open?
  | _ => some open?

/-- The brackets still to be closed after some more tokens. -/
def nesting (open? : List Char) (ts : List Token) : Option (List Char) :=
  (ts.map (·.lexeme)).foldlM bracketStep open?

/-- Every bracket that the tokens open is closed in order by one of them, and they close no
other. -/
def Balanced (ts : List Token) : Prop := ∀ s, nesting s ts = some s

/-- The tokens of two parts nest one after the other. -/
theorem nesting_append (s : List Char) (a b : List Token) :
    nesting s (a ++ b) = (nesting s a).bind fun u => nesting u b := by
  simp [nesting, List.foldlM_append]

/-- The first token nests before the rest. -/
theorem nesting_cons (s : List Char) (t : Token) (ts : List Token) :
    nesting s (t :: ts) = (bracketStep s t.lexeme).bind fun u => nesting u ts := rfl

/-- No tokens are balanced. -/
theorem balanced_nil : Balanced [] := fun _ => rfl

/-- Two balanced parts are balanced together. -/
theorem Balanced.append {a b : List Token} (ha : Balanced a) (hb : Balanced b) :
    Balanced (a ++ b) := by
  intro s
  rw [nesting_append, ha s, Option.bind_some, hb s]

/-- The part behind a balanced one is balanced if the whole is. -/
theorem Balanced.of_append {a b : List Token} (h : Balanced (a ++ b)) (ha : Balanced a) :
    Balanced b := by
  intro s
  have hs := h s
  rwa [nesting_append, ha s, Option.bind_some] at hs

/-- Newlines open and close nothing. -/
theorem balanced_of_newlines {ts : List Token} (h : ∀ t ∈ ts, t.lexeme = .newline) :
    Balanced ts := by
  intro s
  induction ts with
  | nil => rfl
  | cons t ts ih =>
    rw [nesting_cons, h t (List.mem_cons_self ..)]
    exact ih fun u hu => h u (List.mem_cons_of_mem t hu)

/-- A token that is no symbol is balanced. -/
theorem balanced_singleton {t : Token} (h : ∀ c, t.lexeme ≠ .symbol c) : Balanced [t] := by
  intro s
  rw [nesting_cons]
  cases hx : t.lexeme with
  | symbol c => exact absurd hx (h c)
  | _ => rfl

/-- Newlines and comments can be left out. -/
theorem nesting_filter {p : Token → Bool} (hp : ∀ t, p t = false → ∀ c, t.lexeme ≠ .symbol c)
    (s : List Char) (ts : List Token) : nesting s (ts.filter p) = nesting s ts := by
  induction ts generalizing s with
  | nil => rfl
  | cons t ts ih =>
    cases ht : p t with
    | true =>
      rw [List.filter_cons_of_pos ht, nesting_cons, nesting_cons]
      simp only [ih]
    | false =>
      have hone := balanced_singleton (hp t ht) s
      rw [List.filter_cons_of_neg (by simp [ht]), ih, ← List.singleton_append, nesting_append, hone,
        Option.bind_some]

/-! ### Counting brackets -/

/-- Whether a token of the class opens a bracket. -/
def opens : Lexeme → Bool
  | .symbol c => (closingOf? c).isSome
  | _ => false

/-- Whether a token of the class closes a bracket. -/
def closes : Lexeme → Bool
  | .symbol c => isClosing c
  | _ => false

/-- No part from the beginning closes more brackets than it opens. -/
def NeverOvercloses (ts : List Token) : Prop :=
  ∀ p, p <+: ts.map (·.lexeme) → p.countP closes ≤ p.countP opens

private theorem not_isClosing_of_opening {c d : Char} (h : closingOf? c = some d) :
    isClosing c = false := by
  unfold closingOf? at h
  split at h
  · next hc => rw [hc]; rfl
  · split at h
    · next hc => rw [hc]; rfl
    · split at h
      · next hc => rw [hc]; rfl
      · simp at h

private theorem length_bracketStep {s u : List Char} {x : Lexeme} (h : bracketStep s x = some u) :
    u.length + (closes x).toNat = s.length + (opens x).toNat := by
  unfold bracketStep at h
  cases x with
  | symbol c =>
    simp only at h
    unfold closes opens
    cases ho : closingOf? c with
    | some d =>
      simp only [ho, Option.some.injEq] at h
      simp [← h, ho, not_isClosing_of_opening ho]
    | none =>
      simp only [ho] at h
      by_cases hc : isClosing c = true
      · simp only [hc, if_true] at h
        cases s with
        | nil => simp at h
        | cons d s =>
          simp only [Option.ite_none_right_eq_some, Option.some.injEq] at h
          simp [← h.2, ho, hc]
      · simp only [hc, if_false, Option.some.injEq, Bool.false_eq_true] at h
        simp [← h, ho, hc]
  | _ =>
    simp only [Option.some.injEq] at h
    simp [← h, opens, closes]

/-- The number of open brackets grows with those opened and shrinks with those closed. -/
theorem length_foldlM {s u : List Char} {xs : List Lexeme} (h : xs.foldlM bracketStep s = some u) :
    u.length + xs.countP closes = s.length + xs.countP opens := by
  induction xs generalizing s with
  | nil =>
    obtain rfl := Option.some.inj h
    rfl
  | cons x xs ih =>
    rw [List.foldlM_cons] at h
    obtain ⟨v, hv, hrest⟩ := Option.bind_eq_some_iff.mp h
    have hlen := ih hrest
    have hstep := length_bracketStep hv
    rw [List.countP_cons, List.countP_cons]
    cases hc : closes x <;> cases ho : opens x <;> simp [hc, ho] at hstep ⊢ <;> omega

/-- Balanced tokens never close more brackets than they have opened. -/
theorem Balanced.neverOvercloses {ts : List Token} (h : Balanced ts) : NeverOvercloses ts := by
  rintro p ⟨rest, hrest⟩
  have hs := h []
  rw [nesting, ← hrest, List.foldlM_append] at hs
  obtain ⟨u, hu, _⟩ := Option.bind_eq_some_iff.mp hs
  have := length_foldlM hu
  simp only [List.length_nil, Nat.zero_add] at this
  omega

/-- Newlines and comments count for nothing. -/
theorem NeverOvercloses.filter {ts : List Token} {p : Token → Bool} (h : NeverOvercloses ts)
    (hp : ∀ t, p t = false → ∀ c, t.lexeme ≠ .symbol c) : NeverOvercloses (ts.filter p) := by
  intro q hq
  obtain ⟨_, hpre, rfl⟩ := List.prefix_map_iff.mp hq
  obtain ⟨l, hl, rfl⟩ := List.prefix_filter_iff.mp hpre
  have hsame : ∀ f : Lexeme → Bool, (∀ x, f x = true → ∃ c, x = .symbol c) →
      ((l.filter p).map (·.lexeme)).countP f = (l.map (·.lexeme)).countP f := by
    intro f hf
    rw [List.countP_map, List.countP_map, List.countP_filter]
    refine List.countP_congr fun t _ => ?_
    have hkept : f t.lexeme = true → p t = true := by
      intro ht
      obtain ⟨c, hc⟩ := hf _ ht
      by_contra hdrop
      exact hp t (by simpa using hdrop) c hc
    simpa using hkept
  have hl := h _ (hl.map _)
  have hcloses : ∀ x, closes x = true → ∃ c, x = .symbol c := by
    intro x
    cases x <;> simp [closes]
  have hopens : ∀ x, opens x = true → ∃ c, x = .symbol c := by
    intro x
    cases x <;> simp [opens]
  rwa [hsame closes hcloses, hsame opens hopens]

/-- A closing bracket behind balanced tokens is one too many. -/
theorem Balanced.not_neverOvercloses {a b : List Token} {t : Token} (h : Balanced a)
    (ht : closes t.lexeme = true) (hn : opens t.lexeme = false) :
    ¬NeverOvercloses (a ++ t :: b) := by
  intro hnever
  have hpre : a ++ [t] <+: a ++ t :: b := ⟨b, by simp⟩
  have hcount := hnever _ (hpre.map (·.lexeme))
  have hlen := length_foldlM (h [])
  simp only [List.map_append, List.map_cons, List.map_nil, List.countP_append,
    List.countP_singleton,
    ht, hn, if_true, Bool.false_eq_true, if_false] at hcount
  simp only [List.length_nil, Nat.zero_add] at hlen
  omega

end GoContracts.Syntax

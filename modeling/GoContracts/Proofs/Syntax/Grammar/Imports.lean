import GoContracts.Proofs.Syntax.Grammar.File

/-!
# Import declarations

The statements and declarations of other kinds are read by other rules, so an import declaration or
a package clause of a file was read as one. A list of imports ends with its parenthesis.
-/

namespace GoContracts.Syntax.Grammar

variable {α β : Type} {ts rest : List Token} {rules : Rules} {k : Kind}

/-! ### What readers yield -/

/-- Whether all that a reader yields has a property. -/
def Yields (P : α → Prop) (r : Reader α) : Prop := ∀ ts a rest, r ts = some (a, rest) → P a

section

variable {P : α → Prop} {Q : β → Prop}

/-- A result yields what it is. -/
theorem yields_pure {a : α} (h : P a) : Yields P (pure a) := by
  intro ts b rest hb
  obtain ⟨rfl, _⟩ := pure_eq_some.mp hb
  exact h

/-- A failure yields whatever one likes. -/
theorem yields_failure : Yields P failure := fun _ _ _ h => (failure_eq_some.mp h).elim

/-- Two readers in a row yield what the second does. -/
theorem yields_bind {x : Reader β} {f : β → Reader α} (h : ∀ b, Yields P (f b)) :
    Yields P (x >>= f) := by
  intro ts a rest ha
  obtain ⟨b, mid, _, ha⟩ := bind_eq_some.mp ha
  exact h b mid a rest ha

/-- A choice yields what both sides do. -/
theorem yields_orElse {x y : Reader α} (hx : Yields P x) (hy : Yields P y) :
    Yields P (x <|> y) := by
  intro ts a rest ha
  rcases orElse_eq_some.mp ha with ha | ⟨_, ha⟩
  · exact hx ts a rest ha
  · exact hy ts a rest ha

/-- A decision yields what both sides do. -/
theorem yields_ite {c : Prop} [Decidable c] {x y : Reader α} (hx : Yields P x) (hy : Yields P y) :
    Yields P (if c then x else y) := by
  split
  · exact hx
  · exact hy

end

/-! ### Statements -/

/-- Whether the tree is neither an import declaration nor a package clause. -/
def IsOther (t : Tree) : Prop :=
  t.label ≠ .node .importDeclaration ∧ t.label ≠ .node .packageClause

private theorem isOther_node {k : Kind} (parts : List Tree) (hk : k ≠ .importDeclaration)
    (hk' : k ≠ .packageClause) : IsOther (.node k parts) :=
  ⟨fun h => hk (Label.node.inj h), fun h => hk' (Label.node.inj h)⟩

private theorem declaration_other : Yields IsOther (declaration rules) := by
  refine yields_bind fun ts => yields_ite ?_ (yields_ite ?_ ?_)
  all_goals exact yields_bind fun _ => yields_bind fun _ =>
    yields_pure (isOther_node _ (by decide) (by decide))

private theorem simpleFrom_other (c after : Context) (left : Tree) :
    Yields IsOther (simpleFrom rules c after left) := by
  refine yields_bind fun ts => ?_
  split
  all_goals
    repeat' first
      | exact yields_pure (isOther_node _ (by decide) (by decide))
      | refine yields_bind fun _ => ?_

private theorem simpleStatement_other : Yields IsOther (simpleStatement rules) :=
  yields_bind fun _ => simpleFrom_other _ _ _

private theorem ifStatement_other (n : Nat) : Yields IsOther (ifStatement rules n) := by
  cases n with
  | zero => exact yields_failure
  | succ n =>
    rw [ifStatement]
    repeat' first
      | exact yields_pure (isOther_node _ (by decide) (by decide))
      | refine yields_bind fun _ => ?_
      | refine yields_ite ?_ ?_
      | split

private theorem switchSubject_other (word : Tree) (parts : List Tree) :
    Yields IsOther (switchSubject rules word parts) := by
  have htypes : ∀ word parts, Yields IsOther (typeSwitch rules word parts) := by
    intro word parts
    unfold typeSwitch
    repeat' first
      | exact yields_pure (isOther_node _ (by decide) (by decide))
      | refine yields_bind fun _ => ?_
  have hvalues : ∀ word parts, Yields IsOther (valueSwitch rules word parts) := fun word parts =>
    yields_bind fun _ => yields_pure (isOther_node _ (by decide) (by decide))
  unfold switchSubject
  repeat' first
    | exact htypes _ _
    | exact hvalues _ _
    | refine yields_bind fun _ => ?_
    | refine yields_ite ?_ ?_
    | refine yields_orElse ?_ ?_
    | split

private theorem switchStatement_other : Yields IsOther (switchStatement rules) := by
  refine yields_bind fun word => yields_orElse ?_ (switchSubject_other _ _)
  refine yields_bind fun left => yields_bind fun before => ?_
  split
  · exact switchSubject_other _ _
  · exact yields_failure

private theorem labeledStatement_other : Yields IsOther (labeledStatement rules) := by
  unfold labeledStatement
  repeat' first
    | exact yields_pure (isOther_node _ (by decide) (by decide))
    | refine yields_bind fun _ => ?_
    | refine yields_ite ?_ ?_

private theorem returnStatement_other : Yields IsOther (returnStatement rules) := by
  unfold returnStatement
  repeat' first
    | exact yields_pure (isOther_node _ (by decide) (by decide))
    | refine yields_bind fun _ => ?_
    | refine yields_ite ?_ ?_

/-- No statement is an import declaration or a package clause, if no block is one. -/
theorem statement_other (hblock : Yields IsOther (rules .block)) :
    Yields IsOther (statement rules) := by
  refine yields_bind fun _ => yields_bind fun ts => yields_ite hblock (yields_ite ?_ (yields_ite
    labeledStatement_other ?_))
  · exact yields_bind fun _ => yields_pure (isOther_node _ (by decide) (by decide))
  split
  · repeat' first
      | exact declaration_other
      | exact returnStatement_other
      | exact ifStatement_other _
      | exact switchStatement_other
      | exact simpleStatement_other
      | refine yields_ite ?_ ?_
      | exact yields_bind fun _ => yields_pure (isOther_node _ (by decide) (by decide))
      | exact yields_bind fun _ => yields_bind fun _ =>
          yields_pure (isOther_node _ (by decide) (by decide))
      | exact yields_bind fun _ => yields_bind fun _ => yields_bind fun _ =>
          yields_pure (isOther_node _ (by decide) (by decide))
  · exact simpleStatement_other

private theorem block_other : Yields IsOther (block rules) :=
  yields_bind fun _ => yields_bind fun _ => yields_bind fun _ =>
    yields_pure (isOther_node _ (by decide) (by decide))

private theorem rulesTo_other (n : Nat) : Yields IsOther (rulesTo n .block) ∧
    Yields IsOther (rulesTo n .statement) := by
  induction n with
  | zero => exact ⟨yields_failure, yields_failure⟩
  | succ n ih => exact ⟨block_other, statement_other ih.1⟩

private theorem functionDeclaration_other : Yields IsOther (functionDeclaration rules) := by
  unfold functionDeclaration
  repeat' first
    | exact yields_pure (isOther_node _ (by decide) (by decide))
    | refine yields_bind fun _ => ?_

private theorem methodDeclaration_other : Yields IsOther (methodDeclaration rules) := by
  unfold methodDeclaration
  repeat' first
    | exact yields_pure (isOther_node _ (by decide) (by decide))
    | refine yields_bind fun _ => ?_

/-! ### Items of a file -/

/-- An import declaration of a file was read as one, a package clause as well, and there are other
declarations and statements. -/
theorem topLevel_cases {n : Nat} {t : Tree} (h : topLevel (rulesTo n) ts = some (t, rest)) :
    (atWord true "package" ts = true ∧ packageClause ts = some (t, rest)) ∨
      (atWord true "package" ts = false ∧ atWord true "import" ts = true ∧
        importDeclaration ts = some (t, rest)) ∨ IsOther t := by
  rw [topLevel, get_bind] at h
  rcases ite_eq_some.mp h with ⟨hpackage, h⟩ | ⟨hpackage, h⟩
  · exact .inl ⟨hpackage, h⟩
  rcases ite_eq_some.mp h with ⟨himport, h⟩ | ⟨_, h⟩
  · exact .inr (.inl ⟨by simpa using hpackage, himport, h⟩)
  refine .inr (.inr ?_)
  have hstatement := (rulesTo_other n).2
  exact yields_ite (c := atWord true "func" ts = true) (yields_orElse functionDeclaration_other
    (yields_orElse methodDeclaration_other hstatement)) hstatement ts t rest h

/-! ### Single tokens -/

/-- Behind newlines stands the first token that is none. -/
theorem afterNewlines_eq_cons {u : Token} : afterNewlines ts = u :: rest ↔
    ∃ newlines, AllNewlines newlines ∧ ts = newlines ++ u :: rest ∧ u.lexeme ≠ .newline := by
  constructor
  · intro h
    obtain ⟨newlines, hts, hn⟩ := afterNewlines_split ts
    refine ⟨newlines, hn, h ▸ hts, fun hu => ?_⟩
    have hhead := List.head?_dropWhile_not (fun t : Token => decide (t.lexeme = .newline)) ts
    rw [show ts.dropWhile (fun t : Token => decide (t.lexeme = .newline)) =
      u :: rest from h] at hhead
    simp [hu] at hhead
  · rintro ⟨newlines, hn, rfl, hu⟩
    rw [afterNewlines, List.dropWhile_append_of_pos fun t ht => by simpa using hn t ht,
      List.dropWhile_cons_of_neg (by simpa using hu)]

/-- A keyword is taken behind newlines. -/
theorem keyword_eq_some {w : String} {t : Tree} : keyword true w ts = some (t, rest) ↔
    ∃ newlines u, AllNewlines newlines ∧ ts = newlines ++ u :: rest ∧ u.isWord w = true ∧
      t = .leaf (.token w) u.start u.stop := by
  have hword : ∀ {u : Token}, u.isWord w = true → u.lexeme ≠ .newline := fun h hn => by
    simp [Token.isWord, hn] at h
  unfold keyword
  rw [visible, if_pos rfl]
  constructor
  · intro h
    split at h
    · next u us hts =>
      simp only [Option.ite_none_right_eq_some, Option.some.injEq, Prod.mk.injEq] at h
      obtain ⟨hu, rfl, rfl⟩ := h
      obtain ⟨newlines, hn, hts, _⟩ := afterNewlines_eq_cons.mp hts
      exact ⟨newlines, u, hn, hts, hu, rfl⟩
    · simp at h
  · rintro ⟨newlines, u, hn, hts, hu, rfl⟩
    rw [afterNewlines_eq_cons.mpr ⟨newlines, hn, hts, hword hu⟩]
    simp [hu]

/-- A token of a lexeme is taken behind newlines. -/
theorem lexeme_eq_some {x : Lexeme} {k : Kind} {t : Tree} (hx : x ≠ .newline) :
    lexeme true x k ts = some (t, rest) ↔
      ∃ newlines u, AllNewlines newlines ∧ ts = newlines ++ u :: rest ∧ u.lexeme = x ∧
        t = .leaf (.node k) u.start u.stop := by
  unfold lexeme
  rw [visible, if_pos rfl]
  constructor
  · intro h
    split at h
    · next u us hts =>
      simp only [Option.ite_none_right_eq_some, Option.some.injEq, Prod.mk.injEq] at h
      obtain ⟨hu, rfl, rfl⟩ := h
      obtain ⟨newlines, hn, hts, _⟩ := afterNewlines_eq_cons.mp hts
      exact ⟨newlines, u, hn, hts, hu, rfl⟩
    · simp at h
  · rintro ⟨newlines, u, hn, hts, hu, rfl⟩
    rw [afterNewlines_eq_cons.mpr ⟨newlines, hn, hts, hu ▸ hx⟩]
    simp [hu]

/-- A symbol of one character. -/
theorem symbol_eq_some {c : Char} {text : String} {t : Tree} (hc : text.toList = [c]) :
    symbol true text ts = some (t, rest) ↔
      ∃ newlines u, AllNewlines newlines ∧ ts = newlines ++ u :: rest ∧ u.isSymbolOf c = true ∧
        t = .leaf (.token text) u.start u.stop := by
  have hsymbol : ∀ {u : Token}, u.isSymbolOf c = true → u.lexeme ≠ .newline := fun h hn => by
    simp [Token.isSymbolOf, hn] at h
  unfold symbol
  rw [visible, if_pos rfl, hc]
  constructor
  · intro h
    split at h
    · next u us hts =>
      rw [joined?] at h
      split at h
      · next hu =>
        simp only [Option.map_some, Option.some.injEq, Prod.mk.injEq] at h
        obtain ⟨rfl, rfl⟩ := h
        obtain ⟨newlines, hn, hts, _⟩ := afterNewlines_eq_cons.mp hts
        exact ⟨newlines, u, hn, hts, hu, rfl⟩
      · simp at h
    · simp at h
  · rintro ⟨newlines, u, hn, hts, hu, rfl⟩
    rw [afterNewlines_eq_cons.mpr ⟨newlines, hn, hts, hsymbol hu⟩]
    simp [joined?, hu]

end GoContracts.Syntax.Grammar

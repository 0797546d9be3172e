import GoContracts.Proofs.Typing.Answers

/-!
# Answers for operations

Where the answers of smaller depths are right, so are those of the next depth for operators,
selections and elements, unless the expression is misled. Each form of expressions is one lemma
about its rule.
-/

namespace GoContracts.Static

open Syntax (Tree)
open Lexical (Surroundings Declaration)
open Typing (answersTo underlying)

/-- A place in the package where only type parameters in `P` are in force. -/
structure Place.Within (l : Place) (p : Package) (P : List String) : Prop where
  file : l.file ∈ p.files
  params : l.params ⊆ P

/-- Answers of a depth are right, unless they are misled. -/
structure SoundAt (o : Others) (p : Package) (P : List String) (n : Nat) : Prop where
  single {l t ω info} (hl : Place.Within l p P) (hled : ¬Misled o p P n l t) (h : Gives o p l t ω)
    (hinfo : (answersTo p n).single? l.scope t = some info) : Sound o p P info ω
  results {l t} {ωs : List Operand} (hl : Place.Within l p P) (hled : ¬Misled o p P n l t)
    (h : Calls o p l t ωs) : SoundAll o p P ((answersTo p n).results l.scope t) ωs

/-- The answers of smaller depths are right, and that of the next depth is not misled. -/
structure Step (o : Others) (p : Package) (P : List String) (n : Nat) (l : Place) (t : Tree) :
    Prop where
  plain : Plain p
  known : o.Known p
  apart : ∀ n ∈ P, IsApart p n
  within : l.Within p P
  below : ∀ m ≤ n, SoundAt o p P m
  notMisled : ¬Misled o p P (n + 1) l t

variable {o : Others} {p : Package} {P : List String} {n : Nat} {l : Place}
  {t s left right operand field : Tree} {a b ω : Operand} {info : TypeInfo} {e : TypeExpr}
  {τ ρ σ : Ty} {k : ZeroKind}

/-! ### Places and depths -/

/-- A predeclared type is classified by its name. -/
theorem basic_answersTo {scope : Scope} {name : String} :
    Typing.basic p (answersTo p n) scope name = Typing.classifyAt p n scope (.named name) :=
  Package.classified_answersTo

/-- The scope of a place is one of its file. -/
@[simp] theorem Place.file_scope : l.scope.file = l.file := by
  unfold Place.scope
  split <;> rfl

/-- The type parameters of a place in reach are known. -/
theorem Place.Within.fits (hl : l.Within p P) : Fits P l.scope :=
  fun n hn h => hl.params (l.fits n hn h)

/-- A place in the same function is in reach as well. -/
theorem Place.Within.of_sameFunction {l' : Place} (hl : l.Within p P) (h : l.SameFunction l') :
    l'.Within p P :=
  ⟨h.1 ▸ hl.file, fun _ hn => hl.params (h.2 hn)⟩

/-! ### Variables -/

/-- Unless it is misled, a variable keeps its declaration or is assigned a value of its type. -/
theorem eq_or_assigns {d d' : Declaration} (hkind : t.is .identifier) (hled : ¬Misled o p P n l t)
    (h : Names o p l (l.file.textOf t) ω)
    (hd : typingDeclaration? (l.file.textOf t) l.around.blocks = some d)
    (hd' : l.around.visible? (l.file.textOf t) = some d') : d = d' ∨ Assigns o p l d' ω :=
  or_iff_not_imp_left.mpr fun hne => by_contra fun hother =>
    hled (.redeclared hkind hd hd' hne h hother)

private theorem Assigns.exists_binding {d : Declaration} (h : Assigns o p l d ω) :
    ∃ b, d.binding? = some b := by
  cases h with
  | value hb => exact ⟨_, hb⟩
  | commaOk hb => exact ⟨_, hb⟩

/-- The declaration in force has a binding, like the one that gives the variable its type. -/
theorem exists_binding {d : Declaration} (hkind : t.is .identifier) (hled : ¬Misled o p P n l t)
    (h : Names o p l (l.file.textOf t) ω)
    (hd : typingDeclaration? (l.file.textOf t) l.around.blocks = some d)
    (hb : ∃ b, d.binding? = some b) :
    ∃ d' b, l.around.visible? (l.file.textOf t) = some d' ∧ d'.binding? = some b := by
  obtain ⟨d', hd'⟩ := exists_visible? hd
  refine ⟨d', ?_⟩
  rcases eq_or_assigns hkind hled h hd hd' with rfl | hassigns
  · obtain ⟨b, hb⟩ := hb
    exact ⟨b, hd', hb⟩
  · obtain ⟨b, hb⟩ := hassigns.exists_binding
    exact ⟨b, hd', hb⟩

/-! ### Operations -/

private theorem uses_operand (hkind : t.is .unaryExpression) (hoperator : operatorOf l.file t ≠ "!")
    (hoperand : t.child? .operand = some operand) : Uses l.file t operand :=
  .operand (.inr (.inr (.inr ⟨hkind, hoperator⟩))) hoperand

/-- A comparison is a truth value. -/
theorem binaryType?_of_isComparison {answers : Typing.Answers}
    (hoperator : Typing.isComparison (operatorOf l.file t)) :
    Typing.binaryType? p answers l.scope t = some (Typing.basic p answers l.scope "bool") := by
  unfold operatorOf at hoperator
  simp only [Typing.binaryType?, Place.file_scope, hoperator, if_true]
  rfl

private theorem binaryType?_eq {answers : Typing.Answers}
    (hoperator : Typing.isComparison (operatorOf l.file t) = false)
    (hleft : t.child? .left = some left) (hright : t.child? .right = some right) :
    Typing.binaryType? p answers l.scope t =
      (answers.single? l.scope left).or (answers.single? l.scope right) := by
  unfold operatorOf at hoperator
  simp only [Typing.binaryType?, Place.file_scope, hoperator, hleft, hright, Bool.false_eq_true,
    if_false, Option.bind_eq_bind, Option.bind_some]
  cases answers.single? l.scope left <;> rfl

/-! ### Packages and elements -/

/-- The name of a variable is not that of a package. -/
theorem isPackageName_eq_false (hled : ¬Misled o p P n l operand) (h : Gives o p l operand ω) :
    (operand.is .identifier &&
      Typing.isPackageName p l.scope (l.file.textOf operand)) = false := by
  by_cases hident : operand.is .identifier = true
  swap
  · rw [Bool.eq_false_iff.mpr hident, Bool.false_and]
  have hkind' := Syntax.Tree.is_iff.mp hident
  have hlocal {d} (hnames : Names o p l (l.file.textOf operand) ω)
      (hd : typingDeclaration? (l.file.textOf operand) l.around.blocks = some d)
      (hb : ∃ b, d.binding? = some b) (hname : l.file.textOf operand ≠ "_") :
      Typing.isPackageName p l.scope (l.file.textOf operand) = false := by
    obtain ⟨d', b, hd', hb⟩ := exists_binding hident hled hnames hd hb
    rw [Typing.isPackageName, Place.lookup?_of_visible hname hd' hb]
    rfl
  have hglobal {source} (hvalue : p.value? (l.file.textOf operand) = some source) :
      Typing.isPackageName p l.scope (l.file.textOf operand) = false := by
    rw [Typing.isPackageName, hvalue]
    simp
  rw [hident, Bool.true_and]
  cases h with
  | name hkind hword hnames =>
    have hblank : l.file.textOf operand ≠ "_" := fun hname => hword (by rw [hname]; decide)
    have hnames' := hnames
    cases hnames with
    | declared hd hb => exact hlocal hnames' hd ⟨_, hb⟩ hblank
    | assigned hd h => exact hlocal hnames' hd h.exists_binding hblank
    | ranged hd hb => exact hlocal hnames' hd ⟨_, hb⟩ hblank
    | globalDeclared _ hdeclared => exact hglobal hdeclared.1
    | globalValue _ hvalue => exact hglobal hvalue
  | constant hkind hc =>
    rw [hkind] at hkind'
    cases hkind'
    cases hc
  | spelled hkind => simp [Syntax.Tree.is_iff, hkind'] at hkind
  | _ hkind => simp [Syntax.Tree.is_iff, hkind'] at hkind

/-- A name that only an import declares is that of a package. -/
theorem isPackageName_eq_true (hp : Plain p) {name path : String} (hfile : l.file ∈ p.files)
    (hglobal : l.IsGlobal name) (hvalue : p.value? name = none)
    (himport : l.file.importPath? name = some path) :
    Typing.isPackageName p l.scope name = true := by
  rw [Typing.isPackageName, Place.lookup?_of_isGlobal hglobal, hvalue, hp.imports hfile himport]
  rfl

/-- The element that is read off a shape is that of a value with that type. -/
theorem denotes_element (hp : Plain p) (ho : o.Known p) (hd : Denotes o p P e τ)
    (hcaptures : ¬Captures p P τ) {element : TypeExpr} (hσ : Indexes p (.typed τ) σ)
    (helement : elementIn? (underlying p e.deref).shape = some element) :
    Denotes o p P element σ := by
  have hread (target) : (underlying p e.deref).shape ≠ .pointer target := fun hshape => by
    rw [hshape] at helement
    cases helement
  cases hσ with
  | element h hρ =>
    obtain ⟨σ', rfl | ⟨x, rfl, rfl⟩, hagrees⟩ :=
      hd.agrees_deref hp ho hcaptures .self h hρ.ne_pointer hread
    · exact hagrees.element hρ helement
    · cases hρ
      exact hagrees.element .array helement
  | pointed hρ h =>
    obtain ⟨σ', rfl | ⟨x, hx, -⟩, hagrees⟩ :=
      hd.agrees_deref hp ho hcaptures (.target hρ) h (fun x hx => by cases hx) hread
    · exact hagrees.element .array helement
    · cases hx

/-! ### Types in an answer -/

namespace Step

variable (step : Step o p P n l t)

include step

/-- Types at a place are written in its context. -/
theorem proper : Proper o p P l.context := by
  refine .of_file step.plain step.known step.within.file fun m τ _ hbound => ?_
  obtain ⟨d, hd, rfl⟩ := Option.map_eq_some_iff.mp hbound
  split
  · next hform =>
    refine .inr ⟨step.apart m (step.within.params ?_), fun _ => ⟨m, rfl⟩⟩
    rw [Surroundings.visible?_eq] at hd
    have hname : d.name = m := by simpa using List.find?_some hd
    exact List.mem_map.mpr ⟨d, List.mem_filter.mpr
      ⟨List.mem_of_find?_eq_some hd, by simpa using hform⟩, hname⟩
  · exact .inl ⟨m, rfl⟩

/-- The answer for an expression that denotes a type is right. -/
theorem denotes {scope : Scope} {m : Nat} (hscope : Fits P scope) (h : Denotes o p P e τ) :
    Sound o p P (Typing.classified p (answersTo p m) scope e) (.typed τ) := by
  rw [Package.classified_answersTo]
  exact sound_classifyAt step.plain step.known step.apart hscope h m

/-- A type that is written at the place gets the right answer. -/
theorem resolved {m : Nat} (h : Resolves p l.context e τ) :
    Sound o p P (Typing.classified p (answersTo p m) l.scope e) (.typed τ) :=
  step.denotes step.within.fits (.resolved step.proper h)

/-- So does a predeclared type for an operand of its kind. -/
theorem basic {scope : Scope} {m : Nat} {name : String} (hscope : Fits P scope)
    (hn : predeclaredKind? name = some k) (hω : ∀ k', ω.HasZero o p k' → k' = k) :
    Sound o p P (Typing.basic p (answersTo p m) scope name) ω := by
  rw [basic_answersTo]
  exact sound_basic step.apart hscope hn hω m

/-! ### Answers for parts -/

/-- A part of a tree that is not misled is not misled. -/
theorem not_misled (hs : Uses l.file t s) : ¬Misled o p P n l s :=
  fun hled => step.notMisled (.part hs hled)

/-- The answer for a part is right. -/
theorem part (hs : Uses l.file t s) (h : Gives o p l s ω)
    (hinfo : (answersTo p n).single? l.scope s = some info) : Sound o p P info ω :=
  (step.below n (Nat.le_refl n)).single step.within (step.not_misled hs) h hinfo

private theorem not_captures (hoperand : t.child? .operand = some operand)
    (h : Gives o p l operand (.typed τ)) : ¬Captures p P τ :=
  fun hτ => step.notMisled (.captured hoperand h hτ)

/-- A constant that is an operand has a type whose name is not captured. -/
theorem part_type (huses : Uses l.file t operand) (hoperand : t.child? .operand = some operand)
    (h : Gives o p l operand ω)
    (hinfo : (answersTo p n).single? l.scope operand = some info) :
    Denotes o p P info.type ω.type ∧ ¬Captures p P ω.type := by
  refine ⟨(step.part huses h hinfo).type.1, ?_⟩
  cases ω with
  | typed τ => exact step.not_captures hoperand h
  | untyped c => exact fun hcaptures => nomatch hcaptures

/-! ### Operators -/

/-- A logical operation is true or false. -/
theorem logical (hkind : t.is .unaryExpression ∧ operatorOf l.file t = "!" ∨
      t.is .binaryExpression ∧ operatorOf l.file t ∈ ["&&", "||"]) (hω : Gives o p l t ω)
    (hbool : ∀ k, ω.HasZero o p k → k = .bool ∨ k = .typeParam) :
    Sound o p P (Typing.basic p (answersTo p n) l.scope "bool") ω := by
  refine step.basic step.within.fits rfl fun k hk => ?_
  rcases hbool k hk with rfl | rfl
  · rfl
  · exact (step.notMisled (.logical hkind hω hk)).elim

/-- The answer for a negation is right. -/
theorem negation (hkind : t.is .unaryExpression) (hoperator : operatorOf l.file t = "!")
    (hoperand : t.child? .operand = some operand) (hω : Gives o p l t ω)
    (hbool : ∀ k, ω.HasZero o p k → k = .bool ∨ k = .typeParam)
    (hinfo : Typing.unaryType? p (answersTo p n) l.scope t = some info) : Sound o p P info ω := by
  have hsound := step.logical (.inl ⟨hkind, hoperator⟩) hω hbool
  unfold operatorOf at hoperator
  simp only [Typing.unaryType?, Place.file_scope, hoperator, hoperand, Option.bind_eq_bind,
    Option.bind_some] at hinfo
  cases hinfo
  exact hsound

/-- The answer for a number with a sign is right. -/
theorem sign (hkind : t.is .unaryExpression) (hoperator : operatorOf l.file t ∈ ["+", "-", "^"])
    (hoperand : t.child? .operand = some operand) (h : Gives o p l operand ω)
    (hinfo : Typing.unaryType? p (answersTo p n) l.scope t = some info) : Sound o p P info ω := by
  have hread : Typing.unaryType? p (answersTo p n) l.scope t =
      (answersTo p n).single? l.scope operand := by
    simp only [List.mem_cons, List.not_mem_nil, or_false, operatorOf] at hoperator
    rcases hoperator with hoperator | hoperator | hoperator <;>
      simp only [Typing.unaryType?, Place.file_scope, hoperator, hoperand, Option.bind_eq_bind,
        Option.bind_some] <;> rfl
  have hnot : operatorOf l.file t ≠ "!" := fun hnot => by
    rw [hnot] at hoperator
    simp at hoperator
  exact step.part (uses_operand hkind hnot hoperand) h (hread ▸ hinfo)

/-- The answer for an address is right. -/
theorem address (hkind : t.is .unaryExpression) (hoperator : operatorOf l.file t = "&")
    (hoperand : t.child? .operand = some operand) (h : Gives o p l operand (.typed τ))
    (hinfo : Typing.unaryType? p (answersTo p n) l.scope t = some info) :
    Sound o p P info (.typed (.pointer τ)) := by
  have huses := uses_operand hkind (by rw [hoperator]; decide) hoperand
  unfold operatorOf at hoperator
  simp only [Typing.unaryType?, Place.file_scope, hoperator, hoperand, Option.bind_eq_bind,
    Option.bind_some] at hinfo
  obtain ⟨inner, hinner, hinfo⟩ := Option.bind_eq_some_iff.mp hinfo
  cases hinfo
  exact step.denotes step.within.fits (.pointer rfl (step.part huses h hinner).1)

/-- The answer for what a pointer points to is right. -/
theorem indirection (hkind : t.is .unaryExpression) (hoperator : operatorOf l.file t = "*")
    (hoperand : t.child? .operand = some operand) (h : Gives o p l operand (.typed τ))
    (hσ : Underlying p τ (.pointer σ))
    (hinfo : Typing.unaryType? p (answersTo p n) l.scope t = some info) :
    Sound o p P info (.typed σ) := by
  have huses := uses_operand hkind (by rw [hoperator]; decide) hoperand
  unfold operatorOf at hoperator
  simp only [Typing.unaryType?, Place.file_scope, hoperator, hoperand, Option.bind_eq_bind,
    Option.bind_some] at hinfo
  obtain ⟨inner, hinner, hinfo⟩ := Option.bind_eq_some_iff.mp hinfo
  split at hinfo
  · next target hshape =>
    cases hinfo
    have hagrees := (step.part huses h hinner).1.agrees step.plain hσ
    rw [hshape] at hagrees
    rcases hagrees with ⟨_, hsame, hd⟩ | ⟨_, _, hsame, -⟩
    · cases hsame
      exact step.denotes step.within.fits hd
    · cases hsame
  · cases hinfo

/-- The answer for what a channel delivers is right. -/
theorem receive (hkind : t.is .unaryExpression) (hoperator : operatorOf l.file t = "<-")
    (hoperand : t.child? .operand = some operand) (h : Gives o p l operand (.typed τ))
    (hσ : Underlying p τ (.chan σ))
    (hinfo : Typing.unaryType? p (answersTo p n) l.scope t = some info) :
    Sound o p P info (.typed σ) := by
  have huses := uses_operand hkind (by rw [hoperator]; decide) hoperand
  unfold operatorOf at hoperator
  simp only [Typing.unaryType?, Place.file_scope, hoperator, hoperand, Option.bind_eq_bind,
    Option.bind_some] at hinfo
  obtain ⟨inner, hinner, hinfo⟩ := Option.bind_eq_some_iff.mp hinfo
  split at hinfo
  · next element hshape =>
    cases hinfo
    have hagrees := (step.part huses h hinner).1.agrees_underlying step.plain step.known hσ
      (step.not_captures hoperand h)
    rw [hshape] at hagrees
    obtain ⟨_, hsame, hd⟩ := hagrees
    cases hsame
    exact step.denotes step.within.fits hd
  · cases hinfo

/-- An operation on two operands gets the answer for the first one that has any. -/
theorem operation (hkind : t.is .binaryExpression)
    (hoperator : Typing.isComparison (operatorOf l.file t) = false)
    (hleft : t.child? .left = some left) (hright : t.child? .right = some right)
    (ha : Gives o p l left a) (hb : Gives o p l right b) (h : Combine a b ω) (hω : Gives o p l t ω)
    (hinfo : Typing.binaryType? p (answersTo p n) l.scope t = some info) : Sound o p P info ω := by
  have hconstant {s c} (hs : s = left ∧ ((answersTo p n).single? l.scope left).isSome ∨
      s = right ∧ (answersTo p n).single? l.scope left = none) (hc : Gives o p l s (.untyped c))
      (hsound : Sound o p P info (.untyped c)) : Sound o p P info ω :=
    hsound.of_untyped fun k hk => by_contra fun hne =>
      step.notMisled (.operand hkind hoperator hleft hright hs hc hω hk hne)
  rw [binaryType?_eq hoperator hleft hright] at hinfo
  cases hanswer : (answersTo p n).single? l.scope left with
  | some leftInfo =>
    rw [hanswer, Option.some_or] at hinfo
    cases hinfo
    have hsound := step.part (.side hkind hoperator (.inl hleft)) ha hanswer
    rcases h.of_left with rfl | ⟨c, rfl⟩
    · exact hsound
    · exact hconstant (.inl ⟨rfl, by rw [hanswer]; rfl⟩) ha hsound
  | none =>
    rw [hanswer, Option.none_or] at hinfo
    have hsound := step.part (.side hkind hoperator (.inr hright)) hb hinfo
    rcases h.of_right with rfl | ⟨c, rfl⟩
    · exact hsound
    · exact hconstant (.inr ⟨rfl, hanswer⟩) hb hsound

/-- A shift gets the answer for its left operand. -/
theorem shift (hkind : t.is .binaryExpression) (hoperator : operatorOf l.file t ∈ ["<<", ">>"])
    (hleft : t.child? .left = some left) (hright : t.child? .right = some right)
    (ha : Gives o p l left a) (hω : Gives o p l t a.shifted)
    (hinfo : Typing.binaryType? p (answersTo p n) l.scope t = some info) :
    Sound o p P info a.shifted := by
  have hcomparison : Typing.isComparison (operatorOf l.file t) = false := by
    simp only [List.mem_cons, List.not_mem_nil, or_false] at hoperator
    rcases hoperator with h | h <;> rw [h] <;> decide
  rw [binaryType?_eq hcomparison hleft hright] at hinfo
  cases hanswer : (answersTo p n).single? l.scope left with
  | some leftInfo =>
    rw [hanswer, Option.some_or] at hinfo
    cases hinfo
    have hsound := step.part (.side hkind hcomparison (.inl hleft)) ha hanswer
    cases a with
    | typed τ => exact hsound
    | untyped c =>
      exact hsound.of_untyped fun k hk => by_contra fun hne =>
        step.notMisled (.operand hkind hcomparison hleft hright
          (.inl ⟨rfl, by rw [hanswer]; rfl⟩) ha hω hk hne)
  | none =>
    rw [hanswer, Option.none_or] at hinfo
    exact (step.notMisled (.count hkind hoperator hleft hright hanswer (by rw [hinfo]; rfl))).elim

/-! ### Selections and elements -/

/-- The answer for a field is right. -/
theorem selection {fields : List (String × Ty)} (hkind : t.is .selectorExpression)
    (hoperand : t.child? .operand = some operand) (hfield : t.child? .field = some field)
    (h : Gives o p l operand (.typed τ))
    (hρ : Reaches p τ ρ) (hfields : Underlying p ρ (.struct fields))
    (hσ : fields.lookup (l.file.textOf field) = some σ)
    (hinfo : Typing.selectionType? p (answersTo p n) l.scope t = some info) :
    Sound o p P info (.typed σ) := by
  have huses : Uses l.file t operand := .operand (.inl hkind) hoperand
  have hvariable := isPackageName_eq_false (step.not_misled huses) h
  simp only [Typing.selectionType?, Place.file_scope, hoperand, hfield, hvariable,
    Bool.false_eq_true, if_false, Option.bind_eq_bind, Option.bind_some] at hinfo
  obtain ⟨inner, hinner, hinfo⟩ := Option.bind_eq_some_iff.mp hinfo
  split at hinfo
  swap
  · cases hinfo
  next spelled hshape =>
  obtain ⟨⟨g, e⟩, he, hinfo⟩ := Option.bind_eq_some_iff.mp hinfo
  cases hinfo
  obtain ⟨σ', hσ', hagrees⟩ := (step.part huses h hinner).1.agrees_deref step.plain step.known
    (step.not_captures hoperand h) hρ hfields (fun x hx => by cases hx)
    (fun target htarget => by rw [hshape] at htarget; cases htarget)
  rw [hshape] at hagrees
  obtain ⟨c, types, rfl, hc, htypes⟩ := hagrees
  rcases hσ' with hsame | ⟨_, hsame, -⟩
  · cases hsame
    exact step.denotes fits_packageLevel (.resolved hc (htypes.lookup he hσ))
  · cases hsame

/-- A variable of another package has the type in the table of well-known ones. -/
theorem imported {path : String} (hoperand : t.child? .operand = some operand)
    (hfield : t.child? .field = some field) (hident : operand.is .identifier)
    (hglobal : l.IsGlobal (l.file.textOf operand))
    (hvalue : p.value? (l.file.textOf operand) = none)
    (himport : l.file.importPath? (l.file.textOf operand) = some path)
    (he : o.valueOf? path (l.file.textOf field) = some e) (h : Resolves p o.context e τ)
    (hinfo : Typing.selectionType? p (answersTo p n) l.scope t = some info) :
    Sound o p P info (.typed τ) := by
  simp only [Typing.selectionType?, Place.file_scope, hoperand, hfield, hident,
    isPackageName_eq_true step.plain step.within.file hglobal hvalue himport, Bool.and_self,
    if_true, Option.bind_eq_bind, Option.bind_some] at hinfo
  obtain ⟨spelled, hspelled, hinfo⟩ := Option.bind_eq_some_iff.mp hinfo
  cases hinfo
  have hpath := step.plain.imports step.within.file himport
  rw [Typing.qualifiedKey, hpath, Option.getD_some] at hspelled
  obtain rfl := step.known.value hspelled he
  exact step.denotes step.within.fits (.resolved (proper_library step.known) h)

/-- The answer for an element is right. -/
theorem index (hkind : t.is .indexExpression) (hoperand : t.child? .operand = some operand)
    (h : Gives o p l operand ω) (hσ : Indexes p ω σ)
    (hinfo : Typing.indexType? p (answersTo p n) l.scope t = some info) :
    Sound o p P info (.typed σ) := by
  simp only [Typing.indexType?, hoperand, Option.bind_eq_bind, Option.bind_some] at hinfo
  obtain ⟨inner, hinner, hinfo⟩ := Option.bind_eq_some_iff.mp hinfo
  obtain ⟨element, helement, rfl⟩ : ∃ element,
      elementIn? (underlying p inner.type.deref).shape = some element ∧
        Typing.classified p (answersTo p n) l.scope element = info := by
    split at hinfo <;> cases hinfo <;> next hshape => rw [hshape]; exact ⟨_, rfl, rfl⟩
  have hσ' : Indexes p (.typed ω.type) σ := by
    cases hσ with
    | element hσ hρ => exact .element hσ hρ
    | pointed hρ hσ => exact .pointed hρ hσ
    | constant => exact .element (.here rfl) .string
  obtain ⟨hd, hcaptures⟩ := step.part_type (.operand (.inr (.inl hkind)) hoperand) hoperand h hinner
  exact step.denotes step.within.fits
    (denotes_element step.plain step.known hd hcaptures hσ' helement)

/-- A part of a value gets the answer for the value, which is right unless that is an array. -/
theorem slice (hkind : t.is .sliceExpression) (hoperand : t.child? .operand = some operand)
    (h : Gives o p l operand ω) (hσ : Slices p ω σ)
    (hinfo : (answersTo p n).single? l.scope operand = some info) :
    Sound o p P info (.typed σ) := by
  have hsound := step.part (.operand (.inr (.inr (.inl hkind))) hoperand) h hinfo
  cases hσ with
  | slice => exact hsound
  | string => exact hsound
  | constant => exact hsound.type
  | array hρ hσ =>
    cases hρ with
    | self => exact (step.notMisled (.array hkind hoperand h hσ)).elim
    | target hρ =>
      refine ⟨.sliced hsound.1 (step.not_captures hoperand h) hρ hσ, fun k k' hk hk' => ?_⟩
      cases hk
      exact hsound.2 _ _ (hρ.hasZero .pointer) hk'

end Step

end GoContracts.Static

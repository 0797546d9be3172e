import GoContracts.Proofs.Typing.Rules
import GoContracts.Typing.Expression

/-!
# Type expressions of answers

Answers hold type expressions, whose names are looked up once more wherever they are read. A type
expression denotes a type if it was written for it, or is that of a constant of its kind. Reading
the category, the underlying type and the parts of a type expression agrees with the type that it
denotes, as long as no name is taken for another one.
-/

namespace GoContracts.Static

open Syntax (Tree)
open Typing (category underlying)

/-! ### Packages without misleading names -/

/-- The name is neither that of a type of the package nor that of a predeclared one. -/
def IsApart (p : Package) (name : String) : Prop :=
  name ≠ "_" → p.typeDecl? name = none ∧ predeclaredKind? name = none

/-- Names of types tell what they stand for wherever they are read: predeclared types keep their
names, type parameters and types have different ones, methods belong to types of the package, and
the files agree on the packages that they import under one name. -/
structure Plain (p : Package) : Prop where
  predeclared {n k} (h : predeclaredKind? n = some k) : p.typeDecl? n = none
  single {n} (hn : n ≠ "_") (h : (p.func? n).isSome) : p.typeDecl? n = none
  typeParams {n d q} (h : p.typeDecl? n = some d) (hq : q ∈ d.typeParams) : IsApart p q.name
  functions {n s q} (h : p.func? n = some s) (hq : q ∈ s.typeParams) : IsApart p q.name
  receivers {r n s args q σ} (h : p.method? r n = some s) (hq : bindReceiver s args q = some σ) :
    IsApart p q
  methods {r n s} (h : p.method? r n = some s) : (p.typeDecl? r).isSome ∧ isAlias p r = false
  imports {file q path} (hfile : file ∈ p.files) (h : file.importPath? q = some path) :
    p.importPath? q = some path

/-- A type leads to an instance of a declaration one of whose type parameters has a name in `P` and
stands for a type other than a type parameter. -/
inductive Captures (p : Package) (P : List String) : Ty → Prop
  | bound {n args file d m σ} (hdeclared : DeclaresType p file n d) (hm : m ∈ P)
    (hσ : (Context.ofType file d args).bound m = some σ) (hparam : ∀ x, σ ≠ .param x) :
    Captures p P (.named n args)
  | underlying {n args file d τ} (hdeclared : DeclaresType p file n d)
    (hτ : Resolves p (.ofType file d args) d.underlying τ) (h : Captures p P τ) :
    Captures p P (.named n args)
  | pointer {τ} (h : Captures p P τ) : Captures p P (.pointer τ)

/-! ### What a type expression denotes -/

/-- The names that a context binds are those of type parameters or of types inside functions, and
those in `P` stand for type parameters. Qualified names have the categories that they are looked up
under. -/
structure Proper (o : Others) (p : Package) (P : List String) (c : Context) : Prop where
  bound {n τ} (hn : n ≠ "_") (h : c.bound n = some τ) :
    (∃ m, τ = .inner m) ∨ IsApart p n ∧ (n ∈ P → ∃ m, τ = .param m)
  imports {q path n cat k} (h : c.imports q = some path)
    (hcat : Library.category? (Typing.qualifiedKey p q n) = some cat)
    (hk : o.kindOf? path n = some k) : cat.zeroKind? = some k

/-- A type expression denotes a type. -/
inductive Denotes (o : Others) (p : Package) (P : List String) : TypeExpr → Ty → Prop
  /-- An expression of another form says nothing. -/
  | unread {e τ} (hshape : e.shape = .unknown) : Denotes o p P e τ
  | resolved {c e τ} (hc : Proper o p P c) (h : Resolves p c e τ) : Denotes o p P e τ
  /-- The arguments of a type of the package need not be written. -/
  | named {e n args τs} (hshape : e.shape = .named none n args) (hn : n ≠ "_")
    (hdeclared : (p.typeDecl? n).isSome) (halias : isAlias p n = false) :
    Denotes o p P e (.named n τs)
  /-- The type of a constant on its own may be written for any type of its kind. -/
  | constant {n k τ} (hn : predeclaredKind? n = some k) (hk : ∀ k', HasZero o p τ k' → k' = k) :
    Denotes o p P (.named n) τ
  | pointer {e target τ} (hshape : e.shape = .pointer target) (h : Denotes o p P target τ) :
    Denotes o p P e (.pointer τ)
  /-- The pointer to an array may be written for a slice of it. -/
  | sliced {e τ ρ σ} (h : Denotes o p P e τ) (hcaptures : ¬Captures p P τ)
    (hτ : Underlying p τ (.pointer ρ)) (hρ : Underlying p ρ (.array σ)) : Denotes o p P e (.slice σ)

/-- The type parameters of a scope are in `P`. -/
def Fits (P : List String) (scope : Scope) : Prop :=
  ∀ n, n ≠ "_" → (scope.typeParam? n).isSome → n ∈ P

variable {o : Others} {p : Package} {P : List String} {e target element : TypeExpr} {τ ρ σ : Ty}
  {c : Context} {k k' : ZeroKind} {n : String} {file : SourceFile} {d : TypeDecl} {args : List Ty}
  {scope : Scope}

private theorem mem_of_bind {params : List String} (h : bind params args n = some σ) :
    n ∈ params := by
  induction params generalizing args with
  | nil => cases h
  | cons q params ih =>
    cases args with
    | nil => cases h
    | cons τ args =>
      rw [bind, List.zip_cons_cons, List.lookup_cons] at h
      split at h
      · next heq => exact List.mem_cons.mpr (.inl (beq_iff_eq.mp heq))
      · exact List.mem_cons_of_mem _ (ih h)

/-- Outside of all functions there are no type parameters. -/
theorem fits_packageLevel : Fits P (.packageLevel file) := fun _ _ h => nomatch h

/-- Without type parameters nothing is captured. -/
theorem not_captures_nil : ¬Captures p [] τ := by
  intro h
  induction h with
  | bound _ hm => cases hm
  | underlying _ _ _ ih => exact ih
  | pointer _ ih => exact ih

private theorem Captures.of_underlying (h : Underlying p τ σ) (hσ : Captures p P σ) :
    Captures p P τ := by
  induction h with
  | here => exact hσ
  | named hdeclared hτ _ ih => exact .underlying hdeclared hτ (ih hσ)

section

variable (hp : Plain p) (ho : o.Known p)

include hp ho

/-- Inside a file of the package names are looked up under its imports. -/
theorem Proper.of_file (hfile : file ∈ p.files) {bound : String → Option Ty}
    (hbound : ∀ n τ, n ≠ "_" → bound n = some τ →
      (∃ m, τ = .inner m) ∨ IsApart p n ∧ (n ∈ P → ∃ m, τ = .param m)) :
    Proper o p P ⟨file.importPath?, bound, true⟩ where
  bound {n τ} hn h := hbound n τ hn h
  imports {q path n cat k} h hcat hk := by
    rw [Typing.qualifiedKey, hp.imports hfile h, Option.getD_some] at hcat
    exact ho.kind hcat hk

omit hp in
/-- The context of a library is proper. -/
theorem proper_library : Proper o p P o.context where
  bound _ h := nomatch h
  imports h hcat hk := ho.path h hcat hk

/-- A declared type that captures no name is read properly. -/
theorem proper_ofType (hdeclared : DeclaresType p file n d)
    (hcaptures : ¬Captures p P (.named n args)) : Proper o p P (.ofType file d args) := by
  refine .of_file hp ho hdeclared.2.1 fun m σ _ hσ => .inr ⟨?_, fun hm => ?_⟩
  · obtain ⟨q, hq, rfl⟩ := List.mem_map.mp (mem_of_bind hσ)
    exact hp.typeParams hdeclared.1 hq
  · by_contra hparam
    exact hcaptures (.bound hdeclared hm hσ fun x hx => hparam ⟨x, hx⟩)

end

/-! ### Categories -/

/-- A type outside of the package that has a category has a kind with its zero value. -/
theorem predeclaredKind?_of_builtinCategory? {cat : Category}
    (h : Library.builtinCategory? n = some cat) :
    ∃ k, predeclaredKind? n = some k ∧ cat.zeroKind? = some k := by
  unfold Library.builtinCategory? at h
  split at h <;> cases h <;> exact ⟨_, rfl, rfl⟩

private theorem builtinCategory?_of_predeclaredKind? (h : predeclaredKind? n = some k) :
    ∃ cat, Library.builtinCategory? n = some cat ∧ cat.zeroKind? = some k := by
  unfold predeclaredKind? at h
  simp only [List.contains_eq_mem, List.mem_cons, List.not_mem_nil, or_false,
    decide_eq_true_eq] at h
  split at h
  · next hn => subst hn; exact ⟨.string, rfl, h⟩
  split at h
  · next hn => subst hn; exact ⟨.bool, rfl, h⟩
  split at h
  · next hn =>
    rcases hn with hn | hn | hn | hn | hn | hn | hn | hn | hn | hn | hn | hn | hn <;> subst hn <;>
      exact ⟨.integer, rfl, h⟩
  split at h
  · next hn => rcases hn with hn | hn <;> subst hn <;> exact ⟨.float, rfl, h⟩
  split at h
  · next hn => rcases hn with hn | hn <;> subst hn <;> exact ⟨.complex, rfl, h⟩
  split at h
  · next hn => rcases hn with hn | hn <;> subst hn <;> exact ⟨.nilable, rfl, h⟩
  · cases h

private theorem predeclaredKind?_canonicalName :
    predeclaredKind? (canonicalName n) = predeclaredKind? n := by
  unfold canonicalName
  split
  · next h => rw [h]; rfl
  split
  · next h => rw [h]; rfl
  · rfl

/-- The category of a name is that of a type parameter, of a predeclared type or of what a
declaration stands for. -/
theorem category_named (p : Package) (scope : Scope) {args : List TypeExpr}
    (hshape : e.shape = .named none n args) (depth : Nat) : (scope.typeParam? n).isSome ∧
        (∃ comparable, category p (depth + 1) scope e = .typeParam comparable) ∨
      scope.typeParam? n = none ∧ ((∃ cat, Library.builtinCategory? n = some cat ∧
          category p (depth + 1) scope e = cat) ∨
        Library.builtinCategory? n = none ∧ ((∃ d, p.typeDecl? n = some d ∧
          category p (depth + 1) scope e =
            category p depth (.packageLevel scope.file) d.underlying) ∨
          p.typeDecl? n = none ∧ category p (depth + 1) scope e = .unknown)) := by
  rw [category, hshape]
  simp only
  rw [Typing.typeParamConstraint?]
  cases scope.typeParam? n with
  | some q => exact .inl ⟨rfl, _, rfl⟩
  | none =>
    refine .inr ⟨rfl, ?_⟩
    cases Library.builtinCategory? n with
    | some cat => exact .inl ⟨cat, rfl, rfl⟩
    | none =>
      refine .inr ⟨rfl, ?_⟩
      cases p.typeDecl? n with
      | some d => exact .inl ⟨d, rfl, rfl⟩
      | none => exact .inr ⟨rfl, rfl⟩

private theorem ne_blank (h : predeclaredKind? n = some k) : n ≠ "_" := by
  rintro rfl
  cases h

section

variable (hp : Plain p) (hscope : Fits P scope) (hP : ∀ n ∈ P, IsApart p n)

include hp hscope hP

/-- A name of a type of the package is read as that. -/
theorem category_declared {args : List TypeExpr} (hshape : e.shape = .named none n args)
    (hn : n ≠ "_") (hdeclared : p.typeDecl? n = some d) (depth : Nat) :
    category p (depth + 1) scope e = category p depth (.packageLevel scope.file) d.underlying := by
  rcases category_named p scope hshape depth with
    ⟨hparam, -⟩ | ⟨-, ⟨cat, hcat, -⟩ | ⟨-, ⟨d', hd', h⟩ | ⟨hnone, -⟩⟩⟩
  · have hnone := (hP n (hscope n hn hparam) hn).1
    rw [hdeclared] at hnone
    cases hnone
  · obtain ⟨k, hk, -⟩ := predeclaredKind?_of_builtinCategory? hcat
    rw [hp.predeclared hk] at hdeclared
    cases hdeclared
  · rw [hdeclared] at hd'
    cases hd'
    exact h
  · rw [hdeclared] at hnone
    cases hnone

omit hp in
/-- A predeclared name is read as that. -/
theorem category_predeclared {args : List TypeExpr} (hshape : e.shape = .named none n args)
    (hkind : predeclaredKind? n = some k) (depth : Nat) :
    (category p (depth + 1) scope e).zeroKind? = some k := by
  obtain ⟨cat, hcat, hk⟩ := builtinCategory?_of_predeclaredKind? hkind
  rcases category_named p scope hshape depth with
    ⟨hparam, -⟩ | ⟨-, ⟨cat', hcat', h⟩ | ⟨hnone, -⟩⟩
  · have hapart := (hP n (hscope n (ne_blank hkind) hparam) (ne_blank hkind)).2
    rw [hkind] at hapart
    cases hapart
  · rw [hcat] at hcat'
    rw [h, ← Option.some.inj hcat', hk]
  · rw [hcat] at hnone
    cases hnone

end

section

variable (hp : Plain p) (ho : o.Known p)

include hp ho

/-- The category of a type expression is that of the type that it denotes. -/
theorem Denotes.zeroKind {depth : Nat} (hscope : Fits P scope) (hP : ∀ n ∈ P, IsApart p n)
    (hd : Denotes o p P e τ) (hk : HasZero o p τ k)
    (hcategory : (category p depth scope e).zeroKind? = some k') : k' = k := by
  induction depth generalizing scope P e τ k with
  | zero => cases hcategory
  | succ depth ih =>
    -- What a declaration stands for is read at the top level, where no type parameter is captured.
    have hunfold {e : TypeExpr} {k n args file d args' τ'} (hshape : e.shape = .named none n args)
        (hn : n ≠ "_") (hdeclared : DeclaresType p file n d)
        (h : Resolves p (.ofType file d args') d.underlying τ') (hk : HasZero o p τ' k)
        (hcategory : (category p (depth + 1) scope e).zeroKind? = some k') : k' = k := by
      rw [category_declared hp hscope hP hshape hn hdeclared.1] at hcategory
      have hproper : Proper o p [] (.ofType file d args') :=
        proper_ofType hp ho hdeclared not_captures_nil
      exact ih fits_packageLevel (by simp) (.resolved hproper h) hk hcategory
    have hliteral {e : TypeExpr} {k} {cat : Category}
        (hcategory : (category p (depth + 1) scope e).zeroKind? = some k')
        (h : category p (depth + 1) scope e = cat) (hk : cat.zeroKind? = some k) : k' = k := by
      rw [h, hk] at hcategory
      exact (Option.some.inj hcategory).symm
    induction hd generalizing k with
    | unread hshape => rw [category, hshape] at hcategory; cases hcategory
    | named hshape hn hdeclared _ =>
      cases hk with
      | named hdeclared hτ hk => exact hunfold hshape hn hdeclared hτ hk hcategory
    | constant hn hk' =>
      have hkind := category_predeclared (e := .named _) hscope hP rfl hn depth
      rw [hkind] at hcategory
      rw [← Option.some.inj hcategory, hk' k hk]
    | pointer hshape => cases hk; exact hliteral hcategory (by rw [category, hshape]) rfl
    | sliced _ _ hτ _ ih =>
      cases hk
      exact ih (hτ.hasZero .pointer) hcategory
    | resolved hc h =>
      cases h with
      | bound hshape hn hbound =>
        rcases hc.bound hn hbound with ⟨m, rfl⟩ | ⟨hapart, hparam⟩
        · cases hk
        rcases category_named p scope hshape depth with
          ⟨hscoped, comparable, h⟩ | ⟨-, ⟨cat, hcat, -⟩ | ⟨-, ⟨d, hd, -⟩ | ⟨-, h⟩⟩⟩
        · obtain ⟨m, rfl⟩ := hparam (hscope _ hn hscoped)
          cases hk
          exact hliteral hcategory h rfl
        · obtain ⟨k, hk, -⟩ := predeclaredKind?_of_builtinCategory? hcat
          rw [(hapart hn).2] at hk
          cases hk
        · rw [(hapart hn).1] at hd
          cases hd
        · rw [h] at hcategory
          cases hcategory
      | declared hshape hn hbound hown hdeclared halias hargs =>
        cases hk with
        | named hdeclared hτ hk => exact hunfold hshape hn hdeclared hτ hk hcategory
      | renamed hshape hn hbound hown hdeclared halias hparams h =>
        exact hunfold hshape hn hdeclared h hk hcategory
      | predeclared hshape hbound hfree hn =>
        obtain ⟨k, hn⟩ := Option.isSome_iff_exists.mp hn
        rw [category_predeclared hscope hP hshape hn depth] at hcategory
        cases hk with
        | basic hk =>
          rw [predeclaredKind?_canonicalName, hn] at hk
          exact (Option.some.inj hcategory).symm.trans (Option.some.inj hk)
      | foreign hshape himport =>
        cases hk with
        | foreign hk =>
          rw [category, hshape] at hcategory
          simp only at hcategory
          cases hcat : Library.category? (Typing.qualifiedKey p _ _) with
          | none =>
            rw [hcat] at hcategory
            cases hcategory
          | some cat =>
            rw [hcat, Option.getD_some, hc.imports himport hcat hk] at hcategory
            exact (Option.some.inj hcategory).symm
      | func hshape => cases hk; exact hliteral hcategory (by rw [category, hshape]) rfl
      | interface hshape => cases hk; exact hliteral hcategory (by rw [category, hshape]) rfl
      | pointer hshape => cases hk; exact hliteral hcategory (by rw [category, hshape]) rfl
      | slice hshape => cases hk; exact hliteral hcategory (by rw [category, hshape]) rfl
      | array hshape => cases hk; exact hliteral hcategory (by rw [category, hshape]) rfl
      | map hshape => cases hk; exact hliteral hcategory (by rw [category, hshape]) rfl
      | chan hshape => cases hk; exact hliteral hcategory (by rw [category, hshape]) rfl
      | struct hshape => cases hk; exact hliteral hcategory (by rw [category, hshape]) rfl

end

/-! ### Underlying types -/

/-- A name of the package is the shape of its expression. -/
theorem localName?_eq_some (h : e.localName? = some n) : ∃ args, e.shape = .named none n args := by
  unfold TypeExpr.localName? at h
  split at h
  · next args hshape => cases h; exact ⟨args, hshape⟩
  · cases h

/-- What is no pointer stays as it is. -/
theorem deref_of_shape_ne (h : ∀ target, e.shape ≠ .pointer target) : e.deref = e := by
  unfold TypeExpr.deref
  split
  · next target hshape => exact (h target hshape).elim
  · rfl

/-- A shape fits to an underlying type, part by part. -/
def Agrees (o : Others) (p : Package) (P : List String) (σ : Ty) : Shape → Prop
  | .slice element => ∃ ρ, σ = .slice ρ ∧ Denotes o p P element ρ
  | .array element => ∃ ρ, σ = .array ρ ∧ Denotes o p P element ρ
  | .map key value => ∃ κ ρ, σ = .map κ ρ ∧ Denotes o p P key κ ∧ Denotes o p P value ρ
  | .chan element => ∃ ρ, σ = .chan ρ ∧ Denotes o p P element ρ
  | .struct fields =>
    ∃ c types, σ = .struct types ∧ Proper o p P c ∧ ResolvesFields p c fields types
  | .pointer target => (∃ ρ, σ = .pointer ρ ∧ Denotes o p P target ρ) ∨
      ∃ ρ ρ', σ = .slice ρ ∧ Denotes o p P target ρ' ∧ Underlying p ρ' (.array ρ) ∧
        ¬Captures p P ρ'
  | .named _ n _ => n = "string" → ∀ k, HasZero o p σ k → k = .string
  | _ => True

/-- Only the shape of a pointer says something of a pointer. -/
theorem Agrees.of_pointer {s : Shape} (h : Agrees o p P (.pointer ρ) s)
    (hs : ∀ target, s ≠ .pointer target) : Agrees o p P σ s := by
  cases s with
  | pointer target => exact (hs target rfl).elim
  | named q n args => exact fun hn => nomatch h hn _ .pointer
  | slice element => obtain ⟨_, hsame, -⟩ := h; cases hsame
  | array element => obtain ⟨_, hsame, -⟩ := h; cases hsame
  | map key value => obtain ⟨_, _, hsame, -⟩ := h; cases hsame
  | chan element => obtain ⟨_, hsame, -⟩ := h; cases hsame
  | struct fields => obtain ⟨_, _, hsame, -⟩ := h; cases hsame
  | _ => trivial

section

variable (hp : Plain p) (ho : o.Known p)

include hp ho

/-- Unfolding declarations leads towards the underlying type. -/
theorem Denotes.unfold (hd : Denotes o p P e τ) (hσ : Underlying p τ σ)
    (hcaptures : ¬Captures p P τ) (fuel : Nat) :
    ∃ ρ, Denotes o p P (underlying.go p fuel e) ρ ∧ Underlying p ρ σ ∧ ¬Captures p P ρ := by
  -- A name unfolds to what its declaration denotes, with one name less to unfold.
  induction fuel generalizing e τ σ with
  | zero => exact ⟨τ, hd, hσ, hcaptures⟩
  | succ fuel ih =>
    rw [underlying.go]
    split
    swap
    · exact ⟨τ, hd, hσ, hcaptures⟩
    next d hd' =>
    obtain ⟨n, hname, hdeclared⟩ := Option.bind_eq_some_iff.mp hd'
    obtain ⟨args, hshape⟩ := localName?_eq_some hname
    have hnamed {τs : List Ty} {σ : Ty} (hσ : Underlying p (.named n τs) σ)
        (hcaptures : ¬Captures p P (.named n τs)) :
        ∃ ρ, Denotes o p P (underlying.go p fuel d.underlying) ρ ∧ Underlying p ρ σ ∧
          ¬Captures p P ρ := by
      cases hσ with
      | here h => cases h
      | named hdeclared' hτ h =>
        obtain rfl := Option.some.inj (hdeclared.symm.trans hdeclared'.1)
        exact ih (.resolved (proper_ofType hp ho hdeclared' hcaptures) hτ) h
          fun hcaptured => hcaptures (.underlying hdeclared' hτ hcaptured)
    clear hd'
    induction hd generalizing σ with
    | unread h => rw [hshape] at h; cases h
    | named h =>
      rw [hshape] at h
      cases h
      exact hnamed hσ hcaptures
    | constant hn =>
      cases hshape
      rw [hp.predeclared hn] at hdeclared
      cases hdeclared
    | pointer h => rw [hshape] at h; cases h
    | sliced _ hcaptures' hτ hρ ih' =>
      obtain ⟨ρ', hd, h, hcaptured⟩ := ih' hτ hcaptures' hname hshape
      exact ⟨_, .sliced hd hcaptured h hρ, hσ, hcaptures⟩
    | resolved hc h =>
      cases h with
      | bound h hn hbound =>
        rw [hshape] at h
        cases h
        rcases hc.bound hn hbound with ⟨m, rfl⟩ | ⟨hapart, -⟩
        · cases hσ with
          | here h => cases h
        · rw [(hapart hn).1] at hdeclared
          cases hdeclared
      | declared h =>
        rw [hshape] at h
        cases h
        exact hnamed hσ hcaptures
      | renamed h hn hbound hown hdeclared' halias hparams hτ =>
        rw [hshape] at h
        cases h
        obtain rfl := Option.some.inj (hdeclared.symm.trans hdeclared'.1)
        have hproper : Proper o p P (.ofType _ d []) :=
          .of_file hp ho hdeclared'.2.1 fun n τ _ h => by
            rw [hparams] at h
            cases h
        exact ih (.resolved hproper hτ) hσ hcaptures
      | predeclared h hbound hfree hn =>
        rw [hshape] at h
        cases h
        obtain ⟨k, hn⟩ := Option.isSome_iff_exists.mp hn
        rw [hp.predeclared hn] at hdeclared
        cases hdeclared
      | _ h => rw [hshape] at h; cases h

omit ho in
/-- The shape of a type expression fits to the underlying type, if it is that itself. -/
theorem Denotes.agrees (hd : Denotes o p P e τ) (hσ : Underlying p τ σ) :
    Agrees o p P σ e.shape := by
  have hdeclared {n d} (h : p.typeDecl? n = some d) : n ≠ "string" := by
    rintro rfl
    rw [hp.predeclared rfl] at h
    cases h
  induction hd generalizing σ with
  | unread h => rw [h]; trivial
  | named h _ hd =>
    rw [h]
    obtain ⟨d, hd⟩ := Option.isSome_iff_exists.mp hd
    exact fun hn => absurd hn (hdeclared hd)
  | constant hn hk =>
    rintro rfl k hzero
    cases hn
    exact hk k (hσ.hasZero hzero)
  | pointer h ht =>
    rw [h, hσ.eq_of_isLiteral rfl]
    exact .inl ⟨_, rfl, ht⟩
  | @sliced e τ ρ ρ' _ hcaptures hτ hρ ih =>
    -- The expression has no shape but that of the pointer to the array.
    have hpointer := ih hτ
    rw [hσ.eq_of_isLiteral rfl]
    by_cases hshape : ∃ target, e.shape = .pointer target
    · obtain ⟨target, hshape⟩ := hshape
      rw [hshape] at hpointer ⊢
      rcases hpointer with ⟨_, hsame, ht⟩ | ⟨_, _, hsame, -⟩
      · cases hsame
        exact .inr ⟨_, _, rfl, ht, hρ, fun h => hcaptures (.of_underlying hτ (.pointer h))⟩
      · cases hsame
    · exact hpointer.of_pointer fun target h => hshape ⟨target, h⟩
  | resolved hc h =>
    cases h with
    | bound h hn hbound =>
      rw [h]
      rintro rfl
      rcases hc.bound hn hbound with ⟨m, rfl⟩ | ⟨hapart, -⟩
      · cases hσ with
        | here h => cases h
      · cases (hapart hn).2
    | declared h _ _ _ hd => rw [h]; exact fun hn => absurd hn (hdeclared hd.1)
    | renamed h _ _ _ hd => rw [h]; exact fun hn => absurd hn (hdeclared hd.1)
    | predeclared h =>
      rw [h, hσ.eq_of_isLiteral rfl]
      rintro rfl k hzero
      cases hzero with
      | basic hk => cases hk; rfl
    | foreign h himport =>
      cases hσ with
      | here h => cases h
    | func h => rw [h]; trivial
    | interface h => rw [h]; trivial
    | pointer h ht => rw [h, hσ.eq_of_isLiteral rfl]; exact .inl ⟨_, rfl, .resolved hc ht⟩
    | slice h ht => rw [h, hσ.eq_of_isLiteral rfl]; exact ⟨_, rfl, .resolved hc ht⟩
    | array h ht => rw [h, hσ.eq_of_isLiteral rfl]; exact ⟨_, rfl, .resolved hc ht⟩
    | map h hkey hvalue =>
      rw [h, hσ.eq_of_isLiteral rfl]
      exact ⟨_, _, rfl, .resolved hc hkey, .resolved hc hvalue⟩
    | chan h ht => rw [h, hσ.eq_of_isLiteral rfl]; exact ⟨_, rfl, .resolved hc ht⟩
    | struct h hfields => rw [h, hσ.eq_of_isLiteral rfl]; exact ⟨_, _, rfl, hc, hfields⟩

/-- An expression that denotes a type has an underlying shape that agrees with the underlying type.
-/
theorem Denotes.agrees_underlying (hd : Denotes o p P e τ) (hσ : Underlying p τ σ)
    (hcaptures : ¬Captures p P τ) : Agrees o p P σ (underlying p e).shape := by
  obtain ⟨ρ, hρ, h, -⟩ := hd.unfold hp ho hσ hcaptures 8
  exact hρ.agrees hp h

/-- The shape behind a pointer fits to the underlying type that the pointer leads to. For a slice it
may be that of the array. -/
theorem Denotes.agrees_deref (hd : Denotes o p P e τ) (hcaptures : ¬Captures p P τ)
    (hρ : Reaches p τ ρ) (hσ : Underlying p ρ σ) (hpointer : ∀ x, σ ≠ .pointer x)
    (hread : ∀ target, (underlying p e.deref).shape ≠ .pointer target) :
    ∃ σ', (σ' = σ ∨ ∃ x, σ = .slice x ∧ σ' = .array x) ∧
      Agrees o p P σ' (underlying p e.deref).shape := by
  by_cases hshape : ∃ target, e.shape = .pointer target
  · obtain ⟨target, hshape⟩ := hshape
    have hderef : e.deref = target := by rw [TypeExpr.deref, hshape]
    rw [hderef]
    cases hρ with
    | self =>
      have hagrees := hd.agrees hp hσ
      rw [hshape] at hagrees
      rcases hagrees with ⟨x, hsame, -⟩ | ⟨x, ρ', hsame, ht, hρ', hcaptures'⟩
      · exact (hpointer x hsame).elim
      · exact ⟨_, .inr ⟨x, hsame, rfl⟩, ht.agrees_underlying hp ho hρ' hcaptures'⟩
    | target h =>
      have hagrees := hd.agrees hp h
      rw [hshape] at hagrees
      rcases hagrees with ⟨x, hsame, ht⟩ | ⟨x, ρ', hsame, -⟩
      · cases hsame
        have hcaptures' : ¬Captures p P ρ := fun hcaptured =>
          hcaptures (.of_underlying h (.pointer hcaptured))
        exact ⟨σ, .inl rfl, ht.agrees_underlying hp ho hσ hcaptures'⟩
      · cases hsame
  · rw [deref_of_shape_ne fun target h => hshape ⟨target, h⟩] at hread ⊢
    refine ⟨σ, .inl rfl, ?_⟩
    cases hρ with
    | self => exact hd.agrees_underlying hp ho hσ hcaptures
    | target h => exact (hd.agrees_underlying hp ho h hcaptures).of_pointer hread

end

end GoContracts.Static

import GoContracts.Proofs.Typing.TypeNames
import GoContracts.Proofs.Typing.Types

/-!
# Type sets of constraints

A constraint stands for a set of types: a type for itself, `~T` for the types whose underlying type
is that of `T`, a union for all types of its terms, and an interface for the types that are in the
sets of all its elements and have its methods. The constraints here are closed: they mention no type
parameter.
-/

namespace GoContracts.TypeSet

open Static (Ty canonicalName predeclaredKind? isAlias)

/-! ### Closed types -/

section

variable (p : Package)

/-- A closed type expression of the given shape stands for a type. An alias stands for the type that
it names. -/
inductive Stands : Shape → Ty → Prop
  | predeclared {n : String} (hfree : p.typeDecl? n = none) (hn : (predeclaredKind? n).isSome) :
      Stands (.named none n []) (.basic (canonicalName n))
  | defined {n : String} {d : TypeDecl} (hd : p.typeDecl? n = some d)
    (halias : isAlias p n = false) :
      Stands (.named none n []) (.named n [])
  | renamed {n : String} {d : TypeDecl} {τ : Ty} (hd : p.typeDecl? n = some d)
      (halias : isAlias p n = true) (h : Stands d.underlying.shape τ) : Stands (.named none n []) τ
  | foreign {q n path : String} {args : List TypeExpr} (himport : p.importPath? q = some path) :
      Stands (.named (some q) n args) (.foreign path n)
  | pointer {e : TypeExpr} {τ : Ty} (h : Stands e.shape τ) : Stands (.pointer e) (.pointer τ)
  | slice {e : TypeExpr} {τ : Ty} (h : Stands e.shape τ) : Stands (.slice e) (.slice τ)
  | array {e : TypeExpr} {τ : Ty} (h : Stands e.shape τ) : Stands (.array e) (.array τ)
  | map {k e : TypeExpr} {κ τ : Ty} (hkey : Stands k.shape κ) (h : Stands e.shape τ) :
      Stands (.map k e) (.map κ τ)
  | chan {e : TypeExpr} {τ : Ty} (h : Stands e.shape τ) : Stands (.chan e) (.chan τ)
  | func : Stands .func .func
  | interface {methods : List (String × String)} {elements : List TypeExpr} :
      Stands (.interface methods elements) .interface
  | struct {fields : List (String × TypeExpr)} {types : List (String × Ty)}
      (hlength : fields.length = types.length)
      (hnames : ∀ (i : Nat) f t, fields[i]? = some f → types[i]? = some t → f.1 = t.1)
      (h : ∀ (i : Nat) f t, fields[i]? = some f → types[i]? = some t → Stands f.2.shape t.2) :
      Stands (.struct fields) (.struct types)

/-- The second type is the underlying type of the first. -/
inductive HasUnderlying : Ty → Ty → Prop
  | literal {τ : Ty} (h : τ.isLiteral) : HasUnderlying τ τ
  | defined {n : String} {d : TypeDecl} {τ σ : Ty} (hd : p.typeDecl? n = some d)
      (hτ : Stands p d.underlying.shape τ) (h : HasUnderlying τ σ) : HasUnderlying (.named n []) σ

/-- The language defines no `==` on the type: it is a slice, a map or a function type, or its values
hold some of such a type. -/
inductive Incomparable : Ty → Prop
  | slice {τ : Ty} : Incomparable (.slice τ)
  | map {κ τ : Ty} : Incomparable (.map κ τ)
  | func : Incomparable .func
  | array {τ : Ty} (h : Incomparable τ) : Incomparable (.array τ)
  | struct {types : List (String × Ty)} {t : String × Ty} (ht : t ∈ types) (h : Incomparable t.2) :
      Incomparable (.struct types)
  | defined {n : String} {d : TypeDecl} {τ : Ty} (hd : p.typeDecl? n = some d)
      (hτ : Stands p d.underlying.shape τ) (h : Incomparable τ) : Incomparable (.named n [])

/-! ### Constraints -/

/-- The names of predeclared interfaces. -/
def interfaceNames : List String := ["any", "error", "comparable"]

/-- A constraint of the given shape is an interface, or the name of one. -/
inductive IsInterface : Shape → Prop
  | literal {methods : List (String × String)} {elements : List TypeExpr} :
      IsInterface (.interface methods elements)
  | predeclared {n : String} (hfree : p.typeDecl? n = none) (hn : n ∈ interfaceNames) :
      IsInterface (.named none n [])
  | declared {n : String} {d : TypeDecl} (hd : p.typeDecl? n = some d)
      (h : IsInterface d.underlying.shape) : IsInterface (.named none n [])

/-- A type is in the type set of a constraint of the given shape, if types have the methods that
`hasMethod` tells. -/
inductive Contains (hasMethod : Ty → String × String → Prop) : Shape → Ty → Prop
  | type {s : Shape} {τ : Ty} (h : Stands p s τ) (hs : ¬IsInterface p s) : Contains hasMethod s τ
  | any {τ : Ty} (hfree : p.typeDecl? "any" = none) : Contains hasMethod (.named none "any" []) τ
  | comparable {τ : Ty} (hfree : p.typeDecl? "comparable" = none) (h : ¬Incomparable p τ) :
      Contains hasMethod (.named none "comparable" []) τ
  | error {τ : Ty} (hfree : p.typeDecl? "error" = none) (h : hasMethod τ ("Error", "() string")) :
      Contains hasMethod (.named none "error" []) τ
  | declared {n : String} {d : TypeDecl} {τ : Ty} (hd : p.typeDecl? n = some d)
      (hinterface : IsInterface p d.underlying.shape)
      (h : Contains hasMethod d.underlying.shape τ) : Contains hasMethod (.named none n []) τ
  | approx {e : TypeExpr} {σ τ ρ : Ty} (he : Stands p e.shape σ) (hσ : HasUnderlying p σ ρ)
      (hτ : HasUnderlying p τ ρ) : Contains hasMethod (.approx e) τ
  | union {terms : List TypeExpr} {t : TypeExpr} {τ : Ty} (ht : t ∈ terms)
      (h : Contains hasMethod t.shape τ) : Contains hasMethod (.union terms) τ
  | interface {methods : List (String × String)} {elements : List TypeExpr} {τ : Ty}
      (hmethods : ∀ m ∈ methods, hasMethod τ m)
      (helements : ∀ e ∈ elements, Contains hasMethod e.shape τ) :
      Contains hasMethod (.interface methods elements) τ

/-- Whether the name is that of a predeclared type or constraint. -/
def IsUniversal (n : String) : Prop := (predeclaredKind? n).isSome ∨ n = "comparable"

instance : DecidablePred IsUniversal := fun _ => inferInstanceAs (Decidable (_ ∨ _))

/-- A closed type or constraint of the given shape is nested at most to the given depth, the
declarations of its names included. What pointers and channels lead to does not count. -/
inductive Within : Scope → Nat → Shape → Prop
  | predeclared {s : Scope} {m : Nat} {n : String} (hclosed : s.typeParam? n = none)
      (hfree : p.typeDecl? n = none) (hn : IsUniversal n) : Within s (m + 1) (.named none n [])
  | declared {s : Scope} {m : Nat} {n : String} {d : TypeDecl} (hclosed : s.typeParam? n = none)
      (hd : p.typeDecl? n = some d) (hparams : d.typeParams = [])
      (h : Within (.packageLevel s.file) m d.underlying.shape) : Within s (m + 1) (.named none n [])
  | pointer {s : Scope} {m : Nat} {e : TypeExpr} : Within s (m + 1) (.pointer e)
  | chan {s : Scope} {m : Nat} {e : TypeExpr} : Within s (m + 1) (.chan e)
  | slice {s : Scope} {m : Nat} {e : TypeExpr} : Within s (m + 1) (.slice e)
  | map {s : Scope} {m : Nat} {k e : TypeExpr} : Within s (m + 1) (.map k e)
  | func {s : Scope} {m : Nat} : Within s (m + 1) .func
  | array {s : Scope} {m : Nat} {e : TypeExpr} (h : Within s m e.shape) :
      Within s (m + 1) (.array e)
  | struct {s : Scope} {m : Nat} {fields : List (String × TypeExpr)}
      (h : ∀ f ∈ fields, Within s m f.2.shape) : Within s (m + 1) (.struct fields)
  | approx {s : Scope} {m : Nat} {e : TypeExpr} (h : Within s m e.shape) :
      Within s (m + 1) (.approx e)
  | union {s : Scope} {m : Nat} {terms : List TypeExpr} (h : ∀ t ∈ terms, Within s m t.shape) :
      Within s (m + 1) (.union terms)
  | interface {s : Scope} {m : Nat} {methods : List (String × String)} {elements : List TypeExpr}
      (h : ∀ e ∈ elements, Within s m e.shape) : Within s (m + 1) (.interface methods elements)

/-- A constraint comes to a name that is taken for a predeclared one although the package declares
it. -/
inductive Overlooks : Shape → Prop
  | name {n : String} {d : TypeDecl} (hd : p.typeDecl? n = some d) (hn : IsUniversal n) :
      Overlooks (.named none n [])
  | declared {n : String} {d : TypeDecl} (hd : p.typeDecl? n = some d)
      (h : Overlooks d.underlying.shape) : Overlooks (.named none n [])
  | union {terms : List TypeExpr} {t : TypeExpr} (ht : t ∈ terms) (h : Overlooks t.shape) :
      Overlooks (.union terms)
  | interface {methods : List (String × String)} {elements : List TypeExpr} {e : TypeExpr}
      (he : e ∈ elements) (h : Overlooks e.shape) : Overlooks (.interface methods elements)

end

variable {p : Package} {s : Scope} {e : TypeExpr} {shape : Shape} {m n : Nat} {σ τ ρ : Ty}

/-! ### Types and underlying types are unique -/

private theorem Stands.unique (h : Stands p shape τ) (h' : Stands p shape σ) : τ = σ := by
  induction h generalizing σ with
  | predeclared hfree hn =>
    cases h' with
    | predeclared => rfl
    | defined hd => simp [hfree] at hd
    | renamed hd => simp [hfree] at hd
  | defined hd halias =>
    cases h' with
    | predeclared hfree => simp [hfree] at hd
    | defined => rfl
    | renamed hd halias' => simp [halias] at halias'
  | renamed hd halias h ih =>
    cases h' with
    | predeclared hfree => simp [hfree] at hd
    | defined hd' halias' => simp [halias] at halias'
    | renamed hd' _ h' =>
      obtain rfl := Option.some.inj (hd.symm.trans hd')
      exact ih h'
  | foreign himport =>
    cases h' with
    | foreign himport' =>
      obtain rfl := Option.some.inj (himport.symm.trans himport')
      rfl
  | pointer _ ih =>
    cases h' with
    | pointer h' => rw [ih h']
  | slice _ ih =>
    cases h' with
    | slice h' => rw [ih h']
  | array _ ih =>
    cases h' with
    | array h' => rw [ih h']
  | map _ _ ihkey ih =>
    cases h' with
    | map hkey' h' => rw [ihkey hkey', ih h']
  | chan _ ih =>
    cases h' with
    | chan h' => rw [ih h']
  | func =>
    cases h' with
    | func => rfl
  | interface =>
    cases h' with
    | interface => rfl
  | @struct fields types hlength hnames h ih =>
    cases h' with
    | @struct _ types' hlength' hnames' h' =>
      congr 1
      refine List.ext_getElem (hlength.symm.trans hlength') fun i hi hi' => ?_
      have hfield : fields[i]? = some fields[i] := List.getElem?_eq_getElem (hlength ▸ hi)
      have ht := List.getElem?_eq_getElem hi
      have ht' := List.getElem?_eq_getElem hi'
      exact Prod.ext ((hnames i _ _ hfield ht).symm.trans (hnames' i _ _ hfield ht'))
        (ih i _ _ hfield ht (h' i _ _ hfield ht'))

/-- A type and its underlying type have `==` or not together. -/
theorem HasUnderlying.incomparable_iff (h : HasUnderlying p τ ρ) :
    Incomparable p τ ↔ Incomparable p ρ := by
  induction h with
  | literal => rfl
  | defined hd hτ _ ih =>
    rw [← ih]
    constructor
    · intro h
      cases h with
      | defined hd' hτ' h =>
        obtain rfl := Option.some.inj (hd.symm.trans hd')
        rwa [hτ.unique hτ']
    · exact .defined hd hτ

/-! ### What the questions find -/

/-- A type in reach that is found to be comparable has `==`. -/
theorem Within.not_incomparable (h : Within p s m shape) (he : e.shape = shape) (hm : m ≤ n)
    (hc : Typing.isComparable p n s e = true) (hτ : Stands p shape τ) : ¬Incomparable p τ := by
  -- The depth of the question is spent on names, arrays and structs only, as is the nesting.
  induction h generalizing n e τ with
  | predeclared _ hfree _ =>
    cases hτ with
    | predeclared =>
      intro h
      cases h
    | defined hd => simp [hfree] at hd
    | renamed hd => simp [hfree] at hd
  | @declared s m name d hclosed hd hparams _ ih =>
    obtain ⟨n, rfl⟩ := Nat.exists_eq_add_of_le' (Nat.le_of_add_left_le hm)
    have hunder : Typing.isComparable p n (.packageLevel s.file) d.underlying = true := by
      have hnone : Typing.typeParamConstraint? p s name = none :=
        Static.typeParamConstraint?_eq_none.mpr hclosed
      rw [Typing.isComparable, he] at hc
      simpa only [hnone, hd] using hc
    have hm := Nat.le_of_succ_le_succ hm
    cases hτ with
    | predeclared hfree => simp [hfree] at hd
    | defined =>
      intro h
      cases h with
      | defined hd' hτ' h =>
        obtain rfl := Option.some.inj (hd.symm.trans hd')
        exact ih rfl hm hunder hτ' h
    | renamed hd' _ hτ' =>
      obtain rfl := Option.some.inj (hd.symm.trans hd')
      exact ih rfl hm hunder hτ'
  | pointer =>
    cases hτ
    intro h
    cases h
  | chan =>
    cases hτ
    intro h
    cases h
  | slice =>
    obtain ⟨n, rfl⟩ := Nat.exists_eq_add_of_le' (Nat.le_of_add_left_le hm)
    rw [Typing.isComparable, he] at hc
    cases hc
  | map =>
    obtain ⟨n, rfl⟩ := Nat.exists_eq_add_of_le' (Nat.le_of_add_left_le hm)
    rw [Typing.isComparable, he] at hc
    cases hc
  | func =>
    obtain ⟨n, rfl⟩ := Nat.exists_eq_add_of_le' (Nat.le_of_add_left_le hm)
    rw [Typing.isComparable, he] at hc
    cases hc
  | array _ ih =>
    obtain ⟨n, rfl⟩ := Nat.exists_eq_add_of_le' (Nat.le_of_add_left_le hm)
    rw [Typing.isComparable, he] at hc
    cases hτ with
    | array hτ =>
      intro h
      cases h with
      | array h => exact ih rfl (Nat.le_of_succ_le_succ hm) hc hτ h
  | struct _ ih =>
    obtain ⟨n, rfl⟩ := Nat.exists_eq_add_of_le' (Nat.le_of_add_left_le hm)
    rw [Typing.isComparable, he] at hc
    cases hτ with
    | struct hlength _ hτ =>
      intro h
      cases h with
      | struct ht h =>
        obtain ⟨i, hi, rfl⟩ := List.getElem_of_mem ht
        have hfield := List.getElem?_eq_getElem (hlength ▸ hi)
        have hmem := List.mem_of_getElem? hfield
        exact ih _ hmem rfl (Nat.le_of_succ_le_succ hm) (List.all_eq_true.mp hc _ hmem)
          (hτ i _ _ hfield (List.getElem?_eq_getElem hi)) h
  | approx =>
    cases hτ
  | union =>
    cases hτ
  | interface =>
    cases hτ
    intro h
    cases h

/-- The question about the name of a declared constraint is that about its declaration. -/
theorem admitsComparable_declared {name : String} {args : List TypeExpr} {d : TypeDecl}
    (he : e.shape = .named none name args) (hd : p.typeDecl? name = some d)
    (hn : ¬IsUniversal name) : Typing.admitsComparable p (n + 1) s e =
      Typing.admitsComparable p n (.packageLevel s.file) d.underlying := by
  have hcomparable : name ≠ "comparable" := fun h => hn (.inr h)
  have hany : name ≠ "any" := by
    rintro rfl
    exact hn (.inl (by decide))
  have hcategory : Library.builtinCategory? name = none := by
    by_contra hsome
    obtain ⟨known, hknown⟩ := Option.ne_none_iff_exists'.mp hsome
    obtain ⟨k, hk, -⟩ := Static.predeclaredKind?_of_builtinCategory? hknown
    exact hn (.inl (by rw [hk]; rfl))
  rw [Typing.admitsComparable, he]
  simp only [if_neg hcomparable, if_neg hany, hcategory, hd, Option.any_some]

/-- The types in the type set of a predeclared constraint have `==` if it is found to admit only
such types. -/
theorem equality_of_predeclared {hasMethod : Ty → String × String → Prop} {name : String}
    (he : e.shape = .named none name []) (hfree : p.typeDecl? name = none)
    (hc : Typing.admitsComparable p (n + 1) s e = true)
    (hτ : Contains p hasMethod (.named none name []) τ) : ¬Incomparable p τ := by
  rw [Typing.admitsComparable, he] at hc
  cases hτ with
  | type hτ _ =>
    cases hτ with
    | predeclared =>
      intro h
      cases h
    | defined hd => simp [hfree] at hd
    | renamed hd => simp [hfree] at hd
  | any => simp at hc
  | comparable _ h => exact h
  | error => simp [Library.builtinCategory?] at hc
  | declared hd => simp [hfree] at hd

/-- The types that a declared constraint contains have `==` if those that its declaration contains
have it. -/
private theorem equality_of_declaration {hasMethod : Ty → String × String → Prop} {name : String}
    {d : TypeDecl} (hd : p.typeDecl? name = some d) (hn : ¬IsUniversal name)
    (hdeclared : ∀ {τ}, Contains p hasMethod d.underlying.shape τ → ¬Incomparable p τ)
    (hτ : Contains p hasMethod (.named none name []) τ) : ¬Incomparable p τ := by
  cases hτ with
  | type hτ hs =>
    have hs : ¬IsInterface p d.underlying.shape := fun h => hs (.declared hd h)
    cases hτ with
    | predeclared hfree => simp [hfree] at hd
    | defined =>
      intro h
      cases h with
      | defined hd' hτ' h =>
        obtain rfl := Option.some.inj (hd.symm.trans hd')
        exact hdeclared (.type hτ' hs) h
    | renamed hd' _ hτ' =>
      obtain rfl := Option.some.inj (hd.symm.trans hd')
      exact hdeclared (.type hτ' hs)
  | any => exact absurd (.inl (by decide)) hn
  | comparable => exact absurd (.inr rfl) hn
  | error => exact absurd (.inl (by decide)) hn
  | declared hd' _ hτ =>
    obtain rfl := Option.some.inj (hd.symm.trans hd')
    exact hdeclared hτ

/-- If a constraint in reach is found to admit only comparable types, then all types of its type set
have `==`, unless a name of the package is taken for a predeclared one. -/
theorem equality_of_admitsComparable {hasMethod : Ty → String × String → Prop}
    (h : Within p s m e.shape) (hm : m < n) (hnames : ¬Overlooks p e.shape)
    (hc : Typing.admitsComparable p n s e = true) (hτ : Contains p hasMethod e.shape τ) :
    ¬Incomparable p τ := by
  generalize he : e.shape = shape at h hnames hτ
  -- Names unfold to their declarations, so the induction is on the nesting.
  induction h generalizing n e τ with
  | predeclared _ hfree _ =>
    obtain ⟨n, rfl⟩ := Nat.exists_eq_add_one_of_ne_zero (Nat.ne_zero_of_lt hm)
    exact equality_of_predeclared he hfree hc hτ
  | @declared s m name d hclosed hd hparams _ ih =>
    obtain ⟨n, rfl⟩ := Nat.exists_eq_add_one_of_ne_zero (Nat.ne_zero_of_lt hm)
    have hm := Nat.lt_of_succ_lt_succ hm
    have hn : ¬IsUniversal name := fun hn => hnames (.name hd hn)
    have hunder : ¬Overlooks p d.underlying.shape := fun h => hnames (.declared hd h)
    rw [admitsComparable_declared he hd hn] at hc
    exact equality_of_declaration hd hn (ih hm hc rfl hunder) hτ
  | pointer | chan =>
    cases hτ with
    | type hτ =>
      cases hτ
      exact nofun
  | slice | map | func =>
    obtain ⟨n, rfl⟩ := Nat.exists_eq_add_one_of_ne_zero (Nat.ne_zero_of_lt hm)
    rw [Typing.admitsComparable, he] at hc
    cases hc
  | array h _ =>
    obtain ⟨n, rfl⟩ := Nat.exists_eq_add_one_of_ne_zero (Nat.ne_zero_of_lt hm)
    rw [Typing.admitsComparable, he] at hc
    cases hτ with
    | type hτ _ => exact Within.not_incomparable (.array h) he (Nat.le_of_lt_succ hm) hc hτ
  | struct h _ =>
    obtain ⟨n, rfl⟩ := Nat.exists_eq_add_one_of_ne_zero (Nat.ne_zero_of_lt hm)
    rw [Typing.admitsComparable, he] at hc
    cases hτ with
    | type hτ _ => exact Within.not_incomparable (.struct h) he (Nat.le_of_lt_succ hm) hc hτ
  | approx h _ =>
    obtain ⟨n, rfl⟩ := Nat.exists_eq_add_one_of_ne_zero (Nat.ne_zero_of_lt hm)
    rw [Typing.admitsComparable, he] at hc
    cases hτ with
    | type hτ _ => cases hτ
    | approx hσ hσρ hτρ =>
      rw [hτρ.incomparable_iff, ← hσρ.incomparable_iff]
      exact h.not_incomparable rfl (Nat.le_of_lt (Nat.lt_of_succ_lt_succ hm)) hc hσ
  | union _ ih =>
    obtain ⟨n, rfl⟩ := Nat.exists_eq_add_one_of_ne_zero (Nat.ne_zero_of_lt hm)
    rw [Typing.admitsComparable, he, Bool.and_eq_true, List.all_eq_true] at hc
    cases hτ with
    | type hτ => cases hτ
    | union ht hτ =>
      exact ih _ ht (Nat.lt_of_succ_lt_succ hm) (hc.2 _ ht) rfl (fun h => hnames (.union ht h)) hτ
  | interface _ ih =>
    obtain ⟨n, rfl⟩ := Nat.exists_eq_add_one_of_ne_zero (Nat.ne_zero_of_lt hm)
    rw [Typing.admitsComparable, he, List.any_eq_true] at hc
    obtain ⟨element, hmem, hc⟩ := hc
    cases hτ with
    | type _ hs => exact absurd .literal hs
    | interface _ helements =>
      exact ih element hmem (Nat.lt_of_succ_lt_succ hm) hc rfl
        (fun h => hnames (.interface hmem h)) (helements element hmem)

/-- The interface `~string | id`. -/
def key : TypeExpr :=
  .mk "interface \x7b ~string | id \x7d" (.interface []
    [.mk "~string | id" (.union [.mk "~string" (.approx (.named "string")), .named "id"])])

/-- The package of the types `id`, which is declared as `int`, and `key`. -/
def keys : Package where
  types := [("id", ⟨[], .named "int"⟩), ("key", ⟨[], key⟩)]

/-- The scope outside all functions of a file with nothing but a name. -/
def keyScope : Scope := .packageLevel (.parse "/f.go" "package p\n")

private theorem within_key : Within keys keyScope 5 (.named none "key" []) := by
  have hstring : Within keys keyScope 1 (.named none "string" []) := .predeclared rfl rfl (.inl rfl)
  have hint : Within keys keyScope 1 (.named none "int" []) := .predeclared rfl rfl (.inl rfl)
  have hid : Within keys keyScope 2 (.named none "id" []) := .declared rfl rfl rfl hint
  refine .declared rfl rfl rfl (.interface fun e he => ?_)
  obtain rfl := List.mem_singleton.mp he
  refine .union fun t ht => ?_
  obtain rfl | rfl := List.mem_pair.mp ht
  · exact .approx hstring
  · exact hid

private theorem not_overlooks_key : ¬Overlooks keys (.named none "key" []) := by
  have hint : ¬Overlooks keys (.named none "int" []) := fun h => by
    cases h with
    | name hd => cases hd
    | declared hd => cases hd
  have hid : ¬Overlooks keys (.named none "id" []) := fun h => by
    cases h with
    | name _ hn => exact absurd hn (by decide)
    | declared hd h =>
      cases hd
      exact hint h
  intro h
  cases h with
  | name _ hn => exact absurd hn (by decide)
  | declared hd h =>
    cases hd
    cases h with
    | interface he h =>
      obtain rfl := List.mem_singleton.mp he
      cases h with
      | union ht h =>
        obtain rfl | rfl := List.mem_pair.mp ht
        · cases h
        · exact hid h

private theorem contains_key : Contains keys (fun _ _ => False) (.named none "key" [])
    (.named "id" []) := by
  have hid : ¬IsInterface keys (.named none "id" []) := fun h => by
    cases h with
    | predeclared hfree => cases hfree
    | declared hd h =>
      cases hd
      cases h with
      | predeclared _ hn => exact absurd hn (by decide)
      | declared hd => cases hd
  refine .declared rfl .literal (.interface nofun fun e he => ?_)
  obtain rfl := List.mem_singleton.mp he
  exact .union (List.mem_pair.mpr (.inr rfl)) (.type (.defined rfl rfl) hid)

/-- A constraint that admits the strings and a declared integer. -/
theorem equality_of_admitsComparable_key :
    Typing.admitsComparable keys 6 keyScope (.named "key") = true ∧
      ¬Incomparable keys (.named "id" []) := by
  have hc : Typing.admitsComparable keys 6 keyScope (.named "key") = true := by decide +kernel
  exact ⟨hc, equality_of_admitsComparable (e := .named "key") within_key (by decide)
    not_overlooks_key hc contains_key⟩

/-- A file that declares a type without `==` under the name of a predeclared type. -/
def bytesFile : SourceFile :=
  .parse "/f.go" "package p\n\ntype string []byte\n
func f[T string](x T) \x7b\n\tprintln(x)\n\x7d\n"

/-- The scope inside its function. -/
def bytesScope : Scope := .visibleAt bytesFile 60

private theorem bytes_run : bytesFile.hasErrors = false ∧
    ((bytesScope.typeParam? "T").bind (·.constraint?)).any (fun e =>
      Typing.admitsComparable (.ofFiles [bytesFile]) 3 bytesScope e &&
        match e.shape with
        | .named none name [] => name = "string"
        | _ => false) ∧
    (bytesScope.typeParam? "string").isNone ∧
    ((Package.ofFiles [bytesFile]).typeDecl? "string").any (fun d => d.typeParams.isEmpty &&
      match d.underlying.shape with
      | .slice (.mk _ (.named none name [])) => name = "byte"
      | _ => false) ∧
    ((Package.ofFiles [bytesFile]).typeDecl? "byte").isNone ∧
    isAlias (.ofFiles [bytesFile]) "string" = false := by
  decide +kernel

/-- The constraint of its type parameter and the declaration that it names. -/
theorem exists_bytes : ∃ q e d element, bytesScope.typeParam? "T" = some q ∧
    q.constraint? = some e ∧ e.shape = .named none "string" [] ∧
    Typing.admitsComparable (.ofFiles [bytesFile]) 3 bytesScope e = true ∧
    (Package.ofFiles [bytesFile]).typeDecl? "string" = some d ∧ d.typeParams = [] ∧
    d.underlying.shape = .slice element ∧ element.shape = .named none "byte" [] := by
  obtain ⟨-, hconstraint, -, hd, -⟩ := bytes_run
  obtain ⟨e, he, hadmits⟩ := (Option.any_eq_true ..).mp hconstraint
  obtain ⟨q, hq, he⟩ := Option.bind_eq_some_iff.mp he
  rw [Bool.and_eq_true] at hadmits
  obtain ⟨d, hd, hunder⟩ := (Option.any_eq_true ..).mp hd
  rw [Bool.and_eq_true, List.isEmpty_iff] at hunder
  obtain ⟨hadmits, hshape⟩ := hadmits
  obtain ⟨hparams, hunder⟩ := hunder
  split at hshape
  · next name hname =>
    split at hunder
    · next element hslice =>
      rw [decide_eq_true_eq] at hshape hunder
      subst hshape hunder
      exact ⟨q, e, d, _, hq, he, hname, hadmits, hd, hparams, hslice, rfl⟩
    · cases hunder
  · cases hshape

/-- The name of a predeclared type is taken for it even where the package declares another type of
that name. -/
theorem bytes_admitted :
    ¬∀ (files : List SourceFile) (file : SourceFile) (pos : Nat) (name : String) (q : TypeParam)
      (e : TypeExpr) (m n : Nat) (hasMethod : Ty → String × String → Prop) (τ : Ty),
      (∀ f ∈ files, f.hasErrors = false) → file ∈ files →
      (Scope.visibleAt file pos).typeParam? name = some q → q.constraint? = some e →
      Within (.ofFiles files) (.visibleAt file pos) m e.shape → m < n →
      Typing.admitsComparable (.ofFiles files) n (.visibleAt file pos) e = true →
      Contains (.ofFiles files) hasMethod e.shape τ → ¬Incomparable (.ofFiles files) τ := by
  intro h
  obtain ⟨q, e, d, element, hq, he, hname, hadmits, hd, hparams, hslice, helement⟩ := exists_bytes
  obtain ⟨herrors, -, hclosed, -, hbyte, halias⟩ := bytes_run
  have hwithin : Within (.ofFiles [bytesFile]) bytesScope 2 e.shape := by
    rw [hname]
    refine .declared (Option.isNone_iff_eq_none.mp hclosed) hd hparams ?_
    rw [hslice]
    exact .slice
  have hstands : Stands (.ofFiles [bytesFile]) d.underlying.shape (.slice (.basic "uint8")) := by
    rw [hslice]
    refine .slice ?_
    rw [helement]
    exact .predeclared (Option.isNone_iff_eq_none.mp hbyte) rfl
  have hinterface : ¬IsInterface (.ofFiles [bytesFile]) e.shape := by
    rw [hname]
    intro h
    cases h with
    | predeclared hfree => simp [hfree] at hd
    | declared hd' h =>
      obtain rfl := Option.some.inj (hd.symm.trans hd')
      rw [hslice] at h
      cases h
  have hcontains : Contains (.ofFiles [bytesFile]) (fun _ _ => False) e.shape
      (.named "string" []) := .type (by rw [hname]; exact .defined hd halias) hinterface
  exact h [bytesFile] bytesFile 60 "T" q e 2 3 _ _ (by simpa using herrors)
    (List.mem_singleton_self _) hq he hwithin (by decide) hadmits hcontains
    (.defined hd hstands .slice)

end GoContracts.TypeSet

import GoContracts.Proofs.Typing.Lookup

/-!
# Right answers

An answer is right for an operand if its type expression denotes the type and its category tells the
zero value. Answers may be wrong in a few ways, which are listed here: an untyped constant keeps the
type that it has on its own, a part of an array stays an array, and a name is taken for another one.
-/

namespace GoContracts.Static

open Syntax (Tree)
open Typing (Answers answersTo category underlying)

variable {o : Others} {p : Package} {P : List String}

/-! ### Where answers may be wrong -/

/-- The answer for an expression may be taken from that for the other one. -/
inductive Uses (file : SourceFile) (t : Tree) : Tree → Prop
  | inner {s} (hkind : t.is .parenthesizedExpression) (hs : t.items.head? = some s) : Uses file t s
  | operand {s} (hkind : t.is .selectorExpression ∨ t.is .indexExpression ∨ t.is .sliceExpression ∨
      t.is .unaryExpression ∧ operatorOf file t ≠ "!") (hs : t.child? .operand = some s) :
    Uses file t s
  | side {s} (hkind : t.is .binaryExpression)
    (hoperator : Typing.isComparison (operatorOf file t) = false)
    (hs : t.child? .left = some s ∨ t.child? .right = some s) : Uses file t s
  | receiver {f s} (hf : t.child? .function = some f) (hselector : f.is .selectorExpression)
    (hs : f.child? .operand = some s) : Uses file t s
  | argument {s name} (hname : calledName? file t = some name)
    (hfirst : name ∈ ["append", "min", "max"]) (hs : (argumentsOf t).head? = some s) : Uses file t s

/-- The answer for an expression may be wrong, because it or one for an expression that it depends
on is found in one of the following ways. The names in `P` are those of the type parameters in
force. -/
inductive Misled (o : Others) (p : Package) (P : List String) : Nat → Place → Tree → Prop
  /-- An operation gets the type of an untyped constant that takes another one. The left operand
  counts if it has an answer. -/
  | operand {n l t left right s c ω k} (hkind : t.is .binaryExpression)
    (hoperator : Typing.isComparison (operatorOf l.file t) = false)
    (hleft : t.child? .left = some left) (hright : t.child? .right = some right)
    (hs : s = left ∧ ((answersTo p n).single? l.scope left).isSome ∨
      s = right ∧ (answersTo p n).single? l.scope left = none)
    (hc : Gives o p l s (.untyped c)) (hω : Gives o p l t ω) (hk : ω.HasZero o p k)
    (hne : k ≠ c.zeroKind) : Misled o p P (n + 1) l t
  /-- A shift gets the type of its count. -/
  | count {n l t left right} (hkind : t.is .binaryExpression)
    (hoperator : operatorOf l.file t ∈ ["<<", ">>"]) (hleft : t.child? .left = some left)
    (hright : t.child? .right = some right)
    (hnone : (answersTo p n).single? l.scope left = none)
    (hsome : ((answersTo p n).single? l.scope right).isSome) : Misled o p P (n + 1) l t
  /-- The least or greatest argument gets the type of an untyped constant that takes another one. -/
  | argument {n l t name e c ω k} (hname : calledName? l.file t = some name)
    (hextremum : name ∈ ["min", "max"]) (he : (argumentsOf t).head? = some e)
    (hc : Gives o p l e (.untyped c)) (hω : Calls o p l t [ω]) (hk : ω.HasZero o p k)
    (hne : k ≠ c.zeroKind) : Misled o p P (n + 1) l t
  /-- A logical operation on values of a type parameter gets the predeclared type. -/
  | logical {n l t ω} (hkind : t.is .unaryExpression ∧ operatorOf l.file t = "!" ∨
      t.is .binaryExpression ∧ operatorOf l.file t ∈ ["&&", "||"])
    (hω : Gives o p l t ω) (hk : ω.HasZero o p .typeParam) : Misled o p P (n + 1) l t
  /-- A part of an array gets the type of the array. -/
  | array {n l t operand τ σ} (hkind : t.is .sliceExpression)
    (hoperand : t.child? .operand = some operand) (h : Gives o p l operand (.typed τ))
    (hσ : Underlying p τ (.array σ)) : Misled o p P (n + 1) l t
  /-- A variable gets the type of a value that is assigned to it later, which has another one. -/
  | redeclared {n l t d d' ω} (hkind : t.is .identifier)
    (hd : typingDeclaration? (l.file.textOf t) l.around.blocks = some d)
    (hd' : l.around.visible? (l.file.textOf t) = some d') (hne : d ≠ d')
    (hω : Names o p l (l.file.textOf t) ω) (hother : ¬Assigns o p l d' ω) : Misled o p P n l t
  /-- A conversion or a call gets the type of the predeclared function or type of its name. -/
  | conversion {n l t name} (hname : calledName? l.file t = some name)
    (hpredeclared : name ∈ predeclaredFunctions)
    (hd : (l.around.visible? name).isSome ∨ (p.typeDecl? name).isSome) : Misled o p P (n + 1) l t
  | call {n l t name} (hname : calledName? l.file t = some name) (hpredeclared : IsPredeclared name)
    (hs : (p.func? name).isSome) : Misled o p P (n + 1) l t
  /-- A part of an instance is read where its type parameter has another meaning. -/
  | captured {n l t operand τ} (hoperand : t.child? .operand = some operand)
    (h : Gives o p l operand (.typed τ)) (hτ : Captures p P τ) : Misled o p P (n + 1) l t
  | function {n l t name s q} (hname : calledName? l.file t = some name)
    (hs : p.func? name = some s) (hq : q ∈ s.typeParams) (hP : q.name ∈ P) :
    Misled o p P (n + 1) l t
  | receiver {n l t f operand field τ name args s m σ} (hf : t.child? .function = some f)
    (hoperand : f.child? .operand = some operand) (hfield : f.child? .field = some field)
    (h : Gives o p l operand (.typed τ))
    (hτ : τ = .named name args ∨ τ = .pointer (.named name args))
    (hs : p.method? name (l.file.textOf field) = some s) (hm : m ∈ P)
    (hσ : bindReceiver s args m = some σ) (hparam : ∀ x, σ ≠ .param x) : Misled o p P (n + 1) l t
  | ranged {n l l' t d b ranged τ} (hkind : t.is .identifier)
    (hd : l.around.visible? (l.file.textOf t) = some d) (hb : d.binding? = some b)
    (horigin : b.origin = .rangeKey ranged ∨ b.origin = .rangeValue ranged)
    (hplace : l'.position? = some ranged.start) (hsame : l.SameFunction l')
    (h : Gives o p l' ranged (.typed τ)) (hτ : Captures p P τ) : Misled o p P (n + 2) l t
  /-- The answer is taken from that for a part. -/
  | part {n l t s} (hs : Uses l.file t s) (h : Misled o p P n l s) :
    Misled o p P (n + 1) l t
  /-- The answer is taken from that for a value that the name is bound to. -/
  | value {n l l' t d b values index count s} (hkind : t.is .identifier)
    (hd : l.around.visible? (l.file.textOf t) = some d) (hb : d.binding? = some b)
    (horigin : b.origin = .value values index count) (hplace : l'.position? = some values.start)
    (hsame : l.SameFunction l') (hs : s ∈ listed values) (h : Misled o p P n l' s) :
    Misled o p P (n + 2) l t
  | range {n l l' t d b ranged} (hkind : t.is .identifier)
    (hd : l.around.visible? (l.file.textOf t) = some d) (hb : d.binding? = some b)
    (horigin : b.origin = .rangeKey ranged ∨ b.origin = .rangeValue ranged)
    (hplace : l'.position? = some ranged.start) (hsame : l.SameFunction l')
    (h : Misled o p P n l' ranged) : Misled o p P (n + 2) l t
  | global {n l l' t number values index count s} (hkind : t.is .identifier)
    (hvalue : p.value? (l.file.textOf t) = some (.inferred number values index count))
    (hfile : p.files[number]? = some l'.file) (hplace : l'.position? = none)
    (hs : s ∈ listed (values.smallestAt values.start values.stop)) (h : Misled o p P n l' s) :
    Misled o p P (n + 2) l t

/-! ### Single answers -/

/-- An answer is right for an operand. -/
def Sound (o : Others) (p : Package) (P : List String) (info : TypeInfo) : Operand → Prop
  | .typed τ => Denotes o p P info.type τ ∧
      ∀ k k', HasZero o p τ k → info.category.zeroKind? = some k' → k' = k
  | .untyped c => (∃ n, info.type = .named n ∧ predeclaredKind? n = some c.zeroKind) ∧
      ∀ k', info.category.zeroKind? = some k' → k' = c.zeroKind

variable {e : TypeExpr} {τ : Ty} {k : ZeroKind} {n : String} {info : TypeInfo} {a b ω : Operand}
  {scope : Scope} {c : Context} {es : List TypeExpr} {τs : List Ty}

/-- A right answer whose category is known has the zero value of the operand. -/
theorem Sound.category (h : Sound o p P info ω) (hk : ω.HasZero o p k)
    (hcategory : info.category ≠ .unknown) : info.category.zeroKind? = some k := by
  obtain ⟨k', hk'⟩ : ∃ k', info.category.zeroKind? = some k' := by
    cases hc : info.category with
    | unknown => exact (hcategory hc).elim
    | _ => exact ⟨_, rfl⟩
  rw [hk']
  cases ω with
  | typed τ => rw [h.2 k k' hk hk']
  | untyped c => rw [h.2 k' hk', hk]

private theorem Constant.predeclaredKind?_typeName (c : Constant) :
    predeclaredKind? c.typeName = some c.zeroKind := by
  cases c <;> rfl

/-- The answer for a constant is right for any operand of its kind. -/
theorem Sound.of_untyped {c : Constant} (h : Sound o p P info (.untyped c))
    (hω : ∀ k, ω.HasZero o p k → k = c.zeroKind) : Sound o p P info ω := by
  obtain ⟨⟨n, htype, hn⟩, hcategory⟩ := h
  cases ω with
  | typed τ =>
    refine ⟨htype ▸ .constant hn hω, fun k k' hk hk' => ?_⟩
    rw [hω k hk, hcategory k' hk']
  | untyped c' =>
    rw [← hω c'.zeroKind rfl] at hn hcategory
    exact ⟨⟨n, htype, hn⟩, hcategory⟩

/-- The answer for the value of a variable is right for the variable. -/
theorem Sound.type (h : Sound o p P info ω) : Sound o p P info (.typed ω.type) := by
  cases ω with
  | typed τ => exact h
  | untyped c =>
    refine h.of_untyped fun k hk => ?_
    cases hk with
    | basic hk => exact Option.some.inj (hk.symm.trans c.predeclaredKind?_typeName)

/-- What is right for a value is right for the name that is bound to it. -/
theorem Sound.binds {file : SourceFile} {values : Tree} (h : Sound o p P info a)
    (hω : Binds file values a ω) : Sound o p P info ω := by
  cases hω with
  | constant => exact h
  | value => exact h.type

/-- The left operand is the result unless it is an untyped constant. -/
theorem Combine.of_left (h : Combine a b ω) : a = ω ∨ ∃ c, a = .untyped c := by
  cases h with
  | typed | left => exact .inl rfl
  | right | untyped => exact .inr ⟨_, rfl⟩

/-- The right operand is the result unless it is an untyped constant. -/
theorem Combine.of_right (h : Combine a b ω) : b = ω ∨ ∃ c, b = .untyped c := by
  cases h with
  | typed | right => exact .inl rfl
  | left | untyped => exact .inr ⟨_, rfl⟩

/-- The first operand is the result unless it is an untyped constant. -/
theorem CombineAll.of_head {ωs : List Operand} (h : CombineAll (a :: ωs) ω) :
    a = ω ∨ ∃ c, a = .untyped c := by
  generalize hlist : a :: ωs = list at h
  induction h generalizing a ωs with
  | single => cases hlist; exact .inl rfl
  | more h _ ih =>
    cases hlist
    rcases h.of_left with rfl | hc
    · exact ih rfl
    · exact .inr hc

section

variable (hp : Plain p) (ho : o.Known p) (hP : ∀ n ∈ P, IsApart p n)

include hp ho hP

/-- A type expression with its category is right for the type that it denotes. -/
theorem sound_classifyAt (hscope : Fits P scope) (hd : Denotes o p P e τ) (depth : Nat) :
    Sound o p P (Typing.classifyAt p depth scope e) (.typed τ) :=
  ⟨hd, fun _ _ hk hcategory => hd.zeroKind hp ho hscope hP hk hcategory⟩

omit hp ho in
/-- A predeclared type is right for any operand of its kind. -/
theorem sound_basic (hscope : Fits P scope) (hn : predeclaredKind? n = some k)
    (hω : ∀ k', ω.HasZero o p k' → k' = k) (depth : Nat) :
    Sound o p P (Typing.classifyAt p depth scope (.named n)) ω := by
  have hcategory (k') (h : (category p depth scope (.named n)).zeroKind? = some k') : k' = k := by
    cases depth with
    | zero => cases h
    | succ depth =>
      rw [category_predeclared hscope hP rfl hn depth] at h
      exact (Option.some.inj h).symm
  cases ω with
  | typed τ =>
    refine ⟨.constant hn hω, fun k₁ k₂ hk₁ hk₂ => ?_⟩
    rw [hcategory k₂ hk₂, hω k₁ hk₁]
  | untyped c =>
    have hc := hω c.zeroKind rfl
    exact ⟨⟨n, rfl, hc ▸ hn⟩, fun k' hk' => hc ▸ hcategory k' hk'⟩

end

/-! ### Parts of values -/

/-- The type of the elements of a value whose underlying type has the given shape. -/
def elementIn? : Shape → Option TypeExpr
  | .slice element | .array element => some element
  | .map _ value => some value
  | .named _ "string" _ => some (.named "byte")
  | _ => none

private theorem denotes_basic {m : String} (hn : predeclaredKind? n = some k)
    (hm : predeclaredKind? m = some k) : Denotes o p P (.named n) (.basic m) := by
  refine .constant hn fun k' hk' => ?_
  cases hk' with
  | basic hk' => exact Option.some.inj (hk'.symm.trans hm)

/-- A pointer has no elements. -/
theorem Element.ne_pointer {σ ρ : Ty} (h : Element σ ρ) (x : Ty) : σ ≠ .pointer x := by
  rintro rfl
  cases h

/-- The elements of a value have the type that is read off a fitting shape. -/
theorem Agrees.element {s : Shape} {σ ρ : Ty} (h : Agrees o p P σ s) (hρ : Element σ ρ)
    (he : elementIn? s = some e) : Denotes o p P e ρ := by
  unfold elementIn? at he
  split at he
  · cases he
    obtain ⟨_, rfl, hd⟩ := h
    cases hρ
    exact hd
  · cases he
    obtain ⟨_, rfl, hd⟩ := h
    cases hρ
    exact hd
  · cases he
    obtain ⟨_, _, rfl, -, hd⟩ := h
    cases hρ
    exact hd
  · cases he
    cases hρ with
    | string => exact denotes_basic (k := .integer) rfl rfl
    | slice => exact nomatch h rfl _ .slice
    | array => exact nomatch h rfl _ .array
    | map => exact nomatch h rfl _ .map
  · cases he

/-- No range runs over a pointer. -/
theorem Ranged.ne_pointer {isKey : Bool} {σ ρ : Ty} (h : Ranged isKey σ ρ) (x : Ty) :
    σ ≠ .pointer x := by
  rintro rfl
  cases h

/-- So do the keys and values of a range. -/
theorem Agrees.ranged {isKey : Bool} {ranged : TypeExpr} {σ ρ : Ty}
    (h : Agrees o p P σ (underlying p ranged.deref).shape) (hρ : Ranged isKey σ ρ)
    (he : Typing.rangeElement? p isKey ranged = some e) : Denotes o p P e ρ := by
  have hint : Denotes o p P (.named "int") (.basic "int") := denotes_basic (k := .integer) rfl rfl
  unfold Typing.rangeElement? at he
  split at he
  · next hshape =>
    cases he
    rw [hshape] at h
    obtain ⟨_, rfl, hd⟩ := h
    cases hρ
    cases isKey
    · exact hd
    · exact hint
  · next hshape =>
    cases he
    rw [hshape] at h
    obtain ⟨_, rfl, hd⟩ := h
    cases hρ
    cases isKey
    · exact hd
    · exact hint
  · next hshape =>
    cases he
    rw [hshape] at h
    obtain ⟨_, _, rfl, hkey, hvalue⟩ := h
    cases hρ
    cases isKey
    · exact hvalue
    · exact hkey
  · next hshape =>
    rw [hshape] at h
    obtain ⟨_, rfl, hd⟩ := h
    cases hρ with
    | chan hkey =>
      rw [if_pos hkey] at he
      cases he
      exact hd
  · next hshape =>
    cases he
    rw [hshape] at h
    cases hρ with
    | string => cases isKey <;> exact denotes_basic (k := .integer) rfl rfl
    | slice => exact nomatch h rfl _ .slice
    | array => exact nomatch h rfl _ .array
    | map => exact nomatch h rfl _ .map
    | chan => exact nomatch h rfl _ .chan
  · cases he

/-- A number has neither. -/
theorem Agrees.rangeElement?_eq_none {isKey : Bool} {ranged : TypeExpr}
    (h : Agrees o p P (.basic n) (underlying p ranged.deref).shape)
    (hn : predeclaredKind? n = some .integer) : Typing.rangeElement? p isKey ranged = none := by
  unfold Typing.rangeElement?
  split
  · next hshape => rw [hshape] at h; obtain ⟨_, hsame, -⟩ := h; cases hsame
  · next hshape => rw [hshape] at h; obtain ⟨_, hsame, -⟩ := h; cases hsame
  · next hshape => rw [hshape] at h; obtain ⟨_, _, hsame, -⟩ := h; cases hsame
  · next hshape => rw [hshape] at h; obtain ⟨_, hsame, -⟩ := h; cases hsame
  · next hshape => rw [hshape] at h; exact nomatch h rfl _ (.basic hn)
  · rfl

/-- A field has the type that its expression resolves to. -/
theorem ResolvesFields.lookup {c : Context} {fields : List (String × TypeExpr)}
    {types : List (String × Ty)} {f g : String} {σ : Ty} (h : ResolvesFields p c fields types)
    (he : fields.find? (·.1 = f) = some (g, e)) (hσ : types.lookup f = some σ) :
    Resolves p c e σ := by
  induction fields generalizing types with
  | nil => cases he
  | cons field fields ih =>
    cases h with
    | cons hfirst hs =>
      rw [List.find?_cons] at he
      rw [List.lookup_cons] at hσ
      split at he
      · next hname =>
        obtain rfl := of_decide_eq_true hname
        cases he
        rw [beq_self_eq_true] at hσ
        cases hσ
        exact hfirst
      · next hname =>
        have hne : (f == _) = false := beq_false_of_ne fun heq => of_decide_eq_false hname heq.symm
        rw [hne] at hσ
        exact ih hs he hσ

/-! ### Several answers -/

/-- Not even the number of values is known, or each answer is right for the operand at its place. -/
def SoundAll (o : Others) (p : Package) (P : List String) (infos : List (Option TypeInfo))
    (ωs : List Operand) : Prop :=
  infos = [] ∨
    List.Forall₂ (fun info? ω => ∀ info, info? = some info → Sound o p P info ω) infos ωs

section

variable {infos : List (Option TypeInfo)} {ωs : List Operand} {info? : Option TypeInfo}

/-- An answer for one operand that is right is right for all. -/
theorem soundAll_single (h : ∀ info, info? = some info → Sound o p P info ω) :
    SoundAll o p P [info?] [ω] :=
  .inr (.cons h .nil)

/-- An answer at a place is right for the operand at the place. -/
theorem SoundAll.getElem? {i : Nat} (h : SoundAll o p P infos ωs)
    (hinfo : infos[i]? = some (some info)) : ∃ ω, ωs[i]? = some ω ∧ Sound o p P info ω := by
  obtain ⟨hi, hinfo⟩ := List.getElem?_eq_some_iff.mp hinfo
  have hall := h.resolve_left (by rintro rfl; cases hi)
  have hi' : i < ωs.length := hall.length_eq ▸ hi
  refine ⟨ωs[i], List.getElem?_eq_getElem hi', ?_⟩
  exact (List.forall₂_iff_get.mp hall).2 i hi hi' info hinfo

/-- An answer at a place, if there is one, is right for the operand at the place. -/
theorem SoundAll.join {i : Nat} (h : SoundAll o p P infos ωs) (hω : ωs[i]? = some ω)
    (hinfo : (infos[i]?).join = some info) : Sound o p P info ω := by
  obtain ⟨ω', hω', hsound⟩ := h.getElem? (Option.join_eq_some_iff.mp hinfo)
  rw [hω] at hω'
  cases hω'
  exact hsound

/-- Answers for the types that expressions resolve to are right for all of them. -/
theorem ResolvesAll.soundAll {f : TypeExpr → TypeInfo} (h : ResolvesAll p c es τs)
    (hf : ∀ e τ, Resolves p c e τ → Sound o p P (f e) (.typed τ)) :
    SoundAll o p P (es.map fun e => some (f e)) (τs.map .typed) := by
  refine .inr ?_
  induction es generalizing τs with
  | nil =>
    cases h
    exact .nil
  | cons e es ih =>
    cases h with
    | cons hfirst hs =>
      refine .cons (fun info hinfo => ?_) (ih hs)
      cases hinfo
      exact hf e _ hfirst

end

end GoContracts.Static

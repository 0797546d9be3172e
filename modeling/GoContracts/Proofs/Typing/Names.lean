import GoContracts.Proofs.Typing.Calls

/-!
# Answers for names

A name gets the type of the declaration that is in force, or the answer for the value that it is
bound to, which may go two steps less deep.
-/

namespace GoContracts.Static

open Syntax (Tree)
open Lexical (Declaration)
open Typing (answersTo underlying)

variable {o : Others} {p : Package} {P : List String} {n : Nat} {l l' : Place} {t : Tree}
  {ω a : Operand} {ωs : List Operand} {info : TypeInfo} {τ : Ty}
  {answers : Typing.Answers} {scope : Scope}

/-! ### Values -/

/-- The values that are listed have a type each, a call alone may have many. -/
theorem valueTypes_eq : Typing.valueTypes answers scope t =
    match listed t with
    | [only] => if only.is .callExpression then answers.results scope only
      else [answers.single? scope only]
    | items => items.map (answers.single? scope) := rfl

/-- Without a call alone each listed value has one type. -/
theorem valueTypes_each (ht : ∀ e, listed t = [e] → e.is .callExpression = false) :
    Typing.valueTypes answers scope t = (listed t).map (answers.single? scope) := by
  rw [valueTypes_eq]
  split
  · next only hlisted => rw [ht only hlisted, hlisted]; rfl
  · rfl

/-- The answers for the values of an expression or a list of expressions are right. -/
theorem SoundAt.values (h : SoundAt o p P n) (hl : l.Within p P)
    (hled : ∀ s ∈ listed t, ¬Misled o p P n l s) (ht : Yields o p l t ωs) :
    SoundAll o p P (Typing.valueTypes (answersTo p n) l.scope t) ωs := by
  cases ht with
  | call hcall hkind hcalls =>
    rw [valueTypes_eq, hcall]
    simp only [hkind, if_true]
    exact h.results hl (hled _ (by rw [hcall]; exact List.mem_singleton_self _)) hcalls
  | each hsingle hall =>
    rw [valueTypes_each hsingle]
    refine .inr ?_
    generalize listed t = ts at hled hall
    clear hsingle
    induction ts generalizing ωs with
    | nil => cases hall; exact .nil
    | cons s ts ih =>
      cases hall with
      | cons hfirst hrest =>
        rw [List.forall_mem_cons] at hled
        exact .cons (fun info hinfo => h.single hl hled.1 hfirst hinfo) (ih hled.2 hrest)

/-- As many names as there are values get the answers for them. -/
theorem sound_pick {infos : List (Option TypeInfo)} {values : Tree} {index : Nat}
    (h : SoundAll o p P infos ωs) (ha : ωs[index]? = some a)
    (hinfo : Typing.pick p answers scope infos values index ωs.length = some info) :
    Sound o p P info a := by
  unfold Typing.pick at hinfo
  split at hinfo
  · exact h.join ha hinfo
  · next hlength =>
    rcases h with rfl | hall
    · cases hinfo
    · exact (hlength hall.length_eq).elim

/-- The second of two names for a single value tells of success. -/
theorem pick_commaOk {values : Tree} {info? : Option TypeInfo} {index : Nat}
    (hinfo : Typing.pick p answers scope [info?] values index 2 = some info) :
    info = Typing.basic p answers scope "bool" ∧ index ≠ 0 ∨ info? = some info ∧ index = 0 := by
  unfold Typing.pick at hinfo
  split at hinfo
  · next hlength => cases hlength
  split at hinfo
  · split at hinfo
    · next hindex => exact .inr ⟨by simpa using hinfo, hindex⟩
    · next hindex => cases hinfo; exact .inl ⟨rfl, hindex⟩
  · cases hinfo

/-! ### Names -/

private theorem Place.scope_eq {pos : Nat} (h : l'.position? = some pos)
    (hsame : l.SameFunction l') :
    l'.scope = .visibleAt l.file pos := by
  rw [Place.scope, h, hsame.1]

private theorem hasCommaOk_not_call {e : Tree} {file : SourceFile} (h : HasCommaOk file e) :
    e.is .callExpression = false := by
  rcases h with hkind | hkind | ⟨hkind, -⟩ <;> exact Syntax.Tree.is_eq_false hkind (by decide)

/-- The keys and values of a range get the types that are read off the answer for the operand. -/
theorem denotes_ranged (hp : Plain p) (ho : o.Known p) {isKey : Bool} {e ranged : TypeExpr}
    (hd : Denotes o p P ranged a.type) (hcaptures : ¬Captures p P a.type) (hτ : Ranges p isKey a τ)
    (he : Typing.rangeElement? p isKey ranged = some e) : Denotes o p P e τ := by
  have hread (target) : (underlying p ranged.deref).shape ≠ .pointer target := fun hshape => by
    rw [Typing.rangeElement?, hshape] at he
    cases he
  have hranged {σ} (h : Underlying p a.type σ) (hρ : Ranged isKey σ τ) : Denotes o p P e τ := by
    obtain ⟨σ', rfl | ⟨x, rfl, rfl⟩, hagrees⟩ :=
      hd.agrees_deref hp ho hcaptures .self h hρ.ne_pointer hread
    · exact hagrees.ranged hρ he
    · cases hρ
      exact hagrees.ranged .array he
  have hcount {m} (h : Underlying p a.type (.basic m)) (hm : predeclaredKind? m = some .integer) :
      Denotes o p P e τ := by
    obtain ⟨σ', rfl | ⟨x, hx, -⟩, hagrees⟩ :=
      hd.agrees_deref hp ho hcaptures .self h (fun x hx => nomatch hx) hread
    · rw [hagrees.rangeElement?_eq_none hm] at he
      cases he
    · cases hx
  cases hτ with
  | ranged h hρ => exact hranged h hρ
  | constant => exact hranged (.here rfl) .string
  | count hkey h hm => exact hcount h hm
  | constantCount => exact hcount (.here rfl) rfl
  | pointed hρ h hσ =>
    obtain ⟨σ', rfl | ⟨x, hx, -⟩, hagrees⟩ :=
      hd.agrees_deref hp ho hcaptures (.target hρ) h (fun x hx => nomatch hx) hread
    · exact hagrees.ranged hσ he
    · cases hx

namespace Step

variable (step : Step o p P (n + 1) l t) (hkind : t.is .identifier)
  (hinfo : Typing.nameType? p (answersTo p n) l.scope (l.file.textOf t) = some info)

section

variable {d : Declaration} {b : Binding} (hname : l.file.textOf t ≠ "_")
  (hd : l.around.visible? (l.file.textOf t) = some d)

include step hkind hinfo hname hd

omit step hkind in
/-- A name that is declared inside a function gets the answer for its binding. -/
theorem binding (hb : d.binding? = some b) :
    Typing.bindingType? p (answersTo p n) l.scope b = some info := by
  rwa [Typing.nameType?, Place.lookup?_of_visible hname hd hb] at hinfo

omit hkind in
private theorem declared {type : TypeExpr} (hb : d.binding? = some b)
    (horigin : b.origin = .declared type)
    (h : Resolves p l.context type τ) : Sound o p P info (.typed τ) := by
  have hinfo := binding hinfo hname hd hb
  rw [Typing.bindingType?, horigin] at hinfo
  cases hinfo
  exact step.resolved h

private theorem value {values : Tree} {index : Nat} (hb : d.binding? = some b)
    (horigin : b.origin = .value values index ωs.length)
    (hplace : l'.position? = some values.start) (hsame : l.SameFunction l')
    (hvalues : Yields o p l' values ωs) (ha : ωs[index]? = some a)
    (h : Binds l.file values a ω) : Sound o p P info ω := by
  have hinfo := binding hinfo hname hd hb
  rw [Typing.bindingType?, horigin] at hinfo
  simp only [Place.file_scope, ← Place.scope_eq hplace hsame] at hinfo
  have hled (s) (hs : s ∈ listed values) : ¬Misled o p P n l' s := fun hled =>
    step.notMisled (.value hkind hd hb horigin hplace hsame hs hled)
  have hall := (step.below n (Nat.le_succ n)).values (step.within.of_sameFunction hsame) hled
    hvalues
  exact (sound_pick hall ha hinfo).binds h

private theorem commaOk {values e : Tree} {index : Nat} (hb : d.binding? = some b)
    (horigin : b.origin = .value values index 2) (hplace : l'.position? = some values.start)
    (hsame : l.SameFunction l') (he : listed values = [e]) (hok : HasCommaOk l.file e)
    (h : Gives o p l' e a) :
    Sound o p P info (.typed (if index = 0 then a.type else .basic "bool")) := by
  have hinfo := binding hinfo hname hd hb
  have hl' := step.within.of_sameFunction hsame
  have hcall (e') (he' : listed values = [e']) : e'.is .callExpression = false := by
    rw [he] at he'
    cases he'
    exact hasCommaOk_not_call hok
  have hled : ¬Misled o p P n l' e := fun hled => step.notMisled
    (.value hkind hd hb horigin hplace hsame (by rw [he]; exact List.mem_singleton_self e) hled)
  rw [Typing.bindingType?, horigin] at hinfo
  simp only [Place.file_scope, ← Place.scope_eq hplace hsame, valueTypes_each hcall, he,
    List.map_cons, List.map_nil] at hinfo
  rcases pick_commaOk hinfo with ⟨rfl, hindex⟩ | ⟨hinfo, hindex⟩
  · rw [if_neg hindex]
    refine step.basic (k := .bool) hl'.fits rfl fun k hk => ?_
    cases hk with
    | basic hk => exact (Option.some.inj hk).symm
  · rw [if_pos hindex]
    exact ((step.below n (Nat.le_succ n)).single hl' hled h hinfo).type

private theorem assigned (h : Assigns o p l d ω) : Sound o p P info ω := by
  cases h with
  | value hb horigin hplace hsame hvalues hcount ha h =>
    subst hcount
    exact step.value hkind hinfo hname hd hb horigin hplace hsame hvalues ha h
  | commaOk hb horigin hplace hsame he hok h =>
    exact step.commaOk hkind hinfo hname hd hb horigin hplace hsame he hok h

private theorem range {ranged : Tree} {isKey : Bool} (hb : d.binding? = some b)
    (horigin : b.origin = if isKey then .rangeKey ranged else .rangeValue ranged)
    (hplace : l'.position? = some ranged.start) (hsame : l.SameFunction l')
    (h : Gives o p l' ranged a) (hτ : Ranges p isKey a τ) : Sound o p P info (.typed τ) := by
  have hinfo := binding hinfo hname hd hb
  have hl' := step.within.of_sameFunction hsame
  have horigin' : b.origin = .rangeKey ranged ∨ b.origin = .rangeValue ranged := by
    cases isKey
    · exact .inr horigin
    · exact .inl horigin
  have hled : ¬Misled o p P n l' ranged := fun hled => step.notMisled
    (.range hkind hd hb horigin' hplace hsame hled)
  have hinfo : Typing.rangeType? p (answersTo p n) l.file isKey ranged = some info := by
    rw [Typing.bindingType?, horigin] at hinfo
    cases isKey <;> simpa using hinfo
  simp only [Typing.rangeType?, ← Place.scope_eq hplace hsame, Option.bind_eq_bind] at hinfo
  obtain ⟨inner, hinner, hinfo⟩ := Option.bind_eq_some_iff.mp hinfo
  obtain ⟨e, he, hinfo⟩ := Option.bind_eq_some_iff.mp hinfo
  cases hinfo
  have hsound := (step.below n (Nat.le_succ n)).single hl' hled h hinner
  have hcaptures : ¬Captures p P a.type := by
    cases a with
    | typed τ => exact fun hτ => step.notMisled (.ranged hkind hd hb horigin' hplace hsame h hτ)
    | untyped c => exact fun hτ => nomatch hτ
  exact step.denotes hl'.fits (denotes_ranged step.plain step.known hsound.type.1 hcaptures hτ he)

end

section

variable (hglobal : l.IsGlobal (l.file.textOf t))

include step hkind hinfo hglobal

omit hkind in
private theorem globalDeclared {file : SourceFile} {type : TypeExpr}
    (hdeclared : DeclaresValue p file (l.file.textOf t) (.declared type))
    (h : Resolves p ⟨file.importPath?, fun _ => none, true⟩ type τ) :
    Sound o p P info (.typed τ) := by
  have hproper : Proper o p P ⟨file.importPath?, fun _ => none, true⟩ :=
    .of_file step.plain step.known hdeclared.2.1 fun _ _ _ h => nomatch h
  rw [Typing.nameType?, Place.lookup?_of_isGlobal hglobal] at hinfo
  simp only [Typing.packageValueType?, hdeclared.1, Option.bind_eq_bind, Option.bind_some] at hinfo
  obtain ⟨first, -, hinfo⟩ := Option.bind_eq_some_iff.mp hinfo
  cases hinfo
  exact step.denotes fits_packageLevel (.resolved hproper h)

private theorem globalValue {number index : Nat} {values : Tree}
    (hvalue : p.value? (l.file.textOf t) = some (.inferred number values index ωs.length))
    (hfile : p.files[number]? = some l'.file) (hplace : l'.position? = none)
    (hvalues : Yields o p l' (values.smallestAt values.start values.stop) ωs)
    (ha : ωs[index]? = some a) (h : Binds l'.file values a ω) : Sound o p P info ω := by
  have hl' : l'.Within p P := ⟨List.mem_of_getElem? hfile, by
    simp [Place.params, Place.around, hplace, Lexical.Surroundings.declarations]⟩
  have hled (s) (hs : s ∈ listed (values.smallestAt values.start values.stop)) :
      ¬Misled o p P n l' s := fun hled => step.notMisled
    (.global hkind hvalue hfile hplace hs hled)
  have hall := (step.below n (Nat.le_succ n)).values hl' hled hvalues
  have hscope : l'.scope = .packageLevel l'.file := by rw [Place.scope, hplace]
  rw [Typing.nameType?, Place.lookup?_of_isGlobal hglobal] at hinfo
  simp only [Typing.packageValueType?, hvalue, hfile, ← hscope, Option.bind_eq_bind,
    Option.bind_some] at hinfo
  split at hinfo
  · exact (sound_pick hall ha hinfo).binds h
  · split at hinfo
    · exact (hall.join ha hinfo).binds h
    · cases hinfo

end

include step hkind hinfo

/-- The answer for a name is right. -/
theorem name (hname : l.file.textOf t ≠ "_") (h : Names o p l (l.file.textOf t) ω) :
    Sound o p P info ω := by
  -- A variable may be found by a later assignment, which has its type.
  have hlocal {d} (hd : typingDeclaration? (l.file.textOf t) l.around.blocks = some d)
      (hsound : l.around.visible? (l.file.textOf t) = some d → Sound o p P info ω) :
      Sound o p P info ω := by
    obtain ⟨d', hd'⟩ := exists_visible? hd
    rcases eq_or_assigns hkind step.notMisled h hd hd' with rfl | hassigns
    · exact hsound hd'
    · exact step.assigned hkind hinfo hname hd' hassigns
  cases h with
  | declared hd hb horigin h =>
    exact hlocal hd fun hd' => step.declared hinfo hname hd' hb horigin h
  | assigned hd h => exact hlocal hd fun hd' => step.assigned hkind hinfo hname hd' h
  | ranged hd hb horigin hplace hsame h hτ =>
    exact hlocal hd fun hd' => step.range hkind hinfo hname hd' hb horigin hplace hsame h hτ
  | globalDeclared hglobal hdeclared h => exact step.globalDeclared hinfo hglobal hdeclared h
  | globalValue hglobal hvalue hfile hplace hvalues hcount ha h =>
    subst hcount
    exact step.globalValue hkind hinfo hglobal hvalue hfile hplace hvalues ha h

end Step

end GoContracts.Static

import GoContracts.Proofs.Typing.Names

/-!
# Soundness of answers

The category in an answer tells the zero value of the type that the rules of the language give to
the expression, unless the answer is misled. Calls and expressions are covered by one induction on
the depth of the question.
-/

namespace GoContracts.Static

open Syntax (Tree)
open Typing (answersTo)

variable {o : Others} {p : Package} {P : List String} {n : Nat} {l : Place} {t : Tree} {ω : Operand}
  {ωs : List Operand} {info : TypeInfo}

/-! ### All answers -/

private theorem isComparison_of_mem {operator : String}
    (h : operator ∈ ["==", "!=", "<", "<=", ">", ">="] ∨ operator ∈ ["&&", "||"]) :
    Typing.isComparison operator := by
  simpa [Typing.isComparison, or_assoc] using h

private theorem isComparison_eq_false {operator : String}
    (h : operator ∈ ["+", "-", "*", "/", "%", "&", "|", "^", "&^"]) :
    Typing.isComparison operator = false := by
  revert operator
  decide

namespace Step

variable (step : Step o p P n l t)

include step

private theorem calls (h : Calls o p l t ωs) :
    SoundAll o p P (Typing.callResults p (answersTo p n) l.scope t) ωs := by
  cases h with
  | conversion hname _ hfree h => exact step.conversion hname hfree.1 h
  | function hname hglobal hdeclared hbound h =>
    exact step.function hname hglobal hdeclared hbound h
  | method hf hselector hoperand hfield hreceiver hτ hdeclared h =>
    exact step.method hf hselector hoperand hfield hreceiver hτ hdeclared h
  | imported hf hselector hoperand hfield hident hglobal hvalue himport hes h =>
    exact step.importedFunction hf hselector hoperand hfield hident hglobal hvalue himport hes h
  | new hname huniversal he h => exact step.new hname huniversal he h
  | make hname huniversal he h => exact step.make hname huniversal he h
  | size hname hsize huniversal => exact step.fixed hname huniversal rfl (.inl ⟨hsize, rfl⟩)
  | append hname huniversal he h => exact step.append hname huniversal he h
  | extremum hname hextremum huniversal hωs h =>
    exact step.extremum hname hextremum huniversal hωs h
  | recover hname huniversal => exact step.fixed hname huniversal rfl (.inr ⟨rfl, rfl⟩)

private theorem constant {kind : Syntax.Kind} {c : Constant} (hkind : t.kind? = some kind)
    (hc : Constant.ofKind? kind = some c)
    (hinfo : Typing.singleType? p (answersTo p n) l.scope t = some info) :
    Sound o p P info (.untyped c) := by
  rw [Typing.singleType?, hkind] at hinfo
  unfold Constant.ofKind? at hc
  split at hc <;> cases hc <;> cases hinfo <;>
    exact step.basic step.within.fits rfl fun k hk => hk

private theorem single (h : Gives o p l t ω)
    (hinfo : Typing.singleType? p (answersTo p n) l.scope t = some info) : Sound o p P info ω := by
  have hω := h
  cases h with
  | constant hkind hc => exact step.constant hkind hc hinfo
  | name hkind hword h =>
    rw [Typing.singleType?, Syntax.Tree.is_iff.mp hkind] at hinfo
    simp only [List.mem_cons, List.not_mem_nil, or_false, not_or] at hword
    obtain ⟨htrue, hfalse, hnil, hblank⟩ := hword
    have hname : (answersTo p n).name? l.scope (l.file.textOf t) = some info := by
      simpa [Typing.identifierType?, htrue, hfalse, hnil] using hinfo
    cases n with
    | zero => cases hname
    | succ n => exact step.name hkind hname hblank h
  | parenthesized hkind hinner h =>
    rw [Typing.singleType?, Syntax.Tree.is_iff.mp hkind] at hinfo
    simp only [Typing.firstItem?, hinner, Option.bind_some] at hinfo
    exact step.part (.inner hkind hinner) h hinfo
  | function hkind =>
    rw [Typing.singleType?, Syntax.Tree.is_iff.mp hkind] at hinfo
    cases hinfo
    refine ⟨.unread rfl, fun k k' hk hk' => ?_⟩
    cases hk
    exact (Option.some.inj hk').symm
  | negation hkind hoperator hoperand _ hbool =>
    rw [Typing.singleType?, Syntax.Tree.is_iff.mp hkind] at hinfo
    exact step.negation hkind hoperator hoperand hω hbool hinfo
  | sign hkind hoperator hoperand h =>
    rw [Typing.singleType?, Syntax.Tree.is_iff.mp hkind] at hinfo
    exact step.sign hkind hoperator hoperand h hinfo
  | address hkind hoperator hoperand h =>
    rw [Typing.singleType?, Syntax.Tree.is_iff.mp hkind] at hinfo
    exact step.address hkind hoperator hoperand h hinfo
  | indirection hkind hoperator hoperand h hσ =>
    rw [Typing.singleType?, Syntax.Tree.is_iff.mp hkind] at hinfo
    exact step.indirection hkind hoperator hoperand h hσ hinfo
  | receive hkind hoperator hoperand h hσ =>
    rw [Typing.singleType?, Syntax.Tree.is_iff.mp hkind] at hinfo
    exact step.receive hkind hoperator hoperand h hσ hinfo
  | comparison hkind hoperator =>
    rw [Typing.singleType?, Syntax.Tree.is_iff.mp hkind] at hinfo
    simp only [binaryType?_of_isComparison (isComparison_of_mem (.inl hoperator))] at hinfo
    cases hinfo
    exact step.basic step.within.fits rfl fun k hk => hk
  | logical hkind hoperator _ _ _ _ _ hbool =>
    rw [Typing.singleType?, Syntax.Tree.is_iff.mp hkind] at hinfo
    simp only [binaryType?_of_isComparison (isComparison_of_mem (.inr hoperator))] at hinfo
    cases hinfo
    exact step.logical (.inr ⟨hkind, hoperator⟩) hω hbool
  | arithmetic hkind hoperator hleft hright ha hb h =>
    rw [Typing.singleType?, Syntax.Tree.is_iff.mp hkind] at hinfo
    exact step.operation hkind (isComparison_eq_false hoperator) hleft hright ha hb h hω hinfo
  | shift hkind hoperator hleft hright ha =>
    rw [Typing.singleType?, Syntax.Tree.is_iff.mp hkind] at hinfo
    exact step.shift hkind hoperator hleft hright ha hω hinfo
  | spelled hkind htype h =>
    have hspelled : Typing.spelledType? p (answersTo p n) l.scope t = some info := by
      rcases hkind with hkind | hkind | hkind <;>
        · rw [Typing.singleType?, Syntax.Tree.is_iff.mp hkind] at hinfo
          exact hinfo
    rw [Typing.spelledType?, htype, Place.file_scope] at hspelled
    cases hspelled
    exact step.resolved h
  | call hkind h =>
    rw [Typing.singleType?, Syntax.Tree.is_iff.mp hkind] at hinfo
    have hall := step.calls h
    simp only [Typing.callType?] at hinfo
    split at hinfo
    · next hresults =>
      rw [hresults] at hall
      exact hall.join (i := 0) rfl hinfo
    · cases hinfo
  | imported hkind hoperand hfield hident hglobal hvalue himport he h =>
    rw [Typing.singleType?, Syntax.Tree.is_iff.mp hkind] at hinfo
    exact step.imported hoperand hfield hident hglobal hvalue himport he h hinfo
  | field hkind hoperand hfield h hρ hfields hσ =>
    rw [Typing.singleType?, Syntax.Tree.is_iff.mp hkind] at hinfo
    exact step.selection hkind hoperand hfield h hρ hfields hσ hinfo
  | index hkind hoperand h hσ =>
    rw [Typing.singleType?, Syntax.Tree.is_iff.mp hkind] at hinfo
    exact step.index hkind hoperand h hσ hinfo
  | slice hkind hoperand h hσ =>
    rw [Typing.singleType?, Syntax.Tree.is_iff.mp hkind] at hinfo
    simp only [hoperand, Option.bind_some] at hinfo
    exact step.slice hkind hoperand h hσ hinfo

end Step

/-- The answers of all depths are right. -/
theorem soundAt (hp : Plain p) (ho : o.Known p) (hP : ∀ n ∈ P, IsApart p n) (n : Nat) :
    SoundAt o p P n := by
  induction n using Nat.strong_induction_on with
  | _ n ih =>
    cases n with
    | zero => exact ⟨fun _ _ _ hinfo => (nomatch hinfo), fun _ _ _ => .inl rfl⟩
    | succ n =>
      have step {l t} (hl : Place.Within l p P) (hled : ¬Misled o p P (n + 1) l t) :
          Step o p P n l t := ⟨hp, ho, hP, hl, fun m hm => ih m (Nat.lt_succ_of_le hm), hled⟩
      exact ⟨fun hl hled h hinfo => (step hl hled).single h hinfo,
        fun hl hled h => (step hl hled).calls h⟩

/-! ### Variables at the top level -/

private theorem listed_eq_singleton {kind : Syntax.Kind} (hkind : t.is kind)
    (hne : kind ≠ .expressionList) : listed t = [t] := by
  rw [listed, Syntax.Tree.is_eq_false hkind hne]
  rfl

private theorem Yields.of_gives {kind : Syntax.Kind} (hkind : t.is kind)
    (hlist : kind ≠ .expressionList)
    (hcall : kind ≠ .callExpression) (h : Gives o p l t ω) : Yields o p l t [ω] := by
  have hlisted := listed_eq_singleton hkind hlist
  refine .each (fun e he => ?_) (by rw [hlisted]; exact .cons h .nil)
  rw [hlisted] at he
  cases he
  exact Syntax.Tree.is_eq_false hkind hcall

private theorem exists_of_map_category {infos : List (Option TypeInfo)} {c : Category}
    (h : infos.map (·.map (·.category)) = [some c]) :
    ∃ info, infos = [some info] ∧ info.category = c := by
  obtain ⟨info?, rest, rfl, hinfo, hrest⟩ := List.map_eq_cons_iff.mp h
  obtain ⟨info, rfl, hc⟩ := Option.map_eq_some_iff.mp hinfo
  obtain rfl := List.map_eq_nil_iff.mp hrest
  exact ⟨info, rfl, hc⟩

/-- The top level of a file. -/
def Place.top (path text : String) : Place where
  file := .parse path text
  position? := none
  inOrder := SourceFile.inOrder_parse path text
  regular := nofun
  start := nofun

/-- Nothing misleads in a file that declares values only. -/
theorem plain_of_values {file : SourceFile} (htypes : (Package.ofFiles [file]).types = [])
    (hfuncs : (Package.ofFiles [file]).funcs = [])
    (hmethods : (Package.ofFiles [file]).methods = []) : Plain (.ofFiles [file]) := by
  have htype (n) : (Package.ofFiles [file]).typeDecl? n = none := by
    rw [Package.typeDecl?, htypes]; rfl
  have hfunc (n) : (Package.ofFiles [file]).func? n = none := by
    rw [Package.func?, hfuncs]; rfl
  have hmethod (r n) : (Package.ofFiles [file]).method? r n = none := by
    rw [Package.method?, hmethods]; rfl
  exact {
    predeclared := fun _ => htype _
    single := fun _ _ => htype _
    typeParams := fun h => by rw [htype] at h; cases h
    functions := fun h => by rw [hfunc] at h; cases h
    receivers := fun h => by rw [hmethod] at h; cases h
    methods := fun h => by rw [hmethod] at h; cases h
    imports := fun hother h => by
      rw [Package.files_ofFiles, List.mem_singleton] at hother
      rw [Package.importPath?_ofFiles, Package.lastImport?, List.reverse_singleton,
        List.findSome?_singleton, ← hother, h] }

/-- A name that has a type at the top level is not misled there. -/
theorem not_misled_of_declared {type : TypeExpr} (hkind : t.is .identifier)
    (hleaf : t.children = []) (htop : l.position? = none)
    (hvalue : p.value? (l.file.textOf t) = some (.declared type)) :
    ¬Misled o p P n l t := by
  intro h
  have hkind' := Syntax.Tree.is_iff.mp hkind
  have hchild (r) : t.child? r = none := by rw [Syntax.Tree.child?, hleaf]; rfl
  have hblocks : typingDeclaration? (l.file.textOf t) l.around.blocks = none := by
    rw [Place.around, htop]
    rfl
  have hvisible : l.around.visible? (l.file.textOf t) = none := by
    rw [Place.around, htop]
    rfl
  have hcalled : calledName? l.file t = none := by rw [calledName?, hchild]; rfl
  cases h with
  | operand hkind => simp [Syntax.Tree.is_iff, hkind'] at hkind
  | count hkind => simp [Syntax.Tree.is_iff, hkind'] at hkind
  | argument hname => rw [hcalled] at hname; cases hname
  | logical hkind => simp [Syntax.Tree.is_iff, hkind'] at hkind
  | array hkind => simp [Syntax.Tree.is_iff, hkind'] at hkind
  | redeclared _ hd => rw [hblocks] at hd; cases hd
  | conversion hname => rw [hcalled] at hname; cases hname
  | call hname => rw [hcalled] at hname; cases hname
  | captured hoperand => rw [hchild] at hoperand; cases hoperand
  | function hname => rw [hcalled] at hname; cases hname
  | receiver hf => rw [hchild] at hf; cases hf
  | ranged _ hd => rw [hvisible] at hd; cases hd
  | part hs =>
    cases hs with
    | inner hkind => simp [Syntax.Tree.is_iff, hkind'] at hkind
    | operand _ hs => rw [hchild] at hs; cases hs
    | side hkind => simp [Syntax.Tree.is_iff, hkind'] at hkind
    | receiver hf => rw [hchild] at hf; cases hf
    | argument hname => rw [hcalled] at hname; cases hname
  | value _ hd => rw [hvisible] at hd; cases hd
  | range _ hd => rw [hvisible] at hd; cases hd
  | global _ hinferred => rw [hvalue] at hinferred; cases hinferred

/-- An element is misled by the operand only, where no type parameters are in force. -/
theorem not_misled_index {s : Tree} (hkind : t.is .indexExpression)
    (hfunction : t.child? .function = none) (hoperand : t.child? .operand = some s)
    (hs : ∀ n, ¬Misled o p [] n l s) : ¬Misled o p [] n l t := by
  intro h
  have hkind' := Syntax.Tree.is_iff.mp hkind
  have hcalled : calledName? l.file t = none := by rw [calledName?, hfunction]; rfl
  cases h with
  | argument hname => rw [hcalled] at hname; cases hname
  | conversion hname => rw [hcalled] at hname; cases hname
  | call hname => rw [hcalled] at hname; cases hname
  | captured _ _ hτ => exact not_captures_nil hτ
  | function hname => rw [hcalled] at hname; cases hname
  | receiver hf => rw [hfunction] at hf; cases hf
  | part huses h =>
    cases huses with
    | inner hkind => simp [Syntax.Tree.is_iff, hkind'] at hkind
    | operand _ hs' =>
      obtain rfl := Option.some.inj (hoperand.symm.trans hs')
      exact hs _ h
    | side hkind => simp [Syntax.Tree.is_iff, hkind'] at hkind
    | receiver hf => rw [hfunction] at hf; cases hf
    | argument hname => rw [hcalled] at hname; cases hname
  | _ hkind => simp [Syntax.Tree.is_iff, hkind'] at hkind

section

variable {text : String}

/-- The package of a single file. -/
abbrev packageOf (text : String) : Package := .ofFiles [.parse "/f.go" text]

private theorem mem_files_packageOf : (Place.top "/f.go" text).file ∈ (packageOf text).files := by
  rw [Package.files_ofFiles]
  exact List.mem_singleton_self _

/-- A variable with a type at the top level is of that type. -/
theorem gives_top {type : TypeExpr} {τ : Ty} (hkind : t.is .identifier)
    (hname : (SourceFile.parse "/f.go" text).textOf t = "x")
    (hvalue : (packageOf text).value? "x" = some (.declared type))
    (hτ : ∀ imports, Resolves (packageOf text) ⟨imports, fun _ => none, true⟩ type τ) :
    Gives o (packageOf text) (.top "/f.go" text) t (.typed τ) := by
  obtain ⟨file, hdeclared⟩ := exists_declaresValue hvalue
  have hname' : (Place.top "/f.go" text).file.textOf t = "x" := hname
  refine .name hkind (by rw [hname']; decide) ?_
  rw [hname']
  exact .globalDeclared ⟨by decide, rfl⟩ hdeclared (hτ _)

end

/-- The element of a slice of strings. -/
def indexing : String := "package p\n\nvar x []string\n\nvar y = x[0]\n"

/-- The part of an array. -/
def slicing : String := "package p\n\nvar x [3]int\n\nvar y = x[:]\n"

/-- The value of `y`. -/
def valueIn (text : String) : Tree :=
  match (packageOf text).value? "y" with
  | some (.inferred _ values _ _) => values.smallestAt values.start values.stop
  | _ => (SourceFile.parse "/f.go" text).tree

/-- Whether the variable `x` is declared with a slice or array of the predeclared type. -/
def declaresX (text element : String) (isSlice : Bool) : Bool :=
  match (packageOf text).value? "x" with
  | some (.declared (.mk _ (.slice (.mk _ (.named none name _))))) => isSlice && name = element
  | some (.declared (.mk _ (.array (.mk _ (.named none name _))))) => !isSlice && name = element
  | _ => false

private theorem exists_of_declaresX {text element : String} {isSlice : Bool}
    (h : declaresX text element isSlice) (htypes : (packageOf text).types = [])
    (hkind : (predeclaredKind? element).isSome) : ∃ type,
      (packageOf text).value? "x" = some (.declared type) ∧ ∀ imports,
        Resolves (packageOf text) ⟨imports, fun _ => none, true⟩ type
          (if isSlice then .slice (.basic (canonicalName element))
          else .array (.basic (canonicalName element))) := by
  have helement {shown imports arguments} : Resolves (packageOf text) ⟨imports, fun _ => none, true⟩
      (.mk shown (.named none element arguments)) (.basic (canonicalName element)) :=
    .predeclared rfl rfl (fun _ => by rw [Package.typeDecl?, htypes]; rfl) hkind
  unfold declaresX at h
  split at h
  · next hvalue =>
    simp only [Bool.and_eq_true, decide_eq_true_eq] at h
    obtain ⟨rfl, rfl⟩ := h
    exact ⟨_, hvalue, fun _ => .slice rfl helement⟩
  · next hvalue =>
    simp only [Bool.and_eq_true, decide_eq_true_eq, Bool.not_eq_true'] at h
    obtain ⟨rfl, rfl⟩ := h
    exact ⟨_, hvalue, fun _ => .array rfl helement⟩
  · cases h

private theorem indexing_run : (packageOf indexing).types.isEmpty ∧
    (packageOf indexing).funcs.isEmpty ∧
    (packageOf indexing).methods.isEmpty ∧ (valueIn indexing).is .indexExpression ∧
    ((valueIn indexing).child? .function).isNone ∧
    (((valueIn indexing).child? .operand).any fun s => s.is .identifier &&
      s.children.isEmpty && (SourceFile.parse "/f.go" indexing).textOf s = "x") ∧
    declaresX indexing "string" true ∧
    ((packageOf indexing).expressionTypes (Place.top "/f.go" indexing).scope (valueIn indexing)).map
      (·.map (·.category)) = [some .string] := by
  decide +kernel

private theorem slicing_run : (SourceFile.parse "/f.go" slicing).hasErrors = false ∧
    (packageOf slicing).types.isEmpty ∧ (packageOf slicing).funcs.isEmpty ∧
    (packageOf slicing).methods.isEmpty ∧ (valueIn slicing).is .sliceExpression ∧
    (((valueIn slicing).child? .operand).any fun s => s.is .identifier &&
      (SourceFile.parse "/f.go" slicing).textOf s = "x") ∧
    declaresX slicing "int" false ∧
    ((packageOf slicing).expressionTypes (Place.top "/f.go" slicing).scope (valueIn slicing)).map
      (·.map (·.category)) = [some (.aggregate true)] := by
  decide +kernel

/-! ### Zero values -/

/-- The category in an answer for a value tells the zero value of the type that the value has. -/
theorem zeroKind?_expressionTypes {i : Nat} (hp : Plain p) (ho : o.Known p)
    (hfile : l.file ∈ p.files) (hapart : ∀ n ∈ l.params, IsApart p n) (h : Yields o p l t ωs)
    (hled : ∀ s ∈ listed t, ¬Misled o p l.params Typing.maxDepth l s)
    (hinfo : (p.expressionTypes l.scope t)[i]? = some (some info))
    (hcategory : info.category ≠ .unknown) :
    ∃ ω, ωs[i]? = some ω ∧ ∀ k, ω.HasZero o p k → info.category.zeroKind? = some k := by
  have hl : l.Within p l.params := ⟨hfile, fun _ hn => hn⟩
  have hall := (soundAt hp ho hapart Typing.maxDepth).values hl hled h
  obtain ⟨ω, hω, hsound⟩ := hall.getElem? hinfo
  exact ⟨ω, hω, fun k hk => hsound.category hk hcategory⟩

/-- The element of a slice of strings has the zero value of a string. -/
theorem zeroKind?_indexing : ∃ info,
    ((packageOf indexing).expressionTypes (Place.top "/f.go" indexing).scope
      (valueIn indexing))[0]? = some (some info) ∧ ∃ ω,
      [Operand.typed (.basic "string")][0]? = some ω ∧ ∀ k,
        ω.HasZero (.ofTables (packageOf indexing)) (packageOf indexing) k →
          info.category.zeroKind? = some k := by
  obtain ⟨htypes, hfuncs, hmethods, hkind, hfunction, hoperand, hdeclares, hanswers⟩ := indexing_run
  rw [List.isEmpty_iff] at htypes hfuncs hmethods
  obtain ⟨s, hs, hoperand⟩ := (Option.any_eq_true ..).mp hoperand
  simp only [Bool.and_eq_true, decide_eq_true_eq, List.isEmpty_iff] at hoperand
  obtain ⟨⟨hident, hleaf⟩, hname⟩ := hoperand
  obtain ⟨type, hvalue, hτ⟩ := exists_of_declaresX hdeclares htypes rfl
  have hplain := plain_of_values htypes hfuncs hmethods
  have hlisted := listed_eq_singleton hkind (by decide)
  have hled (n) : ¬Misled (.ofTables (packageOf indexing)) (packageOf indexing) [] n
      (.top "/f.go" indexing) (valueIn indexing) :=
    not_misled_index hkind (Option.isNone_iff_eq_none.mp hfunction) hs fun _ =>
      not_misled_of_declared hident hleaf rfl (hname.symm ▸ hvalue)
  have hgives : Gives (.ofTables (packageOf indexing)) (packageOf indexing) (.top "/f.go" indexing)
      (valueIn indexing) (.typed (.basic "string")) :=
    .index hkind hs (gives_top hident hname hvalue hτ) (.element (.here rfl) .slice)
  obtain ⟨info, hinfos, hcategory⟩ := exists_of_map_category hanswers
  have hinfo := (congrArg (·[0]?) hinfos).trans rfl
  refine ⟨info, hinfo, zeroKind?_expressionTypes hplain (Others.known_ofTables _)
    mem_files_packageOf (fun n hn => nomatch hn)
    (.of_gives hkind (by decide) (by decide) hgives) ?_ hinfo (by rw [hcategory]; decide)⟩
  rw [hlisted]
  exact fun s hs => by rw [List.mem_singleton.mp hs]; exact hled _

/-- A part of an array gets the category of the array, though it is a slice. -/
theorem zeroKind?_slicing : ¬∀ (files : List SourceFile) (o : Others) (l : Place) (t : Tree)
    (ω : Operand) (info : TypeInfo) (k : ZeroKind), (∀ f ∈ files, f.hasErrors = false) →
      Plain (.ofFiles files) → o.Known (.ofFiles files) → l.file ∈ files →
      (∀ n ∈ l.params, IsApart (.ofFiles files) n) → Yields o (.ofFiles files) l t [ω] →
      (Package.ofFiles files).expressionTypes l.scope t = [some info] → info.category ≠ .unknown →
      ω.HasZero o (.ofFiles files) k → info.category.zeroKind? = some k := by
  intro h
  obtain ⟨hvalid, htypes, hfuncs, hmethods, hkind, hoperand, hdeclares, hanswers⟩ := slicing_run
  rw [List.isEmpty_iff] at htypes hfuncs hmethods
  obtain ⟨s, hs, hoperand⟩ := (Option.any_eq_true ..).mp hoperand
  simp only [Bool.and_eq_true, decide_eq_true_eq] at hoperand
  obtain ⟨hident, hname⟩ := hoperand
  obtain ⟨type, hvalue, hτ⟩ := exists_of_declaresX hdeclares htypes rfl
  obtain ⟨info, hinfos, hcategory⟩ := exists_of_map_category hanswers
  have hgives : Gives (.ofTables (packageOf slicing)) (packageOf slicing) (.top "/f.go" slicing)
      (valueIn slicing) (.typed (.slice (.basic "int"))) :=
    .slice hkind hs (gives_top hident hname hvalue hτ) (.array .self (.here rfl))
  have hnilable := h [.parse "/f.go" slicing] (.ofTables (packageOf slicing))
    (.top "/f.go" slicing) _ _ info .nilable (by simpa using hvalid)
    (plain_of_values htypes hfuncs hmethods) (Others.known_ofTables _) (List.mem_singleton_self _)
    (fun n hn => nomatch hn) (.of_gives hkind (by decide) (by decide) hgives) hinfos
    (by rw [hcategory]; decide) .slice
  rw [hcategory] at hnilable
  cases hnilable

end GoContracts.Static

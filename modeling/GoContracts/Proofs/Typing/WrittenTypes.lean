import GoContracts.Proofs.Typing.Names
import GoContracts.Proofs.Typing.TypeNames
import Mathlib.Data.List.TakeWhile

/-!
# Where the types of variables are written

The type of a variable is written in its declaration, in the value that it is bound to, or in the
declaration of another variable that it is a copy of. It is classified in the scope at hand or in
that of the value.
-/

namespace GoContracts.Static

open Syntax (Tree Kind)
open Syntax.Tree (preorderAll)
open Lexical (Declaration Regular surroundings)
open Typing (answersTo maxDepth)

/-- The declaration of a name that is in force, with those that are in force where its type is
written: the earlier ones, the innermost first. A parameter is not in force in its own header. -/
def declaration? (name : String) :
    List (List Declaration) → Option (Declaration × List Declaration)
  | [] => none
  | block :: outer =>
    match block.reverse.dropWhile (·.name ≠ name) with
    | d :: earlier =>
      some (d, earlier.filter (·.form ≠ .parameter) ++ outer.flatMap List.reverse)
    | [] => declaration? name outer

/-- An expression spells the type of its value. -/
inductive Spells (p : Package) (scope : Scope) : Tree → TypeExpr → Prop
  | literal {t type : Tree} (hkind : t.is .compositeLiteral ∨ t.is .typeAssertionExpression ∨
      t.is .typeConversionExpression) (htype : t.child? .type = some type) :
    Spells p scope t (.ofTree scope.file type)
  | new {t type : Tree} (hkind : t.is .callExpression)
    (hname : calledName? scope.file t = some "new") (hfree : scope.lookup? "new" = none)
    (htype : (argumentsOf t).head? = some type) :
    Spells p scope t (.pointerTo (.ofTree scope.file type))
  | make {t type : Tree} (hkind : t.is .callExpression)
    (hname : calledName? scope.file t = some "make") (hfree : scope.lookup? "make" = none)
    (htype : (argumentsOf t).head? = some type) : Spells p scope t (.ofTree scope.file type)
  | conversion {t : Tree} {name : String} (hkind : t.is .callExpression)
    (hname : calledName? scope.file t = some name) (hfree : scope.lookup? name = none)
    (hword : name ∉ predeclaredFunctions)
    (htype : (scope.typeParam? name).isSome ∨ IsOuterType p name) :
    Spells p scope t (.named name)

/-- The type of a variable is written in a scope, after the given declarations. As many steps lead
there from the variable. -/
inductive Written (p : Package) (file : SourceFile) :
    (pos : Nat) → (name : String) → TypeExpr → Scope → List Declaration → (steps : Nat) → Prop
  | declared {pos : Nat} {name : String} {b : Binding} {d : Declaration} {ds : List Declaration}
    {type : TypeExpr} (hb : (Scope.visibleAt file pos).lookup? name = some b)
    (hd : declaration? name (surroundings file pos).blocks = some (d, ds))
    (hsame : d.binding? = some b) (horigin : b.origin = .declared type) :
    Written p file pos name type (.visibleAt file pos) ds 0
  /-- The value spells the type. -/
  | spelled {pos : Nat} {name : String} {b : Binding} {values item : Tree} {index count : Nat}
    {type : TypeExpr} (hb : (Scope.visibleAt file pos).lookup? name = some b)
    (horigin : b.origin = .value values index count) (hcount : (listed values).length = count)
    (hitem : (listed values)[index]? = some item)
    (h : Spells p (.visibleAt file values.start) item type) :
    Written p file pos name type (.visibleAt file values.start)
      (surroundings file values.start).declarations 1
  /-- The value is a variable. -/
  | copied {pos : Nat} {name : String} {b : Binding} {values item : Tree} {index count : Nat}
    {type : TypeExpr} {s : Scope} {ds : List Declaration} {steps : Nat}
    (hb : (Scope.visibleAt file pos).lookup? name = some b)
    (horigin : b.origin = .value values index count) (hcount : (listed values).length = count)
    (hitem : (listed values)[index]? = some item) (hkind : item.is .identifier)
    (hword : file.textOf item ∉ ["true", "false", "nil"])
    (h : Written p file values.start (file.textOf item) type s ds steps) :
    Written p file pos name type s ds (steps + 2)

/-! ### Classification -/

section

variable {p : Package} {scope : Scope} {depth : Nat}

/-- The answer for an expression that spells a type is the classification of that type. -/
theorem Spells.singleType? {t : Tree} {type : TypeExpr} (h : Spells p scope t type) :
    Typing.singleType? p (answersTo p depth) scope t =
      some (Typing.classifyAt p depth scope type) := by
  have hcall {t : Tree} {info : TypeInfo} (hkind : t.is .callExpression)
      (hresults : Typing.callResults p (answersTo p depth) scope t = [some info]) :
      Typing.singleType? p (answersTo p depth) scope t = some info := by
    rw [Typing.singleType?, Tree.is_iff.mp hkind]
    simp only [Typing.callType?, hresults]
  cases h with
  | @literal spelled hkind htype =>
    have hspelled : Typing.spelledType? p (answersTo p depth) scope t =
        some (Typing.classifyAt p depth scope (.ofTree scope.file spelled)) := by
      rw [Typing.spelledType?, htype, Option.map_some, Package.classified_answersTo]
    rw [Typing.singleType?]
    rcases hkind with hkind | hkind | hkind <;> rw [Tree.is_iff.mp hkind] <;> exact hspelled
  | new hkind hname hfree htype =>
    refine hcall hkind ?_
    rw [callResults_of_name hname, ← Package.classified_answersTo]
    simp only [Typing.namedResults, hfree, htype]
    rfl
  | make hkind hname hfree htype =>
    refine hcall hkind ?_
    rw [callResults_of_name hname, ← Package.classified_answersTo]
    simp only [Typing.namedResults, hfree, htype]
    rfl
  | conversion hkind hname hfree hword htype =>
    refine hcall hkind ?_
    rw [callResults_of_name hname, namedResults_eq hfree hword, basic_answersTo, if_pos]
    rw [Library.isBuiltinType]
    rcases htype with htype | htype | htype <;> simp [htype]

private theorem single?_succ : (answersTo p (depth + 1)).single? =
    Typing.singleType? p (answersTo p depth) := rfl

/-- A single name that is bound to a call has the answer for the call. -/
theorem pick_results {values call : Tree} (hcall : call.is .callExpression) :
    Typing.pick p (answersTo p depth) scope ((answersTo p depth).results scope call) values 0 1 =
      (answersTo p depth).single? scope call := by
  cases depth with
  | zero => rfl
  | succ depth =>
    have hresults : (answersTo p (depth + 1)).results =
        Typing.callResults p (answersTo p depth) := rfl
    rw [hresults, single?_succ, Typing.singleType?, Tree.is_iff.mp hcall]
    simp only [Typing.callType?]
    rcases Typing.callResults p (answersTo p depth) scope call with
      _ | ⟨result, _ | ⟨second, rest⟩⟩
    · rfl
    · rfl
    · simp [Typing.pick]

/-- One of as many names as there are values has the answer for its value. -/
theorem pick_eq_single? {values item : Tree} {index count : Nat}
    (hcount : (listed values).length = count) (hitem : (listed values)[index]? = some item) :
    Typing.pick p (answersTo p depth) scope
        (Typing.valueTypes (answersTo p depth) scope values) values index count =
      (answersTo p depth).single? scope item := by
  by_cases hcall : ∃ call, listed values = [call] ∧ call.is .callExpression
  · obtain ⟨call, hlisted, hcall⟩ := hcall
    rw [hlisted, List.length_singleton] at hcount
    rw [hlisted, List.getElem?_singleton] at hitem
    subst hcount
    split at hitem
    · next hindex =>
      cases hitem
      subst hindex
      rw [valueTypes_eq, hlisted]
      simp only [if_pos hcall]
      exact pick_results hcall
    · cases hitem
  · have heach : ∀ call, listed values = [call] → call.is .callExpression = false :=
      fun call hlisted => Bool.eq_false_iff.mpr fun h => hcall ⟨call, hlisted, h⟩
    rw [valueTypes_each heach, Typing.pick, if_pos (by rw [List.length_map, hcount]),
      List.getElem?_map, hitem]
    rfl

/-- A variable that is bound to a value has the answer for it, where the value is. -/
theorem nameType?_of_value {file : SourceFile} {pos index count : Nat} {name : String} {b : Binding}
    {values item : Tree} (hb : (Scope.visibleAt file pos).lookup? name = some b)
    (horigin : b.origin = .value values index count) (hcount : (listed values).length = count)
    (hitem : (listed values)[index]? = some item) :
    Typing.nameType? p (answersTo p depth) (.visibleAt file pos) name =
      (answersTo p depth).single? (.visibleAt file values.start) item := by
  rw [Typing.nameType?, hb]
  simp only [Typing.bindingType?, horigin]
  exact pick_eq_single? hcount hitem

/-- The answer for an identifier is that for its name. -/
theorem singleType?_of_identifier (p : Package) (scope : Scope) (depth : Nat) {t : Tree}
    (hkind : t.is .identifier)
    (hword : scope.file.textOf t ∉ ["true", "false", "nil"]) :
    Typing.singleType? p (answersTo p depth) scope t =
      (answersTo p depth).name? scope (scope.file.textOf t) := by
  simp only [List.mem_cons, List.not_mem_nil, or_false, not_or] at hword
  obtain ⟨htrue, hfalse, hnil⟩ := hword
  rw [Typing.singleType?, Tree.is_iff.mp hkind]
  simp only [Typing.identifierType?]

/-- The type of a variable is classified as it is written, if the question goes deep enough. -/
theorem Written.nameType?_eq {file : SourceFile} {pos steps : Nat} {name : String}
    {type : TypeExpr} {s : Scope} {ds : List Declaration}
    (h : Written p file pos name type s ds steps) :
    Typing.nameType? p (answersTo p depth) (.visibleAt file pos) name =
      if steps ≤ depth then some (Typing.classifyAt p (depth - steps) s type) else none := by
  induction h generalizing depth with
  | declared hb _ _ horigin =>
    rw [Typing.nameType?, hb]
    simp only [Typing.bindingType?, horigin, Package.classified_answersTo, Nat.zero_le, if_true,
      Nat.sub_zero]
  | @spelled pos name b values item index count type hb horigin hcount hitem h =>
    rw [nameType?_of_value hb horigin hcount hitem]
    cases depth with
    | zero => rfl
    | succ depth => exact h.singleType?.trans (if_pos (Nat.le_add_left 1 depth)).symm
  | @copied pos name b values item index count type s ds steps hb horigin hcount hitem hkind hword
      _ ih =>
    rw [nameType?_of_value hb horigin hcount hitem]
    -- One level is for the value and one for the name that it consists of.
    cases depth with
    | zero => rfl
    | succ depth =>
      have hname := singleType?_of_identifier p (.visibleAt file values.start) depth hkind hword
      rw [single?_succ, hname]
      cases depth with
      | zero =>
        rw [if_neg (by omega)]
        rfl
      | succ depth =>
        refine (@ih depth).trans ?_
        simp only [Nat.add_le_add_iff_right, Nat.add_sub_add_right]

/-- A written type is read in the scope of its file. -/
theorem Written.file_eq {file : SourceFile} {pos steps : Nat} {name : String} {type : TypeExpr}
    {s : Scope} {ds : List Declaration} (h : Written p file pos name type s ds steps) :
    s.file = file := by
  induction h with
  | declared => rfl
  | spelled => rfl
  | copied _ _ _ _ _ _ _ ih => exact ih

/-! ### Declarations in force -/

private theorem visible?_of_declaration? {name : String} {blocks : List (List Declaration)}
    {d : Declaration} {ds : List Declaration} (h : declaration? name blocks = some (d, ds)) :
    blocks.findSome? (fun block => block.reverse.find? (·.name = name)) = some d := by
  induction blocks with
  | nil => cases h
  | cons block outer ih =>
    rw [declaration?] at h
    rw [List.findSome?_cons, List.find?_eq_head?_dropWhile_not]
    split at h
    · next hdrop =>
      cases h
      simp only [decide_not, ne_eq] at hdrop
      rw [hdrop]
      rfl
    · next hdrop =>
      simp only [decide_not, ne_eq] at hdrop
      rw [hdrop]
      exact ih h

/-- The type of a variable is written in the declaration that is in force. -/
theorem Written.of_declaration? {path text name : String} {pos : Nat} {d : Declaration}
    {ds : List Declaration} {b : Binding} {type : TypeExpr}
    (regular : Regular (.parse path text) pos)
    (hstart : pos ∈ (preorderAll (SourceFile.parse path text).tree.children).map Tree.start)
    (hname : name ≠ "_")
    (hd : declaration? name (surroundings (.parse path text) pos).blocks = some (d, ds))
    (hb : d.binding? = some b) (horigin : b.origin = .declared type) :
    Written p (.parse path text) pos name type (.visibleAt (.parse path text) pos) ds 0 := by
  have hlookup := Scope.lookup?_visibleAt (SourceFile.inOrder_parse path text) regular hstart hname
  rw [Lexical.Surroundings.findSome?_declarations, Lexical.Surroundings.visible?,
    visible?_of_declaration? hd, Option.bind_some, hb, Option.some_or] at hlookup
  exact .declared hlookup hd hb horigin

end

end GoContracts.Static

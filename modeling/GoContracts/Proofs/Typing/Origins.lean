import GoContracts.Typing.Expression

/-!
# Where answers come from

Each answer about an expression or a name is the classification of its type in some scope, at a
depth that was left. Function literals are the exception: they have a type without a classification.
The scopes are those of positions in the files at hand and those outside all functions.
-/

namespace GoContracts.Typing

open Syntax (Tree)

/-- A class of scopes that answers do not leave. -/
structure Closed (p : Package) (S : Scope → Prop) : Prop where
  within : ∀ {scope}, S scope → ∀ pos, S (.visibleAt scope.file pos)
  outside : ∀ {scope}, S scope → S (.packageLevel scope.file)
  files : ∀ file ∈ p.files, S (.packageLevel file)

/-- An answer in view of given answers is a classification or one of them. -/
inductive Stems (p : Package) (S : Scope → Prop) (a : Answers) : TypeInfo → Prop
  | classified {scope : Scope} (hscope : S scope) (type : TypeExpr) :
    Stems p S a (classified p a scope type)
  | single {scope : Scope} {t : Tree} {info : TypeInfo} (hscope : S scope)
    (h : a.single? scope t = some info) : Stems p S a info
  | name {scope : Scope} {name : String} {info : TypeInfo} (hscope : S scope)
    (h : a.name? scope name = some info) : Stems p S a info
  | result {scope : Scope} {call : Tree} {info : TypeInfo} (hscope : S scope)
    (h : some info ∈ a.results scope call) : Stems p S a info
  | function {info : TypeInfo} (h : info.category = .nilable) : Stems p S a info

variable {p : Package} {S : Scope → Prop} {a : Answers} {scope : Scope} {info : TypeInfo}

section

variable (hscope : S scope)

include hscope

private theorem stems_of_mem_valueTypes {t : Tree} (h : some info ∈ valueTypes a scope t) :
    Stems p S a info := by
  unfold valueTypes at h
  split at h
  · split at h
    · exact .result hscope h
    · exact .single hscope (List.mem_singleton.mp h).symm
  · obtain ⟨item, -, hitem⟩ := List.mem_map.mp h
    exact .single hscope hitem

omit hscope in
private theorem mem_of_join_getElem? {types : List (Option TypeInfo)} {index : Nat}
    (h : (types[index]?).join = some info) : some info ∈ types :=
  List.mem_of_getElem? (Option.join_eq_some_iff.mp h)

private theorem stems_of_pick {types : List (Option TypeInfo)} {values : Tree} {index count : Nat}
    (htypes : ∀ info, some info ∈ types → Stems p S a info)
    (h : pick p a scope types values index count = some info) : Stems p S a info := by
  unfold pick at h
  split at h
  · exact htypes _ (mem_of_join_getElem? h)
  · split at h
    · split at h
      · exact htypes _ (mem_of_join_getElem? h)
      · cases h
        exact .classified hscope _
    · cases h

private theorem stems_of_unaryType? {t : Tree} (h : unaryType? p a scope t = some info) :
    Stems p S a info := by
  obtain ⟨operand, -, h⟩ := Option.bind_eq_some_iff.mp h
  split at h
  · cases h
    exact .classified hscope _
  · obtain ⟨inner, -, h⟩ := Option.bind_eq_some_iff.mp h
    cases h
    exact .classified hscope _
  · obtain ⟨inner, -, h⟩ := Option.bind_eq_some_iff.mp h
    split at h <;> cases h
    exact .classified hscope _
  · obtain ⟨inner, -, h⟩ := Option.bind_eq_some_iff.mp h
    split at h <;> cases h
    exact .classified hscope _
  · exact .single hscope h

private theorem stems_of_binaryType? {t : Tree} (h : binaryType? p a scope t = some info) :
    Stems p S a info := by
  simp only [binaryType?] at h
  split at h
  · cases h
    exact .classified hscope _
  · obtain ⟨left, -, h⟩ := Option.bind_eq_some_iff.mp h
    split at h
    · next hleft =>
      cases h
      exact .single hscope hleft
    · obtain ⟨right, -, h⟩ := Option.bind_eq_some_iff.mp h
      exact .single hscope h

private theorem stems_of_indexType? {t : Tree} (h : indexType? p a scope t = some info) :
    Stems p S a info := by
  obtain ⟨operand, -, h⟩ := Option.bind_eq_some_iff.mp h
  obtain ⟨inner, -, h⟩ := Option.bind_eq_some_iff.mp h
  split at h <;> cases h <;> exact .classified hscope _

private theorem stems_of_spelledType? {t : Tree} (h : spelledType? p a scope t = some info) :
    Stems p S a info := by
  obtain ⟨type, -, rfl⟩ := Option.map_eq_some_iff.mp h
  exact .classified hscope _

private theorem stems_of_mem_map {α : Type} {type : α → TypeExpr} {l : List α}
    (h : some info ∈ l.map fun x => some (classified p a scope (type x))) : Stems p S a info := by
  obtain ⟨x, -, hx⟩ := List.mem_map.mp h
  cases hx
  exact .classified hscope _

private theorem stems_of_mem_namedResults {name : String} {args : List Tree}
    (h : some info ∈ namedResults p a scope name args) : Stems p S a info := by
  have hfirst (h : args.head?.bind (a.single? scope) = some info) : Stems p S a info := by
    obtain ⟨first, -, h⟩ := Option.bind_eq_some_iff.mp h
    exact .single hscope h
  unfold namedResults at h
  split at h
  · cases h
  · split at h
    · obtain ⟨t, -, ht⟩ := Option.map_eq_some_iff.mp (Option.mem_toList.mp h)
      cases ht
      exact .classified hscope _
    · obtain ⟨t, -, ht⟩ := Option.map_eq_some_iff.mp (Option.mem_toList.mp h)
      cases ht
      exact .classified hscope _
    · cases List.mem_singleton.mp h
      exact .classified hscope _
    · cases List.mem_singleton.mp h
      exact .classified hscope _
    · cases List.mem_singleton.mp h
      exact .classified hscope _
    · exact hfirst (List.mem_singleton.mp h).symm
    · exact hfirst (List.mem_singleton.mp h).symm
    · exact hfirst (List.mem_singleton.mp h).symm
    · cases List.mem_singleton.mp h
      exact .classified hscope _
    · split at h
      · cases List.mem_singleton.mp h
        exact .classified hscope _
      · split at h
        · exact stems_of_mem_map hscope h
        · cases h

private theorem stems_of_identifierType? {name : String}
    (h : identifierType? p a scope name = some info) : Stems p S a info := by
  unfold identifierType? at h
  split at h
  · cases h
    exact .classified hscope _
  · cases h
    exact .classified hscope _
  · cases h
  · exact .name hscope h

end

section

variable (hS : Closed p S)

include hS

private theorem stems_of_packageValueType? {name : String}
    (h : packageValueType? p a name = some info) :
    Stems p S a info := by
  obtain ⟨value, -, h⟩ := Option.bind_eq_some_iff.mp h
  cases value with
  | declared type =>
    obtain ⟨file, hfile, h⟩ := Option.bind_eq_some_iff.mp h
    cases h
    exact .classified (hS.files file (List.mem_of_head? hfile)) _
  | inferred number values index count =>
    obtain ⟨file, hfile, h⟩ := Option.bind_eq_some_iff.mp h
    have hscope := hS.files file (List.mem_of_getElem? hfile)
    simp only at h
    split at h
    · exact stems_of_pick hscope (fun _ => stems_of_mem_valueTypes hscope) h
    · split at h
      · exact stems_of_mem_valueTypes hscope (mem_of_join_getElem? h)
      · cases h

variable (hscope : S scope)

include hscope

private theorem stems_of_rangeType? {isKey : Bool} {ranged : Tree}
    (h : rangeType? p a scope.file isKey ranged = some info) : Stems p S a info := by
  obtain ⟨whole, -, h⟩ := Option.bind_eq_some_iff.mp h
  obtain ⟨type, -, h⟩ := Option.bind_eq_some_iff.mp h
  cases h
  exact .classified (hS.within hscope _) _

private theorem stems_of_bindingType? {binding : Binding}
    (h : bindingType? p a scope binding = some info) : Stems p S a info := by
  unfold bindingType? at h
  split at h
  · cases h
    exact .classified hscope _
  · next values index count _ =>
    have hvalues := hS.within hscope values.start
    exact stems_of_pick hvalues (fun _ => stems_of_mem_valueTypes hvalues) h
  · exact stems_of_rangeType? hS hscope h
  · exact stems_of_rangeType? hS hscope h

private theorem stems_of_nameType? {name : String} (h : nameType? p a scope name = some info) :
    Stems p S a info := by
  unfold nameType? at h
  split at h
  · exact stems_of_bindingType? hS hscope h
  · exact stems_of_packageValueType? hS h

private theorem stems_of_selectionType? {t : Tree} (h : selectionType? p a scope t = some info) :
    Stems p S a info := by
  obtain ⟨operand, -, h⟩ := Option.bind_eq_some_iff.mp h
  obtain ⟨field, -, h⟩ := Option.bind_eq_some_iff.mp h
  simp only at h
  split at h
  · obtain ⟨spelled, -, h⟩ := Option.bind_eq_some_iff.mp h
    cases h
    exact .classified hscope _
  · obtain ⟨inner, -, h⟩ := Option.bind_eq_some_iff.mp h
    split at h
    · obtain ⟨entry, -, h⟩ := Option.bind_eq_some_iff.mp h
      cases h
      exact .classified (hS.outside hscope) _
    · cases h

private theorem stems_of_mem_selectedResults {operand field : Tree}
    (h : some info ∈ selectedResults p a scope operand field) : Stems p S a info := by
  simp only [selectedResults] at h
  split at h
  · exact stems_of_mem_map hscope h
  · split at h
    · exact stems_of_mem_map (hS.outside hscope) h
    · cases h

private theorem stems_of_mem_callResults {call : Tree}
    (h : some info ∈ callResults p a scope call) :
    Stems p S a info := by
  simp only [callResults] at h
  split at h
  · cases h
  · split at h
    · exact stems_of_mem_namedResults hscope h
    · split at h
      · split at h
        · exact stems_of_mem_selectedResults hS hscope h
        · cases h
      · cases h

private theorem stems_of_callType? {call : Tree} (h : callType? p a scope call = some info) :
    Stems p S a info := by
  unfold callType? at h
  split at h
  · next hresults =>
    exact stems_of_mem_callResults hS hscope (hresults ▸ List.mem_singleton.mpr h.symm)
  · cases h

private theorem stems_of_singleType? {t : Tree} (h : singleType? p a scope t = some info) :
    Stems p S a info := by
  unfold singleType? at h
  split at h
  · cases h
  · next kind _ =>
    cases kind with
    | identifier => exact stems_of_identifierType? hscope h
    | unaryExpression => exact stems_of_unaryType? hscope h
    | binaryExpression => exact stems_of_binaryType? hscope h
    | callExpression => exact stems_of_callType? hS hscope h
    | selectorExpression => exact stems_of_selectionType? hS hscope h
    | indexExpression => exact stems_of_indexType? hscope h
    | compositeLiteral | typeAssertionExpression | typeConversionExpression =>
      exact stems_of_spelledType? hscope h
    | parenthesizedExpression | sliceExpression =>
      obtain ⟨inner, -, h⟩ := Option.bind_eq_some_iff.mp h
      exact .single hscope h
    | funcLiteral =>
      cases h
      exact .function rfl
    | _ => cases h <;> exact .classified hscope _

omit hscope in
/-- However deep the questions go, an answer stems from a classification. -/
theorem Stems.exists_classifyAt {depth : Nat} (h : Stems p S (answersTo p depth) info) :
    info.category = .nilable ∨
      ∃ scope left, S scope ∧ left ≤ depth ∧ info = classifyAt p left scope info.type := by
  induction depth with
  | zero =>
    cases h with
    | classified hscope type => exact .inr ⟨_, 0, hscope, Nat.le_refl 0, rfl⟩
    | single _ h => cases h
    | name _ h => cases h
    | result _ h => cases h
    | function h => exact .inl h
  | succ depth ih =>
    have hbelow (h : Stems p S (answersTo p depth) info) : info.category = .nilable ∨
        ∃ scope left, S scope ∧ left ≤ depth + 1 ∧ info = classifyAt p left scope info.type := by
      rcases ih h with h | ⟨scope, left, hscope, hleft, h⟩
      · exact .inl h
      · exact .inr ⟨scope, left, hscope, Nat.le_succ_of_le hleft, h⟩
    cases h with
    | classified hscope type => exact .inr ⟨_, depth + 1, hscope, Nat.le_refl _, rfl⟩
    | single hscope h => exact hbelow (stems_of_singleType? hS hscope h)
    | name hscope h => exact hbelow (stems_of_nameType? hS hscope h)
    | result hscope h => exact hbelow (stems_of_mem_callResults hS hscope h)
    | function h => exact .inl h

/-- The type of a variable has been classified in a scope of such a class. -/
theorem variableType?_classified {name : String}
    (h : p.variableType? scope name = some info) : info.category = .nilable ∨
      ∃ s depth, S s ∧ depth < maxDepth ∧ info = classifyAt p depth s info.type := by
  have hstems : Stems p S (answersTo p (maxDepth - 1)) info := stems_of_nameType? hS hscope h
  rcases hstems.exists_classifyAt hS with h | ⟨s, depth, hs, hdepth, h⟩
  · exact .inl h
  · exact .inr ⟨s, depth, hs, Nat.lt_of_le_sub_one (by decide) hdepth, h⟩

end

/-- The scope of a position in one of the files at hand, or that outside all functions. -/
def IsPlaced (p : Package) (file : SourceFile) (s : Scope) : Prop :=
  (s.file = file ∨ s.file ∈ p.files) ∧ (s = .packageLevel s.file ∨ ∃ pos, s = .visibleAt s.file pos)

/-- Answers do not leave the places of a file and of the declarations of the package. -/
theorem closed_isPlaced (p : Package) (file : SourceFile) : Closed p (IsPlaced p file) where
  within h pos := ⟨h.1, .inr ⟨pos, rfl⟩⟩
  outside h := ⟨h.1, .inl rfl⟩
  files _ h := ⟨.inr h, .inl rfl⟩

/-- Answers do not leave the class of all scopes. -/
theorem closed_true (p : Package) : Closed p fun _ => True :=
  ⟨fun _ _ => trivial, fun _ => trivial, fun _ _ => trivial⟩

end GoContracts.Typing

import GoContracts.Proofs.Typing.Denotation
import GoContracts.Proofs.Typing.Rules

/-!
# Looking names up at a place

A scope finds the variable that is in force at its place and the type parameters of the innermost
function around it, which are among those in force.
-/

namespace GoContracts.Static

open Syntax (Tree Kind)
open Lexical (Surroundings Declaration surroundings)

/-- The declaration that gives a variable its type is one of several in force or hidden ones. -/
theorem exists_visible? {name : String} {blocks : List (List Declaration)} {d : Declaration}
    (h : typingDeclaration? name blocks = some d) :
    ∃ d', blocks.findSome? (fun block => block.reverse.find? (·.name = name)) = some d' := by
  induction blocks with
  | nil => cases h
  | cons block outer ih =>
    rw [typingDeclaration?] at h
    rw [List.findSome?_cons]
    cases hlast : block.reverse.find? (·.name = name) with
    | some d' => exact ⟨d', rfl⟩
    | none =>
      have hnone : block.find? (·.name = name) = none := by
        rw [List.find?_eq_none] at hlast ⊢
        exact fun d hd => hlast d (List.mem_reverse.mpr hd)
      rw [hnone] at h
      exact ih h

/-! ### Type parameters -/

section

variable {file : SourceFile} {pos : Nat} {s : Surroundings} {name : String}

/-- The type parameters of the innermost function are declared around the position. -/
def ParamsDeclared (file : SourceFile) (s : Surroundings) : Prop :=
  ∀ function, s.function? = some function →
    ∀ q ∈ (Signature.ofFunction file function).typeParams, q.name ≠ "_" →
      ∃ d ∈ s.declarations, d.form = .typeParameter ∧ d.name = q.name

/-- Entering a function opens a block for its parameters. -/
theorem blocks_enter {node : Tree} (h : Lexical.isEntered pos node = true) :
    (s.enter file pos node).blocks = Lexical.parameterDeclarations file node :: s.blocks := by
  have hfunction := h
  rw [Lexical.isEntered, Bool.and_eq_true] at hfunction
  obtain ⟨kind, hkind, hfunction⟩ := (Option.any_eq_true ..).mp hfunction.1
  have hscope : kind.listsStatements = false := by cases kind <;> first | rfl | cases hfunction
  have hgroup : (Lexical.isGroup node || node.is .typeSpec || node.is .typeAlias) = false := by
    refine Bool.eq_false_iff.mpr fun hgroup => ?_
    simp only [Lexical.isGroup, Bool.or_eq_true, Syntax.Tree.is_iff, hkind,
      Option.some.injEq] at hgroup
    rcases hgroup with ((((rfl | rfl) | rfl) | rfl) | rfl) <;> cases hfunction
  rw [Surroundings.enter, hgroup, Bool.and_false, if_neg (by decide), Lexical.partsBefore, hkind]
  simp only [hscope, hfunction, h, Bool.false_eq_true, if_false, if_true, List.flatten_singleton]

private theorem paramsDeclared_enter (h : ParamsDeclared file s) (node : Tree) :
    ParamsDeclared file (s.enter file pos node) := by
  intro function hfunction q hq hname
  rw [Surroundings.enter] at hfunction
  simp only at hfunction
  by_cases hentered : Lexical.isEntered pos node = true
  · rw [if_pos hentered] at hfunction
    cases hfunction
    rw [Surroundings.declarations, blocks_enter hentered, List.flatMap_cons]
    refine ⟨.overlooked q.name .typeParameter (by decide), List.mem_append_left _ ?_, rfl, rfl⟩
    refine List.mem_reverse.mpr (List.mem_append_left _ (List.mem_map.mpr ⟨q, ?_, rfl⟩))
    exact List.mem_filter.mpr ⟨hq, by simpa using hname⟩
  · rw [if_neg hentered] at hfunction
    obtain ⟨d, hd, hform⟩ := h function hfunction q hq hname
    rw [Surroundings.declarations, Surroundings.enter, List.flatMap_cons]
    exact ⟨d, List.mem_append_right _ hd, hform⟩

/-- Around each position of a file in order the type parameters of its function are declared. -/
theorem paramsDeclared_surroundings (h : file.InOrder) :
    ParamsDeclared file (surroundings file pos) := by
  rw [h.surroundings_eq]
  suffices hfold : ∀ (nodes : List Tree) (s : Surroundings), ParamsDeclared file s →
      ParamsDeclared file (nodes.foldl (Surroundings.enter file pos) s) by
    exact hfold _ _ fun _ hfunction => by cases hfunction
  intro nodes
  induction nodes with
  | nil => exact fun _ hs => hs
  | cons node nodes ih => exact fun s hs => ih _ (paramsDeclared_enter hs node)

end

namespace Place

variable {l : Place} {name : String} {d : Declaration} {b : Binding}

private theorem lookup?_eq (hname : name ≠ "_") : l.scope.lookup? name =
    ((l.around.visible? name).bind (·.binding?)).or (l.around.hidden? name) := by
  unfold scope around
  cases hpos : l.position? with
  | none => rfl
  | some pos =>
    have hlookup := Scope.lookup?_visibleAt l.inOrder (l.regular pos hpos) (l.start pos hpos) hname
    rw [Surroundings.findSome?_declarations] at hlookup
    exact hlookup

/-- The scope finds the binding of a visible declaration. -/
theorem lookup?_of_visible (hname : name ≠ "_") (hd : l.around.visible? name = some d)
    (hb : d.binding? = some b) : l.scope.lookup? name = some b := by
  rw [lookup?_eq hname, hd, Option.bind_some, hb, Option.some_or]

/-- The scope does not find what is declared outside of all functions. -/
theorem lookup?_of_isGlobal (h : l.IsGlobal name) : l.scope.lookup? name = none := by
  rw [lookup?_eq h.1, h.2, Surroundings.hidden?_of_visible?_eq_none _ h.2]
  rfl

/-- A type parameter with a name is one of the place. -/
theorem mem_params {q : TypeParam} (hq : l.scope.typeParam? name = some q) (hname : name ≠ "_") :
    name ∈ l.params := by
  unfold scope at hq
  unfold params around
  cases hpos : l.position? with
  | none =>
    rw [hpos] at hq
    cases hq
  | some pos =>
    simp only [hpos, Scope.typeParam?, Scope.signature?_visibleAt l.inOrder (l.regular pos hpos)
      (l.start pos hpos)] at hq
    obtain ⟨s, hs, hfind⟩ := Option.bind_eq_some_iff.mp hq
    obtain ⟨function, hfunction, rfl⟩ := Option.map_eq_some_iff.mp hs
    obtain rfl : q.name = name := by simpa using List.find?_some hfind
    obtain ⟨d, hd, hform, hname'⟩ := paramsDeclared_surroundings l.inOrder function hfunction q
      (List.mem_of_find?_eq_some hfind) hname
    exact List.mem_map.mpr ⟨d, List.mem_filter.mpr ⟨hd, by simpa using hform⟩, hname'⟩

/-- The type parameters of the scope are those of the place. -/
theorem fits : Fits l.params l.scope := fun n hn h => by
  obtain ⟨q, hq⟩ := Option.isSome_iff_exists.mp h
  exact mem_params hq hn

/-- A name that is declared at a place is in force there. -/
theorem not_isGlobal (h : name ∈ l.params) : ¬l.IsGlobal name := by
  rintro ⟨-, hnone⟩
  obtain ⟨d, hd, rfl⟩ := List.mem_map.mp h
  rw [Surroundings.visible?_eq, List.find?_eq_none] at hnone
  exact hnone d (List.mem_of_mem_filter hd) (decide_eq_true rfl)

end Place

end GoContracts.Static

import GoContracts.Proofs.Scope.Agreement
import GoContracts.Typing.Expression

/-!
# What is visible

The declaration in force at a position decides what a name stands for there and which type it has,
if its form is plain. A declaration of another form lets the one that it hides show through.
-/

namespace GoContracts

open Syntax (Tree)
open Syntax.Tree (preorderAll)
open Lexical

namespace Lexical.Surroundings

variable (s : Surroundings) {name : String}

/-- The first declaration of the name is the visible one. -/
theorem visible?_eq : s.visible? name = s.declarations.find? (·.name = name) := by
  rw [visible?, declarations, List.find?_flatMap]

/-- The binding of the nearest declaration that the one in force hides, among those that have
one. -/
def hidden? (name : String) : Option Binding :=
  (s.declarations.filter (·.name = name)).tail.findSome? (·.binding?)

/-- The first declaration of a name with a binding is the one in force or, if that has none, one
that it hides. -/
theorem findSome?_declarations : s.declarations.findSome? (·.boundAs? name) =
    ((s.visible? name).bind (·.binding?)).or (s.hidden? name) := by
  have hfilter : s.declarations.findSome? (·.boundAs? name) =
      (s.declarations.filter (·.name = name)).findSome? (·.binding?) := by
    induction s.declarations with
    | nil => rfl
    | cons d ds ih =>
      rw [List.findSome?_cons, ih, List.filter_cons, Declaration.boundAs?]
      by_cases hname : d.name = name <;> simp [hname, List.findSome?_cons]
  rw [hfilter, visible?_eq, ← List.head?_filter, hidden?]
  cases s.declarations.filter (·.name = name) with
  | nil => rfl
  | cons d ds =>
    rw [List.findSome?_cons, List.head?_cons, Option.bind_some, List.tail_cons]
    cases d.binding? <;> rfl

/-- A name without a declaration in force has no hidden ones. -/
theorem hidden?_of_visible?_eq_none (h : s.visible? name = none) : s.hidden? name = none := by
  rw [visible?_eq, ← List.head?_filter, List.head?_eq_none_iff] at h
  rw [hidden?, h]
  rfl

end Lexical.Surroundings

namespace Scope

variable {path text name : String} {pos : Nat}

/-- Looking a name up yields the declaration in force, if its form is plain, and nothing if there is
none. The signature is that of the innermost function. -/
theorem lookup?_eq_visible? (regular : Regular (.parse path text) pos)
    (hstart : pos ∈ (preorderAll (SourceFile.parse path text).tree.children).map Tree.start)
    (hname : name ≠ "_")
    (hplain : ∀ d, (surroundings (.parse path text) pos).visible? name = some d →
      d.form.isPlain) :
    (visibleAt (.parse path text) pos).lookup? name =
        ((surroundings (.parse path text) pos).visible? name).bind (·.binding?) ∧
      ((visibleAt (.parse path text) pos).lookup? name).isSome =
        ((surroundings (.parse path text) pos).visible? name).isSome ∧
      (visibleAt (.parse path text) pos).signature? =
        (surroundings (.parse path text) pos).function?.map
          (Signature.ofFunction (.parse path text)) := by
  have hinOrder := SourceFile.inOrder_parse path text
  have hlookup := lookup?_visibleAt hinOrder regular hstart hname
  rw [Surroundings.findSome?_declarations] at hlookup
  have hsignature := signature?_visibleAt hinOrder regular hstart
  cases hvisible : (surroundings (.parse path text) pos).visible? name with
  | none =>
    rw [hvisible, Surroundings.hidden?_of_visible?_eq_none _ hvisible] at hlookup
    exact ⟨hlookup, by rw [hlookup]; rfl, hsignature⟩
  | some d =>
    obtain ⟨b, hb⟩ := Option.isSome_iff_exists.mp (d.noted (hplain d hvisible))
    rw [hvisible, Option.bind_some, hb, Option.some_or] at hlookup
    exact ⟨by rw [hlookup, Option.bind_some, hb], by rw [hlookup]; rfl, hsignature⟩

/-- A function whose first parameter is hidden by the value of a range and the second one by the
parameter of a literal. -/
def shadowing : String :=
  "package p\n\nfunc f(x int, y bool) \x7b\n\tfor _, x := range []string\x7b\x7d \x7b
\t\tif z := x; y \x7b\n\t\t\tfunc(y int) \x7b\n\t\t\t\tprintln(x, y, z)\n\t\t\t\x7d(1)
\t\t\x7d\n\t\x7d\n\x7d\n"

/-- The call inside the literal is such a place. -/
theorem shadowing_run : Regular (.parse "/f.go" shadowing) 105 ∧
    105 ∈ (preorderAll (SourceFile.parse "/f.go" shadowing).tree.children).map Tree.start ∧
    ((surroundings (.parse "/f.go" shadowing) 105).visible? "x").map (·.form) = some .ranged := by
  decide +kernel

/-- A local that hides another one, looked up where it is visible. -/
theorem lookup?_shadowing :
    (visibleAt (.parse "/f.go" shadowing) 105).lookup? "x" =
        ((surroundings (.parse "/f.go" shadowing) 105).visible? "x").bind (·.binding?) ∧
      ((visibleAt (.parse "/f.go" shadowing) 105).lookup? "x").isSome =
        ((surroundings (.parse "/f.go" shadowing) 105).visible? "x").isSome ∧
      (visibleAt (.parse "/f.go" shadowing) 105).signature? =
        (surroundings (.parse "/f.go" shadowing) 105).function?.map
          (Signature.ofFunction (.parse "/f.go" shadowing)) := by
  obtain ⟨hregular, hstart, hform⟩ := shadowing_run
  have hplain : ∀ d, (surroundings (.parse "/f.go" shadowing) 105).visible? "x" = some d →
      d.form.isPlain := by
    intro d hd
    rw [hd, Option.map_some] at hform
    rw [Option.some.inj hform]
    rfl
  exact lookup?_eq_visible? hregular hstart (by decide) hplain

/-- A loop whose condition calls a literal. -/
def conditional : String :=
  "package p\n\nfunc f(n int) \x7b\n\tfor i := 0; func() bool \x7b
\t\treturn i < n\n\t\x7d(); i++ \x7b\n\t\x7d\n\x7d\n"

/-- The variable of the loop is in force in the literal but cannot be looked up there. -/
theorem lookup?_conditional :
    ¬∀ (path text name : String) (pos : Nat), (SourceFile.parse path text).hasErrors = false →
      Regular (.parse path text) pos →
      pos ∈ (preorderAll (SourceFile.parse path text).tree.children).map Tree.start → name ≠ "_" →
      ((visibleAt (.parse path text) pos).lookup? name).isSome =
        ((surroundings (.parse path text) pos).visible? name).isSome := by
  intro h
  have hrun : (SourceFile.parse "/f.go" conditional).hasErrors = false ∧
      Regular (.parse "/f.go" conditional) 56 ∧
      56 ∈ (preorderAll (SourceFile.parse "/f.go" conditional).tree.children).map Tree.start ∧
      ((visibleAt (.parse "/f.go" conditional) 56).lookup? "i").isSome = false ∧
      ((surroundings (.parse "/f.go" conditional) 56).visible? "i").isSome = true := by
    decide +kernel
  obtain ⟨hvalid, hregular, hstart, hlookup, hvisible⟩ := hrun
  have hsame := h "/f.go" conditional "i" 56 hvalid hregular hstart (by decide)
  rw [hlookup, hvisible] at hsame
  exact absurd hsame (by decide)

end Scope

namespace Package

variable {path text name : String} {pos : Nat}

/-- The type of a name is asked for one level below the greatest depth. -/
theorem variableType?_eq_nameType? (p : Package) (scope : Scope) (name : String) :
    p.variableType? scope name =
      Typing.nameType? p (Typing.answersTo p (Typing.maxDepth - 1)) scope name := by
  have hname : ∀ n, (Typing.answersTo p (n + 1)).name? =
      Typing.nameType? p (Typing.answersTo p n) := fun _ => rfl
  exact congrFun (congrFun (hname (Typing.maxDepth - 1)) scope) name

/-- The type of a name is that of the declaration in force, if that has a binding. Otherwise the
nearest hidden declaration with a binding is used in its place, and without one a declaration at the
top level. -/
theorem variableType?_eq (p : Package) (regular : Regular (.parse path text) pos)
    (hstart : pos ∈ (preorderAll (SourceFile.parse path text).tree.children).map Tree.start)
    (hname : name ≠ "_") :
    (∀ d b, (surroundings (.parse path text) pos).visible? name = some d → d.binding? = some b →
      p.variableType? (.visibleAt (.parse path text) pos) name =
        Typing.bindingType? p (Typing.answersTo p (Typing.maxDepth - 1))
          (.visibleAt (.parse path text) pos) b) ∧
    (∀ d b, (surroundings (.parse path text) pos).visible? name = some d → d.binding? = none →
      (surroundings (.parse path text) pos).hidden? name = some b →
      p.variableType? (.visibleAt (.parse path text) pos) name =
        Typing.bindingType? p (Typing.answersTo p (Typing.maxDepth - 1))
          (.visibleAt (.parse path text) pos) b) ∧
    (((surroundings (.parse path text) pos).visible? name).bind (·.binding?) = none →
      (surroundings (.parse path text) pos).hidden? name = none →
      p.variableType? (.visibleAt (.parse path text) pos) name =
        Typing.packageValueType? p (Typing.answersTo p (Typing.maxDepth - 1)) name) := by
  have hlookup := Scope.lookup?_visibleAt (SourceFile.inOrder_parse path text) regular hstart hname
  rw [Surroundings.findSome?_declarations] at hlookup
  have htype := p.variableType?_eq_nameType? (.visibleAt (.parse path text) pos) name
  rw [Typing.nameType?, hlookup] at htype
  refine ⟨?_, ?_, ?_⟩
  · intro d b hvisible hb
    rw [htype, hvisible, Option.bind_some, hb, Option.some_or]
  · intro d b hvisible hb hhidden
    rw [htype, hvisible, Option.bind_some, hb, Option.none_or, hhidden]
  · intro hvisible hhidden
    rw [htype, hvisible, hhidden, Option.none_or]

/-- The type of a local that hides another one. -/
theorem variableType?_shadowing : ∃ d b,
    (surroundings (.parse "/f.go" Scope.shadowing) 105).visible? "x" = some d ∧
      d.binding? = some b ∧
      (ofFiles [.parse "/f.go" Scope.shadowing]).variableType?
          (.visibleAt (.parse "/f.go" Scope.shadowing) 105) "x" =
        Typing.bindingType? (ofFiles [.parse "/f.go" Scope.shadowing])
          (Typing.answersTo (ofFiles [.parse "/f.go" Scope.shadowing]) (Typing.maxDepth - 1))
          (.visibleAt (.parse "/f.go" Scope.shadowing) 105) b := by
  obtain ⟨hregular, hstart, hform⟩ := Scope.shadowing_run
  obtain ⟨d, hd, hd'⟩ := Option.map_eq_some_iff.mp hform
  obtain ⟨b, hb⟩ := Option.isSome_iff_exists.mp (d.noted (by rw [hd']; rfl))
  exact ⟨d, b, hd, hb, (variableType?_eq _ hregular hstart (by decide)).1 d b hd hb⟩

/-- A switch over the types of a value, whose variable hides a parameter. -/
def examining : String :=
  "package p\n\nfunc f(x string, y any) \x7b\n\tswitch x := y.(type) \x7b
\tcase int:\n\t\tprintln(x)\n\t\x7d\n\x7d\n"

/-- The variable of the switch has no binding, so it gets the type of the parameter. -/
theorem variableType?_examining :
    ¬∀ (path text name : String) (pos : Nat) (d : Declaration),
      (SourceFile.parse path text).hasErrors = false → Regular (.parse path text) pos →
      pos ∈ (preorderAll (SourceFile.parse path text).tree.children).map Tree.start → name ≠ "_" →
      (surroundings (.parse path text) pos).visible? name = some d → d.binding? = none →
      (ofFiles [.parse path text]).variableType?
        (.visibleAt (.parse path text) pos) name = none := by
  intro h
  have hrun : (SourceFile.parse "/f.go" examining).hasErrors = false ∧
      Regular (.parse "/f.go" examining) 74 ∧
      74 ∈ (preorderAll (SourceFile.parse "/f.go" examining).tree.children).map Tree.start ∧
      ((surroundings (.parse "/f.go" examining) 74).visible? "x").any (·.binding?.isNone) ∧
      ((ofFiles [.parse "/f.go" examining]).variableType?
        (.visibleAt (.parse "/f.go" examining) 74) "x").map (·.category) = some .string := by
    decide +kernel
  obtain ⟨hvalid, hregular, hstart, hvisible, htype⟩ := hrun
  obtain ⟨d, hd, hnone⟩ := (Option.any_eq_true ..).mp hvisible
  have hunresolved := h "/f.go" examining "x" 74 d hvalid hregular hstart (by decide) hd
    (Option.isNone_iff_eq_none.mp hnone)
  rw [hunresolved] at htype
  exact absurd htype (by decide)

end Package

end GoContracts

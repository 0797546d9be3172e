import GoContracts.Proofs.Typing.Lookup
import GoContracts.Proofs.Typing.Origins
import GoContracts.Proofs.Typing.ResultTypes
import GoContracts.Proofs.Typing.WrittenTypes

/-!
# Types inside functions

The names of types inside a function refer to the innermost declarations around them. Variables,
values and results are classified accordingly, but for names that are misread: a type parameter of
which the innermost function has no part, and any declaration with the name of a type outside.
-/

namespace GoContracts.Static

open Syntax (Tree Kind)
open Syntax.Tree (preorderAll)
open Lexical (Declaration Surroundings isEntered surroundings)
open Typing (maxDepth)

/-- The declarations that are in force in the header of a function: its type parameters and what
surrounds it. -/
def signatureDeclarations (file : SourceFile) (function : Tree) : List Declaration :=
  ((Lexical.parameterDeclarations file function).filter (·.form = .typeParameter)).reverse ++
    (surroundings file function.start).declarations

/-- The innermost function around the position has a type parameter of the name. -/
def IsOwnParameter (file : SourceFile) (pos : Nat) (n : String) : Prop :=
  ∃ function, (surroundings file pos).function? = some function ∧
    ∃ q ∈ (Signature.ofFunction file function).typeParams, q.name = n

/-! ### Misread names -/

section

variable {file : SourceFile} {pos : Nat} {n : String}

private theorem reference_declarations (s : Surroundings) : reference s.declarations n =
    match s.visible? n with
    | some d => if d.form = .typeParameter then .parameter else .inner
    | none => .outer := by
  cases hfind : s.declarations.find? (·.name = n) with
  | none => simp only [reference, Surroundings.visible?_eq, hfind]
  | some d => simp only [reference, Surroundings.visible?_eq, hfind]

private theorem isSome_typeParam? {s : Scope} (hsignature : s.signature? =
      (surroundings file pos).function?.map (Signature.ofFunction file)) :
    (s.typeParam? n).isSome ↔ IsOwnParameter file pos n := by
  rw [Scope.typeParam?, hsignature]
  constructor
  · intro h
    obtain ⟨q, hq⟩ := Option.isSome_iff_exists.mp h
    obtain ⟨signature, hsignature, hfind⟩ := Option.bind_eq_some_iff.mp hq
    obtain ⟨function, hfunction, rfl⟩ := Option.map_eq_some_iff.mp hsignature
    exact ⟨function, hfunction, q, List.mem_of_find?_eq_some hfind, by
      simpa using List.find?_some hfind⟩
  · rintro ⟨function, hfunction, q, hq, rfl⟩
    rw [hfunction, Option.map_some, Option.bind_some, List.find?_isSome]
    exact ⟨q, hq, decide_eq_true rfl⟩

/-- A scope misreads the type parameters that are not of the innermost function, and all other names
that are declared inside functions if one of its type parameters or a type outside has the name. -/
theorem misread_iff (h : file.InOrder)
    (inBody : ∀ node ∈ file.pathTo pos, node.kind?.any Kind.isFunction → isEntered pos node)
    (hstart : pos ∈ (preorderAll file.tree.children).map Tree.start) (p : Package) (hn : n ≠ "_") :
    Misread p (.visibleAt file pos) (surroundings file pos).declarations n ↔
      ∃ d, (surroundings file pos).visible? n = some d ∧
        if d.form = .typeParameter then ¬IsOwnParameter file pos n
        else IsOwnParameter file pos n ∨ IsOuterType p n := by
  have hown : ((Scope.visibleAt file pos).typeParam? n).isSome ↔ IsOwnParameter file pos n :=
    isSome_typeParam? (Scope.signature?_of_inBody h inBody hstart)
  rw [Misread, reference_declarations]
  cases hvisible : (surroundings file pos).visible? n with
  | none =>
    have hfree : ¬IsOwnParameter file pos n := by
      rintro ⟨function, hfunction, q, hq, rfl⟩
      obtain ⟨d, hd, -, hname⟩ := paramsDeclared_surroundings h function hfunction q hq hn
      rw [Surroundings.visible?_eq, List.find?_eq_none] at hvisible
      exact hvisible d hd (decide_eq_true hname)
    simp only [hown, hfree, reduceCtorEq, false_and, exists_false]
  | some d =>
    simp only [Option.some.injEq, exists_eq_left']
    by_cases hform : d.form = .typeParameter
    · rw [if_pos hform, if_pos hform, ← hown, Option.not_isSome_iff_eq_none]
    · rw [if_neg hform, if_neg hform, ← hown]

end

/-! ### Classification -/

/-- A type that is not misread is classified by the declarations around it, be it that of a
variable, of a value or of a result. -/
theorem types_follow_declarations (p : Package) {path text : String} {pos : Nat}
    (inBody : ∀ node ∈ (SourceFile.parse path text).pathTo pos, node.kind?.any Kind.isFunction →
      isEntered pos node)
    (hstart : pos ∈ (preorderAll (SourceFile.parse path text).tree.children).map Tree.start) :
    (∀ n, n ≠ "_" →
      (Misread p (.visibleAt (.parse path text) pos)
          (surroundings (.parse path text) pos).declarations n ↔
        ∃ d, (surroundings (.parse path text) pos).visible? n = some d ∧
          if d.form = .typeParameter then ¬IsOwnParameter (.parse path text) pos n
          else IsOwnParameter (.parse path text) pos n ∨ IsOuterType p n)) ∧
    (∀ scope ds depth type, ReadRight p scope ds type → Typing.category p depth scope type =
      categoryBy p scope.file (reference ds) (admitsIn p scope) depth type) ∧
    (∀ name type s ds steps, Written p (.parse path text) pos name type s ds steps →
      ReadRight p s ds type →
      p.variableType? (.visibleAt (.parse path text) pos) name =
        if steps < maxDepth then
          some ⟨type, categoryBy p (.parse path text) (reference ds) (admitsIn p s)
            (maxDepth - 1 - steps) type⟩
        else none) ∧
    (∀ name info, p.variableType? (.visibleAt (.parse path text) pos) name = some info →
      info.category = .nilable ∨ ∃ s depth, Typing.IsPlaced p (.parse path text) s ∧
        depth < maxDepth ∧ info.category = Typing.category p depth s info.type) ∧
    ∀ function errorName?, (surroundings (.parse path text) pos).function? = some function →
      (∀ result ∈ (Signature.ofFunction (.parse path text) function).results,
        ReadOutside p (signatureDeclarations (.parse path text) function) result.type) →
      Guard.resultValues p (.visibleAt (.parse path text) pos) errorName? =
        if errorName?.isNone &&
            (Signature.ofFunction (.parse path text) function).resultsAllNamed then []
        else (Signature.ofFunction (.parse path text) function).results.map
          (resultBy p (.parse path text)
            (reference (signatureDeclarations (.parse path text) function))
            (admitsIn p (.visibleAt (.parse path text) pos)) errorName?) := by
  have hinOrder := SourceFile.inOrder_parse path text
  refine ⟨fun n => misread_iff hinOrder inBody hstart p, fun _ _ _ _ => category_eq, ?_, ?_, ?_⟩
  · intro name type s ds steps hwritten hread
    rw [p.variableType?_eq_nameType?, hwritten.nameType?_eq, Typing.classifyAt, category_eq hread,
      hwritten.file_eq]
    simp only [Nat.le_sub_one_iff_lt (show 0 < maxDepth by decide)]
  · intro name info hinfo
    have hplaced : Typing.IsPlaced p (.parse path text) (.visibleAt (.parse path text) pos) :=
      ⟨.inl rfl, .inr ⟨pos, rfl⟩⟩
    rcases Typing.variableType?_classified (Typing.closed_isPlaced p _) hplaced hinfo with
      hnilable | ⟨s, depth, hs, hdepth, hinfo⟩
    · exact .inl hnilable
    · exact .inr ⟨s, depth, hs, hdepth, congrArg TypeInfo.category hinfo⟩
  · intro function errorName? hfunction hread
    have hsignature := Scope.signature?_of_inBody hinOrder inBody hstart
    rw [hfunction, Option.map_some] at hsignature
    exact resultValues_eq hsignature hread errorName?

/-- A generic function with a copy of its parameter. -/
def copying : String :=
  "package p\n\ntype N struct \x7b\n\tn int\n\x7d\n
func f[T any](x T, ok bool) (T, N) \x7b\n\ty := x\n\tprintln(y)\n\treturn y, N\x7b\x7d\n\x7d\n"

private theorem copying_run : Lexical.Regular (.parse "/f.go" copying) 80 ∧
    Lexical.Regular (.parse "/f.go" copying) 83 ∧
    (80 ∈ (preorderAll (SourceFile.parse "/f.go" copying).tree.children).map Tree.start ∧
      83 ∈ (preorderAll (SourceFile.parse "/f.go" copying).tree.children).map Tree.start) ∧
    (((Scope.visibleAt (.parse "/f.go" copying) 83).lookup? "y").any fun b =>
      match b.origin with
      | .value values index count => values.start = 80 && (listed values).length = count &&
          ((listed values)[index]?).any fun item =>
            item.is .identifier && (SourceFile.parse "/f.go" copying).textOf item = "x"
      | _ => false) ∧
    ((declaration? "x" (surroundings (.parse "/f.go" copying) 80).blocks).any fun d =>
      reference d.2 "T" = .parameter && d.1.binding?.any fun b =>
        match b.origin with
        | .declared type => type.localName? = some "T" && type.text = "T"
        | _ => false) ∧
    ((Scope.visibleAt (.parse "/f.go" copying) 80).typeParam? "T").isSome := by
  decide +kernel

private theorem copying_results :
    (surroundings (.parse "/f.go" copying) 83).function?.any fun function =>
    ((Signature.ofFunction (.parse "/f.go" copying) function).results.all fun result =>
      ReadOutside (.ofFiles [.parse "/f.go" copying])
        (signatureDeclarations (.parse "/f.go" copying) function) result.type) &&
    !(Signature.ofFunction (.parse "/f.go" copying) function).resultsAllNamed &&
    (Signature.ofFunction (.parse "/f.go" copying) function).results.map
      (resultBy (.ofFiles [.parse "/f.go" copying]) (.parse "/f.go" copying)
        (reference (signatureDeclarations (.parse "/f.go" copying) function))
        (admitsIn (.ofFiles [.parse "/f.go" copying]) (.visibleAt (.parse "/f.go" copying) 83))
        none) = ["*new(T)", "N\x7b\x7d"] := by
  decide +kernel

private theorem exists_written_copying (p : Package) : ∃ type s ds,
    Written p (.parse "/f.go" copying) 83 "y" type s ds 2 ∧ ReadRight p s ds type ∧
      type.text = "T" := by
  obtain ⟨hvalues, -, ⟨hstart, -⟩, hy, hx, hparam⟩ := copying_run
  obtain ⟨b, hb, hy⟩ := (Option.any_eq_true ..).mp hy
  split at hy
  swap
  · cases hy
  next values index count horigin =>
  simp only [Bool.and_eq_true, decide_eq_true_eq] at hy
  obtain ⟨⟨hposition, hcount⟩, hy⟩ := hy
  obtain ⟨item, hitem, hy⟩ := (Option.any_eq_true ..).mp hy
  simp only [Bool.and_eq_true, decide_eq_true_eq] at hy
  obtain ⟨⟨d, ds⟩, hd, hx⟩ := (Option.any_eq_true ..).mp hx
  simp only [Bool.and_eq_true, decide_eq_true_eq] at hx
  obtain ⟨href, hx⟩ := hx
  obtain ⟨b', hb', hx⟩ := (Option.any_eq_true ..).mp hx
  split at hx
  swap
  · cases hx
  next type horigin' =>
  simp only [Bool.and_eq_true, decide_eq_true_eq] at hx
  have hdeclared := Written.of_declaration? (p := p) hvalues hstart (by decide) hd hb' horigin'
  refine ⟨type, .visibleAt (.parse "/f.go" copying) 80, ds,
    .copied hb horigin hcount hitem hy.1 ?_ ?_, ?_, hx.2⟩
  · rw [hy.2]
    decide
  · rw [hy.2, hposition]
    exact hdeclared
  · exact .of_parameter hx.1 href hparam

/-- A local that is declared as the copy of a parameter, with the type of the parameter. -/
theorem types_follow_declarations_copying : ∃ type s ds,
    Written (.ofFiles [.parse "/f.go" copying]) (.parse "/f.go" copying) 83 "y" type s ds 2 ∧
      type.text = "T" ∧
      (Package.ofFiles [.parse "/f.go" copying]).variableType?
          (.visibleAt (.parse "/f.go" copying) 83) "y" =
        some ⟨type, categoryBy (.ofFiles [.parse "/f.go" copying]) (.parse "/f.go" copying)
          (reference ds) (admitsIn (.ofFiles [.parse "/f.go" copying]) s) 21 type⟩ ∧
      Guard.resultValues (.ofFiles [.parse "/f.go" copying])
        (.visibleAt (.parse "/f.go" copying) 83) none = ["*new(T)", "N\x7b\x7d"] := by
  obtain ⟨-, regular, ⟨-, hstart⟩, -⟩ := copying_run
  obtain ⟨-, -, hvariable, -, hvalues⟩ :=
    types_follow_declarations (.ofFiles [.parse "/f.go" copying]) regular.inBody hstart
  obtain ⟨type, s, ds, hwritten, hread, htext⟩ :=
    exists_written_copying (.ofFiles [.parse "/f.go" copying])
  obtain ⟨function, hfunction, hresults⟩ := (Option.any_eq_true ..).mp copying_results
  simp only [Bool.and_eq_true, List.all_eq_true, decide_eq_true_eq, Bool.not_eq_true'] at hresults
  obtain ⟨⟨houtside, hnamed⟩, hresults⟩ := hresults
  refine ⟨type, s, ds, hwritten, htext, hvariable _ _ _ _ _ hwritten hread, ?_⟩
  rw [hvalues function none hfunction houtside, hnamed, hresults]
  rfl

/-- A generic function with a type parameter that hides a type of the package. -/
def concealing : String :=
  "package p\n\ntype T struct \x7b\n\tn int\n\x7d\n
func f[T any](x T, ok bool) T \x7b\n\t// @require -ret ok\n\treturn x\n\x7d\n"

/-- The value for a result of the type of the type parameter is one of the type of the package. -/
theorem resultValue_concealing :
    ¬∀ (path text n : String) (pos : Nat) (function : Tree) (result : Param),
      (SourceFile.parse path text).hasErrors = false →
      (∀ node ∈ (SourceFile.parse path text).pathTo pos, node.kind?.any Kind.isFunction →
        isEntered pos node) →
      pos ∈ (preorderAll (SourceFile.parse path text).tree.children).map Tree.start →
      (surroundings (.parse path text) pos).function? = some function →
      result ∈ (Signature.ofFunction (.parse path text) function).results →
      result.type.localName? = some n →
      reference (signatureDeclarations (.parse path text) function) n = .parameter →
      Guard.resultValue (.ofFiles [.parse path text]) (.visibleAt (.parse path text) pos) none
        result = "*new(" ++ result.type.text ++ ")" := by
  intro h
  have hrun : (SourceFile.parse "/f.go" concealing).hasErrors = false ∧
      Lexical.Regular (.parse "/f.go" concealing) 91 ∧
      91 ∈ (preorderAll (SourceFile.parse "/f.go" concealing).tree.children).map Tree.start ∧
      ((surroundings (.parse "/f.go" concealing) 91).function?.any fun function =>
        (Signature.ofFunction (.parse "/f.go" concealing) function).results.any fun result =>
          result.type.localName? = some "T" &&
          reference (signatureDeclarations (.parse "/f.go" concealing) function) "T" = .parameter &&
          Guard.resultValue (.ofFiles [.parse "/f.go" concealing])
            (.visibleAt (.parse "/f.go" concealing) 91) none result ≠
            "*new(" ++ result.type.text ++ ")") := by
    decide +kernel
  obtain ⟨hvalid, regular, hstart, hrun⟩ := hrun
  obtain ⟨function, hfunction, hrun⟩ := (Option.any_eq_true ..).mp hrun
  obtain ⟨result, hresult, hrun⟩ := List.any_eq_true.mp hrun
  simp only [Bool.and_eq_true, decide_eq_true_eq] at hrun
  exact hrun.2 (h "/f.go" concealing "T" 91 function result hvalid regular.inBody hstart hfunction
    hresult hrun.1.1 hrun.1.2)

end GoContracts.Static

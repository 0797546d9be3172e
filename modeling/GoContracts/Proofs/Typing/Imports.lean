import GoContracts.Proofs.Package.Loading
import GoContracts.Proofs.Syntax.Attachment
import GoContracts.Typing.Expression

/-!
# The imports that qualified names refer to

A package has one table of imports for all its files, in which the last import of a local name
counts. So a qualified name refers to the import of its own file exactly if the last file that
imports the local name binds it to the same path.
-/

namespace GoContracts

open Syntax (Tree)

/-- The path of the import of a file with the given local name. -/
def SourceFile.importPath? (file : SourceFile) (localName : String) : Option String :=
  lastValue? localName (file.imports.map fun i => (i.localName, i.path))

private theorem lastValue?_append {κ α : Type} [BEq κ] (key : κ) (entries more : List (κ × α)) :
    lastValue? key (entries ++ more) = (lastValue? key more).or (lastValue? key entries) := by
  rw [lastValue?, lastValue?, lastValue?, List.reverse_append, List.find?_append, Option.map_or]

namespace Package

variable {files : List SourceFile} {file : SourceFile} {p : Package} {q : String}

/-! ### The table of imports -/

private theorem imports_addDeclaration {number : Nat} {declaration : Tree} :
    (addDeclaration number file p declaration).imports = p.imports := by
  unfold addDeclaration
  split
  · rfl
  · split <;> rfl
  · simp only
    split <;> rfl
  · rfl
  · rfl
  · rfl

private theorem imports_addFile : (p.addFile file).imports =
    p.imports ++ file.imports.map fun i => (i.localName, i.path) := by
  have hfold (ts : List Tree) (number : Nat) (q : Package) :
      (ts.foldl (addDeclaration number file) q).imports = q.imports := by
    induction ts generalizing q with
    | nil => rfl
    | cons t ts ih => rw [List.foldl_cons, ih, imports_addDeclaration]
  rw [addFile]
  simp only [hfold]

/-- The path of the last import of a local name in any of the files. -/
def lastImport? (files : List SourceFile) (q : String) : Option String :=
  files.reverse.findSome? (·.importPath? q)

/-- A qualifier stands for the last import of its name. -/
theorem importPath?_ofFiles : (ofFiles files).importPath? q = lastImport? files q := by
  have hfold (p : Package) : (files.foldl addFile p).importPath? q =
      (lastImport? files q).or (p.importPath? q) := by
    induction files generalizing p with
    | nil => rfl
    | cons file files ih =>
      have hadd : (p.addFile file).importPath? q = (file.importPath? q).or (p.importPath? q) := by
        rw [importPath?, imports_addFile, lastValue?_append]
        rfl
      rw [List.foldl_cons, ih, hadd, lastImport?, lastImport?, List.reverse_cons,
        List.findSome?_append, Option.or_assoc, List.findSome?_singleton]
  exact (hfold {}).trans Option.or_none

/-- The last import is that of a file if no file behind all others with the local name binds it
elsewhere. -/
theorem lastImport?_eq_iff (hfile : file ∈ files) : lastImport? files q = file.importPath? q ↔
    ∀ before last after, files = before ++ last :: after →
      (∀ other ∈ after, other.importPath? q = none) → last.importPath? q ≠ none →
        last.importPath? q = file.importPath? q := by
  constructor
  · rintro hlast before last after rfl hafter himports
    rw [← hlast, lastImport?, List.reverse_append, List.reverse_cons, List.append_assoc,
      List.findSome?_append, List.findSome?_eq_none_iff.mpr fun other hother =>
        hafter other (List.mem_reverse.mp hother), Option.none_or, List.singleton_append,
      List.findSome?_cons]
    obtain ⟨path, hpath⟩ := Option.ne_none_iff_exists'.mp himports
    rw [hpath]
  · intro h
    cases hlast : lastImport? files q with
    | none =>
      exact (List.findSome?_eq_none_iff.mp hlast file (List.mem_reverse.mpr hfile)).symm
    | some path =>
      obtain ⟨after, last, before, hsplit, hpath, hnone⟩ := List.findSome?_eq_some_iff.mp hlast
      have hfiles : files = before.reverse ++ last :: after.reverse := by
        rw [← List.reverse_reverse files, hsplit]
        simp
      rw [← h before.reverse last after.reverse hfiles
        (fun other hother => hnone other (List.mem_reverse.mp hother)) (by simp [hpath]), hpath]

/-! ### Questions about qualified names -/

/-- The tree selects a name from the identifier `q`. -/
structure Selects (file : SourceFile) (q name : String) (t : Tree) : Prop where
  kind : t.is .selectorExpression
  operand : ∃ o, t.child? .operand = some o ∧ o.is .identifier ∧ file.textOf o = q
  field : ∃ f, t.child? .field = some f ∧ file.textOf f = name

/-- No variable has the name. -/
structure NoVariable (p : Package) (scope : Scope) (q : String) : Prop where
  notLocal : scope.lookup? q = none
  notGlobal : p.value? q = none
  notConstant : q ≠ "true" ∧ q ≠ "false"

/-- All questions about names with the qualifier `q` are asked about the package of the given path.
Without a path no selection has an answer, and types are those of the package with the path `q`. -/
structure AsksUnder (p : Package) (q : String) (path? : Option String) : Prop where
  path : p.importPath? q = path?
  call {scope : Scope} {call function : Tree} {name : String} (hkind : call.is .callExpression)
    (hfunction : call.child? .function = some function)
    (hselects : Selects scope.file q name function) (hvariable : NoVariable p scope q) :
    p.expressionTypes scope call =
      (((path?.bind fun path => Library.functionResults? (path ++ "." ++ name)).getD []).map
        fun spelled => some (Typing.classifyAt p (Typing.maxDepth - 1) scope (.ofText spelled)))
  selection {scope : Scope} {t : Tree} {name : String} (hselects : Selects scope.file q name t)
    (hvariable : NoVariable p scope q) :
    p.expressionTypes scope t =
      [(path?.bind fun path => Library.variableType? (path ++ "." ++ name)).map fun spelled =>
        Typing.classifyAt p (Typing.maxDepth - 1) scope (.ofText spelled)]
  category {scope : Scope} {type : TypeExpr} {name : String} {args : List TypeExpr}
    (hshape : type.shape = .named (some q) name args) :
    (p.classify scope type).category =
      (Library.category? (path?.getD q ++ "." ++ name)).getD .unknown
  comparable {scope : Scope} {type element : TypeExpr} {name : String} {args : List TypeExpr}
    (hshape : type.shape = .array element) (helement : element.shape = .named (some q) name args) :
    (p.classify scope type).category =
      .aggregate (Library.category? (path?.getD q ++ "." ++ name) ≠ some (.aggregate false))
  constraint {scope : Scope} {type constraint : TypeExpr} {parameter name : String}
    {args args' : List TypeExpr} (hshape : type.shape = .named none parameter args')
    (hparameter : Typing.typeParamConstraint? p scope parameter = some (some constraint))
    (hconstraint : constraint.shape = .named (some q) name args) :
    (p.classify scope type).category =
      .typeParam (Library.isComparableConstraint (path?.getD q ++ "." ++ name))
  error {type : TypeExpr} {name : String} {args : List TypeExpr}
    (hshape : type.shape = .named (some q) name args) :
    p.isErrorLike type = Library.isErrorType (path?.getD q ++ "." ++ name)

section

variable {scope : Scope} {name : String}

/-- A type is classified at the depth of the answers. -/
theorem classified_answersTo {n : Nat} {e : TypeExpr} :
    Typing.classified p (Typing.answersTo p n) scope e = Typing.classifyAt p n scope e := by
  cases n <;> rfl

private theorem isPackageName_of_noVariable (h : NoVariable p scope q) :
    Typing.isPackageName p scope q = (p.importPath? q).isSome := by
  rw [Typing.isPackageName, h.notLocal, h.notGlobal]
  rfl

/-- Without a variable of the name, the identifier has no type. -/
theorem single?_of_noVariable (h : NoVariable p scope q) {o : Tree} (hkind : o.is .identifier)
    (htext : scope.file.textOf o = q) (n : Nat) :
    (Typing.answersTo p n).single? scope o = none := by
  have hname : ∀ m, (Typing.answersTo p m).name? scope q = none := by
    intro m
    cases m with
    | zero => rfl
    | succ m =>
      change Typing.nameType? p (Typing.answersTo p m) scope q = none
      rw [Typing.nameType?, h.notLocal, Typing.packageValueType?, h.notGlobal]
      rfl
  cases n with
  | zero => rfl
  | succ n =>
    change Typing.singleType? p (Typing.answersTo p n) scope o = none
    simp only [Typing.singleType?, Syntax.Tree.is_iff.mp hkind, htext]
    unfold Typing.identifierType?
    split
    · exact (h.notConstant.1 rfl).elim
    · exact (h.notConstant.2 rfl).elim
    · rfl
    · exact hname n

private theorem selectedResults_of_noVariable (h : NoVariable p scope q) {o f : Tree}
    (hkind : o.is .identifier) (htext : scope.file.textOf o = q) (n : Nat) :
    Typing.selectedResults p (Typing.answersTo p n) scope o f =
      (((p.importPath? q).bind fun path =>
        Library.functionResults? (path ++ "." ++ scope.file.textOf f)).getD []).map fun spelled =>
          some (Typing.classifyAt p n scope (.ofText spelled)) := by
  simp only [Typing.selectedResults, htext, hkind, isPackageName_of_noVariable h, Bool.true_and,
    single?_of_noVariable h hkind htext, classified_answersTo, Typing.qualifiedKey]
  cases p.importPath? q with
  | none => rfl
  | some path => rfl

private theorem selectionType?_of_noVariable (h : NoVariable p scope q) {t : Tree}
    (hselects : Selects scope.file q name t) (n : Nat) :
    Typing.selectionType? p (Typing.answersTo p n) scope t =
      ((p.importPath? q).bind fun path => Library.variableType? (path ++ "." ++ name)).map
        fun spelled => Typing.classifyAt p n scope (.ofText spelled) := by
  obtain ⟨o, ho, hkind, htext⟩ := hselects.operand
  obtain ⟨f, hf, hname⟩ := hselects.field
  rw [Typing.selectionType?, ho, hf]
  simp only [Option.bind_eq_bind, Option.bind_some, htext, hkind, isPackageName_of_noVariable h,
    Bool.true_and, single?_of_noVariable h hkind htext, classified_answersTo, Typing.qualifiedKey,
    hname]
  cases p.importPath? q with
  | none => rfl
  | some path =>
    simp only [Option.isSome_some, if_true, Option.getD_some, Option.bind_some]
    cases Library.variableType? (path ++ "." ++ name) <;> rfl

end

private theorem expressionTypes_of_call {call : Tree} (h : call.is .callExpression) :
    p.expressionTypes scope call =
      Typing.callResults p (Typing.answersTo p (Typing.maxDepth - 1)) scope call := by
  have hlist : call.is .expressionList = false := Syntax.Tree.is_eq_false h (by decide)
  simp only [expressionTypes, Typing.valueTypes, hlist, h, Bool.false_eq_true, if_false, if_true]
  rfl

private theorem expressionTypes_of_selection {t : Tree} (h : t.is .selectorExpression) :
    p.expressionTypes scope t =
      [Typing.selectionType? p (Typing.answersTo p (Typing.maxDepth - 1)) scope t] := by
  have hsingle : ∀ n, (Typing.answersTo p (n + 1)).single? scope t =
      Typing.selectionType? p (Typing.answersTo p n) scope t := by
    intro n
    change Typing.singleType? p (Typing.answersTo p n) scope t = _
    simp only [Typing.singleType?, Syntax.Tree.is_iff.mp h]
  have hlist : t.is .expressionList = false := Syntax.Tree.is_eq_false h (by decide)
  have hcall : t.is .callExpression = false := Syntax.Tree.is_eq_false h (by decide)
  simp only [expressionTypes, Typing.valueTypes, hlist, hcall, Bool.false_eq_true, if_false]
  exact congrArg (fun info? => [info?]) (hsingle (Typing.maxDepth - 1))

/-- All questions are asked under the path that the table of imports has. -/
theorem asksUnder_importPath? (p : Package) (q : String) : AsksUnder p q (p.importPath? q) where
  path := rfl
  call {scope call function name} hkind hfunction hselects hvariable := by
    obtain ⟨o, ho, hident, htext⟩ := hselects.operand
    obtain ⟨f, hf, rfl⟩ := hselects.field
    rw [expressionTypes_of_call hkind, Typing.callResults]
    have hname : function.is .identifier = false :=
      Syntax.Tree.is_eq_false hselects.kind (by decide)
    simp only [hfunction, hname, hselects.kind, ho, hf, Bool.false_eq_true, if_false, if_true]
    exact selectedResults_of_noVariable hvariable hident htext _
  selection hselects hvariable := by
    rw [expressionTypes_of_selection hselects.kind,
      selectionType?_of_noVariable hvariable hselects]
  category hshape := by
    rw [classify, Typing.classifyAt, Typing.maxDepth, Typing.category, hshape]
    rfl
  comparable hshape helement := by
    rw [classify, Typing.classifyAt, Typing.maxDepth, Typing.category, hshape]
    simp only
    rw [Typing.isComparable, helement]
    rfl
  constraint hshape hparameter hconstraint := by
    rw [classify, Typing.classifyAt, Typing.maxDepth, Typing.category, hshape]
    simp only [hparameter, Option.any_some]
    rw [Typing.admitsComparable, hconstraint]
    rfl
  error hshape := by
    rw [isErrorLike, Typing.maxDepth, Typing.isErrorLike, hshape]
    rfl

/-- Qualified names are those of the package that their own file imports exactly if no file behind
all others with that local name binds it to another path. -/
theorem asksUnder_ownImport_iff (hfile : file ∈ files) (q : String) :
    AsksUnder (ofFiles files) q (file.importPath? q) ↔
      ∀ before last after, files = before ++ last :: after →
        (∀ other ∈ after, other.importPath? q = none) → last.importPath? q ≠ none →
          last.importPath? q = file.importPath? q := by
  rw [← lastImport?_eq_iff hfile, ← importPath?_ofFiles]
  constructor
  · exact AsksUnder.path
  · intro hpath
    rw [← hpath]
    exact asksUnder_importPath? _ q

/-- A file that uses a package of its own for the time. -/
def ownTime : String := "package p\n\nimport t \"example.com/t\"\n\nfunc f(d t.Duration) \x7b
\tprintln(d)\n\x7d\n"

/-- A file that uses the well-known one under the same name. -/
def knownTime : String := "package p\n\nimport t \"time\"\n\nfunc g(d t.Duration) \x7b
\tprintln(d)\n\x7d\n"

private theorem importPath?_time :
    (SourceFile.parse "/a.go" ownTime).importPath? "t" = some "example.com/t" ∧
    (SourceFile.parse "/b.go" knownTime).importPath? "t" = some "time" ∧
    (SourceFile.parse "/a.go" ownTime).hasErrors = false ∧
    (SourceFile.parse "/b.go" knownTime).hasErrors = false := by
  decide +kernel

/-- The second of the two files is not influenced by the first one. -/
theorem asksUnder_knownTime :
    AsksUnder (ofFiles [.parse "/a.go" ownTime, .parse "/b.go" knownTime]) "t"
      ((SourceFile.parse "/b.go" knownTime).importPath? "t") := by
  refine (asksUnder_ownImport_iff (List.mem_cons_of_mem _ (List.mem_singleton_self _)) "t").mpr ?_
  intro before last after hsplit hafter himports
  match before, hsplit with
  | [], hsplit =>
    obtain ⟨-, rfl⟩ := List.cons.inj hsplit
    have hnone := hafter _ (List.mem_singleton_self _)
    rw [importPath?_time.2.1] at hnone
    cases hnone
  | [_], hsplit =>
    obtain ⟨-, hsplit⟩ := List.cons.inj hsplit
    rw [(List.cons.inj hsplit).1]
  | _ :: _ :: _, hsplit =>
    simp at hsplit

/-- The names of the first one are taken for those of the package that the second one imports. -/
theorem ownTime_overruled :
    ¬∀ (files : List SourceFile) (file : SourceFile) (q : String), file ∈ files →
      (∀ f ∈ files, f.hasErrors = false) → AsksUnder (ofFiles files) q (file.importPath? q) := by
  intro h
  obtain ⟨hown, hknown, hvalid, hvalid'⟩ := importPath?_time
  have hasks := h [.parse "/a.go" ownTime, .parse "/b.go" knownTime] _ "t" (List.mem_cons_self ..)
    (by simp [hvalid, hvalid'])
  have hpath := hasks.path
  rw [importPath?_ofFiles, lastImport?, List.reverse_cons, List.reverse_singleton,
    List.singleton_append, List.findSome?_cons, hknown, hown] at hpath
  exact absurd hpath (by decide)

end Package

end GoContracts

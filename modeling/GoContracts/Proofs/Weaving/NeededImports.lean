import GoContracts.Proofs.Weaving.AddedImports
import GoContracts.Proofs.Weaving.Insertions
import GoContracts.Proofs.Weaving.LineStructure

/-!
# Imports that are needed

A file with the needed imports added has all of them, once each, and nothing is left to add. What
weaving needs are the packages of the guards that it inserts: that of the log for guards that log,
and that of reflection for guards that inspect a variable at run time.
-/

namespace GoContracts

open Reporting (Gives gives_bind gives_pure gives_of_value? value?)

/-! ### Packages of guards -/

private theorem ZeroCheck.importPath?_of {name path : String} {type? : Option TypeInfo} :
    (ZeroCheck.of name type?).importPath? = some path ↔
      path = "reflect" ∧ ∃ info, type? = some info ∧ info.zeroOperand? = none := by
  cases type? with
  | none => simp [ZeroCheck.of]
  | some info =>
    cases hoperand : info.zeroOperand? with
    | none => simp [ZeroCheck.of, ofType, hoperand, eq_comm]
    | some operand => simp [ZeroCheck.of, ofType, hoperand]

namespace Guard

variable {p : Package} {anchor : Anchor} {scope : Scope} {guard : Guard} {guards : List Guard}
  {path : String} {before after : List Diagnostic}

/-- Whether the guard writes to the log. -/
def Logs (guard : Guard) : Prop :=
  ∃ message values, guard.action = .logAndReturn message values

/-- Whether a guard of a directive inspects a variable at run time: one of those that the directive
lists, whose type does not allow to compare it with its zero value. -/
def Inspects (p : Package) (anchor : Anchor) (scope : Scope) (guard : Guard) : Prop :=
  ∃ response names name info, anchor.directive = .nonZero response names ∧ name ∈ names ∧
    p.variableType? scope name = some info ∧ info.zeroOperand? = none ∧
    guard.condition = "reflect.ValueOf(&" ++ name ++ ").Elem().IsZero()"

private theorem mem_imports : path ∈ guard.imports ↔
    path ∈ guard.conditionImports ∨ path = "log" ∧ guard.Logs := by
  obtain ⟨condition, action, packages⟩ := guard
  cases action <;> simp [imports, Action.imports, Logs]

/-- The conditions of a precondition use the package of reflection, and only to inspect
variables. -/
theorem mem_conditionImports (h : Gives (precondition p anchor scope) before guards after) :
    (∃ guard ∈ guards, path ∈ guard.conditionImports) ↔
      path = "reflect" ∧ ∃ guard ∈ guards, Inspects p anchor scope guard := by
  rw [precondition_eq] at h
  obtain ⟨values, mid, _, h⟩ := gives_bind.mp h
  split at h
  · next response names hdirective =>
    have hnames := Reporting.forall₂_of_mapM h
    constructor
    · rintro ⟨guard, hguard, hpath⟩
      obtain ⟨name, hname, _, _, hgives⟩ := Paired.exists_mem hnames.flip hguard
      obtain ⟨_, rfl⟩ := eq_of_nonZero hgives
      obtain ⟨rfl, info, htype, hoperand⟩ :=
        ZeroCheck.importPath?_of.mp (Option.mem_toList.mp hpath)
      refine ⟨rfl, _, hguard, response, names, name, info, hdirective, hname, htype, hoperand, ?_⟩
      simp [htype, ZeroCheck.of, ZeroCheck.ofType, hoperand]
    · rintro ⟨rfl, guard, _, response', names', name, info, hdirective', hname, htype, hoperand, _⟩
      obtain ⟨rfl, rfl⟩ := Directive.nonZero.inj (hdirective.symm.trans hdirective')
      obtain ⟨guard, hguard, _, _, hgives⟩ := Paired.exists_mem hnames hname
      obtain ⟨_, rfl⟩ := eq_of_nonZero hgives
      exact ⟨_, hguard, Option.mem_toList.mpr
        (ZeroCheck.importPath?_of.mpr ⟨rfl, info, htype, hoperand⟩)⟩
  · next hdirective =>
    obtain ⟨one, _, hone, h⟩ := gives_bind.mp h
    obtain ⟨rfl, _⟩ := gives_pure.mp h
    obtain ⟨_, rfl⟩ := eq_of_holds hone
    simp [Inspects, hdirective]
  · obtain ⟨rfl, _⟩ := gives_pure.mp h
    simp

end Guard

/-! ### Packages of insertions -/

namespace Injection

variable {p : Package} {file : SourceFile} {namings : List (Syntax.Tree × ErrorTarget)}
  {demands : List Demand} {d : Demand} {path : String}

/-- Whether a guard of a directive uses a package: that of the log to log, or that of reflection to
inspect a variable. -/
def Uses (p : Package) (file : SourceFile) (d : Demand) (guard : Guard) (path : String) : Prop :=
  path = "log" ∧ guard.Logs ∨ path = "reflect" ∧ ∃ statement,
    d.placed.placement = .before statement ∧
      guard.Inspects p d.placed.anchor (.visibleAt file statement.start)

private theorem mem_imports_of_demanded (h : Demanded p file namings d.placed d.guards) :
    (∃ guard ∈ d.guards, path ∈ guard.imports) ↔ ∃ guard ∈ d.guards, Uses p file d guard path := by
  have hconditions : (∃ guard ∈ d.guards, path ∈ guard.conditionImports) ↔
      path = "reflect" ∧ ∃ guard ∈ d.guards, ∃ statement,
        d.placed.placement = .before statement ∧
          guard.Inspects p d.placed.anchor (.visibleAt file statement.start) := by
    rw [Demanded] at h
    split at h
    · next statement hplacement =>
      obtain ⟨_, _, hgives⟩ := h
      simpa [hplacement] using Guard.mem_conditionImports hgives
    · next hplacement =>
      obtain ⟨guard, _, _, hone, hgives⟩ := h
      rw [Guard.errorCheck_eq] at hgives
      obtain ⟨_, _, _, hgives⟩ := gives_bind.mp hgives
      obtain ⟨rfl, _⟩ := gives_pure.mp hgives
      simp [hone, hplacement]
    · simp [h]
  simp only [Guard.mem_imports, Uses, and_or_left, exists_or, hconditions]
  rw [or_comm]
  refine or_congr Iff.rfl ⟨?_, ?_⟩
  · rintro ⟨rfl, guard, hguard, hinspects⟩
    exact ⟨guard, hguard, rfl, hinspects⟩
  · rintro ⟨guard, hguard, rfl, hinspects⟩
    exact ⟨rfl, guard, hguard, hinspects⟩

/-- The guards that are inserted, with their directives. -/
def guardsInserted (demands : List Demand) : List (Demand × Guard) :=
  (insertions demands).flatMap fun insertion =>
    insertion.demands.flatMap fun d => d.guards.map (d, ·)

/-- A directive with guards has them inserted somewhere. -/
theorem exists_insertion (h : Demanded p file namings d.placed d.guards) (hd : d ∈ demands)
    (hne : d.guards ≠ []) : ∃ insertion ∈ insertions demands, d ∈ insertion.demands := by
  rw [Demanded] at h
  split at h
  · next statement hplacement =>
    have hat : statementAfter? d = some statement := by rw [statementAfter?, hplacement]
    have hmem : statement ∈ demands.filterMap statementAfter? := List.mem_filterMap.mpr ⟨d, hd, hat⟩
    obtain ⟨other, hfind⟩ := Option.isSome_iff_exists.mp
      (List.find?_isSome.mpr ⟨statement, hmem, decide_eq_true rfl⟩ :
        ((demands.filterMap statementAfter?).find? (·.start = statement.start)).isSome = true)
    have hother : other ∈ ((demands.filterMap statementAfter?).eraseDupsBy fun a b =>
        a.start == b.start).filter (·.start = statement.start) := by
      rw [filter_eraseDupsBy Syntax.Tree.start, hfind]
      exact List.mem_singleton_self other
    obtain ⟨hother, hstart⟩ := List.mem_filter.mp hother
    refine ⟨_, List.mem_append_left _ (List.mem_map_of_mem hother), List.mem_filter.mpr ⟨hd, ?_⟩⟩
    simpa [hat, eq_comm] using hstart
  · next assignment error hplacement =>
    refine ⟨⟨assignment, true, [d]⟩, List.mem_append_right _ (List.mem_filterMap.mpr ⟨d, hd, ?_⟩),
      List.mem_singleton_self d⟩
    rw [insertionBehind?, hplacement]
  · exact absurd h hne

/-- All guards of all directives are inserted. -/
theorem mem_guardsInserted (h : ∀ d ∈ demands, Demanded p file namings d.placed d.guards)
    {guard : Guard} : (d, guard) ∈ guardsInserted demands ↔ d ∈ demands ∧ guard ∈ d.guards := by
  simp only [guardsInserted, List.mem_flatMap, List.mem_map, Prod.mk.injEq]
  constructor
  · rintro ⟨insertion, hinsertion, _, hd, _, hguard, rfl, rfl⟩
    exact ⟨demands_subset hinsertion hd, hguard⟩
  · rintro ⟨hd, hguard⟩
    obtain ⟨insertion, hinsertion, hmem⟩ := exists_insertion (h d hd) hd (List.ne_nil_of_mem hguard)
    exact ⟨insertion, hinsertion, d, hmem, guard, hguard, rfl, rfl⟩

/-- Whether the imports that weaving adds are those of the packages that the inserted guards use. -/
def ImportsUsed (p : Package) (file : SourceFile) (injection : Injection)
    (before after : List Diagnostic) : Prop :=
  ∃ demands needed, Gives (file.demands p) before demands after ∧
    injection.generated = Edit.applyAll file.text
      (edits file (file.namings p) demands ++ (file.importEdit? needed).toList) ∧
    (∀ insertion ∈ insertions demands,
      insertion.edit file ∈ edits file (file.namings p) demands) ∧
    ∀ path, path ∈ needed ↔
      ∃ d guard, (d, guard) ∈ guardsInserted demands ∧ Uses p file d guard path

private theorem importsUsed_of_gives {injection : Injection} {before after : List Diagnostic}
    (h : Gives (file.inject? p) before (some injection) after) :
    ImportsUsed p file injection before after := by
  obtain ⟨_, demands, hdemands, rfl⟩ := gives_inject?.mp h
  have hguards := (demands_spec hdemands).2.1
  refine ⟨demands, imported demands, hdemands, rfl, fun insertion hinsertion => ?_, fun path => ?_⟩
  · rw [edits, guardsBefore_eq, guardsAfter_eq]
    rcases List.mem_append.mp hinsertion with hbefore | hbehind
    · simp [List.mem_map_of_mem hbefore]
    · simp [List.mem_map_of_mem hbehind]
  · have huses : ∀ d ∈ demands, (∃ guard ∈ d.guards, path ∈ guard.imports) ↔
        ∃ guard ∈ d.guards, Uses p file d guard path := fun d hd =>
          mem_imports_of_demanded (hguards d hd)
    simp only [imported, List.mem_flatMap, mem_guardsInserted hguards]
    constructor
    · rintro ⟨d, hd, hpath⟩
      obtain ⟨guard, hguard, hused⟩ := (huses d hd).mp hpath
      exact ⟨d, guard, ⟨hd, hguard⟩, hused⟩
    · rintro ⟨d, guard, ⟨hd, hguard⟩, hused⟩
      exact ⟨d, hd, (huses d hd).mpr ⟨guard, hguard, hused⟩⟩

end Injection

/-! ### Files with imports added -/

namespace SourceFile

open Import (IsPath)

variable {path text : String} {needed : List String}

/-- Whether a file has the imports of another and, among them, one of each needed path that the
other does not import under its own name, so that nothing is left to add. -/
structure Completes (after file : SourceFile) (needed : List String) : Prop where
  imports : ∃ is js, ∃ added : List String, file.imports = is ++ js ∧
    after.imports = is ++ added.map Import.plain ++ js ∧ added.Nodup ∧
    ∀ path, path ∈ added ↔ path ∈ needed ∧
      ∀ i ∈ file.imports, i.path = path → i.localName ≠ Text.afterLast '/' path
  settled : after.importEdit? needed = none

/-- The missing imports are added side by side. -/
theorem imports_added (h : (parse path text).IsGo) (hlines : (parse path text).EndsLines)
    (hpaths : ∀ path ∈ needed, IsPath path) : ∃ is js, (parse path text).imports = is ++ js ∧
      (parse path (Edit.applyAll text ((parse path text).importEdit? needed).toList)).imports =
        is ++ ((parse path text).missing needed).map .plain ++ js := by
  cases hedit : (parse path text).importEdit? needed with
  | none =>
    have hnone : (parse path text).missing needed = [] := by
      by_contra hne
      rw [importEdit?_eq, if_neg hne] at hedit
      simp at hedit
    have hsame : Edit.applyAll text [] = text := by
      have hslice := Text.slice_ofList [] text.toList []
      rw [List.nil_append, List.append_nil, String.ofList_toList, Text.byteLength_nil,
        Nat.zero_add, ← Text.size_eq] at hslice
      rw [Edit.applyAll, List.mergeSort_nil, Edit.splice, hslice]
    exact ⟨_, [], (List.append_nil _).symm, by simp [hsame, hnone]⟩
  | some e => exact imports_importEdit h hlines hpaths hedit

private theorem completes_importEdit (h : (parse path text).IsGo)
    (hlines : (parse path text).EndsLines)
    (hpaths : ∀ path ∈ needed, IsPath path) :
    (parse path (Edit.applyAll text ((parse path text).importEdit? needed).toList)).Completes
      (parse path text) needed := by
  obtain ⟨is, js, hold, hnew⟩ := imports_added h hlines hpaths
  refine ⟨⟨is, js, _, hold, hnew, nodup_missing, fun _ => mem_missing⟩, ?_⟩
  rw [importEdit?_eq, if_pos]
  refine List.eq_nil_iff_forall_not_mem.mpr fun path' hpath' => ?_
  obtain ⟨hneeded, hnone⟩ := mem_missing.mp hpath'
  rw [hnew] at hnone
  by_cases hmissing : path' ∈ (parse path text).missing needed
  · refine hnone (.plain path') ?_ rfl rfl
    exact List.mem_append_left _ (List.mem_append_right _ (List.mem_map_of_mem hmissing))
  · refine hmissing (mem_missing.mpr ⟨hneeded, fun i hi => hnone i ?_⟩)
    rw [hold] at hi
    rcases List.mem_append.mp hi with hi | hi <;> simp [hi]

/-- What is needed is imported once each and stays so, and weaving needs what its guards use. -/
theorem imports_needed (h : (parse path text).IsGo) (hlines : (parse path text).EndsLines)
    (hpaths : ∀ path ∈ needed, IsPath path) :
    (parse path (Edit.applyAll text ((parse path text).importEdit? needed).toList)).Completes
        (parse path text) needed ∧
      ∀ (p : Package) (file : SourceFile) before injection after,
        Gives (file.inject? p) before (some injection) after →
          Injection.ImportsUsed p file injection before after :=
  ⟨completes_importEdit h hlines hpaths, fun _ _ _ _ _ hgives =>
    Injection.importsUsed_of_gives hgives⟩

/-- A file that imports the log under a name of its own, with a guard that logs and inspects a
variable. -/
def renamedLog : String :=
  "package p\n\nimport l \"log\" // the log\n\ntype t struct \x7b\n\tg func()\n\x7d\n
func f(v t) \x7b\n\t// @require -nd -log v\n\tl.Println(v)\n\x7d\n"

private theorem isGo_renamedLog : (parse "/f.go" renamedLog).IsGo := by
  have hkinds : (parse "/f.go" renamedLog).tree.items.map (·.label) =
      [.node .packageClause, .node .importDeclaration, .node .typeDeclaration,
        .node .functionDeclaration] := by
    decide +kernel
  obtain ⟨clause, rest, hitems, hclause, hrest⟩ := List.map_eq_cons_iff.mp hkinds
  obtain ⟨single, others, rfl, hsingle, hothers⟩ := List.map_eq_cons_iff.mp hrest
  refine ⟨by decide +kernel, by decide +kernel, ⟨clause, [single], others, hitems, ?_, ?_, ?_⟩, ?_⟩
  · exact decide_eq_true hclause
  · exact fun d hd => decide_eq_true (List.mem_singleton.mp hd ▸ hsingle)
  · intro d hd hdeclaration
    have hlabel := List.mem_map_of_mem (f := fun t : Syntax.Tree => t.label) hd
    rw [hothers, (of_decide_eq_true hdeclaration : d.label = .node .importDeclaration)] at hlabel
    exact absurd hlabel (by decide)
  · unfold KeywordImport Syntax.Token.IsImport
    decide +kernel

private theorem endsLines_renamedLog : (parse "/f.go" renamedLog).EndsLines := by
  unfold EndsLines
  decide +kernel

/-- A file that needs the log beside its own name for it. -/
theorem imports_needed_renamedLog :
    (parse "/f.go" renamedLog).IsGo ∧ (parse "/f.go" renamedLog).EndsLines ∧
      (∀ path ∈ ["log", "reflect"], IsPath path) ∧
      (parse "/f.go" (Edit.applyAll renamedLog
        ((parse "/f.go" renamedLog).importEdit? ["log", "reflect"]).toList)).Completes
          (parse "/f.go" renamedLog) ["log", "reflect"] ∧
      ∃ injection after,
        Gives ((parse "/f.go" renamedLog).inject? (Injection.alone (.parse "/f.go" renamedLog))) []
            (some injection) after ∧
          Injection.ImportsUsed (Injection.alone (.parse "/f.go" renamedLog))
            (parse "/f.go" renamedLog) injection [] after := by
  have hpaths : ∀ path ∈ ["log", "reflect"], IsPath path := by
    simp [IsPath]
  have hvalue : (value? ((parse "/f.go" renamedLog).inject?
      (Injection.alone (.parse "/f.go" renamedLog))) []).join.isSome = true := by
    decide +kernel
  obtain ⟨injection, hinjection⟩ := Option.isSome_iff_exists.mp hvalue
  obtain ⟨after, hgives⟩ := gives_of_value? (Option.join_eq_some_iff.mp hinjection)
  obtain ⟨hcompletes, hused⟩ := imports_needed isGo_renamedLog endsLines_renamedLog hpaths
  exact ⟨isGo_renamedLog, endsLines_renamedLog, hpaths, hcompletes, injection, after, hgives,
    hused _ _ _ _ _ hgives⟩

/-! ### Names that clash -/

/-- Where the imports of a file have different names, they still have when the needed ones are
added, unless one of them has the name of a path that is missing. -/
theorem nodup_declaredNames_iff (h : (parse path text).IsGo) (hlines : (parse path text).EndsLines)
    (hpaths : ∀ path ∈ needed, IsPath path)
    (hdistinct : ∀ a ∈ needed, ∀ b ∈ needed, Text.afterLast '/' a = Text.afterLast '/' b → a = b)
    (hold : (declaredNames (parse path text).imports).Nodup) :
    (declaredNames (parse path
      (Edit.applyAll text ((parse path text).importEdit? needed).toList)).imports).Nodup ↔
        ¬(parse path text).Taken needed := by
  obtain ⟨is, js, himports, hadded⟩ := imports_added h hlines hpaths
  refine nodup_declaredNames_perm ?_ hold hdistinct
  rw [hadded, himports, List.append_assoc, List.append_assoc]
  exact List.perm_append_comm.append_left is

/-- A file that declares the log under two names. -/
theorem nodup_declaredNames_renamedLog :
    (parse "/f.go" renamedLog).IsGo ∧ (parse "/f.go" renamedLog).EndsLines ∧
      (declaredNames (parse "/f.go" renamedLog).imports).Nodup ∧
      (declaredNames (parse "/f.go" (Edit.applyAll renamedLog
        ((parse "/f.go" renamedLog).importEdit? ["log", "reflect"]).toList)).imports).Nodup := by
  have hold : (declaredNames (parse "/f.go" renamedLog).imports).Nodup := by decide +kernel
  have hnames : ∀ i ∈ (parse "/f.go" renamedLog).imports, ∀ path ∈ ["log", "reflect"],
      i.localName ≠ Text.afterLast '/' path := by
    decide +kernel
  have hfree : ¬(parse "/f.go" renamedLog).Taken ["log", "reflect"] :=
    fun ⟨path, hpath, i, hi, hname, _⟩ => hnames i hi path (mem_missing.mp hpath).1 hname
  have hdistinct : ∀ a ∈ ["log", "reflect"], ∀ b ∈ ["log", "reflect"],
      Text.afterLast '/' a = Text.afterLast '/' b → a = b := by
    decide +kernel
  exact ⟨isGo_renamedLog, endsLines_renamedLog, hold,
    (nodup_declaredNames_iff isGo_renamedLog endsLines_renamedLog (by simp [IsPath]) hdistinct
      hold).mpr hfree⟩

/-- A file that imports a package of its own with the name of one that guards need. -/
def ownLog : String := "package p\n\nimport \"example.com/log\"\n"

/-- The edit adds an import under a name that is taken. -/
theorem ownLog_clashes :
    ¬∀ path text needed e, (parse path text).hasErrors = false →
      (declaredNames (parse path text).imports).Nodup →
      (∀ a ∈ needed, ∀ b ∈ needed, Text.afterLast '/' a = Text.afterLast '/' b → a = b) →
      (parse path text).importEdit? needed = some e →
      (declaredNames (parse path (Edit.applyAll text [e])).imports).Nodup := by
  intro h
  have hfacts : (parse "/f.go" ownLog).hasErrors = false ∧
      (declaredNames (parse "/f.go" ownLog).imports).Nodup ∧
      (parse "/f.go" ownLog).importEdit? ["log"] = some (.insert 35 "\nimport \"log\"") := by
    decide +kernel
  obtain ⟨hvalid, hold, hedit⟩ := hfacts
  have hafter := h _ _ _ _ hvalid hold (by simp) hedit
  rw [Edit.applyAll, Edit.mergeSort_eq_insertionSort] at hafter
  exact absurd hafter (by decide +kernel)

end SourceFile

end GoContracts

import GoContracts.Proofs.Package.Loading
import GoContracts.Proofs.Weaving.Injection

/-!
# What is rendered

A source file that stands in a directory is one of its package. It has a shadow exactly if it holds
a directive.
-/

namespace GoContracts

namespace Reporting

variable {ε δ α : Type} {x : Reporting ε α} {a : α} {before after : List Diagnostic}

private theorem adapt_apply {f : ε → δ} : (ExceptT.adapt f x : Reporting δ α) before =
    ((x before).1.mapError f, (x before).2) := rfl

private theorem gives_adapt {f : ε → δ} :
    Gives (ExceptT.adapt f x : Reporting δ α) before a after ↔ Gives x before a after := by
  have hadapt : Gives (ExceptT.adapt f x : Reporting δ α) before a after ↔
      (x before).1.mapError f = .ok a ∧ (x before).2 = after := Prod.ext_iff
  have hx : Gives x before a after ↔ (x before).1 = .ok a ∧ (x before).2 = after := Prod.ext_iff
  rw [hadapt, hx]
  cases (x before).1 <;> simp [Except.mapError]

end Reporting

namespace Package

open Reporting (Gives value?)

variable {p : Package} {file : SourceFile} {disk : Disk} {place : List String} {name text : String}
  {es : List (String × FileTree)} {before after : List Diagnostic} {text? : Option String}
  {files : List SourceFile} {f : Failure} {content : Content}

private theorem gives_inject?_none : Gives (file.inject? p) before none after → file.anchors =
    [] := by
  unfold SourceFile.inject?
  intro h
  split at h
  · next hempty => exact List.isEmpty_iff.mp hempty
  · rw [Reporting.gives_bind] at h
    obtain ⟨demands, mid, -, h⟩ := h
    cases (Reporting.gives_pure.mp h).1

/-- A file has a shadow exactly if it holds a directive. -/
theorem isSome_of_gives (h : Gives (p.shadowOf? file) before text? after) :
    text?.isSome = true ↔ file.anchors ≠ [] := by
  rw [shadowOf?, Reporting.gives_adapt, Reporting.gives_bind] at h
  obtain ⟨injection?, mid, hinject, h⟩ := h
  obtain ⟨rfl, rfl⟩ := Reporting.gives_pure.mp h
  rw [Option.isSome_map]
  cases injection? with
  | none => simp [gives_inject?_none hinject]
  | some injection => simp [(gives_inject?.mp hinject).1]

/-- A shadow cannot be rendered only because of an expression. -/
theorem shadowOf?_error (h : (p.shadowOf? file before).1 = .error f) :
    ∃ expression, f = .invalidExpression expression := by
  rw [shadowOf?, Reporting.adapt_apply] at h
  simp only [Except.mapError] at h
  split at h
  · next expression _ => exact ⟨expression, (Except.error.inj h).symm⟩
  · cases h

/-! ### Files of a directory -/

namespace StandsAt

/-- Each source file of a directory has a path of its own. -/
theorem file?_sourcesOf (h : StandsAt disk place es) (ht : (name, .file (.text text)) ∈ es)
    (hsource : SourceFile.isSourceName name = true) :
    (ofFiles (sourcesOf (Path.ofPlace place) es)).file?
      (Path.same (Path.ofPlace (place ++ [name]))) =
        some (.read (Path.ofPlace (place ++ [name])) text) := by
  have hjoin (n : String) (t : FileTree) (hn : (n, t) ∈ es) :
      Path.join (Path.ofPlace place) n = Path.ofPlace (place ++ [n]) := h.join_eq (h.plain _ hn).1
  have hmem {source : SourceFile} : source ∈ sourcesOf (Path.ofPlace place) es ↔
      ∃ n s, (n, .file (.text s)) ∈ es ∧ SourceFile.isSourceName n = true ∧
        source = .read (Path.ofPlace (place ++ [n])) s := by
    rw [sourcesOf, List.mem_filterMap]
    constructor
    · rintro ⟨⟨n, t⟩, hn, hsome⟩
      have hpath := hjoin n t hn
      simp only [hpath] at hsome
      split at hsome
      · next s =>
        rw [Option.ite_none_right_eq_some, Option.some.injEq] at hsome
        exact ⟨n, s, hn, hsome.1, hsome.2.symm⟩
      · cases hsome
    · rintro ⟨n, s, hn, hn', rfl⟩
      exact ⟨_, hn, by simp [hn', hjoin n _ hn]⟩
  rw [file?, files_ofFiles]
  cases hfind : (sourcesOf (Path.ofPlace place) es).find?
      fun source => Path.same (Path.ofPlace (place ++ [name])) source.path with
  | none =>
    rw [List.find?_eq_none] at hfind
    have hself := hfind _ (hmem.mpr ⟨name, text, ht, hsource, rfl⟩)
    rw [SourceFile.path_read] at hself
    simp [Path.same] at hself
  | some source =>
    obtain ⟨n, s, hn, -, rfl⟩ := hmem.mp (List.mem_of_find?_eq_some hfind)
    have hsame := List.find?_some hfind
    have hplain (n : String) (t : FileTree) (hn : (n, t) ∈ es) :
        ∀ m ∈ place ++ [n], Path.Plain m := by
      simpa [or_imp, forall_and, (h.plain _ hn).1] using fun m hm => (h.names m hm).plain
    rw [SourceFile.path_read, Path.same_iff Path.isAbsolute_ofPlace Path.isAbsolute_ofPlace,
      Path.spelled_ofPlace (hplain _ _ ht), Path.spelled_ofPlace (hplain _ _ hn),
      List.append_right_inj, List.singleton_inj] at hsame
    subst hsame
    rw [h.ascending.mem_iff] at ht hn
    rw [ht, Option.some.injEq, FileTree.file.injEq, Content.text.injEq] at hn
    rw [hn]

/-- The shadow of a source is made from its text. -/
theorem shadowAt?_sourcesOf (h : StandsAt disk place es) (ht : (name, .file (.text text)) ∈ es)
    (hsource : SourceFile.isSourceName name = true) :
    (ofFiles (sourcesOf (Path.ofPlace place) es)).shadowAt? (Path.ofPlace (place ++ [name])) =
      (ofFiles (sourcesOf (Path.ofPlace place) es)).shadowOf?
        (.read (Path.ofPlace (place ++ [name])) text) := by
  rw [shadowAt?, h.file?_sourcesOf ht hsource]

/-- Where a package can be loaded, its source files are texts. -/
theorem isText (h : StandsAt disk place es) (ht : (name, .file content) ∈ es)
    (hsource : SourceFile.isSourceName name = true)
    (hshort : Text.size (Path.join (Path.ofPlace place) name) < Disk.pathLimit)
    (hfiles : filesIn disk (Path.ofPlace place) = .ok files) : ∃ s, content = .text s := by
  rw [h.filesIn_eq, mapM_eq_ok] at hfiles
  have hname : name ∈ sourceNames (Path.ofPlace place) es :=
    mem_sourceNames.mpr ⟨hsource, hshort, _, ht, rfl⟩
  have hloaded : loadFile disk (Path.join (Path.ofPlace place) name) ∈ files.map Except.ok := by
    rw [← hfiles, List.map_map]
    exact List.mem_map_of_mem hname
  rw [h.loadFile_eq ht hshort] at hloaded
  cases content with
  | text s => exact ⟨s, rfl⟩
  | binary bytes => simp [Content.text?] at hloaded

end StandsAt

end Package

end GoContracts

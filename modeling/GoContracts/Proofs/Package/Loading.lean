import GoContracts.Package.Loading
import GoContracts.Proofs.Overlay.Generating
import GoContracts.Proofs.Package.Uniformity

/-!
# What is loaded

The package of a directory is made of the source files that stand in it. Files that are generated
elsewhere make no difference to it.
-/

namespace GoContracts.Package

variable {disk d d' : Disk} {directory path name text : String} {package : Package}
  {files : List SourceFile} {file : SourceFile} {f : Failure} {place names : List String}
  {es fs : List (String × FileTree)} {before : List Diagnostic}

/-! ### The files of a package -/

private theorem files_addDeclaration {number : Nat} {p : Package} {declaration : Syntax.Tree} :
    (addDeclaration number file p declaration).files = p.files := by
  unfold addDeclaration
  split
  · rfl
  · split <;> rfl
  · simp only
    split <;> rfl
  · rfl
  · rfl
  · rfl

/-- A file is added behind the others. -/
theorem files_addFile {p : Package} : (p.addFile file).files = p.files ++ [file] := by
  have hfold (ts : List Syntax.Tree) (q : Package) :
      (ts.foldl (addDeclaration p.files.length file) q).files = q.files := by
    induction ts generalizing q with
    | nil => rfl
    | cons t ts ih => rw [List.foldl_cons, ih, files_addDeclaration]
  rw [addFile]
  exact hfold _ _

/-- A package of files has these files. -/
theorem files_ofFiles : (ofFiles files).files = files := by
  have hfold (p : Package) : (files.foldl addFile p).files = p.files ++ files := by
    induction files generalizing p with
    | nil => simp
    | cons file files ih => rw [List.foldl_cons, ih, files_addFile]; simp
  exact hfold {}

/-! ### Loading -/

/-- The source files of a directory. -/
def filesIn (disk : Disk) (directory : String) : Except Failure (List SourceFile) := do
  (← sourcePaths disk directory).mapM (loadFile disk)

/-- The package that is loaded for a directory. -/
def loaded? (disk : Disk) (directory : String) : Option Package :=
  Reporting.value? (load disk directory) []

/-- A directory is loaded by the files in it. -/
theorem load_apply : (load disk directory before).1 = (filesIn disk directory).map ofFiles := by
  rw [load, filesIn, Step.bind_apply, Step.ofExcept_apply]
  cases sourcePaths disk directory with
  | error f => rfl
  | ok paths =>
    simp only
    rw [Step.bind_apply, Step.ofExcept_apply]
    change _ = Except.map ofFiles (paths.mapM (loadFile disk))
    cases paths.mapM (loadFile disk) with
    | error f => rfl
    | ok files =>
      simp only
      split <;> rfl

/-- A loaded package is that of the files in the directory. -/
theorem loaded?_eq : loaded? disk directory = ((filesIn disk directory).map ofFiles).toOption := by
  have happly : (load disk directory []).1 = (filesIn disk directory).map ofFiles := load_apply
  rw [loaded?, Reporting.value?, ← happly]
  have hrun : (load disk directory).run.run [] = load disk directory [] := rfl
  rw [hrun]
  rcases load disk directory [] with ⟨f | p, after⟩ <;> rfl

/-- A package is loaded if the files of the directory can be read. -/
theorem loaded?_eq_some :
    loaded? disk directory = some package ↔ ∃ files, filesIn disk directory = .ok files ∧
      ofFiles files = package := by
  rw [loaded?_eq]
  cases filesIn disk directory <;> simp [Except.map, Except.toOption]

/-- Results that are all there are those of the items in order. -/
theorem mapM_eq_ok {α β : Type} {g : α → Except Failure β} {as : List α} {bs : List β} :
    as.mapM g = .ok bs ↔ as.map g = bs.map .ok := by
  induction as generalizing bs with
  | nil => cases bs <;> simp [pure, Except.pure]
  | cons a as ih =>
    rw [List.mapM_cons]
    cases bs with
    | nil =>
      cases g a <;> cases as.mapM g <;> simp [bind, Except.bind, pure, Except.pure]
    | cons b bs =>
      rw [List.map_cons, List.map_cons, List.cons.injEq, ← ih]
      cases g a <;> cases as.mapM g <;> simp [bind, Except.bind, pure, Except.pure]

private theorem mapM_congr {α β : Type} {g g' : α → Except Failure β} {as : List α}
    (h : ∀ a ∈ as, g a = g' a) : as.mapM g = as.mapM g' := by
  induction as with
  | nil => rfl
  | cons a as ih =>
    rw [List.mapM_cons, List.mapM_cons, h a (List.mem_cons_self ..),
      ih fun b hb => h b (List.mem_cons_of_mem a hb)]

/-- A result that is missing is that of an item. -/
theorem mapM_error {α β : Type} {g : α → Except Failure β} {as : List α}
    (h : as.mapM g = .error f) : ∃ a ∈ as, g a = .error f := by
  induction as with
  | nil => cases h
  | cons a as ih =>
    rw [List.mapM_cons] at h
    cases ha : g a with
    | error e =>
      simp only [ha, bind, Except.bind, Except.error.injEq] at h
      exact ⟨a, List.mem_cons_self .., h ▸ ha⟩
    | ok b =>
      cases hmore : as.mapM g with
      | error e =>
        simp only [ha, hmore, bind, Except.bind, Except.error.injEq] at h
        obtain ⟨c, hc, hf⟩ := ih (h ▸ hmore)
        exact ⟨c, List.mem_cons_of_mem a hc, hf⟩
      | ok bs => simp [ha, hmore, bind, Except.bind, pure, Except.pure] at h

/-- A package that cannot be loaded is one of which something cannot be read. -/
theorem filesIn_error (h : filesIn disk directory = .error f) :
    ∃ path cause, f = .read path cause := by
  rw [filesIn] at h
  cases hpaths : sourcePaths disk directory with
  | error g =>
    simp only [hpaths, bind, Except.bind, Except.error.injEq] at h
    subst h
    rw [sourcePaths] at hpaths
    split at hpaths
    · exact ⟨_, _, (Except.error.inj hpaths).symm⟩
    · cases hpaths
  | ok paths =>
    simp only [hpaths, bind, Except.bind] at h
    obtain ⟨path, -, hfile⟩ := mapM_error h
    rw [loadFile] at hfile
    split at hfile
    · cases hfile
    · exact ⟨_, _, (Except.error.inj hfile).symm⟩

/-! ### The files at a place -/

/-- The names of the source files among entries whose paths are not too long. -/
def sourceNames (directory : String) (es : List (String × FileTree)) : List String :=
  (es.filter fun e => SourceFile.isSourceName e.1 &&
    (e.2.isFile && decide (Text.size (Path.join directory e.1) < Disk.pathLimit))).map (·.1)

/-- A source is a file with the name of a source and a path that is short enough. -/
theorem mem_sourceNames : name ∈ sourceNames directory es ↔ SourceFile.isSourceName name = true ∧
    Text.size (Path.join directory name) < Disk.pathLimit ∧
      ∃ t, (name, t) ∈ es ∧ t.isFile = true := by
  simp only [sourceNames, List.mem_map, List.mem_filter, Bool.and_eq_true, decide_eq_true_eq]
  constructor
  · rintro ⟨e, ⟨he, hsource, hfile, hshort⟩, rfl⟩
    exact ⟨hsource, hshort, e.2, he, hfile⟩
  · rintro ⟨hsource, hshort, t, ht, hfile⟩
    exact ⟨(name, t), ⟨ht, hsource, hfile, hshort⟩, rfl⟩

/-- Directories with the same files have the same source files. -/
theorem sourceNames_congr (hes : Keyed.Ascending es) (hfs : Keyed.Ascending fs)
    (h : ∀ name, (∃ t, (name, t) ∈ es ∧ t.isFile = true) ↔ ∃ t, (name, t) ∈ fs ∧ t.isFile = true) :
    sourceNames directory es = sourceNames directory fs := by
  have hsorted {es : List (String × FileTree)} (hes : Keyed.Ascending es) :
      (sourceNames directory es).Pairwise (· < ·) :=
    List.pairwise_map.mpr (List.Pairwise.filter _ hes)
  have hirrefl : Std.Irrefl fun a b : String => a < b := ⟨fun _ => String.lt_irrefl _⟩
  have hanti : Std.Antisymm fun a b : String => a < b :=
    ⟨fun _ _ hab hba => (String.lt_irrefl _ (String.lt_trans hab hba)).elim⟩
  refine List.Pairwise.eq_of_mem_iff (hsorted hes) (hsorted hfs) fun name => ?_
  rw [mem_sourceNames, mem_sourceNames, h]

/-- A directory at a place to which its path leads. -/
structure StandsAt (disk : Disk) (place : List String) (es : List (String × FileTree)) : Prop where
  rooted : disk.Rooted
  names : ∀ name ∈ place, Disk.IsName name
  clear : ∀ below, disk.Clear (place ++ below)
  short : Text.size (Path.ofPlace place) < Disk.pathLimit
  tree : disk.root.get? place = some (.directory es)
  ascending : Keyed.Ascending es
  plain : ∀ e ∈ es, Path.Plain e.1 ∧ e.1 ≠ ".."
  fileNames : ∀ e ∈ es, e.2.isFile = true → Disk.IsName e.1

namespace StandsAt

/-- A plain name joined to the path of the directory is the path of the place in it. -/
theorem join_eq (h : StandsAt disk place es) (hname : Path.Plain name) :
    Path.join (Path.ofPlace place) name = Path.ofPlace (place ++ [name]) :=
  Path.join_ofPlace (fun n hn => (h.names n hn).plain) hname

private theorem get?_entry (h : StandsAt disk place es) {t : FileTree} (ht : (name, t) ∈ es) :
    disk.root.get? (place ++ [name]) = some t := by
  rw [FileTree.get?_concat, h.tree, Option.bind_some]
  exact (FileTree.below?_eq_some h.ascending).mpr ht

private theorem isName_append (h : StandsAt disk place es) (hname : Disk.IsName name) :
    ∀ n ∈ place ++ [name], Disk.IsName n := by
  simpa [or_imp, forall_and] using ⟨h.names, hname⟩

private theorem isFile_iff (h : StandsAt disk place es) {t : FileTree} (ht : (name, t) ∈ es) :
    disk.isFile (Path.join (Path.ofPlace place) name) = true ↔ t.isFile = true ∧
      Text.size (Path.join (Path.ofPlace place) name) < Disk.pathLimit := by
  have hget := h.get?_entry ht
  have hplain := (h.plain _ ht).1
  rw [h.join_eq hplain]
  by_cases hfile : t.isFile = true
  · rw [Disk.isFile_ofPlace h.rooted (h.isName_append (h.fileNames _ ht hfile)) (h.clear _), hget]
    cases t with
    | file content => simp [hfile]
    | link | directory => cases hfile
  · -- What is found under the name would be the entry, which is no file.
    refine iff_of_false (fun hfound => ?_) fun hcontra => hfile hcontra.1
    obtain ⟨q, u, hfind, hu⟩ := Disk.isFile_iff.mp hfound
    have hnames : ∀ n ∈ place ++ [name], Path.Plain n ∧ n ≠ ".." := by
      simpa [or_imp, forall_and, hplain, (h.plain _ ht).2] using
        ⟨fun n hn => (h.names n hn).plain, fun n hn => (h.names n hn).ne_up⟩
    have hplace : q = place ++ [name] := by
      rw [← Path.spelled_ofPlace fun n hn => (hnames n hn).1]
      exact Disk.place_of_goesDown (Disk.goesDown_ofPlace hnames) (h.clear _)
        (Disk.find_iff.mp hfind)
    rw [← hplace, Disk.get?_of_find h.rooted hfind, Option.some.injEq] at hget
    rw [← hget, hu] at hfile
    exact hfile rfl

private theorem sourcePaths_eq (h : StandsAt disk place es) : sourcePaths disk
    (Path.ofPlace place) =
    .ok ((sourceNames (Path.ofPlace place) es).map (Path.join (Path.ofPlace place))) := by
  have hread : disk.readDirectory (Path.ofPlace place) = .ok es := by
    rw [Disk.readDirectory_ofPlace h.rooted h.names (by simpa using h.clear [])]
    exact ⟨h.short, h.tree⟩
  rw [sourcePaths, hread]
  simp only [Except.ok.injEq]
  rw [sourceNames, List.map_map, ← List.filterMap_eq_map, List.filterMap_filter]
  apply List.filterMap_congr
  intro e he
  have hfile : disk.isFile (Path.join (Path.ofPlace place) e.1) = (e.2.isFile &&
      decide (Text.size (Path.join (Path.ofPlace place) e.1) < Disk.pathLimit)) := by
    rw [Bool.eq_iff_iff, h.isFile_iff he, Bool.and_eq_true, decide_eq_true_eq]
  rw [hfile]
  rfl

/-- The files of a directory are those of its source names. -/
theorem filesIn_eq (h : StandsAt disk place es) : filesIn disk (Path.ofPlace place) =
    ((sourceNames (Path.ofPlace place) es).map (Path.join (Path.ofPlace place))).mapM
      (loadFile disk) := by
  rw [filesIn, h.sourcePaths_eq]
  rfl

/-- A text among the entries is loaded; other files cannot be. -/
theorem loadFile_eq (h : StandsAt disk place es) {content : Content}
    (hc : (name, .file content) ∈ es)
    (hshort : Text.size (Path.join (Path.ofPlace place) name) < Disk.pathLimit) :
    loadFile disk (Path.join (Path.ofPlace place) name) =
      content.text?.elim (.error (.read (Path.join (Path.ofPlace place) name) .invalidUtf8))
        fun s => .ok (.read (Path.join (Path.ofPlace place) name) s) := by
  have hjoin := h.join_eq (h.plain _ hc).1
  have hread := Disk.readText_ofPlace h.rooted (h.isName_append (h.fileNames _ hc rfl))
    (h.clear _) (hjoin ▸ hshort) (h.get?_entry hc)
  rw [loadFile, hjoin, hread]
  cases content <;> rfl

end StandsAt

/-- The source files among the entries of a directory. -/
def sourcesOf (directory : String) (es : List (String × FileTree)) : List SourceFile :=
  es.filterMap fun (name, t) =>
    match t with
    | .file (.text s) =>
      if SourceFile.isSourceName name then some (.read (Path.join directory name) s) else none
    | _ => none

private theorem sourceNames_cons {e : String × FileTree} : sourceNames directory (e :: es) =
    (if (SourceFile.isSourceName e.1 && (e.2.isFile &&
      decide (Text.size (Path.join directory e.1) < Disk.pathLimit))) = true then [e.1] else []) ++
        sourceNames directory es := by
  rw [sourceNames, List.filter_cons]
  split <;> rfl

private theorem sourcesOf_cons {t : FileTree} : sourcesOf directory ((name, t) :: es) =
    (match t with
      | .file (.text s) =>
        if SourceFile.isSourceName name then [.read (Path.join directory name) s] else []
      | _ => []) ++ sourcesOf directory es := by
  rw [sourcesOf, List.filterMap_cons]
  split <;> rename_i heq <;> revert heq <;> split <;> try split
  all_goals simp_all [sourcesOf]

/-- If no path is too long, all source files of the directory are loaded. -/
theorem StandsAt.files_eq (h : StandsAt disk place es)
    (hshort : ∀ e ∈ es, SourceFile.isSourceName e.1 = true → e.2.isFile = true →
      Text.size (Path.join (Path.ofPlace place) e.1) < Disk.pathLimit)
    (hfiles : filesIn disk (Path.ofPlace place) = .ok files) :
    files = sourcesOf (Path.ofPlace place) es := by
  rw [h.filesIn_eq, mapM_eq_ok] at hfiles
  -- Along the entries, the loaded files are those of the entries.
  have hsome (more : List (String × FileTree)) (hmore : ∀ e ∈ more, e ∈ es)
      (loaded : List SourceFile) (hloaded :
        ((sourceNames (Path.ofPlace place) more).map (Path.join (Path.ofPlace place))).map
          (loadFile disk) = loaded.map .ok) :
      loaded = sourcesOf (Path.ofPlace place) more := by
    induction more generalizing loaded with
    | nil => simpa [sourceNames, sourcesOf] using hloaded.symm
    | cons e more ih =>
      obtain ⟨name, t⟩ := e
      have hentry := hmore (name, t) (List.mem_cons_self ..)
      have hrest := ih fun e he => hmore e (List.mem_cons_of_mem _ he)
      rw [sourceNames_cons] at hloaded
      rw [sourcesOf_cons]
      by_cases hsource : SourceFile.isSourceName name = true
      · cases t with
        | link | directory => exact hrest loaded (by simpa [FileTree.isFile] using hloaded)
        | file content =>
          have hlength := hshort (name, .file content) hentry hsource rfl
          rw [if_pos (by simp [hsource, FileTree.isFile, hlength]), List.singleton_append,
            List.map_cons, List.map_cons, h.loadFile_eq hentry hlength] at hloaded
          cases loaded with
          | nil => cases hloaded
          | cons file loaded =>
            obtain ⟨hfile, htail⟩ := List.cons.inj hloaded
            cases content with
            | binary bytes => cases hfile
            | text s =>
              rw [hrest loaded htail, ← Except.ok.inj hfile]
              simp [hsource]
      · rw [if_neg (by simp [hsource]), List.nil_append] at hloaded
        rw [hrest loaded hloaded]
        cases t with
        | link | directory => rfl
        | file content => cases content <;> simp [hsource]
  exact hsome es (fun _ => id) files hfiles

/-! ### Generated files elsewhere -/

variable {cache : List String} {writes : List (List String × String)}

/-- An entry of a directory stands below its place. -/
theorem mem_of_get? (hget : d.root.get? place = some (.directory es))
    (hes : Keyed.Ascending es) {t : FileTree} :
    (name, t) ∈ es ↔ d.root.get? (place ++ [name]) = some t := by
  rw [FileTree.get?_concat, hget, Option.bind_some]
  exact (FileTree.below?_eq_some hes).symm

/-- A directory that is not below the cache directory keeps its files while others are generated
there. -/
theorem StandsAt.generated (h : StandsAt d place es) (hg : Disk.Generates cache writes d d')
    (hd' : d'.root.Ordered) (hcache : ∀ n ∈ cache, Path.Plain n ∧ n ≠ "..")
    (hwrites : ∀ p text, (p, text) ∈ writes → ∃ n, p = cache ++ [n]) (hout : ¬cache <+: place) :
    ∃ fs, StandsAt d' place fs ∧ ∀ name content,
      (name, .file content) ∈ fs ↔ (name, .file content) ∈ es := by
  have hdir : d.root.nodeAt? place = some .directory :=
    FileTree.nodeAt?_eq_directory.mpr ⟨es, h.tree⟩
  obtain ⟨fs, hfs⟩ := FileTree.nodeAt?_eq_directory.mp (hg.grown.keeps.directory hdir)
  have hasc : Keyed.Ascending fs := hd' place fs hfs
  have hnode := hg.node_outside hwrites hout
  have hfile (name : String) (content : Content) :
      (name, .file content) ∈ fs ↔ (name, .file content) ∈ es := by
    rw [mem_of_get? hfs hasc, mem_of_get? h.tree h.ascending]
    exact hg.file_outside hwrites hout
  refine ⟨fs, ⟨hg.grown.rooted h.rooted, h.names, fun below => (h.clear below).grown hg.grown,
    h.short, hfs, hasc, ?_, ?_⟩, hfile⟩
  · rintro ⟨name, t⟩ he
    rcases hnode name with hsame | ⟨⟨rest, hrest⟩, -⟩
    · have hget := (mem_of_get? hfs hasc).mp he
      rw [FileTree.nodeAt?, hget, FileTree.nodeAt?] at hsame
      obtain ⟨u, hu, -⟩ := Option.map_eq_some_iff.mp hsame.symm
      exact h.plain (name, u) ((mem_of_get? h.tree h.ascending).mpr hu)
    · exact hcache name (by simp [← hrest])
  · rintro ⟨name, t⟩ he ht
    cases t with
    | file content => exact h.fileNames _ ((hfile name content).mp he) rfl
    | link | directory => cases ht

/-- Files that are generated elsewhere make no difference to a package. -/
theorem filesIn_generated (h : StandsAt d place es) (hg : Disk.Generates cache writes d d')
    (hd' : d'.root.Ordered) (hcache : ∀ n ∈ cache, Path.Plain n ∧ n ≠ "..")
    (hwrites : ∀ p text, (p, text) ∈ writes → ∃ n, p = cache ++ [n]) (hout : ¬cache <+: place) :
    filesIn d' (Path.ofPlace place) = filesIn d (Path.ofPlace place) := by
  obtain ⟨fs, h', hfile⟩ := h.generated hg hd' hcache hwrites hout
  have hsame : sourceNames (Path.ofPlace place) fs = sourceNames (Path.ofPlace place) es := by
    apply sourceNames_congr h'.ascending h.ascending
    intro name
    constructor
    · rintro ⟨t, ht, hft⟩
      cases t with
      | file content => exact ⟨_, (hfile name content).mp ht, rfl⟩
      | link | directory => cases hft
    · rintro ⟨t, ht, hft⟩
      cases t with
      | file content => exact ⟨_, (hfile name content).mpr ht, rfl⟩
      | link | directory => cases hft
  rw [h'.filesIn_eq, h.filesIn_eq, hsame]
  apply mapM_congr
  intro path hpath
  obtain ⟨name, hname, rfl⟩ := List.mem_map.mp hpath
  obtain ⟨-, hshort, t, ht, hft⟩ := mem_sourceNames.mp hname
  cases t with
  | file content =>
    rw [h.loadFile_eq ht hshort, h'.loadFile_eq ((hfile name content).mpr ht) hshort]
  | link | directory => cases hft

end GoContracts.Package

import GoContracts.Proofs.FileTree.Places
import GoContracts.Proofs.Selection.Walk

/-!
# What is selected

A file is selected for its own name and path and for what stands on the way to it, whatever the walk
has met before. So the ignore file of a directory has a say in what is below that directory only.
-/

namespace GoContracts.Selection

open FileTree (Node)

variable {s : Selection} {tree t u : FileTree} {place above below names file init q : List String}
  {name : String} {paths : List String}

/-- A file of the tree is selected: it is a source file, no directory on the way to it is hidden,
skipped or that of generated files, the rules of no directory around it cover the file or a
directory on the way, and no pattern excludes it. -/
structure Selects (s : Selection) (tree : FileTree) (file : List String) : Prop where
  isFile : ∃ content, tree.get? file = some (.file content)
  source : SourceFile.isSourceName (file.getLastD "") = true
  entered : ∀ directory, directory <+: file → directory ≠ [] → directory ≠ file →
    (directory.getLastD "").startsWith "." = false ∧
      directory.getLastD "" ∉ s.settings.skippedDirectories ∧
      Path.same (s.pathOf directory) s.cacheDirectory = false
  unignored : ∀ directory rest, directory ++ rest <+: file → rest ≠ [] →
    ¬s.Ignores directory rest (decide (directory ++ rest ≠ file))
  included : s.settings.excludes (Path.ofComponents file) = false

/-! ### Reaching -/

private theorem isDirectory_of_get? (h : t.get? names = some u) :
    t.isDirectory = (decide ([] ≠ names) || u.isDirectory) := by
  cases names with
  | nil =>
    obtain rfl : t = u := by simpa using h
    simp
  | cons name names =>
    rw [FileTree.get?_cons, Option.bind_eq_some_iff] at h
    obtain ⟨v, hv, -⟩ := h
    simp [FileTree.isDirectory_of_below? hv]

/-- What is reached stands at the end of the names, and nothing on the way is left out. -/
theorem reaches_iff : s.Reaches place t names u ↔ t.get? names = some u ∧
    ∀ way, way <+: names → way ≠ [] →
      ¬s.LeavesOut (place ++ way) (decide (way ≠ names) || u.isDirectory) := by
  induction names generalizing place t with
  | nil =>
    rw [Reaches, FileTree.get?_nil, Option.some.injEq, iff_self_and]
    intro _ way hway hne
    exact absurd (List.prefix_nil.mp hway) hne
  | cons name names ih =>
    have hplace (way : List String) : place ++ name :: way = place ++ [name] ++ way := by simp
    rw [Reaches, FileTree.get?_cons, Option.bind_eq_some_iff]
    constructor
    · rintro ⟨v, hv, hfirst, hr⟩
      obtain ⟨hget, hrest⟩ := ih.mp hr
      refine ⟨⟨v, hv, hget⟩, fun way hway hne => ?_⟩
      obtain ⟨first, way, rfl⟩ := List.exists_cons_of_ne_nil hne
      obtain ⟨rfl, hstarts⟩ := List.cons_prefix_cons.mp hway
      by_cases hnil : way = []
      · subst hnil
        rw [isDirectory_of_get? hget] at hfirst
        simpa using hfirst
      · simpa using hrest way hstarts hnil
    · rintro ⟨⟨v, hv, hget⟩, hall⟩
      refine ⟨v, hv, ?_, ih.mpr ⟨hget, fun way hway hne => ?_⟩⟩
      · rw [isDirectory_of_get? hget]
        simpa using hall [name] (by simp) (by simp)
      · have hway := hall (name :: way) (List.cons_prefix_cons.mpr ⟨rfl, hway⟩) (by simp)
        simpa using hway

private theorem skips_eq_false_iff : s.skips name (s.pathOf place) = false ↔
    name.startsWith "." = false ∧ name ∉ s.settings.skippedDirectories ∧
      Path.same (s.pathOf place) s.cacheDirectory = false := by
  simp [skips, and_assoc]

private theorem excludes_pathOf (hplain : ∀ n ∈ file, Path.Plain n) :
    s.excludes (s.pathOf file) = s.settings.excludes (Path.ofComponents file) := by
  have hrelative : Path.relativeTo? (Path.joinAll s.root []) (Path.joinAll s.root file) = _ :=
    Path.relativeTo?_joinAll (by simp) hplain
  rw [Path.joinAll_nil, if_pos (List.nil_prefix ..), List.length_nil, List.drop_zero] at hrelative
  rw [excludes, pathOf, hrelative]

/-- The files that the walk takes are those that are selected. -/
theorem selects_iff (hnamed : tree.Named) : s.Selects tree file ↔
    ∃ u, s.Reaches [] tree file u ∧ u.isFile = true ∧ s.Takes file := by
  have hplain {u : FileTree} (hget : tree.get? file = some u) : ∀ n ∈ file, Path.Plain n :=
    fun n hn => (hnamed file u hget n hn).plain
  constructor
  · rintro ⟨⟨content, hget⟩, hsource, hentered, hunignored, hincluded⟩
    refine ⟨.file content, reaches_iff.mpr ⟨hget, fun way hway hne => ?_⟩, rfl, hsource, ?_⟩
    · have hfile : (FileTree.file content).isDirectory = false := rfl
      rw [List.nil_append, hfile, Bool.or_false]
      rintro (⟨hdirectory, hskips⟩ | ⟨directory, rest, rfl, hrest, hignores⟩)
      · have hentered := hentered way hway hne (by simpa using hdirectory)
        rw [skips_eq_false_iff.mpr hentered] at hskips
        cases hskips
      · exact hunignored directory rest hway hrest hignores
    · rw [excludes_pathOf (hplain hget), hincluded]
  · rintro ⟨u, hreached, hu, hsource, hincluded⟩
    obtain ⟨content, rfl⟩ : ∃ content, u = .file content := by
      cases u with
      | file content => exact ⟨content, rfl⟩
      | link | directory => cases hu
    obtain ⟨hget, hway⟩ := reaches_iff.mp hreached
    simp only [List.nil_append, FileTree.isDirectory, Bool.or_false] at hway
    refine ⟨⟨content, hget⟩, hsource, ?_, ?_, ?_⟩
    · intro directory hstarts hne hfile
      rw [← skips_eq_false_iff, ← Bool.not_eq_true]
      intro hskips
      exact hway directory hstarts hne (.inl ⟨by simpa using hfile, hskips⟩)
    · intro directory rest hstarts hrest hignores
      have hne : directory ++ rest ≠ [] := by simp [hrest]
      exact hway _ hstarts hne (.inr ⟨directory, rest, rfl, hrest, hignores⟩)
    · rwa [excludes_pathOf (hplain hget)] at hincluded

/-- What is reached is reached through directories. -/
theorem Reaches.parent (h : s.Reaches place tree (init ++ [name]) u) :
    ∃ es, tree.get? init = some (.directory es) ∧ s.Reaches place tree init (.directory es) := by
  obtain ⟨hget, hway⟩ := reaches_iff.mp h
  rw [FileTree.get?_concat, Option.bind_eq_some_iff] at hget
  obtain ⟨v, hv, hbelow⟩ := hget
  have hdir := FileTree.isDirectory_of_below? hbelow
  cases v with
  | file | link => cases hdir
  | directory es =>
    refine ⟨es, hv, reaches_iff.mpr ⟨hv, fun way hstarts hne => ?_⟩⟩
    have hproper : way ≠ init ++ [name] := by
      rintro rfl
      have hlong := hstarts.length_le
      rw [List.length_append, List.length_singleton] at hlong
      omega
    have hpart := hway way (hstarts.trans (List.prefix_append ..)) hne
    simpa [hproper, FileTree.isDirectory] using hpart

/-- A selected file is an entry of a directory. -/
theorem Selects.exists_concat (h : s.Selects tree file) (htree : tree.isDirectory = true) :
    ∃ init name, file = init ++ [name] := by
  obtain ⟨content, hcontent⟩ := h.isFile
  rcases List.eq_nil_or_concat' file with rfl | hfile
  · obtain rfl : tree = .file content := by simpa using hcontent
    cases htree
  · exact hfile

/-! ### The selection of a tree -/

/-- The root leads to a directory, which is well formed. -/
structure RootIs (s : Selection) (place : List String) (tree : FileTree) : Prop where
  found : s.disk.find false s.root = .ok (place, tree)
  isDirectory : tree.isDirectory = true
  wellFormed : tree.WellFormed

/-- Names in ascending order are told by which names there are. -/
theorem eq_of_ascending {a b : List (List String)} (ha : a.Pairwise (List.Lex (· < ·)))
    (hb : b.Pairwise (List.Lex (· < ·))) (h : ∀ names, names ∈ a ↔ names ∈ b) : a = b := by
  have hasymm : ∀ {x y : List String}, List.Lex (· < ·) x y → ¬List.Lex (· < ·) y x :=
    fun hxy hyx => absurd (List.lt_trans hxy hyx) (List.lt_irrefl _)
  have hirrefl : Std.Irrefl (List.Lex (· < · : String → String → Prop)) :=
    ⟨fun x hx => hasymm hx hx⟩
  have hanti : Std.Antisymm (List.Lex (· < · : String → String → Prop)) :=
    ⟨fun x y hxy hyx => absurd hyx (hasymm hxy)⟩
  exact List.Pairwise.eq_of_mem_iff ha hb h

/-- What the selection makes of what is found. -/
theorem files_of_found {found : Found} (h : s.found = .ok found) :
    s.files = .ok paths ↔ found.Clean ∧ found.paths = paths := by
  have hfiles : s.files =
      (found.unreadable?.or found.failure?).elim (.ok found.paths) .error := by
    rw [files, h]
    cases hor : found.unreadable?.or found.failure? <;>
      simp [bind, Except.bind, pure, Except.pure, throw, throwThe, MonadExceptOf.throw, hor]
  rw [hfiles, Found.Clean, ← Option.or_eq_none_iff]
  cases found.unreadable?.or found.failure? <;> simp

private theorem found_finds (h : s.RootIs place tree) :
    ∃ found, s.found = .ok found ∧ s.Finds [] (s.Reaches [] tree) found := by
  obtain ⟨entries, rfl⟩ : ∃ entries, tree = .directory entries := by
    have hd := h.isDirectory
    cases tree with
    | directory entries => exact ⟨entries, rfl⟩
    | file | link => cases hd
  have henter : s.InForce (s.withOwn (s.pathOf []) []).1 [] := .enter (by simp) (.inl ⟨rfl, rfl⟩)
  obtain ⟨hfinds, -⟩ := visitEntries_finds entries h.wellFormed (by simp) henter
  have hfound := visitDirectory_finds (s.withOwn_eq [] []).2 hfinds
  refine ⟨_, ?_, hfound⟩
  rw [found, h.found]
  simp only [visit]
  rw [show s.root = s.pathOf [] from rfl]
  cases unreadable? (s.pathOf []) <;> rfl

/-- A selection that succeeds is one of the directory at its root. -/
theorem rootIs_of_files (hroot : s.root = Path.ofPlace place) (hd : s.disk.Rooted)
    (hnames : ∀ n ∈ place, Disk.IsName n) (hclear : s.disk.Clear place)
    (htree : s.disk.root.get? place = some tree) (hdir : tree.isDirectory = true)
    (hshape : tree.WellFormed) (h : s.files = .ok paths) : s.RootIs place tree := by
  refine ⟨?_, hdir, hshape⟩
  rcases hfind : s.disk.find false s.root with cause | ⟨q, t⟩
  · simp [files, found, hfind, bind, Except.bind] at h
  · rw [hroot] at hfind
    obtain ⟨rfl, -, ht⟩ := (Disk.find_ofPlace hd hnames hclear).mp hfind
    rw [htree, Option.some.injEq] at ht
    rw [ht]

/-- The selection succeeds if every directory that is reached can be searched, and yields the files
that are selected, each once and in the order of their names. -/
theorem files_iff (h : s.RootIs place tree) : s.files = .ok paths ↔
    (∀ names u, s.Reaches [] tree names u → u.isDirectory = true → s.Opens names) ∧
      ∃ files : List (List String), paths = files.map s.pathOf ∧
        files.Pairwise (List.Lex (· < ·)) ∧ ∀ file, file ∈ files ↔ s.Selects tree file := by
  obtain ⟨found, hfound, hfinds⟩ := found_finds h
  rw [files_of_found hfound, hfinds.clean]
  simp only [List.nil_append]
  apply and_congr_right
  intro hopens
  obtain ⟨taken, hpaths, hsorted, hmem⟩ := hfinds.taken (hfinds.clean.mpr (by simpa using hopens))
  simp only [List.nil_append] at hpaths hmem
  simp only [← selects_iff h.wellFormed.named] at hmem
  constructor
  · rintro rfl
    exact ⟨taken, hpaths, hsorted, hmem⟩
  · rintro ⟨files, rfl, hsorted', hmem'⟩
    rw [hpaths, eq_of_ascending hsorted hsorted' fun names => (hmem names).trans (hmem' names).symm]

/-! ### The reach of an ignore file -/

/-- The path of the ignore file of a directory. -/
def ignorePath (s : Selection) (directory : List String) : String :=
  Path.join (s.pathOf directory) s.settings.ignoreFile

/-- The selection of the same project on another disk. -/
def onDisk (s : Selection) (d : Disk) : Selection := { s with disk := d }

/-- The ignore file at a place is that of a directory, and of no directory outside of it. It is no
file of the project outside of it either. -/
structure Owns (s : Selection) (place : List String) (tree : FileTree) (directory q : List String) :
    Prop where
  alone : ∀ other, tree.nodeAt? other = some .directory → ¬directory <+: other →
    s.disk.writePlace (s.ignorePath other) ≠ .ok q
  inside : ∀ file, place ++ file = q → directory <+: file

variable {d' : Disk} {directory other : List String} {tree' : FileTree} {paths' : List String}

private theorem isName_of_nodeAt? {n : Node} (h : s.RootIs place tree)
    (hn : tree.nodeAt? names = some n) :
    ∀ n ∈ names, Disk.IsName n := by
  obtain ⟨t, ht, -⟩ := Option.map_eq_some_iff.mp hn
  exact h.wellFormed.named names t ht

/-- An ignore file that is called by a single name stands in its directory. -/
theorem owns_of_noSlash (hd : s.disk.Rooted) (h : s.RootIs place tree) (hlinkless : tree.Linkless)
    (hslash : '/' ∉ s.settings.ignoreFile.toList)
    (hdirectory : tree.nodeAt? directory = some .directory)
    (hq : s.disk.writePlace (s.ignorePath directory) = .ok q) : s.Owns place tree directory q := by
  have hleads : s.disk.LeadsInto s.root place tree := ⟨h.found, h.isDirectory, hlinkless⟩
  obtain ⟨-, hown⟩ := hleads.writePlace_eq hd (isName_of_nodeAt? h hdirectory) hslash hq
  constructor
  · intro other hother hout hsame
    obtain ⟨-, hother⟩ := hleads.writePlace_eq hd (isName_of_nodeAt? h hother) hslash hsame
    rw [hown, List.append_left_inj, List.append_right_inj] at hother
    exact hout (hother ▸ List.prefix_refl _)
  · intro file hfile
    rw [hown, List.append_assoc, List.append_right_inj] at hfile
    exact ⟨_, hfile.symm⟩

/-- The rules of a directory are the same if its ignore file is. -/
theorem rulesOf_congr {directory : String}
    (hfile : d'.isFile (Path.join directory s.settings.ignoreFile) =
      s.disk.isFile (Path.join directory s.settings.ignoreFile))
    (hread : s.disk.isFile (Path.join directory s.settings.ignoreFile) = true →
      d'.readText (Path.join directory s.settings.ignoreFile) =
        s.disk.readText (Path.join directory s.settings.ignoreFile)) :
    (s.onDisk d').rulesOf directory = s.rulesOf directory := by
  rw [rulesOf, rulesOf]
  simp only [onDisk, hfile]
  split
  · next h => rw [hread h]
  · rfl

private theorem rulesOf_onDisk (hd : s.disk.Rooted) (hdiff : s.disk.DiffersAt q d')
    (hq : s.disk.writePlace (s.ignorePath other) ≠ .ok q) :
    (s.onDisk d').rulesOf (s.pathOf other) = s.rulesOf (s.pathOf other)  := by
  obtain ⟨hfile, hread⟩ := hdiff.readText_eq hd hq
  exact rulesOf_congr hfile hread

private theorem ignores_onDisk {isDirectory : Bool} (hd : s.disk.Rooted)
    (hdiff : s.disk.DiffersAt q d')
    (hq : s.disk.writePlace (s.ignorePath other) ≠ .ok q) :
    (s.onDisk d').Ignores other below isDirectory ↔ s.Ignores other below isDirectory := by
  have hrules : (s.onDisk d').rulesOf ((s.onDisk d').pathOf other) = s.rulesOf (s.pathOf other) :=
    rulesOf_onDisk hd hdiff hq
  rw [Ignores, Ignores, own?, own?, hrules]

/-- The root leads to the same place while the ignore file of a directory is changed, and what
stands outside of the directory is the same. -/
theorem RootIs.onDisk (hd : s.disk.Rooted) (h : s.RootIs place tree)
    (hdiff : s.disk.DiffersAt q d') (hshape : d'.root.WellFormed)
    (howns : s.Owns place tree directory q) :
    ∃ tree', (s.onDisk d').RootIs place tree' ∧
      ∀ file, ¬directory <+: file → tree'.nodeAt? file = tree.nodeAt? file := by
  have hnode : s.disk.root.nodeAt? place = some .directory := by
    rw [FileTree.nodeAt?, Disk.get?_of_find hd h.found, Option.map_some,
      FileTree.node_eq_directory.mpr h.isDirectory]
  have hne : place ≠ q := by
    rintro rfl
    obtain ⟨content, hcontent⟩ := hdiff.before _ hnode
    cases hcontent
  obtain ⟨tree', hsame, hfound⟩ := hdiff.find h.found hne
  have hget := Disk.get?_of_find (hdiff.rooted hd) hfound
  refine ⟨tree', ⟨hfound, ?_, hshape.of_get? hget⟩, fun file hout => ?_⟩
  · rw [← FileTree.node_eq_directory, hsame, FileTree.node_eq_directory]
    exact h.isDirectory
  · have hplace := hdiff.node (place ++ file) fun heq => hout (howns.inside file heq)
    rwa [FileTree.nodeAt?, FileTree.nodeAt?, FileTree.get?_append, FileTree.get?_append, hget,
      Disk.get?_of_find hd h.found] at hplace

/-- Changing the ignore file of a directory does not change which files are selected outside. -/
theorem selects_onDisk (hd : s.disk.Rooted) (hdiff : s.disk.DiffersAt q d')
    (howns : s.Owns place tree directory q)
    (hsame : ∀ file, ¬directory <+: file → tree'.nodeAt? file = tree.nodeAt? file)
    (hout : ¬directory <+: file) :
    (s.onDisk d').Selects tree' file ↔ s.Selects tree file := by
  have hfile : (∃ content, tree'.get? file = some (.file content)) ↔
      ∃ content, tree.get? file = some (.file content) := by
    simp only [← FileTree.nodeAt?_eq_file, hsame file hout]
  have hignores (hexists : ∃ content, tree.get? file = some (.file content))
      {around rest : List String} {isDirectory : Bool} (hstarts : around ++ rest <+: file)
      (hrest : rest ≠ []) : (s.onDisk d').Ignores around rest isDirectory ↔
        s.Ignores around rest isDirectory := by
    apply ignores_onDisk hd hdiff
    obtain ⟨content, hcontent⟩ := hexists
    obtain ⟨after, rfl⟩ := hstarts
    obtain ⟨first, rest, rfl⟩ := List.exists_cons_of_ne_nil hrest
    apply howns.alone around
    · rw [← FileTree.nodeAt?_eq_file, List.append_assoc] at hcontent
      exact FileTree.nodeAt?_dropLast hcontent
    · intro hbelow
      rw [List.append_assoc] at hout
      exact hout (hbelow.trans (List.prefix_append ..))
  constructor
  · rintro ⟨hexists, hsource, hentered, hunignored, hincluded⟩
    have hexists := hfile.mp hexists
    refine ⟨hexists, hsource, hentered, fun around rest hstarts hrest => ?_, hincluded⟩
    rw [← hignores hexists hstarts hrest]
    exact hunignored around rest hstarts hrest
  · rintro ⟨hexists, hsource, hentered, hunignored, hincluded⟩
    refine ⟨hfile.mpr hexists, hsource, hentered, fun around rest hstarts hrest => ?_, hincluded⟩
    rw [hignores hexists hstarts hrest]
    exact hunignored around rest hstarts hrest

private theorem pathOf_inj (hnames : ∀ n ∈ names, Path.Plain n) (hfile : ∀ n ∈ file, Path.Plain n)
    (h : s.pathOf names = s.pathOf file) : names = file := by
  have hcomponents := congrArg Path.components h
  rwa [pathOf, pathOf, Path.components_joinAll hnames, Path.components_joinAll hfile,
    List.append_right_inj] at hcomponents

/-- A path is among the selected ones if its file is selected. -/
theorem pathOf_mem_iff (h : s.RootIs place tree) (hfiles : s.files = .ok paths)
    (hfile : ∀ n ∈ file, Path.Plain n) : s.pathOf file ∈ paths ↔ s.Selects tree file := by
  obtain ⟨-, files, rfl, -, hmem⟩ := (files_iff h).mp hfiles
  rw [List.mem_map, ← hmem]
  constructor
  · rintro ⟨names, hnames, heq⟩
    obtain ⟨content, hcontent⟩ := ((hmem names).mp hnames).isFile
    rwa [← pathOf_inj (fun n hn => (h.wellFormed.named names _ hcontent n hn).plain) hfile heq]
  · intro hselected
    exact ⟨file, hselected, rfl⟩

/-- A selection that succeeds yields exactly the files that are selected, each once and in the order
of their names. Whatever is done to the ignore file of a directory that owns it, the selection of
the files outside of the directory is the same; a directory owns its ignore file if that is called
by a single name. -/
theorem files_exact (hd : s.disk.Rooted) (h : s.RootIs place tree) (hlinkless : tree.Linkless)
    (hfiles : s.files = .ok paths) :
    (∃ files : List (List String), paths = files.map s.pathOf ∧
      files.Pairwise (List.Lex (· < ·)) ∧ ∀ file, file ∈ files ↔ s.Selects tree file) ∧
    ∀ directory q d' paths', tree.nodeAt? directory = some .directory →
      s.disk.writePlace (s.ignorePath directory) = .ok q →
      ('/' ∉ s.settings.ignoreFile.toList ∨ s.Owns place tree directory q) →
      s.disk.DiffersAt q d' → d'.root.WellFormed → (s.onDisk d').files = .ok paths' →
      ∀ file, (∀ n ∈ file, Disk.IsName n) → ¬directory <+: file →
        (s.pathOf file ∈ paths' ↔ s.pathOf file ∈ paths) := by
  constructor
  · exact ((files_iff h).mp hfiles).2
  · intro directory q d' paths' hdirectory hq howns hdiff hshape hfiles' file hfile hout
    have howns : s.Owns place tree directory q :=
      howns.elim (fun hslash => owns_of_noSlash hd h hlinkless hslash hdirectory hq) id
    obtain ⟨tree', h', hsame⟩ := h.onDisk hd hdiff hshape howns
    have hplain : ∀ n ∈ file, Path.Plain n := fun n hn => (hfile n hn).plain
    rw [pathOf_mem_iff h hfiles hplain, ← selects_onDisk hd hdiff howns hsame hout]
    exact pathOf_mem_iff h' hfiles' hplain

/-- A project of two directories. The first one holds a file `.incoignore`, and beside both of them
stands a file `shared`. -/
def twoDirectories (ignoreFile own shared : String) : Selection where
  disk := { root := .directory [
    ("a", .directory [(".incoignore", .file (.text own)), ("a.go", .file (.text "package p\n"))]),
    ("b", .directory [("b.go", .file (.text "package p\n"))]),
    ("shared", .file (.text shared))] }
  root := "/"
  settings := { ignoreFile }

private theorem wellFormed_twoDirectories (ignoreFile own shared : String) :
    (twoDirectories ignoreFile own shared).disk.root.WellFormed := by
  simp only [twoDirectories, FileTree.wellFormed_directory, Keyed.Ascending.iff_keys, List.map_cons,
    List.map_nil, List.forall_mem_cons, List.not_mem_nil, false_implies, implies_true, and_true,
    FileTree.wellFormed_file]
  decide

/-- The selection from two directories of which one is ignored. -/
theorem files_exact_twoDirectories :
    let s := twoDirectories ".incoignore" "" ""
    let s' := twoDirectories ".incoignore" "a.go\n" ""
    s'.files = .ok ["/b/b.go"] ∧
    (∃ files : List (List String), ["/a/a.go", "/b/b.go"] = files.map s.pathOf ∧
      files.Pairwise (List.Lex (· < ·)) ∧ ∀ file, file ∈ files ↔ s.Selects s.disk.root file) ∧
    (s.pathOf ["b", "b.go"] ∈ ["/b/b.go"] ↔ s.pathOf ["b", "b.go"] ∈ ["/a/a.go", "/b/b.go"]) := by
  intro s s'
  have hd : s.disk.Rooted := rfl
  have hfiles : s.files = .ok ["/a/a.go", "/b/b.go"] := by decide +kernel
  have hfiles' : s'.files = .ok ["/b/b.go"] := by decide +kernel
  have hlinkless : s.disk.root.Linkless := by
    apply FileTree.linkless_directory
    simp +decide [FileTree.linkless_directory]
  have hq : s.disk.writePlace (s.ignorePath ["a"]) = .ok ["a", ".incoignore"] := by decide +kernel
  have hroot : s.RootIs [] s.disk.root :=
    ⟨s.disk.find_slash, rfl, wellFormed_twoDirectories ".incoignore" "" ""⟩
  obtain ⟨hexact, hscoped⟩ := files_exact hd hroot hlinkless hfiles
  refine ⟨hfiles', hexact, ?_⟩
  exact hscoped ["a"] ["a", ".incoignore"] s'.disk _ rfl hq (.inl (by decide))
    (Disk.DiffersAt.of_put (Disk.writable_of_writePlace hd hq))
    (wellFormed_twoDirectories ".incoignore" "a.go\n" "") hfiles' ["b", "b.go"] (by decide)
    (by decide)

/-- Where two directories share an ignore file, changing that of the one leaves out a file of the
other. -/
theorem twoDirectories_share :
    let s := twoDirectories "../shared" "" ""
    let s' := twoDirectories "../shared" "" "b.go\n"
    s.disk.writePlace (s.ignorePath ["a"]) = .ok ["shared"] ∧
      s.disk.put ["shared"] "b.go\n" = s'.disk ∧ ¬["a"] <+: ["b", "b.go"] ∧
      s.files = .ok ["/a/a.go", "/b/b.go"] ∧ s'.files = .ok ["/a/a.go"] := by
  intro s s'
  refine ⟨?_, rfl, ?_, ?_, ?_⟩ <;> decide +kernel

end GoContracts.Selection

/-!
## Changes where nothing is searched

The directory of generated files is not searched. What is selected stays the same while a disk
changes there, and while directories are made on the way to it.
-/

namespace GoContracts.Selection

variable {s : Selection} {d' : Disk} {tree tree' u : FileTree}
  {cache place names file init above below : List String} {name : String} {paths : List String}
  {isDirectory : Bool}

/-- Outside of a directory that is not searched, both disks have the same files and rules. -/
structure AgreesOutside (s : Selection) (d' : Disk) (cache : List String) (tree tree' : FileTree) :
    Prop where
  ne_nil : cache ≠ []
  unsearched : Path.same (s.pathOf cache) s.cacheDirectory = true
  isDirectory : tree.isDirectory = true
  isDirectory' : tree'.isDirectory = true
  named : tree.Named
  named' : tree'.Named
  files : ∀ init name content, ¬cache <+: init →
    (tree'.get? (init ++ [name]) = some (.file content) ↔
      tree.get? (init ++ [name]) = some (.file content))
  rules : ∀ directory, (∀ n ∈ directory, Disk.IsName n) → ¬cache <+: directory →
    (s.onDisk d').rulesOf (s.pathOf directory) = s.rulesOf (s.pathOf directory)

namespace AgreesOutside

private theorem symm (h : s.AgreesOutside d' cache tree tree') :
    (s.onDisk d').AgreesOutside s.disk cache tree' tree where
  ne_nil := h.ne_nil
  unsearched := h.unsearched
  isDirectory := h.isDirectory'
  isDirectory' := h.isDirectory
  named := h.named'
  named' := h.named
  files init name content hout := (h.files init name content hout).symm
  rules directory hnames hout := (h.rules directory hnames hout).symm

private theorem ignores_iff (h : s.AgreesOutside d' cache tree tree')
    (hnames : ∀ n ∈ above, Disk.IsName n) (hout : ¬cache <+: above) :
    (s.onDisk d').Ignores above below isDirectory ↔ s.Ignores above below isDirectory := by
  have hrules : (s.onDisk d').rulesOf ((s.onDisk d').pathOf above) = s.rulesOf (s.pathOf above) :=
    h.rules above hnames hout
  rw [Ignores, Ignores, own?, own?, hrules]

/-- A file that is selected on the one disk is selected on the other. -/
theorem selects (h : s.AgreesOutside d' cache tree tree') (hfile : s.Selects tree file) :
    (s.onDisk d').Selects tree' file := by
  obtain ⟨init, name, rfl⟩ := hfile.exists_concat h.isDirectory
  obtain ⟨⟨content, hcontent⟩, hsource, hentered, hunignored, hincluded⟩ := hfile
  have hout : ¬cache <+: init := by
    intro hbelow
    have hproper : cache ≠ init ++ [name] := by
      rintro rfl
      have hlong := hbelow.length_le
      rw [List.length_append, List.length_singleton] at hlong
      omega
    have hsame := (hentered cache (hbelow.trans (List.prefix_append ..)) h.ne_nil hproper).2.2
    rw [h.unsearched] at hsame
    cases hsame
  refine ⟨⟨content, (h.files init name content hout).mpr hcontent⟩, hsource, hentered,
    ?_, hincluded⟩
  intro directory rest hstarts hrest hignores
  apply hunignored directory rest hstarts hrest
  have habove : directory <+: init := by
    obtain ⟨after, hall⟩ := hstarts
    rw [List.append_assoc] at hall
    have hproper : directory ≠ init ++ [name] := by
      rintro rfl
      simp [hrest] at hall
    have hprefix : directory <+: init ++ [name] := ⟨_, hall⟩
    exact (List.prefix_concat_iff.mp hprefix).resolve_left hproper
  rwa [h.ignores_iff ?_ fun hcache => hout (hcache.trans habove)] at hignores
  intro n hn
  exact h.named _ _ hcontent n (List.mem_append_left _ (habove.subset hn))

/-- A directory that is reached on the other disk is reached on this one if it stands there. -/
theorem reaches (h : s.AgreesOutside d' cache tree tree')
    (hreached : (s.onDisk d').Reaches [] tree' names u) (hu : u.isDirectory = true) :
    ¬cache <+: names ∧ ∀ v, tree.get? names = some v → v.isDirectory = true →
      s.Reaches [] tree names v := by
  obtain ⟨hget, hway⟩ := reaches_iff.mp hreached
  rw [hu] at hway
  simp only [List.nil_append, Bool.or_true] at hway
  have hout : ¬cache <+: names := by
    intro hbelow
    apply hway cache hbelow h.ne_nil
    left
    refine ⟨rfl, ?_⟩
    rw [skips, Bool.or_eq_true]
    exact .inr h.unsearched
  refine ⟨hout, fun v hv hdirectory => reaches_iff.mpr ⟨hv, fun way hstarts hne hleaves => ?_⟩⟩
  rw [hdirectory, Bool.or_true, List.nil_append] at hleaves
  apply hway way hstarts hne
  rcases hleaves with hskips | ⟨above, below, rfl, hbelow, hignores⟩
  · exact .inl hskips
  · refine .inr ⟨above, below, rfl, hbelow, ?_⟩
    have habove : above <+: names := (List.prefix_append ..).trans hstarts
    rw [h.ignores_iff ?_ fun hcache => hout (hcache.trans habove)]
    · exact hignores
    · exact fun n hn => h.named _ _ hv n (habove.subset hn)

/-- The selection is the same if the directories that have been made can be searched. -/
theorem files_eq (h : s.AgreesOutside d' cache tree tree') (hroot : s.RootIs place tree)
    (hroot' : (s.onDisk d').RootIs place tree') (hfiles : s.files = .ok paths)
    (hmade : ∀ names, ¬cache <+: names → tree'.nodeAt? names = some .directory →
      tree.nodeAt? names ≠ some .directory → (s.onDisk d').Opens names) :
    (s.onDisk d').files = .ok paths := by
  obtain ⟨hopens, files, hpaths, hsorted, hmem⟩ := (files_iff hroot).mp hfiles
  rw [files_iff hroot']
  constructor
  · intro names u hreached hu
    obtain ⟨hout, hback⟩ := h.reaches hreached hu
    have hget := (reaches_iff.mp hreached).1
    have hnode : tree'.nodeAt? names = some .directory := by
      rw [FileTree.nodeAt?, hget, Option.map_some, FileTree.node_eq_directory.mpr hu]
    by_cases hold : tree.nodeAt? names = some .directory
    · obtain ⟨es, hes⟩ := FileTree.nodeAt?_eq_directory.mp hold
      obtain ⟨hshort, hrules⟩ := hopens names _ (hback _ hes rfl) rfl
      refine ⟨hshort, ?_⟩
      rwa [← h.rules names (h.named names _ hes) hout] at hrules
    · exact hmade names hout hnode hold
  · refine ⟨files, hpaths, hsorted, fun file => ?_⟩
    rw [hmem]
    exact ⟨h.selects, fun hselects => h.symm.selects hselects⟩

end AgreesOutside

end GoContracts.Selection

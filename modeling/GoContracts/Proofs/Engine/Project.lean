import GoContracts.Proofs.Engine.Generating
import GoContracts.Proofs.Engine.Used
import GoContracts.Proofs.Selection.Selected

/-!
# The project of an engine

An engine is created for a directory of a disk, the directory of generated files being below it. The
files that it selects stand outside of the directory of generated files.
-/

namespace GoContracts

/-- The directory of generated files is the one to which the given names lead from the root. -/
structure Settings.CachesBelow (s : Settings) (names : List String) : Prop where
  relative : Path.isAbsolute s.cacheDirectory = false
  spelled : Path.spelled s.cacheDirectory = names
  ne_nil : names ≠ []
  noUp : ".." ∉ Text.splitAt '/' s.cacheDirectory

namespace Engine

open Package (StandsAt StandsOutside)
open Session (Generated compile compile_generates process publish publish_generates run run_eq
  shadowsOf start)

variable {e : Engine} {d d' : Disk} {path : String} {place cache names file init : List String}
  {tree u : FileTree} {name : String} {paths : List String}

/-- The engine as it is created for the project at a path, with settings that are given or found. -/
def Created (e : Engine) (d : Disk) (path : String) : Prop :=
  (∃ settings, withSettings d path settings = .ok e) ∨ discover d path = .ok e

private theorem Created.fresh (h : e.Created d path) : e.Fresh :=
  h.elim (fun ⟨_, h⟩ => fresh_of_withSettings h) fresh_of_discover

/-- The canonical root is the path of the place that the given path leads to. -/
theorem canonicalRoot_eq_ok {root : String} : canonicalRoot d path = .ok root ↔
    ∃ place tree, d.find true path = .ok (place, tree) ∧ Path.ofPlace place = root := by
  rw [canonicalRoot, Disk.canonical]
  rcases d.find true path with cause | ⟨place, tree⟩ <;>
    simp [bind, Except.bind, pure, Except.pure]

/-- An engine with given settings is one at the canonical root. -/
theorem withSettings_eq_ok {settings : Settings} : withSettings d path settings = .ok e ↔
    ∃ root, canonicalRoot d path = .ok root ∧ e = { root, settings } := by
  rw [withSettings]
  cases canonicalRoot d path <;> simp [bind, Except.bind, pure, Except.pure, eq_comm]

/-- A discovered engine has the settings that are found at the canonical root. -/
theorem discover_eq_ok : discover d path = .ok e ↔ ∃ root settings,
    canonicalRoot d path = .ok root ∧ Settings.discover d root = .ok settings ∧
      e = { root, settings } := by
  rw [discover]
  cases canonicalRoot d path with
  | error f => simp [bind, Except.bind]
  | ok root =>
    cases hsettings : Settings.discover d root <;>
      simp [hsettings, bind, Except.bind, pure, Except.pure, eq_comm]

private theorem Created.root (h : e.Created d path) : canonicalRoot d path = .ok e.root := by
  rcases h with ⟨settings, h⟩ | h
  · obtain ⟨root, hroot, rfl⟩ := withSettings_eq_ok.mp h
    exact hroot
  · obtain ⟨root, settings, hroot, -, rfl⟩ := discover_eq_ok.mp h
    exact hroot

/-- An engine as it is created for a directory without links, with a directory for generated files
below it. -/
structure Located (e : Engine) (d : Disk) (path : String) (place cache : List String)
    (tree : FileTree) : Prop where
  rooted : d.Rooted
  wellFormed : d.root.WellFormed
  created : e.Created d path
  found : d.find true path = .ok (place, tree)
  isDirectory : tree.isDirectory = true
  linkless : tree.Linkless
  caches : e.settings.CachesBelow cache

namespace Located

/-- The root of a located engine is the path of its place. -/
theorem root (h : e.Located d path place cache tree) : e.root = Path.ofPlace place := by
  obtain ⟨q, t, hfound, hroot⟩ := canonicalRoot_eq_ok.mp h.created.root
  rw [h.found, Except.ok.injEq, Prod.mk.injEq] at hfound
  rw [← hroot, hfound.1]

/-- The tree of a located engine stands at its place. -/
theorem get? (h : e.Located d path place cache tree) : d.root.get? place = some tree :=
  Disk.get?_of_find h.rooted h.found

/-- What stands below the place of a located engine stands in its tree. -/
theorem get?_append (h : e.Located d path place cache tree) :
    d.root.get? (place ++ names) = tree.get? names := by
  rw [FileTree.get?_append, h.get?, Option.bind_some]

/-- The nodes below the place of a located engine are those of its tree. -/
theorem nodeAt?_append (h : e.Located d path place cache tree) :
    d.root.nodeAt? (place ++ names) = tree.nodeAt? names := by
  rw [FileTree.nodeAt?, h.get?_append, FileTree.nodeAt?]

/-- The place of a located engine consists of names. -/
theorem isName (h : e.Located d path place cache tree) : ∀ n ∈ place, Disk.IsName n :=
  h.wellFormed.named place tree h.get?

private theorem plain (h : e.Located d path place cache tree) : ∀ n ∈ place, Path.Plain n :=
  fun n hn => (h.isName n hn).plain

/-- The tree of a located engine is well formed. -/
theorem wellFormed_tree (h : e.Located d path place cache tree) : tree.WellFormed :=
  h.wellFormed.of_get? h.get?

/-- No links lead out of the tree of a located engine. -/
theorem clear (h : e.Located d path place cache tree) : d.Clear (place ++ names) :=
  Disk.clear_of_linkless h.get? h.linkless

/-- A file of the tree has the path of its place. -/
theorem pathOf (h : e.Located d path place cache tree) (hnames : ∀ n ∈ names, Path.Plain n) :
    (e.selection d).pathOf names = Path.ofPlace (place ++ names) := by
  rw [Selection.pathOf, selection]
  simp only [h.root]
  apply Path.joinAll_ofPlace
  intro n hn
  rcases List.mem_append.mp hn with hn | hn
  · exact h.plain n hn
  · exact hnames n hn

/-! ### The directory of generated files -/

/-- The cache directory is spelled as its place. -/
theorem spelled_cacheDirectory (h : e.Located d path place cache tree) :
    Path.spelled e.cacheDirectory = place ++ cache := by
  rw [cacheDirectory, Settings.cacheDirectoryIn, Path.spelled_join h.caches.relative, h.root,
    Path.spelled_ofPlace h.plain, h.caches.spelled]

/-- The cache directory goes down to its place. -/
theorem goesDown (h : e.Located d path place cache tree) :
    Disk.GoesDown e.cacheDirectory (place ++ cache) := by
  rw [← h.spelled_cacheDirectory]
  refine ⟨?_, fun hup => ?_, List.prefix_refl _⟩
  · rw [cacheDirectory, Settings.cacheDirectoryIn, h.root]
    exact Path.isAbsolute_join Path.isAbsolute_ofPlace
  · obtain ⟨before, hjoin, hbase⟩ := Path.pieces_join e.root h.caches.relative
    rw [cacheDirectory, Settings.cacheDirectoryIn, hjoin] at hup
    rcases List.mem_append.mp hup with hup | hup
    · have hroot : Disk.GoesDown e.root place := by
        rw [h.root]
        exact Disk.goesDown_ofPlace fun n hn => ⟨h.plain n hn, (h.isName n hn).ne_up⟩
      apply hroot.noUp
      rcases hbase with hbase | hbase <;> rw [hbase]
      · exact hup
      · exact List.mem_append_left _ hup
    · exact h.caches.noUp hup

private theorem plain_cache (h : e.Located d path place cache tree) :
    ∀ n ∈ cache, Path.Plain n := by
  intro n hn
  have hplain := h.goesDown.plain n
  rw [h.spelled_cacheDirectory] at hplain
  exact (hplain (List.mem_append_right _ hn)).1

/-- The first session of a located engine writes into its cache. -/
theorem writesAt (h : e.Located d path place cache tree) :
    (Session.start e d).opened.WritesAt (place ++ cache) where
  rooted := h.rooted
  goesDown := h.goesDown
  spelled := h.spelled_cacheDirectory
  clear below := by
    rw [List.append_assoc]
    exact h.clear

/-- The directory of generated files is not searched. -/
theorem same_cacheDirectory (h : e.Located d path place cache tree) :
    Path.same ((e.selection d).pathOf cache) (e.selection d).cacheDirectory = true := by
  have habs : Path.isAbsolute e.cacheDirectory = true := h.goesDown.isAbsolute
  have hall : ∀ n ∈ place ++ cache, Path.Plain n := by
    intro n hn
    rcases List.mem_append.mp hn with hn | hn
    · exact h.plain n hn
    · exact h.plain_cache n hn
  change Path.same _ e.cacheDirectory = true
  rw [h.pathOf h.plain_cache, Path.same_iff Path.isAbsolute_ofPlace habs, Path.spelled_ofPlace hall,
    h.spelled_cacheDirectory]

/-! ### The selected files -/

/-- The selection of a located engine has its tree at the root. -/
theorem rootIs (h : e.Located d path place cache tree)
    (hfiles : (e.selection d).files = .ok paths) :
    (e.selection d).RootIs place tree := by
  have hclear : d.Clear (place ++ []) := h.clear
  rw [List.append_nil] at hclear
  exact Selection.rootIs_of_files h.root h.rooted h.isName hclear h.get? h.isDirectory
    h.wellFormed_tree hfiles

/-- No selected file is below the directory of generated files. -/
theorem outside (h : e.Located d path place cache tree) (hfile : (e.selection d).Selects tree file)
    (hbelow : cache <+: file) : file = cache := by
  by_contra hne
  obtain ⟨-, -, hsame⟩ := hfile.entered cache hbelow h.caches.ne_nil (Ne.symm hne)
  rw [h.same_cacheDirectory] at hsame
  cases hsame

/-- The files are selected in order, each once. -/
theorem selected (h : e.Located d path place cache tree)
    (hfiles : (e.selection d).files = .ok paths) :
    ∃ files : List (List String), paths = files.map (fun file => Path.ofPlace (place ++ file)) ∧
      files.Pairwise (List.Lex (· < ·)) ∧
      ∀ file, file ∈ files ↔ (e.selection d).Selects tree file := by
  obtain ⟨-, files, rfl, hsorted, hmem⟩ := (Selection.files_iff (h.rootIs hfiles)).mp hfiles
  refine ⟨files, ?_, hsorted, hmem⟩
  apply List.map_congr_left
  intro file hfile
  obtain ⟨content, hcontent⟩ := ((hmem file).mp hfile).isFile
  exact h.pathOf fun n hn => (h.wellFormed_tree.named file _ hcontent n hn).plain

/-- A selected file stands in a directory that can be read, outside of the one of generated
files. -/
theorem standsAt (h : e.Located d path place cache tree)
    (hfiles : (e.selection d).files = .ok paths)
    (hfile : (e.selection d).Selects tree file) : ∃ init name es, file = init ++ [name] ∧
      tree.get? init = some (.directory es) ∧ StandsAt d (place ++ init) es ∧
        ¬place ++ cache <+: place ++ init := by
  obtain ⟨init, name, rfl⟩ := hfile.exists_concat h.isDirectory
  obtain ⟨u, hreached, -⟩ := (Selection.selects_iff h.wellFormed_tree.named).mp hfile
  obtain ⟨es, hes, hdirectory⟩ := hreached.parent
  have hopens := ((Selection.files_iff (h.rootIs hfiles)).mp hfiles).1 init _ hdirectory rfl
  have hget : d.root.get? (place ++ init) = some (.directory es) := h.get?_append.trans hes
  have hshape := h.wellFormed.of_get? hget
  have hentries := (FileTree.wellFormed_directory.mp hshape).2
  have hnames := h.wellFormed.named (place ++ init) _ hget
  refine ⟨init, name, es, rfl, hes, ⟨h.rooted, hnames, fun below => ?_, ?_, hget,
    hshape.ordered [] es rfl, ?_, ?_⟩, fun hbelow => ?_⟩
  · rw [List.append_assoc]
    exact h.clear
  · have hshort := hopens.1
    rw [h.pathOf fun n hn => (hnames n (List.mem_append_right _ hn)).plain,
      Selection.unreadable?] at hshort
    simpa using hshort
  · exact fun entry hentry => ⟨(hentries entry hentry).1.plain, (hentries entry hentry).1.ne_up⟩
  · exact fun entry hentry _ => (hentries entry hentry).1
  · have hbelow := (List.prefix_append_right_inj place).mp hbelow
    have heq := h.outside hfile (hbelow.trans (List.prefix_append ..))
    rw [← heq] at hbelow
    have hlong := hbelow.length_le
    rw [List.length_append, List.length_singleton] at hlong
    omega

/-- The files that a located engine selects stand outside of its cache. -/
theorem standsOutside (h : e.Located d path place cache tree)
    (hfiles : (e.selection d).files = .ok paths) :
    ∀ path ∈ paths, StandsOutside d (place ++ cache) path := by
  intro path hpath
  obtain ⟨files, rfl, -, hmem⟩ := h.selected hfiles
  obtain ⟨file, hfile, rfl⟩ := List.mem_map.mp hpath
  have hselected := (hmem file).mp hfile
  obtain ⟨init, name, es, rfl, -, hstands, hout⟩ := h.standsAt hfiles hselected
  obtain ⟨content, hcontent⟩ := hselected.isFile
  refine ⟨place ++ init, name, es, by rw [List.append_assoc], ?_, hstands, hout⟩
  exact (h.wellFormed_tree.named _ _ hcontent name (by simp)).plain

/-! ### The run -/

end Located

/-- How a run of an engine ends, with its result and the disk that it leaves. The selection fails, a
file fails, or the manifest cannot be written; otherwise all files have been compiled. -/
inductive Ran (e : Engine) (d : Disk) (cache : List String) : Except Failure Manifest → Disk → Prop
  | unselected {f} (hfiles : (e.selection d).files = .error f) : Ran e d cache (.error f) d
  | unprocessed {f before path rest mid t}
    (hfiles : (e.selection d).files = .ok (before ++ path :: rest))
    (hmid : Generated (start e d).opened cache before mid)
    (hfails : process path mid = (.error f, t)) : Ran e d cache (.error f) t.disk
  | unpublished {f paths t u} (hfiles : (e.selection d).files = .ok paths)
    (ht : Generated (start e d).opened cache paths t)
    (hfails : publish t.forgotten = (.error f, u)) : Ran e d cache (.error f) u.disk
  | unmapped {paths t} (hfiles : (e.selection d).files = .ok paths)
    (ht : Generated (start e d).opened cache paths t)
    (hempty : t.engine.manifest.isEmpty = true) : Ran e d cache (.ok t.engine.manifest) t.disk
  | published {paths t d'} (hfiles : (e.selection d).files = .ok paths)
    (ht : Generated (start e d).opened cache paths t) (hempty : t.engine.manifest.isEmpty = false)
    (hwritten : Disk.Generates cache [(cache ++ [Manifest.fileName], t.engine.manifest.render)]
      t.disk d') : Ran e d cache (.ok t.engine.manifest) d'

/-- The shadows of the files are mapped. -/
theorem Located.manifest_eq {t : Session} (h : e.Located d path place cache tree)
    (ht : Generated (start e d).opened (place ++ cache) paths t) :
    t.engine.manifest = ({} : Manifest).recordAll ((shadowsOf d e.root paths).map
      fun shadow => (shadow.1, Shadow.pathIn e.cacheDirectory shadow)) := by
  have hmanifest := ht.compiled.manifest
  change t.engine.manifest = e.manifest.recordAll _ at hmanifest
  rw [h.created.fresh.manifest] at hmanifest
  exact hmanifest

/-- The files are compiled as the disk had them when the run began. -/
theorem Located.ran (h : e.Located d path place cache tree) :
    e.Ran d (place ++ cache) (run (start e d)).1 (run (start e d)).2.disk := by
  rw [run_eq]
  simp only [start]
  cases hfiles : (e.selection d).files with
  | error f => exact .unselected hfiles
  | ok paths =>
    rcases hcompile : compile paths (start e d).opened with ⟨r, t⟩
    have hgenerated := compile_generates h.writesAt h.wellFormed.ordered h.created.fresh.packages
      (h.standsOutside hfiles) hcompile
    simp only [start] at hcompile
    simp only [hcompile]
    rcases hgenerated with ⟨rfl, ht⟩ | ⟨f, before, path, rest, mid, rfl, rfl, hmid, hfails⟩
    · have hforgotten : t.forgotten.WritesAt (place ++ cache) := by
        obtain ⟨hrooted, hdown, hspelled, hclear⟩ := h.writesAt.follows ht.compiled.follows
        exact ⟨hrooted, hdown, hspelled, hclear⟩
      rcases hpublish : publish t.forgotten with ⟨f | u, v⟩
      · simp only [hpublish]
        exact .unpublished hfiles ht hpublish
      · obtain ⟨hengine, hdisk⟩ := publish_generates hforgotten hpublish
        simp only [hpublish, hengine]
        rcases hdisk with ⟨hempty, hdisk⟩ | ⟨hempty, hwritten⟩
        · rw [hdisk]
          exact Ran.unmapped (t := t) hfiles ht hempty
        · exact Ran.published (t := t) hfiles ht hempty hwritten
    · exact Ran.unprocessed (t := t) hfiles hmid hfails

end Engine

end GoContracts

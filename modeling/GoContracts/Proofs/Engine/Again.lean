import GoContracts.Proofs.Engine.Exact
import GoContracts.Proofs.Path
import GoContracts.Proofs.Selection.Selected
import Mathlib.Data.List.Find

/-!
# Generating anew

What a run has generated is never selected, loaded or taken for an ignore file or for settings. So
an engine that is created anew on the disk that a run leaves does the same once more, and the disk
stays as it is.
-/

namespace GoContracts

/-- The settings that are found depend on the files that may hold them. -/
theorem Settings.discover_congr {d d' : Disk} {root : String}
    (h : ∀ name ∈ fileNames, d'.isFile (Path.join root name) = d.isFile (Path.join root name) ∧
      (d.isFile (Path.join root name) = true →
        d'.readText (Path.join root name) = d.readText (Path.join root name))) :
    discover d' root = discover d root := by
  have hfind : find? d' root = find? d root := by
    rw [find?, find?, List.find?_map, List.find?_map]
    exact congrArg _ (List.find?_congr fun name hname => (h name hname).1)
  rw [discover, hfind, discover]
  cases hpath : find? d root with
  | none => rfl
  | some path =>
    have hfile := List.find?_some hpath
    obtain ⟨name, hname, rfl⟩ := List.mem_map.mp (List.mem_of_find?_eq_some hpath)
    simp only [load, (h name hname).2 hfile]

namespace Engine

open Package (StandsOutside shadowIn?)
open Session (Generated directoryOf process publish run shadowsOf start writesOf)

variable {e : Engine} {d d' : Disk} {path q : String} {place cache names file : List String}
  {tree tree' : FileTree} {paths before rest : List String} {mid t after : Session} {m : Manifest}
  {writes : List (List String × String)} {f : Failure}

/-! ### The project that is found again -/

/-- A project before and after files have been generated for it. -/
structure Refound (e : Engine) (d d' : Disk) (path : String) (place cache : List String)
    (tree tree' : FileTree) (writes : List (List String × String)) : Prop where
  earlier : e.Located d path place cache tree
  later : e.Located d' path place cache tree'
  generates : Disk.Generates (place ++ cache) writes d d'
  writes : ∀ p text, (p, text) ∈ writes → ∃ n, p = place ++ cache ++ [n]
  slashless : '/' ∉ e.settings.ignoreFile.toList
  short : Text.size (Path.ofPlace (place ++ cache)) < Disk.pathLimit

/-- Outside of the directory of generated files, files read as they did. -/
theorem Located.readText_outside (h : e.Located d path place cache tree)
    (hg : Disk.Generates (place ++ cache) writes d d')
    (hwrites : ∀ p text, (p, text) ∈ writes → ∃ n, p = place ++ cache ++ [n])
    (hnames : ∀ n ∈ names, Disk.IsName n) (hout : ¬cache <+: names) {name : String}
    (hslash : '/' ∉ name.toList) :
    d'.isFile (Path.join (Path.ofPlace (place ++ names)) name) =
        d.isFile (Path.join (Path.ofPlace (place ++ names)) name) ∧
      (d.isFile (Path.join (Path.ofPlace (place ++ names)) name) = true →
        d'.readText (Path.join (Path.ofPlace (place ++ names)) name) =
          d.readText (Path.join (Path.ofPlace (place ++ names)) name)) := by
  apply hg.readText_outside h.rooted hwrites
  · rwa [List.prefix_append_right_inj]
  · intro n hn
    exact (List.mem_append.mp hn).elim (h.isName n) (hnames n)
  · intro below
    rw [List.append_assoc]
    exact h.clear
  · exact hslash

/-- The engine is created anew as it was. -/
theorem Located.created_again (h : e.Located d path place cache tree)
    (hg : Disk.Generates (place ++ cache) writes d d')
    (hwrites : ∀ p text, (p, text) ∈ writes → ∃ n, p = place ++ cache ++ [n]) :
    (∀ settings, withSettings d path settings = .ok e → withSettings d' path settings = .ok e) ∧
      (discover d path = .ok e → discover d' path = .ok e) := by
  obtain ⟨t, ht⟩ := hg.grown.find h.found
  have hroot : canonicalRoot d' path = .ok e.root :=
    canonicalRoot_eq_ok.mpr ⟨place, t, ht, h.root.symm⟩
  constructor
  · intro settings hwith
    obtain ⟨root, hcanonical, rfl⟩ := withSettings_eq_ok.mp hwith
    exact withSettings_eq_ok.mpr ⟨root, hroot, rfl⟩
  · intro hdiscover
    obtain ⟨root, settings, hcanonical, hsettings, rfl⟩ := discover_eq_ok.mp hdiscover
    refine discover_eq_ok.mpr ⟨root, settings, hroot, ?_, rfl⟩
    rw [← hsettings]
    apply Settings.discover_congr
    intro name hname
    have hslash : '/' ∉ name.toList := by
      rcases List.mem_cons.mp hname with rfl | hname
      · decide
      · rw [List.mem_singleton.mp hname]
        decide
    have hnil : ∀ n ∈ ([] : List String), Disk.IsName n := by simp
    have hread := h.readText_outside hg hwrites hnil
      (fun hbelow => h.caches.ne_nil (List.prefix_nil.mp hbelow)) hslash
    rw [List.append_nil] at hread
    have hplace : root = Path.ofPlace place := h.root
    rwa [hplace]

private theorem Located.again (h : e.Located d path place cache tree)
    (hg : Disk.Generates (place ++ cache) writes d d')
    (hwrites : ∀ p text, (p, text) ∈ writes → ∃ n, p = place ++ cache ++ [n])
    (hnamed : d'.root.Named) : ∃ tree', e.Located d' path place cache tree' := by
  obtain ⟨hwith, hdiscover⟩ := h.created_again hg hwrites
  obtain ⟨tree', hfound⟩ := hg.grown.find h.found
  have hrooted := hg.grown.rooted h.rooted
  have hget := Disk.get?_of_find hrooted hfound
  refine ⟨tree', hrooted, ⟨hg.ordered h.wellFormed.ordered, hnamed⟩, ?_, hfound, ?_, ?_, h.caches⟩
  · exact h.created.imp (fun ⟨settings, hcreated⟩ => ⟨settings, hwith settings hcreated⟩) hdiscover
  · have hnode : d.root.nodeAt? place = some .directory := by
      rw [FileTree.nodeAt?, h.get?, Option.map_some, FileTree.node_eq_directory.mpr h.isDirectory]
    have hnode' := hg.grown.keeps.directory hnode
    rwa [FileTree.nodeAt?, hget, Option.map_some, Option.some.injEq,
      FileTree.node_eq_directory] at hnode'
  · intro names target hlink
    have hnew : d'.root.nodeAt? (place ++ names) = some (.link target) := by
      rw [FileTree.nodeAt?_eq_link, FileTree.get?_append, hget, Option.bind_some, hlink]
    have hold := hg.grown.links _ _ hnew
    rw [FileTree.nodeAt?_eq_link, h.get?_append] at hold
    exact h.linkless names target hold

namespace Refound

/-- Nothing that has been generated has a say in what is selected. -/
theorem agreesOutside (h : e.Refound d d' path place cache tree tree' writes) :
    (e.selection d).AgreesOutside d' cache tree tree' where
  ne_nil := h.earlier.caches.ne_nil
  unsearched := h.earlier.same_cacheDirectory
  isDirectory := h.earlier.isDirectory
  isDirectory' := h.later.isDirectory
  named := h.earlier.wellFormed_tree.named
  named' := h.later.wellFormed_tree.named
  files init name content hout := by
    rw [← h.later.get?_append, ← h.earlier.get?_append, ← List.append_assoc]
    apply h.generates.file_outside h.writes
    rwa [List.prefix_append_right_inj]
  rules directory hnames hout := by
    obtain ⟨hfile, hread⟩ := h.earlier.readText_outside h.generates h.writes hnames hout h.slashless
    rw [h.earlier.pathOf fun n hn => (hnames n hn).plain]
    exact Selection.rulesOf_congr hfile hread

/-- A directory that was made on the way to that of generated files can be searched. -/
theorem opens (h : e.Refound d d' path place cache tree tree' writes) (hout : ¬cache <+: names)
    (hnew : tree'.nodeAt? names = some .directory) (hold : tree.nodeAt? names ≠ some .directory) :
    ((e.selection d).onDisk d').Opens names := by
  obtain ⟨es, hes⟩ := FileTree.nodeAt?_eq_directory.mp hnew
  have hnames := h.later.wellFormed_tree.named names _ hes
  have hplain : ∀ n ∈ names, Path.Plain n := fun n hn => (hnames n hn).plain
  rw [← h.later.nodeAt?_append] at hnew
  rw [← h.earlier.nodeAt?_append] at hold
  obtain ⟨halong, hnone⟩ : place ++ names <+: place ++ cache ∧
      d.root.nodeAt? (place ++ names) = none := by
    cases hlast : Disk.lastAt writes (place ++ names) with
    | some text =>
      rw [h.generates.written _ _ hlast] at hnew
      cases hnew
    | none =>
      rcases h.generates.others _ hlast with hsame | ⟨halong, hnone, -⟩
      · rw [hsame] at hnew
        exact absurd hnew hold
      · exact ⟨halong, hnone⟩
  constructor
  · obtain ⟨below, hbelow⟩ := halong
    have hshort : Text.size (Path.ofPlace (place ++ names)) ≤
      Text.size (Path.ofPlace (place ++ names ++ below)) := Disk.size_ofPlace_append
    have hlimit := h.short
    rw [← hbelow] at hlimit
    have hpath : ((e.selection d).onDisk d').pathOf names = Path.ofPlace (place ++ names) :=
      h.earlier.pathOf hplain
    rw [hpath, Selection.unreadable?, if_neg (by omega)]
  · have hrules := h.agreesOutside.rules names hnames hout
    have habsent : (e.selection d).rulesOf ((e.selection d).pathOf names) = .ok none := by
      rw [h.earlier.pathOf hplain, Selection.rulesOf, if_neg]
      -- An ignore file would stand in the directory.
      intro hfile
      change d.isFile (Path.join _ e.settings.ignoreFile) = true at hfile
      have hignore := Disk.isName_of_isFile h.earlier.rooted h.slashless hfile
      have hall : ∀ n ∈ place ++ names ++ [e.settings.ignoreFile], Disk.IsName n := by
        intro n hn
        rcases List.mem_append.mp hn with hn | hn
        · exact (List.mem_append.mp hn).elim (h.earlier.isName n) (hnames n)
        · rwa [List.mem_singleton.mp hn]
      rw [Path.join_ofPlace (fun n hn => (hall n (List.mem_append_left _ hn)).plain) hignore.plain,
        Disk.isFile_ofPlace h.earlier.rooted hall
          (by rw [List.append_assoc]; exact h.earlier.clear)]
        at hfile
      obtain ⟨-, content, hcontent⟩ := hfile
      have hdirectory := FileTree.nodeAt?_dropLast (FileTree.nodeAt?_eq_file.mpr hcontent)
      rw [hnone] at hdirectory
      cases hdirectory
    change (((e.selection d).onDisk d').rulesOf ((e.selection d).pathOf names)).isOk = true
    rw [hrules, habsent]
    rfl

/-- The same files are selected. -/
theorem files_eq (h : e.Refound d d' path place cache tree tree' writes)
    (hfiles : (e.selection d).files = .ok paths) : (e.selection d').files = .ok paths := by
  have hroot := h.earlier.rootIs hfiles
  have hrootShort : Text.size (Path.ofPlace place) < Disk.pathLimit := by
    have hlength : Text.size (Path.ofPlace place) ≤ Text.size (Path.ofPlace (place ++ cache)) :=
      Disk.size_ofPlace_append
    have hlimit := h.short
    omega
  have hroot' : (e.selection d').RootIs place tree' := by
    refine ⟨?_, h.later.isDirectory, h.later.wellFormed_tree⟩
    have hclear : d'.Clear (place ++ []) := h.later.clear
    rw [List.append_nil] at hclear
    change d'.find false e.root = _
    rw [h.later.root, Disk.find_ofPlace h.later.rooted h.later.isName hclear]
    exact ⟨rfl, hrootShort, h.later.get?⟩
  exact h.agreesOutside.files_eq hroot hroot' hfiles fun names => h.opens

/-- The same becomes of the files. -/
theorem shadowIn?_eq (h : e.Refound d d' path place cache tree tree' writes)
    (hstands : StandsOutside d (place ++ cache) q) :
    shadowIn? d' (directoryOf e.root q) q = shadowIn? d (directoryOf e.root q) q := by
  rw [shadowIn?, shadowIn?, hstands.loaded? h.generates h.earlier.wellFormed.ordered
    h.earlier.writesAt.plain h.writes]

private theorem shadowsOf_eq (h : e.Refound d d' path place cache tree tree' writes)
    (hstands : ∀ q ∈ paths, StandsOutside d (place ++ cache) q) :
    shadowsOf d' e.root paths = shadowsOf d e.root paths := by
  apply List.filterMap_congr
  intro q hq
  rw [h.shadowIn?_eq (hstands q hq)]

/-! ### The second run -/

/-- A file that was compiled is compiled again. -/
theorem process_ne_error (h : e.Refound d d' path place cache tree tree' writes)
    (hdir : d'.isDirectory e.cacheDirectory = true) (hstands : StandsOutside d (place ++ cache) q)
    (hstands' : StandsOutside d' (place ++ cache) q)
    (hmid : Generated (start e d').opened (place ++ cache) before mid) {text? : Option String}
    (hshadow : shadowIn? d (directoryOf e.root q) q = some text?)
    (hstored : ∀ text ∈ text?, d'.isFile (Shadow.pathIn e.cacheDirectory (q, text)) = true) :
    process q mid ≠ (.error f, t) := by
  intro hfails
  have hfollows := hmid.compiled.follows
  have hlooks := Session.rendered_looks mid q
  have hrendered := hmid.rendered_eq h.later.writesAt h.later.wellFormed.ordered hstands'
    ((h.shadowIn?_eq hstands).trans hshadow)
  rcases Session.process_error hfails with herror | ⟨text, looked, hok, hwrite⟩
  · rw [herror] at hrendered
    cases hrendered
  · rw [hok] at hrendered hlooks
    obtain rfl : some text = text? := Except.ok.inj hrendered
    have hgrown : Disk.Grown d' looked.disk := hlooks.disk ▸ hfollows.grown h.later.rooted
    have hdirectory : looked.writer.directory = e.cacheDirectory :=
      (congrArg ShadowWriter.directory hlooks.writer).trans hfollows.directory
    have hwritten : (Session.writeShadow q text looked).1 = .ok (looked.shadowPath q text) := by
      apply Session.writeShadow_of_isFile
      · exact hlooks.faults.trans (hfollows.faults_eq_nil rfl)
      · rw [hdirectory]
        exact hgrown.isDirectory h.later.rooted hdir
      · rw [Session.shadowPath, hdirectory]
        exact hgrown.isFile h.later.rooted (hstored text rfl)
    rw [hwrite] at hwritten
    cases hwritten

end Refound

/-- The names of a path to a file in a directory can stand in paths, and the path of the directory
is not too long. -/
theorem names_of_isFile {base name : String} (hdown : Disk.GoesDown base (Path.spelled base))
    (hname : Path.Plain name) (hup : name ≠ "..") (hfile : d.isFile (Path.join base name) = true) :
    (∀ n ∈ Path.spelled base ++ [name], Disk.IsName n) ∧
      Text.size (Path.ofPlace (Path.spelled base)) < Disk.pathLimit := by
  obtain ⟨q, t, hfind, -⟩ := Disk.isFile_iff.mp hfile
  have htarget := Disk.find_iff.mp hfind
  constructor
  · have hnames := Disk.isName_spelled htarget (hdown.join hname hup).noUp
    rwa [Path.spelled_join hname.isAbsolute, hname.spelled] at hnames
  · obtain ⟨hpath, -⟩ := Disk.target_iff.mp htarget
    obtain ⟨rest, hrest⟩ := Path.join_eq_append base hname.isAbsolute
    have hshort := hpath.short
    have hlength := Path.size_ofPlace_spelled hdown.isAbsolute
    rw [hrest, Text.size, String.utf8ByteSize_append] at hshort
    rw [Text.size] at hlength ⊢
    rw [Text.size] at hlength
    omega

/-- What a run that maps files has left on the disk. -/
structure Left (e : Engine) (d d' : Disk) (place cache paths : List String)
    (m : Manifest) : Prop where
  generates : Disk.Generates (place ++ cache)
    (writesOf (place ++ cache) (shadowsOf d e.root paths) ++
      [(place ++ cache ++ [Manifest.fileName], m.render)]) d d'
  isDirectory : d'.isDirectory e.cacheDirectory = true
  shadows : ∀ shadow ∈ shadowsOf d e.root paths,
    d'.isFile (Shadow.pathIn e.cacheDirectory shadow) = true
  manifest : d'.isFile e.manifestPath = true

/-- All files that a run writes stand in the directory of generated files. -/
theorem exists_eq_of_mem_writes {shadows : List (String × String)} {rendered : String}
    (p : List String) (text : String) (h : (p, text) ∈ writesOf (place ++ cache) shadows ++
      [(place ++ cache ++ [Manifest.fileName], rendered)]) : ∃ n, p = place ++ cache ++ [n] := by
  rcases List.mem_append.mp h with hmem | hmem
  · exact Session.mem_writesOf hmem
  · exact ⟨_, (Prod.mk.inj (List.mem_singleton.mp hmem)).1⟩

/-- A run that maps files leaves them and the manifest where it has written them. -/
theorem Located.left (h : e.Located d path place cache tree)
    (hrun : run (start e d) = (.ok m, after))
    (hm : m.isEmpty = false) : ∃ paths t, (e.selection d).files = .ok paths ∧
      Generated (start e d).opened (place ++ cache) paths t ∧ t.engine.manifest = m ∧
        e.Left d after.disk place cache paths m := by
  have hran := h.ran
  have hpublished := Session.run_ok h.rooted hrun
  rw [hrun] at hran
  simp only at hran
  generalize after.disk = d' at hran hpublished ⊢
  cases hran with
  | unmapped hfiles ht hempty =>
    rw [hempty] at hm
    cases hm
  | @published paths t _ hfiles ht _ hwritten =>
    refine ⟨paths, t, hfiles, ht, rfl, ?_⟩
    have hrooted := (h.writesAt.follows ht.compiled.follows).rooted
    have hgrown := (ht.generates.trans hwritten).grown
    have hmanifest : d'.isFile e.manifestPath = true := by
      obtain ⟨hcontra, -⟩ | ⟨-, -, hread⟩ := hpublished
      · rw [hm] at hcontra
        cases hcontra
      · exact Disk.isFile_of_readText hread
    refine ⟨ht.generates.trans hwritten, ?_, fun shadow hshadow => ?_, hmanifest⟩
    · have hdown := h.goesDown
      rw [← h.spelled_cacheDirectory] at hdown
      have hclear : d.Clear (place ++ (cache ++ [Manifest.fileName])) := h.clear
      rw [← List.append_assoc, ← h.spelled_cacheDirectory] at hclear
      exact Disk.isDirectory_of_isFile (hgrown.rooted h.rooted) hdown Manifest.plain_fileName
        (by decide) (hclear.grown hgrown) hmanifest
    · obtain ⟨q, other, -, hholds, -⟩ := (ht.compiled.stores h.rooted).stored shadow hshadow
      exact hwritten.grown.isFile hrooted (Disk.isFile_iff.mpr ⟨q, _, hholds, rfl⟩)

/-- The project is found again on the disk that a run leaves. -/
theorem Located.refound (h : e.Located d path place cache tree)
    (hslash : '/' ∉ e.settings.ignoreFile.toList) (hleft : e.Left d d' place cache paths m) :
    ∃ tree', e.Refound d d' path place cache tree tree'
      (writesOf (place ++ cache) (shadowsOf d e.root paths) ++
        [(place ++ cache ++ [Manifest.fileName], m.render)]) := by
  have hdown := h.goesDown
  rw [← h.spelled_cacheDirectory] at hdown
  obtain ⟨hmanifest, hshort⟩ :=
    names_of_isFile hdown Manifest.plain_fileName (by decide) hleft.manifest
  rw [h.spelled_cacheDirectory] at hmanifest hshort
  have hnamed : d'.root.Named := by
    apply hleft.generates.named h.wellFormed.named
    · exact fun n hn => hmanifest n (List.mem_append_left _ hn)
    · intro p text hmem
      rcases List.mem_append.mp hmem with hmem | hmem
      · obtain ⟨shadow, hshadow, heq⟩ := List.mem_map.mp hmem
        obtain ⟨rfl, -⟩ := Prod.mk.inj heq
        have hnames := (names_of_isFile hdown Shadow.plain_name Shadow.name_ne_up
          (hleft.shadows shadow hshadow)).1
        rwa [h.spelled_cacheDirectory] at hnames
      · rw [(Prod.mk.inj (List.mem_singleton.mp hmem)).1]
        exact hmanifest
  obtain ⟨tree', hagain⟩ := h.again hleft.generates exists_eq_of_mem_writes hnamed
  exact ⟨tree', h, hagain, hleft.generates, exists_eq_of_mem_writes, hslash, hshort⟩

/-- Where the files of a run have been compiled again, the manifest is written again. -/
private theorem publish_again (h : e.Refound d d' path place cache tree tree' writes)
    (hleft : e.Left d d' place cache paths m)
    (ht : Generated (start e d').opened (place ++ cache) paths t) :
    (publish t.forgotten).1 = .ok () := by
  have hgrown := ht.generates.grown
  have hdirectory : t.writer.directory = e.cacheDirectory := ht.compiled.follows.directory
  apply Session.publish_of_isFile
  · exact ht.compiled.follows.faults_eq_nil rfl
  · change t.disk.isDirectory t.writer.directory = true
    rw [hdirectory]
    exact hgrown.isDirectory h.later.rooted hleft.isDirectory
  · change t.disk.isFile (Path.join t.writer.directory _) = true
    rw [hdirectory]
    exact hgrown.isFile h.later.rooted hleft.manifest

/-- What a second run leaves is what the first one left, if the same shadows are written and the
same manifest. -/
private theorem disk_again (h : e.Refound d d' path place cache tree tree' writes)
    (hleft : e.Left d d' place cache paths m) {last : Disk}
    (hagain : Disk.Generates (place ++ cache)
      (writesOf (place ++ cache) (shadowsOf d e.root paths) ++
        [(place ++ cache ++ [Manifest.fileName], m.render)]) d' last) : last = d' := by
  apply hagain.eq_self h.later.wellFormed.ordered ?_ hleft.generates.written
  have hoverlay : d'.root.nodeAt? (place ++ cache ++ [Manifest.fileName]) =
      some (.file (.text m.render)) := by
    apply hleft.generates.written
    rw [Disk.lastAt_append, Disk.lastAt_singleton, if_pos rfl, Option.some_or]
  exact FileTree.nodeAt?_dropLast hoverlay

/-- If the ignore file is called by a single name, an engine that is created anew on the disk that a
run leaves is the same and selects the same files, and its run yields the same manifest and leaves
the disk as it is. -/
theorem run_again (h : e.Located d path place cache tree)
    (hslash : '/' ∉ e.settings.ignoreFile.toList) (hrun : run (start e d) = (.ok m, after)) :
    (∀ settings, withSettings d path settings = .ok e →
      withSettings after.disk path settings = .ok e) ∧
    (discover d path = .ok e → discover after.disk path = .ok e) ∧
    (e.selection after.disk).files = (e.selection d).files ∧
    (run (start e after.disk)).1 = .ok m ∧ (run (start e after.disk)).2.disk = after.disk := by
  cases hm : m.isEmpty with
  | true =>
    have hdisk : after.disk = d := by
      obtain ⟨-, hdisk⟩ | ⟨hcontra, -⟩ := Session.run_ok h.rooted hrun
      · exact hdisk
      · rw [hm] at hcontra
        cases hcontra
    rw [hdisk, hrun]
    exact ⟨fun _ => id, id, rfl, rfl, hdisk⟩
  | false =>
    obtain ⟨paths, t, hfiles, ht, hmanifest, hleft⟩ := h.left hrun hm
    obtain ⟨tree', hrefound⟩ := h.refound hslash hleft
    obtain ⟨hwith, hdiscover⟩ := h.created_again hleft.generates exists_eq_of_mem_writes
    have hfiles' := hrefound.files_eq hfiles
    refine ⟨hwith, hdiscover, hfiles'.trans hfiles.symm, ?_⟩
    have hstands := h.standsOutside hfiles
    have hshadows : shadowsOf after.disk e.root paths = shadowsOf d e.root paths :=
      hrefound.shadowsOf_eq hstands
    have hsame {t' : Session}
      (ht' : Generated (start e after.disk).opened (place ++ cache) paths t') :
        t'.engine.manifest = m := by
      rw [hrefound.later.manifest_eq ht', hshadows, ← h.manifest_eq ht, hmanifest]
    have hran := hrefound.later.ran
    generalize (run (start e after.disk)).1 = r at hran ⊢
    generalize (run (start e after.disk)).2.disk = last at hran ⊢
    cases hran with
    | unselected hfails =>
      rw [hfiles'] at hfails
      cases hfails
    | @unprocessed _ before q rest mid _ hselected hmid hfails =>
      rw [hfiles', Except.ok.injEq] at hselected
      have hq : q ∈ paths := by
        rw [hselected]
        simp
      obtain ⟨text?, hshadow⟩ : ∃ text?, shadowIn? d (directoryOf e.root q) q = some text? := by
        rcases ht.compiled.left q hq with ⟨text, htext⟩ | hnone
        · exact ⟨_, (Session.mem_shadowsOf.mp htext).2⟩
        · exact ⟨_, (hstands q hq).shadowIn?_eq hnone⟩
      refine absurd hfails (hrefound.process_ne_error hleft.isDirectory (hstands q hq)
        (hrefound.later.standsOutside hfiles' q hq) hmid hshadow ?_)
      rintro text rfl
      exact hleft.shadows _ (Session.mem_shadowsOf.mpr ⟨hq, hshadow⟩)
    | @unpublished _ _ t' _ hselected ht' hfails =>
      rw [hfiles', Except.ok.injEq] at hselected
      subst hselected
      have hwritten := publish_again hrefound hleft ht'
      rw [hfails] at hwritten
      cases hwritten
    | unmapped hselected ht' hempty =>
      rw [hfiles', Except.ok.injEq] at hselected
      subst hselected
      rw [hsame ht', hm] at hempty
      cases hempty
    | published hselected ht' hempty hwritten =>
      rw [hfiles', Except.ok.injEq] at hselected
      subst hselected
      rw [hsame ht'] at hwritten ⊢
      refine ⟨rfl, ?_⟩
      apply disk_again hrefound hleft
      rw [← hshadows]
      exact ht'.generates.trans hwritten

/-- Two runs over a project of one file and the rules that it needs. -/
theorem run_again_chained : ∃ m after, run (start atRoot (chained 1)) =
    (.ok m, after) ∧ m.size = 1 ∧
    (run (start atRoot after.disk)).1 = .ok m ∧
      (run (start atRoot after.disk)).2.disk = after.disk := by
  obtain ⟨m, after, hrun, hsize⟩ := mapped_chained
  exact ⟨m, after, hrun, hsize, (run_again (located_chained 1) (by decide) hrun).2.2.2⟩

/-- Settings by which the overlay is taken for an ignore file. -/
def overlayIgnored : Settings := { ignoreFile := ".inco_cache/overlay.json" }

/-- Where the overlay is taken for an ignore file, the second run fails. -/
theorem overlayIgnored_fails :
    let d := chained 0
    let e : Engine := { root := "/", settings := overlayIgnored }
    let first := run (start e d)
    withSettings d "/" overlayIgnored = .ok e ∧ overlayIgnored.CachesBelow [".inco_cache"] ∧
      d.root.Linkless ∧ first.1.isOk = true ∧ withSettings first.2.disk "/" overlayIgnored = .ok e ∧
        (run (start e first.2.disk)).1.isOk = false := by
  refine ⟨rfl, ⟨by decide, by decide, by simp, by decide⟩, linkless_chain, ?_, rfl, ?_⟩ <;>
    decide +kernel

end Engine

end GoContracts

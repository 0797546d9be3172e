import GoContracts.Proofs.Engine.Compiling
import GoContracts.Proofs.Engine.Used
import GoContracts.Proofs.Package.Loading

/-!
# What a session generates

A session generates its files in one directory. Nothing else happens on the disk, and the packages
of other directories stay what they were: the loop makes of each file what the disk held for it at
the beginning.
-/

namespace GoContracts

namespace Package

variable {d d' : Disk} {directory path name : String} {place cache : List String}
  {es : List (String × FileTree)} {writes : List (List String × String)}

/-- What becomes of a file in the package of a directory: the text of its shadow, or none if it
holds no directive. -/
def shadowIn? (d : Disk) (directory path : String) : Option (Option String) :=
  (loaded? d directory).bind fun package => Reporting.value? (package.shadowAt? path) []

/-- The package is loaded for the directory at a place. -/
def LoadedFrom (d : Disk) (directory : String) (package : Package) : Prop :=
  (∃ place, (∀ n ∈ place, Path.Plain n) ∧ directory = Path.ofPlace place) ∧
    loaded? d directory = some package

/-- The file at a path stands in a directory that is not below the given one. -/
def StandsOutside (d : Disk) (cache : List String) (path : String) : Prop :=
  ∃ place name es, path = Path.ofPlace (place ++ [name]) ∧ Path.Plain name ∧ StandsAt d place es ∧
    ¬cache <+: place

private theorem StandsAt.plain_names (h : StandsAt d place es) : ∀ n ∈ place, Path.Plain n :=
  fun n hn => (h.names n hn).plain

/-- The directory of a file is the one that the file stands in. -/
theorem StandsAt.directoryOf (h : StandsAt d place es) (hname : Path.Plain name) (root : String) :
    Session.directoryOf root (Path.ofPlace (place ++ [name])) = Path.ofPlace place := by
  rw [Session.directoryOf, Path.parent?_ofPlace h.plain_names hname, Option.getD_some]

/-- The package of the directory of a file that stands elsewhere is the same after files have been
generated. -/
theorem StandsOutside.loaded? (h : StandsOutside d cache path)
    (hg : Disk.Generates cache writes d d')
    (hd : d.root.Ordered) (hcache : ∀ n ∈ cache, Path.Plain n ∧ n ≠ "..")
    (hwrites : ∀ p text, (p, text) ∈ writes → ∃ n, p = cache ++ [n]) (root : String) :
    loaded? d' (Session.directoryOf root path) = loaded? d (Session.directoryOf root path) := by
  obtain ⟨place, name, es, rfl, hname, hplace, hout⟩ := h
  rw [hplace.directoryOf hname, loaded?_eq, loaded?_eq,
    filesIn_generated hplace hg (hg.ordered hd) hcache hwrites hout]

private theorem StandsOutside.loadedFrom {package : Package} {root : String}
    (h : StandsOutside d cache path)
    (hloaded : Package.loaded? d (Session.directoryOf root path) = some package) :
    LoadedFrom d (Session.directoryOf root path) package := by
  obtain ⟨place, name, es, rfl, hname, hplace, -⟩ := h
  exact ⟨⟨place, hplace.plain_names, hplace.directoryOf hname root⟩, hloaded⟩

/-- A package that is found for the directory of a file is the one of that directory. -/
theorem StandsOutside.loaded?_of_same {package : Package} {root near : String}
    (h : StandsOutside d cache path)
    (hsame : Path.same near (Session.directoryOf root path) = true)
      (hnear : LoadedFrom d near package) :
    Package.loaded? d (Session.directoryOf root path) = some package := by
  obtain ⟨place, name, es, rfl, hname, hplace, -⟩ := h
  obtain ⟨⟨other, hother, rfl⟩, hloaded⟩ := hnear
  rw [hplace.directoryOf hname] at hsame ⊢
  rw [Path.same_iff Path.isAbsolute_ofPlace Path.isAbsolute_ofPlace, Path.spelled_ofPlace hother,
    Path.spelled_ofPlace hplace.plain_names] at hsame
  rwa [← hsame]

/-- A file is rendered in the package of its directory. -/
theorem StandsOutside.shadowIn?_eq {text? : Option String} {root : String}
    (h : StandsOutside d cache path)
    (hrenders : Session.Renders (LoadedFrom d) (Session.directoryOf root path) path text?) :
    shadowIn? d (Session.directoryOf root path) path = some text? := by
  obtain ⟨near, package, hsame, hnear, hvalue⟩ := hrenders
  rw [shadowIn?, h.loaded?_of_same hsame hnear, Option.bind_some, hvalue]

end Package

namespace Session

open Package (LoadedFrom StandsOutside shadowIn?)

variable {s t mid : Session} {cache : List String} {path text shadow : String} {paths : List String}
  {r : Except Failure Unit} {f : Failure} {o : Option String} {shadows : List (String × String)}

/-! ### Writing -/

/-- The session writes into the directory at a place, and no link is on the way to what it
writes. -/
structure WritesAt (s : Session) (cache : List String) : Prop where
  rooted : s.disk.Rooted
  goesDown : Disk.GoesDown s.writer.directory cache
  spelled : Path.spelled s.writer.directory = cache
  clear : ∀ below, s.disk.Clear (cache ++ below)

namespace WritesAt

/-- The names of the cache are plain. -/
theorem plain (h : s.WritesAt cache) : ∀ n ∈ cache, Path.Plain n ∧ n ≠ ".." := by
  rw [← h.spelled]
  exact h.goesDown.plain

/-- Where shadows can be written they still can later in the run. -/
theorem follows (h : s.WritesAt cache) (hfollows : Follows s t) : t.WritesAt cache where
  rooted := (hfollows.grown h.rooted).rooted h.rooted
  goesDown := hfollows.directory ▸ h.goesDown
  spelled := hfollows.directory ▸ h.spelled
  clear below := (h.clear below).grown (hfollows.grown h.rooted)

/-- A plain name in the cache is written where it says. -/
theorem writePlace_eq (h : s.WritesAt cache) {name : String} (hname : Path.Plain name)
    (hup : name ≠ "..") {q : List String}
    (hq : s.disk.writePlace (Path.join s.writer.directory name) = .ok q) : q = cache ++ [name] := by
  obtain rfl := h.spelled
  exact Disk.writePlace_join h.goesDown hname hup (h.clear _) hq

end WritesAt

private theorem ensureDirectory_generates (h : s.WritesAt cache) :
    Disk.Generates cache [] s.disk (ensureDirectory s).2.disk := by
  have hclear : s.disk.Clear cache := by simpa using h.clear []
  obtain ⟨hadds, halong⟩ := Disk.makeDirectories_along h.rooted h.goesDown hclear
  have hmade := Disk.Generates.of_make hadds halong
  rw [ensureDirectory_eq]
  split
  · exact .refl s.disk
  · revert hmade
    rcases Disk.makeDirectories s.writer.directory s.nextFault? s.disk with ⟨e | u, d⟩ <;> exact id

/-- A file that is written under a name in the directory is generated there. -/
theorem generates_put (h : s.WritesAt cache) (hg : Disk.Generates cache [] s.disk t.disk)
    (hfollows : Follows s t) {name : String} (hname : Path.Plain name) (hup : name ≠ "..")
    {q : List String} (hq : t.disk.writePlace (Path.join t.writer.directory name) = .ok q) :
    Disk.Generates cache [(cache ++ [name], text)] s.disk (t.disk.put q text) := by
  have ht := h.follows hfollows
  have hwritable := Disk.writable_of_writePlace ht.rooted hq
  obtain rfl := ht.writePlace_eq hname hup hq
  exact hg.trans (.of_put hwritable)

private theorem writeShadow_generates (h : s.WritesAt cache)
    (hw : writeShadow path text s = (.ok shadow, t)) :
    Disk.Generates cache [(cache ++ [Shadow.name path text], text)] s.disk t.disk := by
  have hmade := ensureDirectory_generates h
  have hfollows := (ensureDirectory_prepares s).follows
  obtain ⟨mid, q, hensure, rfl, hq, rfl⟩ := writeShadow_ok hw
  rw [hensure] at hmade hfollows
  exact generates_put h hmade hfollows Shadow.plain_name Shadow.name_ne_up hq

private theorem writeManifest_generates (h : s.WritesAt cache)
    (hw : writeManifest s = (.ok shadow, t)) :
    Disk.Generates cache [(cache ++ [Manifest.fileName], s.engine.manifest.render)]
      s.disk t.disk := by
  have hmade := ensureDirectory_generates h
  have hprepared := ensureDirectory_prepares s
  obtain ⟨mid, q, hensure, rfl, hq, rfl⟩ := writeManifest_ok hw
  rw [hensure] at hmade hprepared
  rw [← hprepared.engine]
  exact generates_put h hmade hprepared.follows Manifest.plain_fileName (by decide) hq

/-- The manifest is generated if any file is mapped. -/
theorem publish_generates (h : s.WritesAt cache) {u : Unit} (hp : publish s = (.ok u, t)) :
    t.engine = s.engine ∧ (s.engine.manifest.isEmpty = true ∧ t.disk = s.disk ∨
      s.engine.manifest.isEmpty = false ∧ Disk.Generates cache
        [(cache ++ [Manifest.fileName], s.engine.manifest.render)] s.disk t.disk) := by
  have hengine := publish_engine (s := s)
  rw [hp] at hengine
  refine ⟨hengine, ?_⟩
  cases hempty : s.engine.manifest.isEmpty with
  | true =>
    rw [publish_of_isEmpty hempty] at hp
    obtain ⟨-, rfl⟩ := Prod.mk.inj hp
    exact .inl ⟨rfl, rfl⟩
  | false =>
    rw [publish_eq, if_neg (by simp [hempty])] at hp
    rcases hwrite : writeManifest s with ⟨f | at_, mid⟩ <;> rw [hwrite] at hp
    · cases (Prod.mk.inj hp).1
    · obtain ⟨-, rfl⟩ := Prod.mk.inj hp
      have hwritten := writeManifest_generates h hwrite
      exact .inr ⟨rfl, hwritten⟩

/-! ### The loop -/

/-- The shadows of those of the files that hold directives. -/
def shadowsOf (d : Disk) (root : String) (paths : List String) : List (String × String) :=
  paths.filterMap fun path => (shadowIn? d (directoryOf root path) path).join.map (path, ·)

/-- What is written to store shadows in the directory at a place. -/
def writesOf (cache : List String) (shadows : List (String × String)) :
    List (List String × String) :=
  shadows.map fun shadow => (cache ++ [Shadow.name shadow.1 shadow.2], shadow.2)

/-- The shadows of files are the texts that are made for them. -/
theorem mem_shadowsOf {d : Disk} {root : String} : (path, text) ∈ shadowsOf d root paths ↔
    path ∈ paths ∧ shadowIn? d (directoryOf root path) path = some (some text) := by
  simp only [shadowsOf, List.mem_filterMap, Option.map_eq_some_iff, Option.join_eq_some_iff]
  constructor
  · rintro ⟨other, hother, content, hcontent, heq⟩
    obtain ⟨rfl, rfl⟩ := Prod.mk.inj heq
    exact ⟨hother, hcontent⟩
  · rintro ⟨hpath, htext⟩
    exact ⟨path, hpath, text, htext, rfl⟩

private theorem shadowsOf_concat {d : Disk} {root : String} : shadowsOf d root (paths ++ [path]) =
    shadowsOf d root paths ++
      ((shadowIn? d (directoryOf root path) path).join.map (path, ·)).toList := by
  rw [shadowsOf, List.filterMap_append, shadowsOf, List.filterMap_cons, List.filterMap_nil]
  cases (shadowIn? d (directoryOf root path) path).join <;> rfl

/-- All shadows are written into the cache. -/
theorem mem_writesOf {p : List String} (h : (p, text) ∈ writesOf cache shadows) :
    ∃ n, p = cache ++ [n] := by
  obtain ⟨shadow, -, heq⟩ := List.mem_map.mp h
  exact ⟨_, (Prod.mk.inj heq).1.symm⟩

/-- From one session to another the files have been compiled as the disk had them at the beginning,
and nothing has been written but their shadows. -/
structure Generated (s : Session) (cache paths : List String) (t : Session) : Prop where
  compiled : Compiled (LoadedFrom s.disk) s paths (shadowsOf s.disk s.engine.root paths) t
  generates : Disk.Generates cache (writesOf cache (shadowsOf s.disk s.engine.root paths))
    s.disk t.disk

/-- What a session knows of the directory of a file has not changed since the beginning. -/
theorem Generated.loads (h : Generated s cache paths mid) (hs : s.WritesAt cache)
    (hd : s.disk.root.Ordered) (hpath : StandsOutside s.disk cache path) :
    Package.loaded? mid.disk (directoryOf s.engine.root path) =
      Package.loaded? s.disk (directoryOf s.engine.root path) :=
  hpath.loaded? h.generates hd hs.plain (fun _ _ => mem_writesOf) _

/-- A package that is loaded for the directory of a file is the one from the beginning. -/
theorem Generated.load (h : Generated s cache paths mid) (hs : s.WritesAt cache)
    (hd : s.disk.root.Ordered) (hpath : StandsOutside s.disk cache path) {package : Package}
    (hloaded : Reporting.value? (Package.load mid.disk (directoryOf mid.engine.root path)) [] =
      some package) :
    LoadedFrom s.disk (directoryOf mid.engine.root path) package := by
  rw [h.compiled.follows.root] at hloaded ⊢
  exact hpath.loadedFrom ((h.loads hs hd hpath).symm.trans hloaded)

private theorem Generated.process (h : Generated s cache paths mid) (hs : s.WritesAt cache)
    (hd : s.disk.root.Ordered) (hpath : StandsOutside s.disk cache path)
    (hstep : process path mid = (.ok o, t)) : Generated s cache (paths ++ [path]) t := by
  have hfollows := h.compiled.follows
  have hmid := hs.follows hfollows
  rcases process_ok hmid.rooted h.compiled.knows (fun _ => h.load hs hd hpath) hstep with
    hnone | ⟨text, looked, shadow, last, hlooks, hwrite, hdisk, hsome⟩
  · have hrenders := (hnone.left path (List.mem_singleton_self path)).resolve_left (by simp)
    rw [hfollows.root] at hrenders
    have hshadow := hpath.shadowIn?_eq hrenders
    have hall := h.compiled.trans hnone
    constructor
    · rwa [shadowsOf_concat, hshadow]
    · rw [shadowsOf_concat, hshadow, hnone.disk rfl]
      simpa using h.generates
  · have hrenders := (hsome.made (path, text) (List.mem_singleton_self _)).2
    rw [hfollows.root] at hrenders
    have hshadow := hpath.shadowIn?_eq hrenders
    have hall := h.compiled.trans hsome
    have hwritten := writeShadow_generates (hmid.follows hlooks.follows) hwrite
    rw [hlooks.disk, ← hdisk] at hwritten
    constructor
    · rwa [shadowsOf_concat, hshadow]
    · rw [shadowsOf_concat, hshadow]
      simpa [writesOf] using h.generates.trans hwritten

/-- The loop over files that stand elsewhere stores their shadows, up to the end or to the file that
fails. -/
theorem compile_generates (hs : s.WritesAt cache) (hd : s.disk.root.Ordered)
    (hp : s.engine.packages = []) (hpaths : ∀ path ∈ paths, StandsOutside s.disk cache path)
    (h : compile paths s = (r, t)) :
    (r = .ok () ∧ Generated s cache paths t) ∨ ∃ f before path rest mid, r = .error f ∧
      paths = before ++ path :: rest ∧ Generated s cache before mid ∧
        process path mid = (.error f, t) := by
  refine compile_cases (Generated s cache) ?_ ?_ h
  · exact ⟨.nil (by simp [Knows, hp]), .refl s.disk⟩
  · intro before path mid o u hstarts hmid hstep
    exact hmid.process hs hd (hpaths path (hstarts.subset (by simp))) hstep

/-! ### Rendering and writing anew -/

/-- A file of which something became at the beginning is rendered. -/
theorem Generated.rendered_eq (h : Generated s cache paths mid) (hs : s.WritesAt cache)
    (hd : s.disk.root.Ordered) (hpath : StandsOutside s.disk cache path) {text? : Option String}
    (hshadow : shadowIn? s.disk (directoryOf s.engine.root path) path = some text?) :
    (rendered path mid).1 = .ok text? := by
  rw [shadowIn?, Option.bind_eq_some_iff] at hshadow
  obtain ⟨package, hloaded, hvalue⟩ := hshadow
  have hroot := h.compiled.follows.root
  have hpackage : (packageOf (directoryOf mid.engine.root path) mid).1 = .ok package := by
    rw [hroot, packageOf_eq]
    split
    · next cached hcached =>
      obtain ⟨entry, hentry, rfl⟩ := Option.map_eq_some_iff.mp hcached
      obtain ⟨hsame, -⟩ := List.find?_eq_some_iff_append.mp hentry
      have hknown := h.compiled.knows entry (List.mem_of_find?_eq_some hentry)
      rw [hpath.loaded?_of_same hsame hknown] at hloaded
      rw [Option.some.inj hloaded]
    · rw [← h.loads hs hd hpath] at hloaded
      obtain ⟨files, hfiles, rfl⟩ := Package.loaded?_eq_some.mp hloaded
      have hload : (Package.load mid.disk (directoryOf s.engine.root path) mid.reports).1 =
          .ok (.ofFiles files) := by
        rw [Package.load_apply, hfiles]
        rfl
      revert hload
      rcases Package.load mid.disk (directoryOf s.engine.root path) mid.reports with ⟨r, reports⟩
      rintro rfl
      rfl
  rw [Session.rendered_eq]
  rw [directoryOf] at hpackage
  revert hpackage
  rcases packageOf ((Path.parent? path).getD mid.engine.root) mid with ⟨r, t⟩
  rintro rfl
  exact Package.uniform_shadowAt?.result_eq hvalue t.reports

/-- Where the directory is there, nothing needs to be made, and without faults nothing goes
wrong. -/
theorem ensureDirectory_of_isDirectory (hf : s.faults = [])
    (h : s.disk.isDirectory s.writer.directory = true) :
    ∃ made, ensureDirectory s = (.ok (), { s with writer := { s.writer with made } }) := by
  rw [ensureDirectory_eq]
  split
  · exact ⟨s.writer.made, rfl⟩
  · rw [nextFault?_of_nil hf, Disk.makeDirectories_of_isDirectory h]
    refine ⟨true, ?_⟩
    simp only [prepared, spent, hf, List.tail_nil]

private theorem exists_writePlace {d : Disk} (h : d.isFile path = true) :
    ∃ q, d.writePlace path = .ok q := by
  obtain ⟨q, t, hfind, ht⟩ := Disk.isFile_iff.mp h
  exact ⟨q, Disk.writePlace_of_find hfind ht⟩

/-- A shadow is stored where a file stands under its name. -/
theorem writeShadow_of_isFile (hf : s.faults = [])
    (hdir : s.disk.isDirectory s.writer.directory = true)
    (hfile : s.disk.isFile (s.shadowPath path text) = true) :
    (writeShadow path text s).1 = .ok (s.shadowPath path text) := by
  obtain ⟨made, hensure⟩ := ensureDirectory_of_isDirectory hf hdir
  obtain ⟨q, hq⟩ := exists_writePlace hfile
  rw [writeShadow_eq, hensure]
  simp only
  rw [shadowPath] at hq ⊢
  rw [shadowPath, hq, nextFault?, hf]
  rfl

/-- The manifest is written where a file stands under its name. -/
theorem publish_of_isFile (hf : s.faults = [])
    (hdir : s.disk.isDirectory s.writer.directory = true)
    (hfile : s.disk.isFile (Path.join s.writer.directory Manifest.fileName) = true) :
    (publish s).1 = .ok () := by
  obtain ⟨made, hensure⟩ := ensureDirectory_of_isDirectory hf hdir
  obtain ⟨q, hq⟩ := exists_writePlace hfile
  rw [publish_eq]
  split
  · rfl
  · rw [writeManifest_eq, hensure]
    simp only [hq, nextFault?, hf]
    rfl

/-! ### Failures -/

/-- A session without loaded packages loads the files of the directory. -/
theorem packageOf_of_empty (hp : s.engine.packages = []) {directory : String} :
    (packageOf directory s).1 = (Package.filesIn s.disk directory).map Package.ofFiles := by
  have hload : (Package.load s.disk directory s.reports).1 = _ := Package.load_apply
  have hnone : s.engine.package? directory = none := by rw [Engine.package?, hp]; rfl
  rw [packageOf_eq, hnone, ← hload]
  rcases Package.load s.disk directory s.reports with ⟨f | package, reports⟩ <;> rfl

/-- A file cannot be rendered because its package cannot be read, or because of what the package
makes of it. -/
theorem rendered_error (h : rendered path s = (.error f, t)) : (∃ at_ cause, f = .read at_ cause) ∨
    ∃ package mid, packageOf (directoryOf s.engine.root path) s = (.ok package, mid) ∧
      (package.shadowAt? path mid.reports).1 = .error f := by
  rw [rendered_eq] at h
  split at h
  · next g mid hpackage =>
    obtain ⟨hf, rfl⟩ := Prod.mk.inj h
    obtain rfl : g = f := Except.error.inj hf
    rw [packageOf_eq] at hpackage
    split at hpackage
    · cases (Prod.mk.inj hpackage).1
    · split at hpackage
      · next g reports hload =>
        have hresult := congrArg Prod.fst hload
        rw [Package.load_apply] at hresult
        rw [Except.error.inj (Prod.mk.inj hpackage).1] at hresult
        cases hfiles : Package.filesIn s.disk ((Path.parent? path).getD s.engine.root) with
        | error g =>
          rw [hfiles] at hresult
          rw [← Except.error.inj hresult]
          exact .inl (Package.filesIn_error hfiles)
        | ok files =>
          rw [hfiles] at hresult
          cases hresult
      · cases (Prod.mk.inj hpackage).1
  · next package mid hpackage => exact .inr ⟨package, mid, hpackage, (Prod.mk.inj h).1⟩

/-- The manifest cannot be written because its directory cannot be made or its file not be
written. -/
theorem publish_error (h : publish s = (.error f, t)) : s.engine.manifest.isEmpty = false ∧
    ∃ at_ cause, f = .createCacheDirectory at_ cause ∨ f = .writeManifest at_ cause := by
  rw [publish_eq] at h
  split at h
  · cases (Prod.mk.inj h).1
  · next hempty =>
    refine ⟨by simpa using hempty, ?_⟩
    split at h
    · next g u hwrite =>
      obtain ⟨hf, rfl⟩ := Prod.mk.inj h
      obtain rfl : g = f := Except.error.inj hf
      rw [writeManifest_eq] at hwrite
      split at hwrite
      · next g v hensure =>
        obtain ⟨at_, cause, hcause⟩ := ensureDirectory_error hensure
        rw [Except.error.inj (Prod.mk.inj hwrite).1] at hcause
        exact ⟨at_, cause, .inl hcause⟩
      · simp only at hwrite
        split at hwrite
        · exact ⟨_, _, .inr (Except.error.inj (Prod.mk.inj hwrite).1).symm⟩
        · cases (Prod.mk.inj hwrite).1
        · exact ⟨_, _, .inr (Except.error.inj (Prod.mk.inj hwrite).1).symm⟩
    · cases (Prod.mk.inj h).1

end Session

end GoContracts

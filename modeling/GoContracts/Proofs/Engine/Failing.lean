import GoContracts.Proofs.Engine.Compiling
import GoContracts.Proofs.Engine.Used

/-!
# Runs that fail

A run that fails before it has compiled all files leaves the published manifest alone. It has stored
the shadows of the files before the one that failed. Where writing the shadow of that file broke
off, a beginning of it is left as well. Nothing else has been done.
-/

namespace GoContracts

variable {e : Engine} {disk after : Disk} {f : Failure} {paths more done : List String}
  {failing? : Option String}

/-- The package was loaded for a directory after the disk had grown from the given one. -/
def Package.LoadedSince (disk : Disk) (directory : String) (package : Package) : Prop :=
  ∃ d, Disk.Grown disk d ∧ Reporting.value? (load d directory) [] = some package

namespace Engine

/-- The text is the shadow of a file in a package that was loaded for its directory. -/
def Makes (e : Engine) (disk : Disk) (path text : String) : Prop :=
  Session.Renders (Package.LoadedSince disk) (Session.directoryOf e.root path) path (some text)

private theorem Used.isAbsolute_cacheDirectory (h : e.Used) :
    Path.isAbsolute e.cacheDirectory = true :=
  Path.isAbsolute_join h.isAbsolute_root

/-- The shadow of one of the files `done` stands at a place in the cache directory, or a beginning
of the shadow of the file `failing?`. -/
def LeftAt (e : Engine) (disk : Disk) (done : List String) (failing? : Option String)
    (after : Disk) (place : List String) : Prop :=
  ∃ dir t path text, after.find true e.cacheDirectory = .ok (dir, t) ∧ e.Makes disk path text ∧
    place = dir ++ [Shadow.name path text] ∧
    (path ∈ done ∧ after.root.nodeAt? place = some (.file (.text text)) ∨
      failing? = some path ∧
        ∃ n, after.root.nodeAt? place = some (.file ((Content.text text).cut n)))

/-- What has changed on a disk since a run began is that directories may have been made, and that
shadows of the files `done` stand in the cache directory, the last one perhaps with a beginning of
the shadow of the file `failing?`. A manifest there is as it was. -/
structure Intact (e : Engine) (disk : Disk) (done : List String) (failing? : Option String)
    (after : Disk) : Prop where
  changed : ∀ place, after.root.nodeAt? place = disk.root.nodeAt? place ∨
    disk.root.nodeAt? place = none ∧ after.root.nodeAt? place = some .directory ∨
    e.LeftAt disk done failing? after place
  published : ∀ dir t, after.find true e.cacheDirectory = .ok (dir, t) → ∀ content,
    after.root.nodeAt? (dir ++ [Manifest.fileName]) = some (.file content) ↔
      disk.root.nodeAt? (dir ++ [Manifest.fileName]) = some (.file content)

/-- No shadow has the name of a manifest. -/
theorem Intact.of_changed (h : ∀ place, after.root.nodeAt? place = disk.root.nodeAt? place ∨
    disk.root.nodeAt? place = none ∧ after.root.nodeAt? place = some .directory ∨
    e.LeftAt disk done failing? after place) : e.Intact disk done failing? after := by
  refine ⟨h, fun dir t _ content => ?_⟩
  rcases h (dir ++ [Manifest.fileName]) with hsame | ⟨hnone, hdir⟩ | ⟨_, _, _, _, _, _, hplace, _⟩
  · rw [hsame]
  · simp [hnone, hdir]
  · exact absurd (List.append_inj' hplace rfl).2 (by simp [Shadow.name_ne_manifest.symm])

/-- No link stands in the cache directory under the name of a shadow of one of the files. -/
def Unlinked (e : Engine) (disk : Disk) (paths : List String) (after : Disk) : Prop :=
  ∀ dir t, after.find true e.cacheDirectory = .ok (dir, t) → ∀ path ∈ paths, ∀ text target,
    e.Makes disk path text →
      disk.root.nodeAt? (dir ++ [Shadow.name path text]) ≠ some (.link target)

/-- What is found under the path of a shadow stands in the cache directory. -/
theorem Used.place_of_find (h : e.Used) (hd : after.Rooted) (hgrown : Disk.Grown disk after)
    (hlinks : e.Unlinked disk paths after) {path text : String} (hpath : path ∈ paths)
    (hmakes : e.Makes disk path text) {place : List String} {content : Content}
    (hfind : after.find true (Shadow.pathIn e.cacheDirectory (path, text)) =
      .ok (place, .file content)) :
    ∃ dir t, after.find true e.cacheDirectory = .ok (dir, t) ∧
      place = dir ++ [Shadow.name path text] := by
  have hbase := Path.ne_empty_of_isAbsolute h.isAbsolute_cacheDirectory
  refine Disk.find_join hd hbase Shadow.plain_name Shadow.name_ne_up hfind
    fun _ q target hfound => ?_
  obtain ⟨dir, t, hdir, rfl⟩ := Disk.find_join hd hbase Shadow.plain_name Shadow.name_ne_up hfound
    (by simp)
  have hlink := FileTree.nodeAt?_eq_link.mpr (Disk.get?_of_find hd hfound)
  exact hlinks dir t hdir path hpath text target hmakes (hgrown.links _ _ hlink)

end Engine

namespace Session

open Engine (atRoot used_atRoot)
open Reporting (value?)

variable {s t mid : Session} {path : String} {known : String → Package → Prop}

/-- A run fails after the files `done` have been processed: when the files are selected, or when the
next one is processed, that is, when its package is loaded or its shadow is rendered or stored. -/
inductive FailsAfter (s : Session) (f : Failure) : List String → Option String → Prop
  | selecting (h : (s.engine.selection s.disk).files = .error f) : FailsAfter s f [] none
  | processing {done path rest mid t}
    (hfiles : (s.engine.selection s.disk).files = .ok (done ++ path :: rest))
    (hdone : compile done s.opened = (.ok (), mid)) (h : process path mid = (.error f, t)) :
    FailsAfter s f done (some path)

/-- A run fails at last: all files have been compiled, and the manifest is not written. -/
def FailsToPublish (s : Session) (f : Failure) : Prop :=
  ∃ paths t, (s.engine.selection s.disk).files = .ok paths ∧
    compile paths s.opened = (.ok (), t) ∧ (publish t.forgotten).1 = .error f

private theorem compile_append : compile (paths ++ more) s = match compile paths s with
    | (.error f, t) => (.error f, t)
    | (.ok _, t) => compile more t := by
  induction paths generalizing s with
  | nil => rfl
  | cons path paths ih =>
    rw [List.cons_append, compile_cons, compile_cons]
    rcases process path s with ⟨f | o, t⟩
    · rfl
    · exact ih

/-- A run that fails has failed so, or when the manifest is written at last. -/
theorem failsAfter_or_publish (h : (run s).1 = .error f) :
    (∃ done failing?, FailsAfter s f done failing?) ∨ FailsToPublish s f := by
  rw [run_eq] at h
  cases hfiles : (s.engine.selection s.disk).files with
  | error g =>
    rw [hfiles] at h
    obtain rfl := Except.error.inj h
    exact .inl ⟨[], none, .selecting hfiles⟩
  | ok paths =>
    rw [hfiles] at h
    simp only at h
    rcases hcompile : compile paths s.opened with ⟨g | u, t⟩ <;> rw [hcompile] at h
    · obtain rfl := Except.error.inj h
      have hcases := compile_cases (fun done t => compile done s.opened = (.ok (), t)) compile_nil
        (fun {before path mid o t} _ hdone hstep => ?_) hcompile
      · obtain ⟨hr, -⟩ | ⟨_, done, path, rest, mid, hr, rfl, hdone, hstep⟩ := hcases
        · cases hr
        · obtain rfl := Except.error.inj hr
          exact .inl ⟨done, some path, .processing hfiles hdone hstep⟩
      · rw [compile_append, hdone]
        simp only [compile_cons, hstep, compile_nil]
    · refine .inr ⟨paths, t, hfiles, hcompile, ?_⟩
      simp only at h
      rcases hpublish : publish t.forgotten with ⟨g | u, v⟩ <;> rw [hpublish] at h
      · exact congrArg Except.error (Except.error.inj h)
      · cases h

/-- A run fails as the first file fails that cannot be processed. -/
theorem run_of_process_error
    (hfiles : (s.engine.selection s.disk).files = .ok (done ++ path :: more))
    (hdone : compile done s.opened = (.ok (), mid)) (h : process path mid = (.error f, t)) :
    run s = (.error f, { t.forgotten with writer := s.writer }) := by
  rw [run_eq, hfiles]
  simp only [compile_append, compile_cons, hdone, h]

/-- The file at which a run fails leaves no trace but the directory of its shadow, and a beginning
of the shadow where writing it broke off. -/
theorem process_error_leaves (hd : s.disk.Rooted) (hs : s.Knows known)
    (hload : ∀ package,
      value? (Package.load s.disk (directoryOf s.engine.root path)) [] = some package →
      known (directoryOf s.engine.root path) package)
    (h : process path s = (.error f, t)) :
    Disk.AddsDirectories s.disk t.disk ∨ ∃ text mid place n,
      Renders known (directoryOf s.engine.root path) path (some text) ∧
      Disk.AddsDirectories s.disk mid ∧
      mid.writePlace (Shadow.pathIn s.writer.directory (path, text)) = .ok place ∧
      t.disk = mid.store place ((Content.text text).cut n) := by
  have hlooks := rendered_looks s path
  rcases process_error h with hrendered | ⟨text, mid, hrendered, hwrite⟩ <;>
    rw [hrendered] at hlooks
  · rw [hlooks.disk]
    exact .inl (.refl _)
  · have hleft := (writeShadow_error (hlooks.disk ▸ hd) hwrite).2
    rw [hlooks.disk, hlooks.writer] at hleft
    rcases hleft with hadds | ⟨mid, place, n, hadds, hplace, hdisk⟩
    · exact .inl hadds
    · exact .inr ⟨text, mid, place, n, (rendered_ok hs hload hrendered).1, hadds, hplace, hdisk⟩

/-- Where shadows have been stored, and a beginning of another one behind them, the disk is
intact. -/
theorem intact_of_stores (h : e.Used) {known : Disk} {shadows : List (String × String)}
    (hd : disk.Rooted) (hstores : Disk.Stores e.cacheDirectory shadows disk known)
    (hgrown : Disk.Grown disk after) (hlinks : e.Unlinked disk (done ++ failing?.toList) after)
    (hmade : ∀ shadow ∈ shadows, shadow.1 ∈ done ∧ e.Makes disk shadow.1 shadow.2)
    (hlast : ∀ place, after.root.nodeAt? place = known.root.nodeAt? place ∨
      ∃ path text n, failing? = some path ∧ e.Makes disk path text ∧
        after.find true (Shadow.pathIn e.cacheDirectory (path, text)) =
          .ok (place, .file ((Content.text text).cut n)))
    (hkept : Disk.Grown known after) : e.Intact disk done failing? after := by
  have hrooted := hgrown.rooted hd
  refine .of_changed fun place => ?_
  rcases hlast place with hsame | ⟨path, text, n, rfl, hmakes, hfind⟩
  · rw [hsame]
    rcases hstores.changed place with hsame' | hdir | ⟨shadow, hshadow, hholds⟩
    · exact .inl hsame'
    · exact .inr (.inl hdir)
    obtain ⟨hdone, hmakes⟩ := hmade shadow hshadow
    have hknown := hstores.grown.rooted hd
    have hnode := hsame.trans (hholds.nodeAt? hknown)
    have hfind := hholds.grown hkept hknown hnode
    obtain ⟨dir, t, hdir, rfl⟩ := h.place_of_find hrooted hgrown hlinks
      (List.mem_append_left _ hdone) hmakes hfind
    exact .inr (.inr ⟨dir, t, _, _, hdir, hmakes, rfl, .inl ⟨hdone, hnode⟩⟩)
  · obtain ⟨dir, t, hdir, rfl⟩ := h.place_of_find hrooted hgrown hlinks (by simp) hmakes hfind
    have hnode := FileTree.nodeAt?_eq_file.mpr (Disk.get?_of_find hrooted hfind)
    exact .inr (.inr ⟨dir, t, _, _, hdir, hmakes, rfl, .inr ⟨rfl, n, hnode⟩⟩)

/-- A run that fails before it has compiled all files has stored shadows of those that it had
compiled, perhaps a beginning of the next one, and left everything else. -/
theorem FailsAfter.intact (h : e.Used) (hd : disk.Rooted) {faults : List (Option Disk.Fault)}
    (hfail : FailsAfter (start e disk faults) f done failing?) :
    (run (start e disk faults)).2.engine.packages = [] ∧
      (e.Unlinked disk (done ++ failing?.toList) (run (start e disk faults)).2.disk →
        e.Intact disk done failing? (run (start e disk faults)).2.disk) := by
  cases hfail with
  | selecting hfiles =>
    have hrun : run (start e disk faults) = (.error f, start e disk faults) := by
      rw [run_eq, hfiles]
    rw [hrun]
    exact ⟨h.packages, fun _ => .of_changed fun _ => .inl rfl⟩
  | @processing _ path rest mid t hfiles hdone hprocess =>
    rw [run_of_process_error hfiles hdone hprocess]
    refine ⟨rfl, fun hlinks => ?_⟩
    have hknows : (start e disk faults).opened.Knows (Package.LoadedSince disk) := by
      simp [Knows, opened, start, h.packages]
    obtain ⟨-, shadows, hcompiled⟩ | ⟨_, _, _, _, _, _, hr, _⟩ := compile_compiled hd hknows
      (fun _ hmid package hpackage => ⟨_, hmid.follows.grown hd, hpackage⟩) hdone
    · have hmid := hcompiled.follows.grown hd
      have hstores := hcompiled.stores hd
      have hleft := process_error_leaves (hmid.rooted hd) hcompiled.knows
        (fun package hpackage => ⟨_, hmid, hpackage⟩) hprocess
      rw [hcompiled.follows.root, hcompiled.follows.directory] at hleft
      have hadded {d : Disk} (hadds : Disk.AddsDirectories mid.disk d) :
          Disk.Stores e.cacheDirectory shadows disk d :=
        shadows.append_nil ▸ hstores.trans hd hadds.stores
      rcases hleft with hadds | ⟨text, known, place, n, hmakes, hadds, hplace, hdisk⟩
      · exact intact_of_stores h hd (hadded hadds) (hadded hadds).grown hlinks hcompiled.made
          (fun _ => .inl rfl) (.refl _)
      · have hknown := (hadded hadds).grown.rooted hd
        have hwritable := Disk.writable_of_writePlace hknown hplace
        have hkept : Disk.Grown known t.forgotten.disk := hdisk ▸ Disk.grown_store hwritable
        refine intact_of_stores h hd (hadded hadds) ((hadded hadds).grown.trans hkept) hlinks
          hcompiled.made (fun p => ?_) hkept
        show t.disk.root.nodeAt? p = known.root.nodeAt? p ∨ _
        rw [hdisk, Disk.nodeAt?_store hwritable]
        split
        · next hp =>
          subst hp
          have hfound := Disk.find_store hknown hplace ((Content.text text).cut n)
          rw [← hdisk] at hfound
          exact .inr ⟨path, text, n, rfl, hmakes, hfound⟩
        · exact .inl rfl
    · cases hr

/-- A run that fails so does not fail at last. -/
theorem FailsAfter.run_error (hfail : FailsAfter s f done failing?) :
    (run s).1 = .error f ∧ ¬FailsToPublish s f := by
  cases hfail with
  | selecting hfiles =>
    refine ⟨by rw [run_eq, hfiles], fun ⟨paths, t, hpaths, _⟩ => ?_⟩
    rw [hfiles] at hpaths
    cases hpaths
  | @processing _ path rest mid t hfiles hdone hprocess =>
    refine ⟨by rw [run_of_process_error hfiles hdone hprocess],
      fun ⟨paths, u, hpaths, hall, _⟩ => ?_⟩
    obtain rfl := Except.ok.inj (hfiles.symm.trans hpaths)
    simp only [compile_append, compile_cons, hdone, hprocess] at hall
    cases hall

/-- If no link stands under the name of a shadow in the cache directory, a run that fails, but not
when the manifest is written at last, has stored shadows of the files that it had compiled, perhaps
a beginning of the next one, and left everything else. -/
theorem run_intact (h : e.Used) (hd : disk.Rooted) (faults : List (Option Disk.Fault))
    (hfail : (run (start e disk faults)).1 = .error f)
    (hstage : ¬FailsToPublish (start e disk faults) f) :
    (run (start e disk faults)).2.engine.packages = [] ∧
      (∃ done failing?, FailsAfter (start e disk faults) f done failing?) ∧
      ∀ done failing?, FailsAfter (start e disk faults) f done failing? →
        e.Unlinked disk (done ++ failing?.toList) (run (start e disk faults)).2.disk →
          e.Intact disk done failing? (run (start e disk faults)).2.disk := by
  obtain ⟨done, failing?, hafter⟩ := (failsAfter_or_publish hfail).resolve_right hstage
  exact ⟨(hafter.intact h hd).1, ⟨done, failing?, hafter⟩,
    fun done failing? hafter => (hafter.intact h hd).2⟩

/-! ### A link in the cache directory, and a full device -/

/-- A project whose first file holds a contract, with the given second file and the given entries in
the cache directory, and a file of the user's beside it. -/
def twoFiles (second : Content) (cached : List (String × FileTree)) : Disk :=
  { root := .directory [
      (".inco_cache", .directory cached),
      ("a.go", .file (.text "package p\n/* @must */")),
      ("b", .directory [("b.go", .file second)]),
      ("notes", .file (.text ""))] }

/-- The second file is no text, and a link to the user's file has the name of the shadow of the
first file. -/
def planted : Disk := twoFiles (.binary ⟨#[255]⟩) [("a_0ad6261536f6.go", .link "/notes")]

/-- The second file holds a contract as well. -/
def bothContracted : Disk := twoFiles (.text "package p\n/* @must */") []

/-- The device is full when the second file is written. -/
def full : List (Option Disk.Fault) := [none, none, some (.brokenOff .noSpace 7)]

/-- A run of a session with two files fails at the second one. -/
def FailsAtSecond (s : Session) (f : Failure) : Prop :=
  let t := compile ["/a.go"] s.opened
  let u := process "/b/b.go" t.2
  (s.engine.selection s.disk).files = .ok ["/a.go", "/b/b.go"] ∧ t.1 = .ok () ∧ u.1 = .error f ∧
    (u.2.disk.find true atRoot.cacheDirectory).map (·.1) = .ok [".inco_cache"]

private theorem FailsAtSecond.run_eq (h : FailsAtSecond s f) :
    FailsAfter s f ["/a.go"] (some "/b/b.go") ∧
      (run s).2.disk = (process "/b/b.go" (compile ["/a.go"] s.opened).2).2.disk ∧
      ∀ dir t, (run s).2.disk.find true atRoot.cacheDirectory = .ok (dir, t) →
        dir = [".inco_cache"] := by
  obtain ⟨hfiles, hdone, hfailed, hcache⟩ := h
  rcases hcompile : compile ["/a.go"] s.opened with ⟨r, t⟩
  rw [hcompile] at hdone hfailed hcache
  rcases hprocess : process "/b/b.go" t with ⟨r', u⟩
  rw [hprocess] at hfailed hcache
  subst hdone hfailed
  have hrun := run_of_process_error hfiles hcompile hprocess
  refine ⟨.processing hfiles hcompile hprocess, by rw [hrun]; rfl,
    fun dir t hdir => ?_⟩
  rw [hrun] at hdir
  rw [show u.disk.find true atRoot.cacheDirectory = .ok (dir, t) from hdir] at hcache
  exact Except.ok.inj hcache

private theorem planted_steps : FailsAtSecond (start atRoot planted)
    (.read "/b/b.go" .invalidUtf8) ∧
    (process "/b/b.go" (compile ["/a.go"] (start atRoot planted).opened).2).2.disk.root.nodeAt?
      ["notes"] = some (.file (.text "package p\n")) := by
  unfold FailsAtSecond
  decide +kernel

private theorem bothContracted_steps :
    FailsAtSecond (start atRoot bothContracted full)
      (.writeShadow "/.inco_cache/b_0ad6261536f6.go" .noSpace) ∧
    let root := (process "/b/b.go" (compile ["/a.go"]
      (start atRoot bothContracted full).opened).2).2.disk.root
    root.nodeAt? [".inco_cache", "a_0ad6261536f6.go"] = some (.file (.text "package p\n")) ∧
      root.nodeAt? [".inco_cache", "b_0ad6261536f6.go"] = some (.file (.text "package")) := by
  unfold FailsAtSecond
  decide +kernel

/-- The run on the full device leaves the shadow of the first file, and seven bytes of that of the
second one. -/
theorem run_intact_bothContracted :
    let after := (run (start atRoot bothContracted full)).2
    after.engine.packages = [] ∧
      atRoot.Intact bothContracted ["/a.go"] (some "/b/b.go") after.disk ∧
      after.disk.root.nodeAt? [".inco_cache", "a_0ad6261536f6.go"] =
        some (.file (.text "package p\n")) ∧
      after.disk.root.nodeAt? [".inco_cache", "b_0ad6261536f6.go"] =
        some (.file (.text "package")) := by
  obtain ⟨hsteps, hfirst, hsecond⟩ := bothContracted_steps
  obtain ⟨hafter, hdisk, hcache⟩ := hsteps.run_eq
  have hrooted : bothContracted.Rooted := rfl
  obtain ⟨hpackages, -, hintact⟩ := run_intact used_atRoot hrooted full hafter.run_error.1
    hafter.run_error.2
  refine ⟨hpackages, hintact _ _ hafter fun dir t hdir path _ text target _ => ?_,
    hdisk ▸ hfirst, hdisk ▸ hsecond⟩
  rw [hcache dir t hdir]
  simp [bothContracted, twoFiles, FileTree.nodeAt?, FileTree.get?, FileTree.below?,
    FileTree.entries]

/-- A link under the name of a shadow is followed, and the user's file is overwritten. On a full
device a shadow that is not complete is left. -/
theorem planted_and_full_not_intact :
    (∀ failing?, ¬atRoot.Intact planted ["/a.go"] failing? (run (start atRoot planted)).2.disk) ∧
      FailsAfter (start atRoot planted) (.read "/b/b.go" .invalidUtf8) ["/a.go"] (some "/b/b.go") ∧
      FailsAfter (start atRoot bothContracted full)
        (.writeShadow "/.inco_cache/b_0ad6261536f6.go" .noSpace) ["/a.go"] (some "/b/b.go") ∧
      ¬atRoot.Intact bothContracted ["/a.go"] none
        (run (start atRoot bothContracted full)).2.disk := by
  obtain ⟨hplanted, hnotes⟩ := planted_steps
  obtain ⟨hfull, -, hsecond⟩ := bothContracted_steps
  obtain ⟨hafter, hdisk, hcache⟩ := hplanted.run_eq
  obtain ⟨hafter', hdisk', hcache'⟩ := hfull.run_eq
  rw [← hdisk] at hnotes
  rw [← hdisk'] at hsecond
  refine ⟨fun failing? hintact => ?_, hafter, hafter', fun hintact => ?_⟩
  · have hbefore : planted.root.nodeAt? ["notes"] = some (.file (.text "")) := by decide +kernel
    rcases hintact.changed ["notes"] with hsame | ⟨hnone, -⟩ | ⟨dir, t, _, _, hdir, _, hplace, _⟩
    · rw [hnotes, hbefore] at hsame
      simp at hsame
    · rw [hbefore] at hnone
      cases hnone
    · rw [hcache dir t hdir] at hplace
      simp at hplace
  · have hbefore : bothContracted.root.nodeAt? [".inco_cache", "b_0ad6261536f6.go"] = none := by
      decide +kernel
    rcases hintact.changed [".inco_cache", "b_0ad6261536f6.go"] with
      hsame | ⟨-, hdir⟩ | ⟨dir, t, path, text, hdir, _, hplace, ⟨hpath, htext⟩ | ⟨hnone, _⟩⟩
    · rw [hsecond, hbefore] at hsame
      cases hsame
    · rw [hsecond] at hdir
      cases hdir
    · rw [hsecond] at htext
      obtain rfl : "package" = text := by simpa using htext
      obtain rfl := List.mem_singleton.mp hpath
      rw [hcache' dir t hdir] at hplace
      revert hplace
      decide +kernel
    · cases hnone

end Session

end GoContracts

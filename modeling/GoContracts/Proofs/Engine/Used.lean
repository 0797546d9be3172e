import GoContracts.Proofs.Engine.Loop
import GoContracts.Proofs.Path

/-!
# Engines in use

An engine is created for a project and run any number of times, each time on a disk of its own. A
run that succeeds writes the manifest if any file is mapped. If none is, it leaves the disk alone,
and with it the manifest of an earlier run.
-/

namespace GoContracts

namespace Session

variable {s : Session}

private theorem writeManifest_prepares : (writeManifest s).2.engine = s.engine := by
  have hprepared := (ensureDirectory_prepares s).engine
  rw [writeManifest_eq]
  revert hprepared
  rcases ensureDirectory s with ⟨f | u, t⟩ <;> intro hprepared
  · exact hprepared
  · simp only
    cases t.disk.writePlace (Path.join t.writer.directory Manifest.fileName) with
    | error e => exact hprepared
    | ok place => cases t.nextFault? <;> exact hprepared

/-- To publish does not change the engine. -/
theorem publish_engine : (publish s).2.engine = s.engine := by
  have hmanifest := writeManifest_prepares (s := s)
  rw [publish_eq]
  split
  · rfl
  · revert hmanifest
    rcases writeManifest s with ⟨f | path, t⟩ <;> exact id

/-- After a run the engine is that of the same project without loaded packages. -/
theorem run_engine (hp : s.engine.packages = []) :
    (run s).2.engine.root = s.engine.root ∧ (run s).2.engine.settings = s.engine.settings ∧
      (run s).2.engine.packages = [] ∧
      (s.engine.manifest.Ascending → (run s).2.engine.manifest.Ascending) := by
  rw [run_eq]
  cases (s.engine.selection s.disk).files with
  | error f => exact ⟨rfl, rfl, hp, id⟩
  | ok paths =>
    have hfollows := compile_follows s.opened paths
    simp only
    revert hfollows
    rcases compile paths s.opened with ⟨f | u, t⟩ <;> intro hfollows
    · exact ⟨hfollows.root, hfollows.settings, rfl, hfollows.ascending⟩
    · have hengine := publish_engine (s := t.forgotten)
      have hkept : (publish t.forgotten).2.engine.root = s.engine.root ∧
          (publish t.forgotten).2.engine.settings = s.engine.settings ∧
          (publish t.forgotten).2.engine.packages = [] ∧ (s.engine.manifest.Ascending →
            (publish t.forgotten).2.engine.manifest.Ascending) := by
        rw [hengine]
        exact ⟨hfollows.root, hfollows.settings, rfl, hfollows.ascending⟩
      simp only
      revert hkept
      rcases publish t.forgotten with ⟨f | u, v⟩ <;> exact id

end Session

namespace Engine

variable {e : Engine} {disk : Disk} {path : String} {settings : Settings}

/-- An engine as it is created. -/
structure Fresh (e : Engine) : Prop where
  root : ∃ disk path, canonicalRoot disk path = .ok e.root
  manifest : e.manifest = {}
  packages : e.packages = []

/-- An engine with given settings is fresh. -/
theorem fresh_of_withSettings (h : withSettings disk path settings = .ok e) : e.Fresh := by
  rw [withSettings] at h
  cases hroot : canonicalRoot disk path with
  | error f => simp [hroot, bind, Except.bind] at h
  | ok root =>
    obtain rfl : { root, settings } = e := by
      simpa [hroot, bind, Except.bind, pure, Except.pure] using h
    exact ⟨⟨disk, path, hroot⟩, rfl, rfl⟩

/-- A discovered engine is fresh. -/
theorem fresh_of_discover (h : discover disk path = .ok e) : e.Fresh := by
  rw [discover] at h
  cases hroot : canonicalRoot disk path with
  | error f => simp [hroot, bind, Except.bind] at h
  | ok root =>
    cases hsettings : Settings.discover disk root with
    | error f => simp [hroot, hsettings, bind, Except.bind] at h
    | ok settings =>
      obtain rfl : { root, settings } = e := by
        simpa [hroot, hsettings, bind, Except.bind, pure, Except.pure] using h
      exact ⟨⟨disk, path, hroot⟩, rfl, rfl⟩

/-- An engine that has been run any number of times, whatever befell the runs. Between them the disk
may have changed in any way. -/
inductive Used : Engine → Prop
  | created {e : Engine} (h : e.Fresh) : Used e
  | run {e : Engine} (h : Used e) (disk : Disk) (faults : List (Option Disk.Fault)) :
      Used (Session.run (.start e disk faults)).2.engine

/-- An engine for the same project with the same settings, as it is created. -/
def renewed (e : Engine) : Engine := { root := e.root, settings := e.settings }

namespace Used

private theorem kept (h : e.Used) :
    e.packages = [] ∧ e.manifest.Ascending ∧ ∃ disk path, canonicalRoot disk path = .ok e.root := by
  induction h with
  | created h => exact ⟨h.packages, h.manifest ▸ .empty, h.root⟩
  | @run e _ disk faults ih =>
    obtain ⟨hp, hm, hroot⟩ := ih
    obtain ⟨hroot', -, hp', hm'⟩ := Session.run_engine (s := .start e disk faults) hp
    exact ⟨hp', hm' hm, hroot' ▸ hroot⟩

/-- A used engine keeps no packages. -/
theorem packages (h : e.Used) : e.packages = [] := h.kept.1

/-- The manifest of a used engine ascends. -/
theorem ascending (h : e.Used) : e.manifest.Ascending := h.kept.2.1

/-- The root of a used engine is absolute. -/
theorem isAbsolute_root (h : e.Used) : Path.isAbsolute e.root = true := by
  obtain ⟨disk, path, hroot⟩ := h.kept.2.2
  rw [canonicalRoot, Disk.canonical] at hroot
  cases hfind : disk.find true path with
  | error cause => simp [hfind, bind, Except.bind] at hroot
  | ok found =>
    have hplace : Path.ofPlace found.1 = e.root := by
      simpa [hfind, bind, Except.bind, pure, Except.pure] using hroot
    rw [← hplace]
    exact Path.isAbsolute_ofPlace

end Used

/-- The engine of a project at the root of the disk, with the default settings. -/
def atRoot : Engine := { root := "/", settings := {} }

/-- The engine at the root counts as used. -/
theorem used_atRoot : atRoot.Used := .created ⟨⟨default, "/", rfl⟩, rfl, rfl⟩

end Engine

end GoContracts

/-! ### What is published -/

namespace GoContracts.Session

open Engine (atRoot)

variable {s t after : Session} {path : String} {paths : List String} {m : Manifest} {u : Unit}

/-- The overlay at a path is the given manifest, and there is none if no file is mapped. -/
def Published (d : Disk) (path : String) (m : Manifest) : Prop :=
  (d.pathExists path = true ↔ m.isEmpty = false) ∧
    (m.isEmpty = false → d.readText path = .ok m.render)

/-- A session whose loop maps no file has not touched the disk. -/
theorem disk_of_isEmpty (h : compile paths s = (.ok u, t)) (hm : t.engine.manifest.isEmpty = true) :
    t.disk = s.disk := by
  obtain ⟨r, t', recorded, hloop, hdisk⟩ := compile_withManifest paths s
  have hs := hloop s.engine.manifest
  rw [show s.withManifest s.engine.manifest = s from rfl, h] at hs
  obtain ⟨rfl, rfl⟩ := Prod.mk.inj hs
  exact hdisk rfl (Manifest.isEmpty_recordAll.mp hm).2

/-- The manifest that has been written is read back. -/
theorem readText_of_publish (hd : s.disk.Rooted) (hm : s.engine.manifest.isEmpty = false)
    (h : publish s = (.ok u, t)) :
    t.engine = s.engine ∧ t.disk.pathExists
      (Path.join s.writer.directory Manifest.fileName) = true ∧
      t.disk.readText (Path.join s.writer.directory Manifest.fileName) =
        .ok s.engine.manifest.render := by
  have hprepared := ensureDirectory_prepares s
  rw [publish_eq, if_neg (by simp [hm])] at h
  rcases hwrite : writeManifest s with ⟨f | at_, mid⟩ <;> rw [hwrite] at h
  · cases (Prod.mk.inj h).1
  obtain ⟨-, rfl⟩ := Prod.mk.inj h
  obtain ⟨t', place, hensure, rfl, hw, rfl⟩ := writeManifest_ok hwrite
  rw [hensure] at hprepared
  have hd' := (hprepared.disk hd).grown.rooted hd
  rw [hprepared.directory] at hw
  refine ⟨hprepared.engine, ?_, ?_⟩
  · rw [Disk.pathExists]
    show (Disk.find (t'.disk.put place _) _ _).isOk = true
    rw [Disk.find_put hd' hw]
    rfl
  · rw [← hprepared.engine]
    exact Disk.readText_put hd' hw

/-- An empty manifest is published without change. -/
theorem publish_of_isEmpty (hm : s.engine.manifest.isEmpty = true) : publish s = (.ok (), s) := by
  rw [publish_eq, if_pos hm]

/-- A run that succeeds leaves a manifest that maps files in the overlay; otherwise it leaves the
disk alone. -/
theorem run_ok (hd : s.disk.Rooted) (h : run s = (.ok m, after)) :
    (m.isEmpty = true ∧ after.disk = s.disk) ∨
      (m.isEmpty = false ∧ after.disk.pathExists s.engine.manifestPath = true ∧
        after.disk.readText s.engine.manifestPath = .ok m.render) := by
  rw [run_eq] at h
  cases hfiles : (s.engine.selection s.disk).files with
  | error f =>
    rw [hfiles] at h
    cases (Prod.mk.inj h).1
  | ok paths =>
    rw [hfiles] at h
    simp only at h
    have hfollows := compile_follows s.opened paths
    rcases hcompile : compile paths s.opened with ⟨f | u, t⟩
    · rw [hcompile] at h
      cases (Prod.mk.inj h).1
    · rw [hcompile] at h hfollows
      simp only at h
      have hrooted : t.forgotten.disk.Rooted := (hfollows.grown hd).rooted hd
      have hpath : Path.join t.forgotten.writer.directory Manifest.fileName =
          s.engine.manifestPath := congrArg (Path.join · _) hfollows.directory
      rcases hpublish : publish t.forgotten with ⟨f | u, v⟩
      · rw [hpublish] at h
        cases (Prod.mk.inj h).1
      · rw [hpublish] at h
        obtain ⟨hm, rfl⟩ := Prod.mk.inj h
        obtain rfl := Except.ok.inj hm
        cases hempty : t.forgotten.engine.manifest.isEmpty with
        | true =>
          rw [publish_of_isEmpty hempty] at hpublish
          obtain ⟨-, rfl⟩ := Prod.mk.inj hpublish
          have hdisk : t.disk = s.opened.disk := disk_of_isEmpty hcompile hempty
          exact .inl ⟨hempty, hdisk⟩
        | false =>
          obtain ⟨hengine, hexists, hread⟩ := readText_of_publish hrooted hempty hpublish
          rw [hpath] at hexists hread
          exact .inr ⟨hengine ▸ hempty, hexists, hengine ▸ hread⟩

/-- After a run that succeeds the overlay is what the run yields, unless the run maps no file and
an overlay was there before: such a run leaves the disk as it was. -/
theorem run_published_iff (hd : s.disk.Rooted) (h : run s = (.ok m, after)) :
    (Published after.disk s.engine.manifestPath m ↔
      (m.isEmpty = true → s.disk.pathExists s.engine.manifestPath = false)) ∧
      (m.isEmpty = true → after.disk = s.disk) := by
  rcases run_ok hd h with ⟨hm, hdisk⟩ | ⟨hm, hexists, hread⟩
  · refine ⟨?_, fun _ => hdisk⟩
    simp [Published, hm, hdisk]
  · refine ⟨?_, fun hempty => by simp [hm] at hempty⟩
    simp [Published, hm, hexists, hread]

/-! ### A contract that is removed -/

/-- The session after a run on a project of one file that holds a contract. -/
def contractCompiled : Session :=
  (run (start atRoot
    { root := .directory [("a.go", .file (.text "package p\n/* @must */"))] })).2

/-- The disk after the contract has been removed from the file. -/
def contractRemoved : Disk :=
  (Disk.writeText "/a.go" "package p\n" none contractCompiled.disk).2

/-- The runs after the only contract was removed, by a new engine and by the one that compiled
it. -/
theorem contractRemoved_steps :
    let d := contractRemoved
    let anew := run (start atRoot d)
    d.root.nodeAt? d.workingDirectory = some .directory ∧ anew.1 = .ok {} ∧
      anew.2.disk.pathExists atRoot.manifestPath = true ∧
      (run (start contractCompiled.engine d)).1 =
        .ok { entries := [("/a.go", "/.inco_cache/a_0ad6261536f6.go")] } := by
  decide +kernel

/-- The run after the only contract was removed, where an older manifest stands. -/
theorem run_published_contractRemoved :
    (Published (run (start atRoot contractRemoved)).2.disk atRoot.manifestPath {} ↔
      (Manifest.isEmpty {} = true → contractRemoved.pathExists atRoot.manifestPath = false)) ∧
      (Manifest.isEmpty {} = true →
        (run (start atRoot contractRemoved)).2.disk = contractRemoved) := by
  obtain ⟨hd, hresult, -⟩ := contractRemoved_steps
  rcases hrun : run (start atRoot contractRemoved) with ⟨r, after⟩
  rw [hrun] at hresult
  subst hresult
  exact run_published_iff (s := start atRoot contractRemoved) hd hrun

/-- A new run on a file without contract leaves the overlay that maps the file. -/
theorem contractRemoved_published : (run (start atRoot contractRemoved)).1 = .ok {} ∧
    ¬Published (run (start atRoot contractRemoved)).2.disk atRoot.manifestPath {} := by
  obtain ⟨-, hrun, hexists, -⟩ := contractRemoved_steps
  refine ⟨hrun, fun hpublished => ?_⟩
  have hmapped := hpublished.1.mp hexists
  cases hmapped

end GoContracts.Session

import GoContracts.Proofs.Engine.Used

/-!
# Running an engine again

An engine keeps the manifest of its earlier runs. A run adds to it, so that the files mapped before
stay mapped; apart from that, an engine that has been run does what a new one does.
-/

namespace GoContracts.Session

variable {s t : Session} {e : Engine} {disk : Disk} {m : Manifest}

/-- Whether a manifest can be written does not depend on what it maps, if no fault breaks it off. -/
theorem publish_withManifest (hf : t.faults = []) :
    (∃ f d, ∀ m, m.isEmpty = false → (publish (t.withManifest m)).1 = .error f ∧
      (publish (t.withManifest m)).2.disk = d) ∨
    ∃ d : Manifest → Disk, ∀ m, m.isEmpty = false → (publish (t.withManifest m)).1 = .ok () ∧
      (publish (t.withManifest m)).2.disk = d m := by
  have hpublish (m : Manifest) (hm : m.isEmpty = false) : publish (t.withManifest m) = _ :=
    publish_eq.trans (if_neg (by simp [withManifest, hm]))
  simp only [writeManifest_eq, blind_ensureDirectory t] at hpublish
  rcases hensure : ensureDirectory t with ⟨f | u, v⟩
  · simp only [hensure] at hpublish
    exact .inl ⟨f, v.disk, fun m hm => hpublish m hm ▸ ⟨rfl, rfl⟩⟩
  · have hfollows := (ensureDirectory_prepares t).follows
    rw [hensure] at hfollows
    simp only [hensure, disk_withManifest, writer_withManifest, nextFault?_withManifest,
      nextFault?_of_nil (hfollows.faults_eq_nil hf)] at hpublish
    cases hw : v.disk.writePlace (Path.join v.writer.directory Manifest.fileName) with
    | error cause =>
      simp only [hw] at hpublish
      refine .inl ⟨.writeManifest (Path.join v.writer.directory Manifest.fileName) cause, v.disk,
        fun m hm => ?_⟩
      rw [hpublish m hm]
      exact ⟨rfl, rfl⟩
    | ok place =>
      simp only [hw] at hpublish
      exact .inr ⟨fun m => v.disk.put place m.render, fun m hm => hpublish m hm ▸ ⟨rfl, rfl⟩⟩

/-- What a run gives, put for any manifest that the engine may have from before. -/
theorem run_withManifest (s : Session) :
    (∃ f d, ∀ m, (run (s.withManifest m)).1 = .error f ∧ (run (s.withManifest m)).2.disk = d) ∨
    ∃ (t : Session) (recorded : List (String × String)), t.faults <:+ s.faults ∧ ∀ m,
      (run (s.withManifest m)).1 = (publish (t.withManifest (m.recordAll recorded))).1.map
        (fun _ => m.recordAll recorded) ∧
      (run (s.withManifest m)).2.disk =
        (publish (t.withManifest (m.recordAll recorded))).2.disk := by
  have hrun (m : Manifest) : run (s.withManifest m) = _ := run_eq
  have hselection (m : Manifest) : (s.withManifest m).engine.selection (s.withManifest m).disk =
    s.engine.selection s.disk := rfl
  have hopened (m : Manifest) : (s.withManifest m).opened = s.opened.withManifest m := rfl
  simp only [hselection, hopened, writer_withManifest] at hrun
  cases hfiles : (s.engine.selection s.disk).files with
  | error f =>
    simp only [hfiles] at hrun
    refine .inl ⟨f, s.disk, fun m => ?_⟩
    rw [hrun m]
    exact ⟨rfl, rfl⟩
  | ok paths =>
    obtain ⟨r, t, recorded, hloop, -⟩ := compile_withManifest paths s.opened
    simp only [hfiles, hloop] at hrun
    cases r with
    | error f =>
      refine .inl ⟨f, t.disk, fun m => ?_⟩
      rw [hrun m]
      exact ⟨rfl, rfl⟩
    | ok u =>
      have hfollows := compile_follows (s.opened.withManifest {}) paths
      rw [hloop] at hfollows
      refine .inr ⟨t.forgotten, recorded, hfollows.faults, fun m => ?_⟩
      have hforgotten : (t.withManifest (m.recordAll recorded)).forgotten =
        t.forgotten.withManifest (m.recordAll recorded) := rfl
      have hengine := publish_engine (s := t.forgotten.withManifest (m.recordAll recorded))
      rw [hrun m]
      simp only [hforgotten]
      revert hengine
      rcases publish (t.forgotten.withManifest (m.recordAll recorded)) with ⟨f | u, v⟩
      · exact fun _ => ⟨rfl, rfl⟩
      · exact fun hengine => ⟨congrArg (fun e : Engine => Except.ok e.manifest) hengine, rfl⟩

end GoContracts.Session

namespace GoContracts.Engine

open Session

variable {e : Engine} {disk : Disk}

/-- An engine without loaded packages is a new engine with a manifest. -/
theorem start_eq (hp : e.packages = []) :
    Session.start e disk = (Session.start e.renewed disk).withManifest e.manifest := by
  cases e
  obtain rfl := hp
  rfl

/-- An engine that has been run does what a new one for the same project does, exactly when all
files that it has mapped before are mapped by the new one as well. -/
theorem rerun_iff (h : e.Used) (disk : Disk) :
    ((run (start e disk)).1 = (run (start e.renewed disk)).1 ∧
      (run (start e disk)).2.disk = (run (start e.renewed disk)).2.disk) ↔
    ∀ m, (run (start e.renewed disk)).1 = .ok m →
      ∀ file, m.shadow? file = none → e.manifest.shadow? file = none := by
  have hnew : start e.renewed disk = (start e.renewed disk).withManifest {} := rfl
  rw [start_eq h.packages]
  rcases run_withManifest (start e.renewed disk) with ⟨f, d, hrun⟩ | ⟨t, recorded, hfaults, hrun⟩
  · obtain ⟨hanew, hdisk⟩ := hrun {}
    rw [← hnew] at hanew hdisk
    simp [hrun e.manifest, hanew, hdisk]
  obtain ⟨hagain, hdisk⟩ := hrun e.manifest
  obtain ⟨hanew, hdisk'⟩ := hrun {}
  rw [← hnew] at hanew hdisk'
  rw [hagain, hanew, hdisk, hdisk']
  cases hempty : (({} : Manifest).recordAll recorded).isEmpty with
  | true =>
    -- Nothing was mapped anew: the new engine publishes nothing, the old one what it mapped before.
    obtain ⟨-, rfl⟩ := Manifest.isEmpty_recordAll.mp hempty
    rw [publish_of_isEmpty (s := t.withManifest (({} : Manifest).recordAll [])) hempty]
    change (_ ∧ _) ↔ ∀ m, Except.ok ({} : Manifest) = Except.ok m → _
    have hmapped : (∀ m, (Except.ok {} : Except Failure Manifest) = .ok m →
        ∀ file, m.shadow? file = none → e.manifest.shadow? file = none) ↔ e.manifest = {} := by
      rw [Manifest.eq_empty_iff, Manifest.isEmpty_iff]
      constructor
      · exact fun h file => h {} rfl file rfl
      · rintro h m - file -
        exact h file
    rw [hmapped]
    constructor
    · rintro ⟨hsame, -⟩
      cases hresult : (publish (t.withManifest (e.manifest.recordAll []))).1 with
      | error f =>
        rw [hresult] at hsame
        cases hsame
      | ok u =>
        rw [hresult] at hsame
        exact Except.ok.inj hsame
    · intro heq
      rw [heq, publish_of_isEmpty (s := t.withManifest (({} : Manifest).recordAll [])) hempty]
      exact ⟨rfl, rfl⟩
  | false =>
    have hempty' : (e.manifest.recordAll recorded).isEmpty = false := by
      rw [Bool.eq_false_iff, Ne, Manifest.isEmpty_recordAll]
      rintro ⟨-, rfl⟩
      cases hempty
    rcases publish_withManifest (List.suffix_nil.mp hfaults) with ⟨f, d, hpublish⟩ | ⟨d, hpublish⟩
    · simp [hpublish _ hempty, hpublish _ hempty', Except.map]
    · simp only [hpublish _ hempty, hpublish _ hempty', Except.map, Except.ok.injEq]
      rw [forall_eq', ← Manifest.recordAll_eq_iff h.ascending]
      exact ⟨And.left, fun heq => ⟨heq, congrArg d heq⟩⟩

private theorem used_contractCompiled : contractCompiled.engine.Used := by
  rw [contractCompiled]
  exact .run used_atRoot _ []

private theorem renewed_contractCompiled : contractCompiled.engine.renewed = atRoot := by
  obtain ⟨hroot, hsettings, -⟩ := run_engine (s := start atRoot
    { root := .directory [("a.go", .file (.text "package p\n/* @must */"))] }) rfl
  rw [renewed, contractCompiled, hroot, hsettings]
  rfl

/-- The engine that ran before the only contract was removed, and its renewed copy. -/
theorem rerun_contractRemoved :
    ((run (start contractCompiled.engine contractRemoved)).1 =
        (run (start contractCompiled.engine.renewed contractRemoved)).1 ∧
      (run (start contractCompiled.engine contractRemoved)).2.disk =
        (run (start contractCompiled.engine.renewed contractRemoved)).2.disk) ↔
    ∀ m, (run (start contractCompiled.engine.renewed contractRemoved)).1 = .ok m →
      ∀ file, m.shadow? file = none → contractCompiled.engine.manifest.shadow? file = none :=
  rerun_iff used_contractCompiled contractRemoved

/-- An engine that has been run still maps a file that does not hold a contract any more. -/
theorem contractRemoved_mapped : contractCompiled.engine.Used ∧
    (run (start contractCompiled.engine contractRemoved)).1 =
      .ok { entries := [("/a.go", "/.inco_cache/a_0ad6261536f6.go")] } ∧
    (run (start contractCompiled.engine.renewed contractRemoved)).1 = .ok {} := by
  obtain ⟨-, hanew, -, hagain⟩ := contractRemoved_steps
  rw [renewed_contractCompiled]
  exact ⟨used_contractCompiled, hagain, hanew⟩

end GoContracts.Engine

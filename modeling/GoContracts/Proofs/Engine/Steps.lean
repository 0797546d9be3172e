import GoContracts.Engine.Session
import GoContracts.Proofs.FileTree.Changes

/-!
# The steps of a session

Each step of a session is put as what it gives and the session that it leaves.
-/

namespace GoContracts.Session

variable {s t : Session} {path text : String} {f : Failure}

/-! ### Writing -/

/-- The session after a step that makes files or directories. -/
def spent (s : Session) (d : Disk) : Session := { s with disk := d, faults := s.faults.tail }

/-- Without faults none comes next. -/
theorem nextFault?_of_nil (h : s.faults = []) : s.nextFault? = none := by
  rw [nextFault?, h]
  rfl

/-- The session after its writer has made its directory. -/
def prepared (s : Session) (d : Disk) : Session :=
  { s.spent d with writer := { s.writer with made := true } }

/-- The cache directory is made once. -/
theorem ensureDirectory_eq : ensureDirectory s =
    if s.writer.made then (.ok (), s)
    else match Disk.makeDirectories s.writer.directory s.nextFault? s.disk with
      | (.ok _, d) => (.ok (), s.prepared d)
      | (.error e, d) => (.error (.createCacheDirectory s.writer.directory e), s.spent d) := by
  rw [ensureDirectory, Step.bind_apply, Step.get_apply]
  simp only
  cases s.writer.made with
  | true => rfl
  | false =>
    simp only [Bool.false_eq_true, if_false]
    rw [Step.bind_apply, making]
    rcases Disk.makeDirectories s.writer.directory s.nextFault? s.disk with ⟨e | u, d⟩ <;> rfl

private theorem making_writeText {failure : OsError → Failure} {path text : String} :
    making failure (Disk.writeText path text ·) s = match s.disk.writePlace path, s.nextFault? with
      | .error e, _ => (.error (failure e), s.spent s.disk)
      | .ok place, none => (.ok (), s.spent (s.disk.put place text))
      | .ok place, some fault =>
        (.error (failure fault.cause), s.spent (s.disk.putPart place text fault)) := by
  rw [making, Disk.writeText_eq]
  cases s.disk.writePlace path with
  | error e => rfl
  | ok place => cases s.nextFault? <;> rfl

/-- The path of the shadow of a file. -/
def shadowPath (s : Session) (path text : String) : String :=
  Path.join s.writer.directory (Shadow.name path text)

/-- A shadow is written into the cache directory and noted in the manifest. -/
theorem writeShadow_eq : writeShadow path text s = match ensureDirectory s with
    | (.error f, t) => (.error f, t)
    | (.ok _, t) =>
      match t.disk.writePlace (t.shadowPath path text), t.nextFault? with
      | .error e, _ => (.error (.writeShadow (t.shadowPath path text) e), t.spent t.disk)
      | .ok place, none => (.ok (t.shadowPath path text), t.spent (t.disk.put place text))
      | .ok place, some fault =>
        (.error (.writeShadow (t.shadowPath path text) fault.cause),
          t.spent (t.disk.putPart place text fault)) := by
  rw [writeShadow, Step.bind_apply]
  rcases ensureDirectory s with ⟨e | u, t⟩
  · rfl
  · simp only
    rw [Step.bind_apply, Step.get_apply]
    simp only
    rw [← shadowPath, Step.bind_apply, making_writeText]
    cases t.disk.writePlace (t.shadowPath path text) with
    | error e => rfl
    | ok place => cases t.nextFault? <;> rfl

/-- The manifest is written into the cache directory. -/
theorem writeManifest_eq : writeManifest s = match ensureDirectory s with
    | (.error f, t) => (.error f, t)
    | (.ok _, t) =>
      let path := Path.join t.writer.directory Manifest.fileName
      match t.disk.writePlace path, t.nextFault? with
      | .error e, _ => (.error (.writeManifest path e), t.spent t.disk)
      | .ok place, none => (.ok path, t.spent (t.disk.put place t.engine.manifest.render))
      | .ok place, some fault =>
        (.error (.writeManifest path fault.cause),
          t.spent (t.disk.putPart place t.engine.manifest.render fault)) := by
  rw [writeManifest, Step.bind_apply]
  rcases ensureDirectory s with ⟨e | u, t⟩
  · rfl
  · simp only
    rw [Step.bind_apply, Step.get_apply]
    simp only
    rw [Step.bind_apply, making_writeText]
    cases t.disk.writePlace (Path.join t.writer.directory Manifest.fileName) with
    | error e => rfl
    | ok place => cases t.nextFault? <;> rfl

/-- A shadow that is written is written as a whole, behind the directory. -/
theorem writeShadow_ok {shadow : String} (h : writeShadow path text s = (.ok shadow, t)) :
    ∃ mid place, ensureDirectory s = (.ok (), mid) ∧ shadow = mid.shadowPath path text ∧
      mid.disk.writePlace shadow = .ok place ∧ t = mid.spent (mid.disk.put place text) := by
  rw [writeShadow_eq] at h
  rcases hensure : ensureDirectory s with ⟨f | v, mid⟩ <;> rw [hensure] at h
  · cases (Prod.mk.inj h).1
  simp only at h
  cases hplace : mid.disk.writePlace (mid.shadowPath path text) with
  | error e =>
    rw [hplace] at h
    cases (Prod.mk.inj h).1
  | ok place =>
    cases hfault : mid.nextFault? with
    | none =>
      rw [hplace, hfault] at h
      obtain ⟨hshadow, rfl⟩ := Prod.mk.inj h
      obtain rfl := Except.ok.inj hshadow
      exact ⟨mid, place, rfl, rfl, hplace, rfl⟩
    | some fault =>
      rw [hplace, hfault] at h
      cases (Prod.mk.inj h).1

/-- A manifest that is written is written as a whole, behind the directory. -/
theorem writeManifest_ok (h : writeManifest s = (.ok path, t)) :
    ∃ mid place, ensureDirectory s = (.ok (), mid) ∧
      path = Path.join mid.writer.directory Manifest.fileName ∧
      mid.disk.writePlace path = .ok place ∧
      t = mid.spent (mid.disk.put place mid.engine.manifest.render) := by
  rw [writeManifest_eq] at h
  rcases hensure : ensureDirectory s with ⟨f | v, mid⟩ <;> rw [hensure] at h
  · cases (Prod.mk.inj h).1
  simp only at h
  cases hplace : mid.disk.writePlace (Path.join mid.writer.directory Manifest.fileName) with
  | error e =>
    rw [hplace] at h
    cases (Prod.mk.inj h).1
  | ok place =>
    cases hfault : mid.nextFault? with
    | none =>
      rw [hplace, hfault] at h
      obtain ⟨hpath, rfl⟩ := Prod.mk.inj h
      obtain rfl := Except.ok.inj hpath
      exact ⟨mid, place, rfl, rfl, hplace, rfl⟩
    | some fault =>
      rw [hplace, hfault] at h
      cases (Prod.mk.inj h).1

/-! ### Compiling -/

/-- The session with a package loaded for a directory. -/
def loaded (s : Session) (directory : String) (package : Package) (reports : List Diagnostic) :
    Session :=
  { s with
    reports
    engine := { s.engine with packages := (directory, package) :: s.engine.packages } }

/-- A package is loaded the first time that it is asked for. -/
theorem packageOf_eq {directory : String} : packageOf directory s =
    match s.engine.package? directory with
    | some package => (.ok package, s)
    | none =>
      match Package.load s.disk directory s.reports with
      | (.error f, reports) => (.error f, { s with reports })
      | (.ok package, reports) => (.ok package, s.loaded directory package reports) := by
  rw [packageOf, Step.bind_apply, Step.get_apply]
  simp only
  cases s.engine.package? directory with
  | some package => rfl
  | none =>
    simp only
    rw [Step.bind_apply, reporting]
    rcases Package.load s.disk directory s.reports with ⟨f | package, reports⟩ <;> rfl

/-- The text of the shadow of a file; none if it holds no directive. -/
def rendered (path : String) : Action (Option String) := do
  let package ← packageOf ((Path.parent? path).getD (← get).engine.root)
  reporting (package.shadowAt? path)

/-- A file is rendered with the package of its directory. -/
theorem rendered_eq : rendered path s =
    match packageOf ((Path.parent? path).getD s.engine.root) s with
    | (.error f, t) => (.error f, t)
    | (.ok package, t) =>
      ((package.shadowAt? path t.reports).1,
        { t with reports := (package.shadowAt? path t.reports).2 }) := by
  rw [rendered, Step.bind_apply, Step.get_apply]
  simp only
  rw [Step.bind_apply]
  rcases packageOf ((Path.parent? path).getD s.engine.root) s with ⟨f | package, t⟩ <;> rfl

/-- The session with a file mapped to its shadow. -/
def recorded (s : Session) (path shadow : String) : Session :=
  { s with engine := { s.engine with manifest := s.engine.manifest.record path shadow } }

/-- A file is rendered, and its shadow written if there is one. -/
theorem process_eq : process path s = match rendered path s with
    | (.error f, t) => (.error f, t)
    | (.ok none, t) => (.ok none, t)
    | (.ok (some text), t) =>
      match writeShadow path text t with
      | (.error f, u) => (.error f, u)
      | (.ok shadow, u) => (.ok (some shadow), u.recorded path shadow) := by
  rw [process, rendered, Step.bind_apply, Step.bind_apply, Step.get_apply]
  simp only
  rw [Step.bind_apply, Step.bind_apply]
  rcases packageOf ((Path.parent? path).getD s.engine.root) s with ⟨f | package, t⟩
  · rfl
  simp only
  rw [Step.bind_apply]
  rcases reporting (package.shadowAt? path) t with ⟨f | _ | text, u⟩
  · rfl
  · rfl
  simp only
  rw [Step.bind_apply]
  rcases writeShadow path text u with ⟨f | shadow, v⟩ <;> rfl

/-- Compile the files at the paths, one after another. -/
def compile (paths : List String) : Action Unit := paths.forM fun path => discard (process path)

/-- No files are compiled without change. -/
theorem compile_nil : compile [] s = (.ok (), s) := rfl

/-- The first file is processed before the others. -/
theorem compile_cons {paths : List String} :
    compile (path :: paths) s = match process path s with
      | (.error f, t) => (.error f, t)
      | (.ok _, t) => compile paths t := by
  change (discard (process path) >>= fun _ => compile paths : Action Unit) s = _
  rw [Step.bind_apply, Step.discard_apply]
  rcases process path s with ⟨f | o, t⟩ <;> rfl

/-- An empty manifest is not written. -/
theorem publish_eq : publish s =
    if s.engine.manifest.isEmpty then (.ok (), s)
    else match writeManifest s with
      | (.error f, t) => (.error f, t)
      | (.ok path, t) => (.ok (), { t with
          reports := t.reports ++ [.overlayWritten path s.engine.manifest.size] }) := by
  rw [publish, Step.bind_apply, Step.get_apply]
  simp only
  cases s.engine.manifest.isEmpty with
  | true => rfl
  | false =>
    simp only [Bool.false_eq_true, if_false]
    rw [Step.bind_apply]
    rcases writeManifest s with ⟨f | path, t⟩ <;> rfl

/-! ### A whole run -/

/-- The session with a writer of its own. -/
def opened (s : Session) : Session := { s with writer := { directory := s.engine.cacheDirectory } }

/-- The session without loaded packages. -/
def forgotten (s : Session) : Session := { s with engine := { s.engine with packages := [] } }

private theorem withFreshWriter_apply {α : Type} {act : Action α} : withFreshWriter act s =
    ((act s.opened).1, { (act s.opened).2 with writer := s.writer }) := rfl

private theorem forgettingPackages_apply {α : Type} {act : Action α} :
    forgettingPackages act s = ((act s).1, (act s).2.forgotten) := rfl

/-- A run compiles the selected files and publishes the manifest. -/
theorem run_eq : run s = match (s.engine.selection s.disk).files with
    | .error f => (.error f, s)
    | .ok paths =>
      match compile paths s.opened with
      | (.error f, t) => (.error f, { t.forgotten with writer := s.writer })
      | (.ok _, t) =>
        match publish t.forgotten with
        | (.error f, u) => (.error f, { u with writer := s.writer })
        | (.ok _, u) => (.ok u.engine.manifest, { u with writer := s.writer }) := by
  rw [run, Step.bind_apply, Step.get_apply]
  simp only
  rw [Step.bind_apply, Step.ofExcept_apply]
  cases (s.engine.selection s.disk).files with
  | error f => rfl
  | ok paths =>
    simp only
    rw [Step.bind_apply, withFreshWriter_apply, Step.bind_apply, forgettingPackages_apply]
    rw [← compile]
    rcases compile paths s.opened with ⟨f | u, t⟩
    · rfl
    simp only
    rcases publish t.forgotten with ⟨f | u, t⟩ <;> rfl

end GoContracts.Session

import GoContracts.Proofs.Engine.Steps
import GoContracts.Proofs.Overlay.Manifest
import GoContracts.Proofs.Weaving.Injection

/-!
# The loop over the selected files

A run processes the files in order and ends with the first failure. What every step of the loop
keeps holds when the loop ends. The manifest is written to, but not read: sessions that differ in
their manifests only go through the same steps.
-/

namespace GoContracts.Session

variable {s t u : Session} {path text : String} {paths : List String} {f : Failure}
  {m : Manifest} {r : Except Failure Unit}

/-! ### Invariants of the loop -/

/-- What holds before the first file and is kept by every file that is processed holds after the
last one, or at the file that fails. -/
theorem compile_cases (P : List String → Session → Prop) (hstart : P [] s)
    (hstep : ∀ {before path s o t}, before ++ [path] <+: paths → P before s →
      process path s = (.ok o, t) → P (before ++ [path]) t)
    (h : compile paths s = (r, t)) :
    (r = .ok () ∧ P paths t) ∨ ∃ f before path rest mid, r = .error f ∧
      paths = before ++ path :: rest ∧ P before mid ∧ process path mid = (.error f, t) := by
  have from_ (before rest : List String) (s : Session) (hall : paths = before ++ rest)
      (hs : P before s) (h : compile rest s = (r, t)) :
      (r = .ok () ∧ P paths t) ∨ ∃ f before path rest mid, r = .error f ∧
        paths = before ++ path :: rest ∧ P before mid ∧ process path mid = (.error f, t) := by
    induction rest generalizing before s with
    | nil =>
      rw [compile_nil] at h
      obtain ⟨rfl, rfl⟩ := Prod.mk.inj h
      rw [List.append_nil] at hall
      exact .inl ⟨rfl, hall ▸ hs⟩
    | cons path rest ih =>
      rw [compile_cons] at h
      rcases hp : process path s with ⟨f | o, mid⟩
      · rw [hp] at h
        obtain ⟨rfl, rfl⟩ := Prod.mk.inj h
        exact .inr ⟨f, before, path, rest, s, rfl, hall, hs, hp⟩
      · rw [hp] at h
        have hnext : paths = (before ++ [path]) ++ rest := by simpa using hall
        exact ih (before ++ [path]) mid hnext (hstep (hnext ▸ List.prefix_append ..) hs hp) h
  exact from_ [] paths s rfl hstart h

/-! ### Rendering leaves the disk alone -/

/-- The sessions differ in their reports and loaded packages only. -/
structure Looks (s t : Session) : Prop where
  disk : t.disk = s.disk
  faults : t.faults = s.faults
  writer : t.writer = s.writer
  root : t.engine.root = s.engine.root
  settings : t.engine.settings = s.engine.settings
  manifest : t.engine.manifest = s.engine.manifest

private theorem packageOf_looks (s : Session) (directory : String) : Looks s
    (packageOf directory s).2 := by
  rw [packageOf_eq]
  split
  · exact ⟨rfl, rfl, rfl, rfl, rfl, rfl⟩
  · split <;> exact ⟨rfl, rfl, rfl, rfl, rfl, rfl⟩

/-- To render a file changes nothing but the packages. -/
theorem rendered_looks (s : Session) (path : String) : Looks s (rendered path s).2 := by
  have h := packageOf_looks s ((Path.parent? path).getD s.engine.root)
  rw [rendered_eq]
  revert h
  rcases packageOf ((Path.parent? path).getD s.engine.root) s with ⟨f | package, t⟩
  · exact id
  · exact fun h => ⟨h.disk, h.faults, h.writer, h.root, h.settings, h.manifest⟩

/-! ### What every step keeps -/

/-- The later session is at work for the same project with the same writer's directory, and meets
the faults that are left. Its disk has grown and its manifest is in order, if they were to begin
with. -/
structure Follows (s t : Session) : Prop where
  root : t.engine.root = s.engine.root
  settings : t.engine.settings = s.engine.settings
  directory : t.writer.directory = s.writer.directory
  faults : t.faults <:+ s.faults
  grown : s.disk.Rooted → Disk.Grown s.disk t.disk
  ascending : s.engine.manifest.Ascending → t.engine.manifest.Ascending

/-- Each session follows itself. -/
theorem Follows.refl (s : Session) : Follows s s :=
  ⟨rfl, rfl, rfl, List.suffix_rfl, fun _ => .refl _, id⟩

/-- What follows a later session follows the earlier one. -/
theorem Follows.trans (h : Follows s t) (h' : Follows t u) : Follows s u where
  root := h'.root.trans h.root
  settings := h'.settings.trans h.settings
  directory := h'.directory.trans h.directory
  faults := h'.faults.trans h.faults
  grown hd := (h.grown hd).trans (h'.grown ((h.grown hd).rooted hd))
  ascending := h'.ascending ∘ h.ascending

instance : IsPreorder Session Follows where
  refl := .refl
  trans _ _ _ := .trans

/-- Where no fault is left, none comes later. -/
theorem Follows.faults_eq_nil (h : Follows s t) (hs : s.faults = []) : t.faults = [] :=
  List.suffix_nil.mp (hs ▸ h.faults)

/-- A session that only looked follows. -/
theorem Looks.follows (h : Looks s t) : Follows s t :=
  ⟨h.root, h.settings, h.writer ▸ rfl, h.faults ▸ List.suffix_rfl, fun _ => h.disk ▸ .refl _,
    fun hm => h.manifest ▸ hm⟩

/-- The directory of the writer is made; nothing else happens on the disk. -/
structure Prepares (s t : Session) : Prop where
  engine : t.engine = s.engine
  directory : t.writer.directory = s.writer.directory
  faults : t.faults <:+ s.faults
  disk : s.disk.Rooted → Disk.AddsDirectories s.disk t.disk

/-- To make sure of the cache directory only prepares. -/
theorem ensureDirectory_prepares (s : Session) : Prepares s (ensureDirectory s).2 := by
  have hmade := Disk.addsDirectories_makeDirectories (d := s.disk) s.writer.directory s.nextFault?
  rw [ensureDirectory_eq]
  split
  · exact ⟨rfl, rfl, List.suffix_rfl, fun _ => .refl _⟩
  · revert hmade
    rcases Disk.makeDirectories s.writer.directory s.nextFault? s.disk with ⟨e | u, d⟩ <;>
      exact fun hmade => ⟨rfl, rfl, List.tail_suffix _, hmade⟩

/-- A session that only prepared follows. -/
theorem Prepares.follows (h : Prepares s t) : Follows s t :=
  ⟨h.engine ▸ rfl, h.engine ▸ rfl, h.directory, h.faults, fun hd => (h.disk hd).grown,
    fun hm => h.engine ▸ hm⟩

private theorem follows_spent {d : Disk} (h : s.disk.Rooted → Disk.Grown s.disk d) : Follows s
    (s.spent d) :=
  ⟨rfl, rfl, rfl, List.tail_suffix _, h, id⟩

/-- The session after a file has been written where it can be, as far as it has been. -/
theorem follows_put {path text : String} {place : List String}
    (h : s.disk.writePlace path = .ok place) :
    Follows s (s.spent (s.disk.put place text)) ∧
      ∀ fault, Follows s (s.spent (s.disk.putPart place text fault)) :=
  ⟨follows_spent fun hd => Disk.grown_put (Disk.writable_of_writePlace hd h), fun fault =>
    follows_spent fun hd => Disk.grown_putPart (Disk.writable_of_writePlace hd h) fault⟩

private theorem writeShadow_follows (s : Session) (path text : String) : Follows s
    (writeShadow path text s).2 := by
  have hprepared := (ensureDirectory_prepares s).follows
  rw [writeShadow_eq]
  revert hprepared
  rcases ensureDirectory s with ⟨f | u, t⟩ <;> intro hprepared
  · exact hprepared
  · simp only
    cases hw : t.disk.writePlace (t.shadowPath path text) with
    | error e => exact hprepared.trans (follows_spent fun _ => .refl _)
    | ok place =>
      obtain ⟨hput, hpart⟩ := @follows_put t _ text place hw
      cases t.nextFault? with
      | none => exact hprepared.trans hput
      | some fault => exact hprepared.trans (hpart fault)

/-- To process a file leads to a session that follows. -/
theorem process_follows (s : Session) (path : String) : Follows s (process path s).2 := by
  have hlooks := (rendered_looks s path).follows
  rw [process_eq]
  revert hlooks
  rcases rendered path s with ⟨f | _ | text, t⟩ <;> intro hlooks
  · exact hlooks
  · exact hlooks
  · have hwritten := hlooks.trans (writeShadow_follows t path text)
    simp only
    revert hwritten
    rcases writeShadow path text t with ⟨f | shadow, u⟩ <;> intro hwritten
    · exact hwritten
    · exact hwritten.trans ⟨rfl, rfl, rfl, List.suffix_rfl, fun _ => .refl _, fun hm => hm.record⟩

/-- To compile files leads to a session that follows. -/
theorem compile_follows (s : Session) (paths : List String) : Follows s (compile paths s).2 := by
  induction paths generalizing s with
  | nil => exact .refl s
  | cons path paths ih =>
    have hstep := process_follows s path
    rw [compile_cons]
    revert hstep
    rcases process path s with ⟨f | o, t⟩ <;> intro hstep
    · exact hstep
    · exact hstep.trans (ih t)

/-! ### Sessions that differ in their manifests -/

/-- The session with another manifest. -/
def withManifest (s : Session) (m : Manifest) : Session :=
  { s with engine := { s.engine with manifest := m } }

/-- The disk is not in the manifest. -/
@[simp] theorem disk_withManifest : (s.withManifest m).disk = s.disk := rfl

/-- The writer is not in the manifest. -/
@[simp] theorem writer_withManifest : (s.withManifest m).writer = s.writer := rfl

/-- The reports are not in the manifest. -/
@[simp] theorem reports_withManifest : (s.withManifest m).reports = s.reports := rfl

/-- The faults are not in the manifest. -/
@[simp] theorem nextFault?_withManifest : (s.withManifest m).nextFault? = s.nextFault? := rfl

/-- The root is not in the manifest. -/
@[simp] theorem root_withManifest : (s.withManifest m).engine.root = s.engine.root := rfl

/-- The packages are not in the manifest. -/
@[simp] theorem package?_withManifest {directory : String} :
    (s.withManifest m).engine.package? directory = s.engine.package? directory := rfl

/-- The path of a shadow does not depend on the manifest. -/
@[simp] theorem shadowPath_withManifest :
    (s.withManifest m).shadowPath path text = s.shadowPath path text := rfl

/-- The step neither reads nor changes the manifest. -/
def Blind {α : Type} (x : Action α) : Prop :=
  ∀ s m, x (s.withManifest m) = ((x s).1, (x s).2.withManifest m)

private theorem blind_packageOf {directory : String} : Blind (packageOf directory) := fun s m => by
  rw [packageOf_eq, packageOf_eq, package?_withManifest, disk_withManifest, reports_withManifest]
  cases s.engine.package? directory with
  | some package => rfl
  | none => rcases Package.load s.disk directory s.reports with ⟨f | package, reports⟩ <;> rfl

private theorem blind_rendered : Blind (rendered path) := fun s m => by
  rw [rendered_eq, rendered_eq, root_withManifest, blind_packageOf]
  rcases packageOf ((Path.parent? path).getD s.engine.root) s with ⟨f | package, t⟩ <;> rfl

/-- To make sure of the cache directory does not read the manifest. -/
theorem blind_ensureDirectory : Blind ensureDirectory := fun s m => by
  rw [ensureDirectory_eq, ensureDirectory_eq, writer_withManifest, disk_withManifest,
    nextFault?_withManifest]
  cases s.writer.made with
  | true => rfl
  | false =>
    rcases Disk.makeDirectories s.writer.directory s.nextFault? s.disk with ⟨e | u, d⟩ <;> rfl

private theorem blind_writeShadow : Blind (writeShadow path text) := fun s m => by
  rw [writeShadow_eq, writeShadow_eq, blind_ensureDirectory]
  rcases ensureDirectory s with ⟨f | u, t⟩
  · rfl
  · simp only [disk_withManifest, shadowPath_withManifest, nextFault?_withManifest]
    cases t.disk.writePlace (t.shadowPath path text) with
    | error e => rfl
    | ok place => cases t.nextFault? <;> rfl

/-- What has been recorded is recorded in any manifest, whatever it holds. -/
theorem compile_withManifest (paths : List String) (s : Session) :
    ∃ (r : Except Failure Unit) (t : Session) (recorded : List (String × String)),
    (∀ m, compile paths (s.withManifest m) = (r, t.withManifest (m.recordAll recorded))) ∧
      (r = .ok () → recorded = [] → t.disk = s.disk) := by
  induction paths generalizing s with
  | nil => exact ⟨.ok (), s, [], fun m => rfl, fun _ _ => rfl⟩
  | cons path paths ih =>
    simp only [compile_cons, process_eq, blind_rendered s]
    have hlooks := rendered_looks s path
    revert hlooks
    rcases rendered path s with ⟨f | _ | text, t⟩ <;> intro hlooks
    · exact ⟨.error f, t, [], fun m => rfl, fun h => by cases h⟩
    · obtain ⟨r, u, recorded, hloop, hdisk⟩ := ih t
      exact ⟨r, u, recorded, hloop, fun hr hnil => (hdisk hr hnil).trans hlooks.disk⟩
    · simp only [blind_writeShadow t]
      rcases writeShadow path text t with ⟨f | shadow, u⟩
      · exact ⟨.error f, u, [], fun m => rfl, fun h => by cases h⟩
      · obtain ⟨r, v, recorded, hloop, -⟩ := ih u
        exact ⟨r, v, (path, shadow) :: recorded, fun m => hloop (m.record path shadow),
          fun _ hnil => by cases hnil⟩

end GoContracts.Session

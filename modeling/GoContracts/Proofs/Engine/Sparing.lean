import GoContracts.Proofs.Engine.Used
import GoContracts.Proofs.FileTree.Removing

/-!
# Files that are left alone

A run changes no file but those that it writes, the shadows and the manifest. Cleaning loses no file
but those in the directory of generated files. So any other file stays as it is, whatever is run and
cleaned, with or without success.
-/

namespace GoContracts

namespace Disk

variable {d : Disk} {path : String} {q place : List String} {content : Content}

private theorem isAbsolute_of_mem_ancestors {n : Nat} {p : String} (h : Path.isAbsolute path = true)
    (hp : p ∈ ancestors n path) : Path.isAbsolute p = true := by
  induction n generalizing path with
  | zero => simp [ancestors] at hp
  | succ n ih =>
    rw [ancestors] at hp
    split at hp
    · cases hp
    · next above habove =>
      split at hp
      · cases hp
      · rcases List.mem_cons.mp hp with rfl | hp
        · exact h
        · exact ih (Path.pieces_parent? h habove).1 hp

private theorem isDirectory_iff_nodeAt? {root : FileTree} :
    root.isDirectory = true ↔ root.nodeAt? [] = some .directory := by
  rw [FileTree.nodeAt?_nil, Option.some.injEq, FileTree.node_eq_directory]

private theorem AddsDirectories.isDirectory_root {d' : Disk} (h : AddsDirectories d d')
    (hroot : d.root.isDirectory = true) : d'.root.isDirectory = true := by
  rw [isDirectory_iff_nodeAt?] at hroot ⊢
  exact h.grown.keeps.directory hroot

/-- On a disk whose root is a directory, empty directories are added. -/
def AddsFromRoot (d d' : Disk) : Prop := d.root.isDirectory = true → AddsDirectories d d'

instance : IsPreorder Disk AddsFromRoot where
  refl d _ := .refl d
  trans _ _ _ h h' hroot := (h hroot).trans (h' ((h hroot).isDirectory_root hroot))

/-- Making the directories of an absolute path does not depend on the working directory. -/
theorem addsDirectories_of_isAbsolute (hroot : d.root.isDirectory = true)
    (h : Path.isAbsolute path = true) {fault? : Option Fault} :
    AddsDirectories d (makeDirectories path fault? d).2 :=
  moves_makeDirectories (R := AddsFromRoot) (fun _ hp _ hd => addsDirectories_makeDirectory
    (start_of_isAbsolute hd (isAbsolute_of_mem_ancestors h hp))) d hroot

end Disk

namespace Session

open Engine (atRoot)

variable {s t : Session} {q : List String} {path text : String} {paths : List String}

/-! ### What leaves a file alone -/

/-- The root stays a directory, and a file at the place stays as it is. -/
structure Spares (q : List String) (s t : Session) : Prop where
  root : s.disk.root.isDirectory = true → t.disk.root.isDirectory = true
  file : ∀ {content}, s.disk.root.nodeAt? q = some (.file content) →
    t.disk.root.nodeAt? q = some (.file content)

namespace Spares

private theorem of_disk (h : t.disk = s.disk) : Spares q s t := ⟨h ▸ id, h ▸ id⟩

private theorem trans {u : Session} (h : Spares q s t) (h' : Spares q t u) : Spares q s u :=
  ⟨h'.root ∘ h.root, h'.file ∘ h.file⟩

private theorem of_addsDirectories (h : Disk.AddsDirectories s.disk t.disk) : Spares q s t := by
  refine ⟨h.isDirectory_root, fun {content} hfile => ?_⟩
  rcases h.node q with hsame | ⟨hnone, _⟩
  · rwa [hsame]
  · rw [hnone] at hfile
    cases hfile

private theorem of_store {place : List String} (hroot : s.disk.root.isDirectory = true)
    (habsolute : Path.isAbsolute path = true) (hplace : s.disk.writePlace path = .ok place)
    (hne : place ≠ q) (content : Content) : Spares q s (s.spent (s.disk.store place content)) := by
  have hwritable := Disk.writable_of_start (Disk.start_of_isAbsolute hroot habsolute) hplace
  refine ⟨fun _ => ?_, fun {old} hfile => ?_⟩
  · rw [Disk.isDirectory_iff_nodeAt?] at hroot ⊢
    exact (Disk.grown_store hwritable).keeps.directory hroot
  · show (s.disk.store place content).root.nodeAt? q = some (.file old)
    rwa [Disk.nodeAt?_store hwritable, if_neg (Ne.symm hne)]

/-- What a step that writes a file leaves elsewhere, whatever befalls it. -/
theorem of_putPart {place : List String} (hroot : s.disk.root.isDirectory = true)
    (habsolute : Path.isAbsolute path = true) (hplace : s.disk.writePlace path = .ok place)
    (hne : place ≠ q) (fault : Disk.Fault) :
    Spares q s (s.spent (s.disk.putPart place text fault)) := by
  cases fault with
  | refused cause => exact .of_disk rfl
  | brokenOff cause n => exact .of_store hroot habsolute hplace hne _

end Spares

private theorem ensureDirectory_spares (hroot : s.disk.root.isDirectory = true)
    (habsolute : Path.isAbsolute s.writer.directory = true) : Spares q s (ensureDirectory s).2 := by
  have hmade := @Disk.addsDirectories_of_isAbsolute _ _ hroot habsolute s.nextFault?
  rw [ensureDirectory_eq]
  split
  · exact .of_disk rfl
  · revert hmade
    rcases Disk.makeDirectories s.writer.directory s.nextFault? s.disk with ⟨e | u, d⟩ <;>
      exact fun hmade => .of_addsDirectories hmade

/-! ### Runs -/

/-- The shadow of a file is written to a place, when the file is processed. -/
def WritesShadow (s : Session) (path : String) (q : List String) : Prop :=
  ∃ text t u, rendered path s = (.ok (some text), t) ∧ ensureDirectory t = (.ok (), u) ∧
    u.disk.writePlace (Path.join s.writer.directory (Shadow.name path text)) = .ok q

/-- The manifest is written to a place. -/
def WritesManifest (s : Session) (q : List String) : Prop :=
  ∃ u, s.engine.manifest.isEmpty = false ∧ ensureDirectory s = (.ok (), u) ∧
    u.disk.writePlace (Path.join s.writer.directory Manifest.fileName) = .ok q

private theorem writeShadow_spares (hroot : s.disk.root.isDirectory = true)
    (habsolute : Path.isAbsolute s.writer.directory = true)
    (h : ∀ u, ensureDirectory s = (.ok (), u) →
      u.disk.writePlace (Path.join s.writer.directory (Shadow.name path text)) ≠ .ok q) :
    Spares q s (writeShadow path text s).2 := by
  have hready := ensureDirectory_spares (q := q) hroot habsolute
  have hprepares := ensureDirectory_prepares s
  rw [writeShadow_eq]
  rcases hensure : ensureDirectory s with ⟨f | v, u⟩ <;> rw [hensure] at hready hprepares
  · exact hready
  have hdirectory : u.writer.directory = s.writer.directory := hprepares.directory
  simp only [shadowPath, hdirectory]
  cases hplace : u.disk.writePlace (Path.join s.writer.directory (Shadow.name path text)) with
  | error e => exact ⟨hready.root, hready.file⟩
  | ok place =>
    have hne : place ≠ q := fun heq => h u hensure (heq ▸ hplace)
    have hfrom := hready.root hroot
    have hpath := @Path.isAbsolute_join (Shadow.name path text) _ habsolute
    cases u.nextFault? with
    | none => exact hready.trans (.of_store hfrom hpath hplace hne _)
    | some fault => exact hready.trans (.of_putPart hfrom hpath hplace hne fault)

/-- Processing a file leaves other files alone. -/
theorem process_spares (hroot : s.disk.root.isDirectory = true)
    (habsolute : Path.isAbsolute s.writer.directory = true) (h : ¬WritesShadow s path q) :
    Spares q s (process path s).2 := by
  have hlooks := rendered_looks s path
  rw [process_eq]
  rcases hrendered : rendered path s with ⟨f | _ | text, t⟩ <;> rw [hrendered] at hlooks
  · exact .of_disk hlooks.disk
  · exact .of_disk hlooks.disk
  have hlooked : Spares q s t := .of_disk hlooks.disk
  have hwritten : Spares q t (writeShadow path text t).2 := by
    refine writeShadow_spares (hlooked.root hroot) (by rwa [hlooks.writer]) fun u
      hensure hplace => ?_
    rw [hlooks.writer] at hplace
    exact h ⟨text, t, u, hrendered, hensure, hplace⟩
  have hspares := hlooked.trans hwritten
  simp only
  revert hspares
  rcases writeShadow path text t with ⟨f | shadow, u⟩ <;> intro hspares
  · exact hspares
  · exact ⟨hspares.root, hspares.file⟩

/-- Compiling files leaves other files alone. -/
theorem compile_spares (hroot : s.disk.root.isDirectory = true)
    (habsolute : Path.isAbsolute s.writer.directory = true)
    (h : ∀ done path rest mid, paths = done ++ path :: rest → compile done s = (.ok (), mid) →
      ¬WritesShadow mid path q) : Spares q s (compile paths s).2 := by
  induction paths generalizing s with
  | nil => exact .of_disk rfl
  | cons path paths ih =>
    have hfirst := process_spares hroot habsolute (h [] path paths s rfl compile_nil)
    have hfollows := process_follows s path
    rw [compile_cons]
    rcases hprocess : process path s with ⟨f | o, t⟩ <;> rw [hprocess] at hfirst hfollows
    · exact hfirst
    · refine hfirst.trans (ih (hfirst.root hroot) (by rwa [hfollows.directory]) ?_)
      intro done next rest mid hpaths hdone
      refine h (path :: done) next rest mid (by rw [hpaths, List.cons_append]) ?_
      rw [compile_cons, hprocess]
      exact hdone

private theorem publish_spares (hroot : s.disk.root.isDirectory = true)
    (habsolute : Path.isAbsolute s.writer.directory = true) (h : ¬WritesManifest s q) :
    Spares q s (publish s).2 := by
  rw [publish_eq]
  split
  · exact .of_disk rfl
  next hmapped =>
  have hready := ensureDirectory_spares (q := q) hroot habsolute
  have hprepares := ensureDirectory_prepares s
  rw [writeManifest_eq]
  rcases hensure : ensureDirectory s with ⟨f | v, u⟩ <;> rw [hensure] at hready hprepares
  · exact hready
  have hdirectory : u.writer.directory = s.writer.directory := hprepares.directory
  simp only
  cases hplace : u.disk.writePlace (Path.join u.writer.directory Manifest.fileName) with
  | error e => exact ⟨hready.root, hready.file⟩
  | ok place =>
    have hne : place ≠ q := by
      rintro rfl
      exact h ⟨u, by simpa using hmapped, hensure, by rwa [hdirectory] at hplace⟩
    have hfrom := hready.root hroot
    have hpath : Path.isAbsolute (Path.join u.writer.directory Manifest.fileName) = true :=
      Path.isAbsolute_join (by rwa [hdirectory])
    cases u.nextFault? with
    | none =>
      have hput := Spares.of_store hfrom hpath hplace hne (.text u.engine.manifest.render)
      exact hready.trans ⟨hput.root, hput.file⟩
    | some fault => exact hready.trans (.of_putPart hfrom hpath hplace hne fault)

/-- A run writes a shadow or the manifest to a place. -/
inductive Writes (s : Session) (q : List String) : Prop
  | shadow {done path rest mid}
    (hfiles : (s.engine.selection s.disk).files = .ok (done ++ path :: rest))
    (hdone : compile done s.opened = (.ok (), mid)) (h : WritesShadow mid path q)
  | manifest {paths mid} (hfiles : (s.engine.selection s.disk).files = .ok paths)
    (hcompiled : compile paths s.opened = (.ok (), mid)) (h : WritesManifest mid.forgotten q)

/-- A run leaves all files alone that it does not write. -/
theorem run_spares (hroot : s.disk.root.isDirectory = true)
    (habsolute : Path.isAbsolute s.engine.cacheDirectory = true) (h : ¬s.Writes q) :
    Spares q s (run s).2 := by
  rw [run_eq]
  cases hfiles : (s.engine.selection s.disk).files with
  | error f => exact .of_disk rfl
  | ok paths =>
    have hcompiled : Spares q s (compile paths s.opened).2 := by
      have hspares := @compile_spares s.opened q paths hroot habsolute
        fun done path rest mid hpaths hdone hwrites => h (.shadow (hpaths ▸ hfiles) hdone hwrites)
      exact ⟨hspares.root, hspares.file⟩
    have hfollows := compile_follows s.opened paths
    simp only
    rcases hcompile : compile paths s.opened with ⟨f | v, t⟩ <;>
      rw [hcompile] at hcompiled hfollows
    · exact ⟨hcompiled.root, hcompiled.file⟩
    have hpublished : Spares q t.forgotten (publish t.forgotten).2 := by
      refine publish_spares (hcompiled.root hroot) ?_ fun hwrites =>
        h (.manifest hfiles hcompile hwrites)
      exact hfollows.directory ▸ habsolute
    have hspares : Spares q s (publish t.forgotten).2 :=
      ⟨hpublished.root ∘ hcompiled.root, fun hfile => hpublished.file (hcompiled.file hfile)⟩
    simp only
    revert hspares
    rcases publish t.forgotten with ⟨f | v, u⟩ <;> exact fun hspares => ⟨hspares.root, hspares.file⟩

/-! ### Cleaning -/

/-- A place is in the directory that cleaning removes. -/
def Cleans (s : Session) (q : List String) : Prop :=
  ∃ place es, s.disk.find false s.engine.cacheDirectory = .ok (place, .directory es) ∧ place <+: q

private theorem clean_eq : clean s = if s.disk.pathExists s.engine.cacheDirectory then
      match Disk.removeAll s.engine.cacheDirectory s.disk with
      | (.ok _, d) => (.ok true, { s with
          disk := d, reports := s.reports ++ [.removed s.engine.cacheDirectory] })
      | (.error e, d) => (.error (.removeCacheDirectory s.engine.cacheDirectory e),
          { s with disk := d })
    else (.ok false, s) := by
  rw [clean, Step.bind_apply, Step.get_apply]
  simp only
  split
  · rw [Step.bind_apply, onDisk]
    rcases Disk.removeAll s.engine.cacheDirectory s.disk with ⟨e | v, d⟩ <;> rfl
  · rfl

/-- Cleaning leaves all files alone that are not in the directory. -/
theorem clean_spares (hroot : s.disk.root.isDirectory = true)
    (habsolute : Path.isAbsolute s.engine.cacheDirectory = true) (h : ¬s.Cleans q) :
    Spares q s (clean s).2 := by
  have hremoved : Spares q s
    { s with disk := (Disk.removeAll s.engine.cacheDirectory s.disk).2 } := by
    refine ⟨fun _ => Disk.isDirectory_removeAll hroot habsolute, fun {content} hfile => ?_⟩
    rw [FileTree.nodeAt?_eq_file] at hfile ⊢
    exact (Disk.file_of_removeAll hroot habsolute hfile).resolve_right h
  rw [clean_eq]
  split
  · revert hremoved
    rcases Disk.removeAll s.engine.cacheDirectory s.disk with ⟨e | v, d⟩ <;>
      exact fun hremoved => ⟨hremoved.root, hremoved.file⟩
  · exact .of_disk rfl

private theorem clean_engine : (clean s).2.engine = s.engine := by
  rw [clean_eq]
  split
  · rcases Disk.removeAll s.engine.cacheDirectory s.disk with ⟨e | v, d⟩ <;> rfl
  · rfl

/-! ### Any number of steps -/

/-- What an engine is told to do. -/
inductive Command where
  | run
  | clean
  deriving DecidableEq, Repr

namespace Command

/-- The session after a command, whether or not it succeeds. -/
def perform (s : Session) : Command → Session
  | run => (Session.run s).2
  | clean => (Session.clean s).2

/-- The command writes a shadow or the manifest to a place, or removes a directory around it. -/
def Touches (s : Session) (q : List String) : Command → Prop
  | run => s.Writes q
  | clean => s.Cleans q

end Command

/-- The session after commands. -/
def performAll (s : Session) (commands : List Command) : Session := commands.foldl Command.perform s

private theorem perform_engine (c : Command) (hp : s.engine.packages = []) :
    (c.perform s).engine.root = s.engine.root ∧ (c.perform s).engine.settings = s.engine.settings ∧
      (c.perform s).engine.packages = [] := by
  cases c with
  | run =>
    obtain ⟨hroot, hsettings, hpackages, -⟩ := run_engine hp
    exact ⟨hroot, hsettings, hpackages⟩
  | clean =>
    rw [Command.perform, clean_engine]
    exact ⟨rfl, rfl, hp⟩

private theorem perform_spares (c : Command) (hroot : s.disk.root.isDirectory = true)
    (habsolute : Path.isAbsolute s.engine.cacheDirectory = true) (h : ¬c.Touches s q) :
    Spares q s (c.perform s) := by
  cases c with
  | run => exact run_spares hroot habsolute h
  | clean => exact clean_spares hroot habsolute h

private theorem performAll_spares (hp : s.engine.packages = [])
    (hroot : s.disk.root.isDirectory = true)
    (habsolute : Path.isAbsolute s.engine.cacheDirectory = true) (commands : List Command)
    (h : ∀ before c after, commands = before ++ c :: after → ¬c.Touches (s.performAll before) q) :
    Spares q s (s.performAll commands) := by
  induction commands generalizing s with
  | nil => exact .of_disk rfl
  | cons c commands ih =>
    have hfirst := perform_spares c hroot habsolute (h [] c commands rfl)
    obtain ⟨hroot', hsettings', hp'⟩ := perform_engine c hp
    refine hfirst.trans (ih hp' (hfirst.root hroot) ?_ fun before next after hcommands => ?_)
    · rwa [Engine.cacheDirectory, hroot', hsettings']
    · exact h (c :: before) next after (by rw [hcommands, List.cons_append])

/-- Whatever is run and cleaned, and whatever befalls it, a file stays as it is unless a run writes
it or it is cleaned away. -/
theorem file_or_touched {e : Engine} {disk : Disk} {content : Content} (he : e.Fresh)
    (hroot : disk.root.isDirectory = true) (faults : List (Option Disk.Fault))
    (commands : List Command) (hfile : disk.root.get? q = some (.file content)) :
    ((start e disk faults).performAll commands).disk.root.get? q = some (.file content) ∨
      ∃ before c after, commands = before ++ c :: after ∧
        c.Touches ((start e disk faults).performAll before) q := by
  by_contra hout
  rw [not_or] at hout
  have hspares : Spares q (start e disk faults) ((start e disk faults).performAll commands) := by
    have habsolute : Path.isAbsolute (start e disk faults).engine.cacheDirectory = true :=
      Path.isAbsolute_join (Engine.Used.created he).isAbsolute_root
    refine performAll_spares he.packages hroot habsolute
      commands fun before c after hcommands htouches => ?_
    exact hout.2 ⟨before, c, after, hcommands, htouches⟩
  refine hout.1 (FileTree.nodeAt?_eq_file.mp (hspares.file ?_))
  exact FileTree.nodeAt?_eq_file.mpr hfile

/-- A project with a file of the user's beside the shadows. -/
def noted : Disk where
  root := .directory [(".inco_cache", .directory [("notes", .file (.text "mine\n"))]),
    ("a.go", .file (.text "package p\n"))]

private theorem fresh_atRoot : atRoot.Fresh := ⟨⟨default, "/", rfl⟩, rfl, rfl⟩

private theorem noted_steps : ((start atRoot noted).engine.selection noted).files = .ok ["/a.go"] ∧
    (rendered "/a.go" (start atRoot noted).opened).1 = .ok none ∧
    (compile ["/a.go"] (start atRoot noted).opened).2.engine.manifest.isEmpty = true ∧
    ((run (start atRoot noted)).2.disk.find false
      (run (start atRoot noted)).2.engine.cacheDirectory).map (·.1) = .ok [".inco_cache"] := by
  decide +kernel

/-- A run on the project writes nothing, because no file holds a contract. -/
theorem noted_not_writes (q : List String) : ¬(start atRoot noted).Writes q := by
  obtain ⟨hfiles, hrendered, hempty, -⟩ := noted_steps
  intro hwrites
  cases hwrites with
  | @shadow done path rest mid hselected hdone hwrites =>
    obtain ⟨text, t, u, hsome, -⟩ := hwrites
    have hlist := Except.ok.inj (hfiles.symm.trans hselected)
    cases done with
    | nil =>
      obtain ⟨rfl, -⟩ := List.cons.inj hlist
      obtain ⟨-, rfl⟩ := Prod.mk.inj (compile_nil.symm.trans hdone)
      rw [hsome] at hrendered
      cases hrendered
    | cons first done => simp at hlist
  | manifest hselected hcompiled hwrites =>
    obtain rfl := Except.ok.inj (hfiles.symm.trans hselected)
    rw [hcompiled] at hempty
    obtain ⟨u, hmapped, -⟩ := hwrites
    exact absurd (hempty.symm.trans hmapped) (by decide)

/-- A file beside the directory of the shadows is not cleaned away. -/
theorem noted_not_cleans : ¬(run (start atRoot noted)).2.Cleans ["a.go"] := by
  obtain ⟨-, -, -, hcache⟩ := noted_steps
  rintro ⟨place, es, hfind, hprefix⟩
  rw [hfind] at hcache
  obtain rfl : place = [".inco_cache"] := Except.ok.inj hcache
  simp at hprefix

/-- A run and a cleaning of the cache keep a file beside it. -/
theorem file_or_touched_noted :
    ((start atRoot noted).performAll [Command.run, .clean]).disk.root.get? ["a.go"] =
      some (.file (.text "package p\n")) := by
  refine (file_or_touched fresh_atRoot rfl [] [.run, .clean] rfl).resolve_right ?_
  rintro ⟨_ | ⟨first, _ | ⟨second, before⟩⟩, c, after, hcommands, htouches⟩
  · obtain ⟨rfl, -⟩ := List.cons.inj hcommands
    exact noted_not_writes _ htouches
  · obtain ⟨rfl, hrest⟩ := List.cons.inj hcommands
    obtain ⟨rfl, -⟩ := List.cons.inj hrest
    exact noted_not_cleans htouches
  · simp at hcommands

/-- A file that no run has written is lost when its directory is cleaned. -/
theorem noted_lost : ¬∀ (e : Engine) (disk : Disk) (commands : List Command) (q : List String)
    (content : Content), e.Fresh → e.settings.fault? = none → disk.root.isDirectory = true →
      disk.root.get? q = some (.file content) →
      (∀ before after, commands = before ++ .run :: after →
        ¬((start e disk).performAll before).Writes q) →
      ((start e disk).performAll commands).disk.root.get? q = some (.file content) := by
  intro h
  have hnever : ∀ before after, [Command.clean] = before ++ .run :: after →
      ¬((start atRoot noted).performAll before).Writes [".inco_cache", "notes"] := by
    rintro (_ | ⟨c, before⟩) after hcommands <;> simp at hcommands
  have hkept := h atRoot noted [.clean] [".inco_cache", "notes"] (.text "mine\n") fresh_atRoot
    (by decide) rfl rfl hnever
  have hlost : ((start atRoot noted).performAll [.clean]).disk.root.get?
      [".inco_cache", "notes"] = none := by decide +kernel
  rw [hlost] at hkept
  cases hkept

end Session

end GoContracts

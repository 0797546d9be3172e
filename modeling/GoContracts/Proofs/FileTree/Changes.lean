import GoContracts.Proofs.FileTree.Following
import GoContracts.Proofs.Path
import GoContracts.Proofs.Steps

/-!
# How a disk changes

Making directories adds empty directories and nothing else. Writing a file changes one place, or
nothing where it fails; whether it fails does not depend on what is written.
-/

namespace GoContracts.Disk

open FileTree (Node)

variable {d d' : Disk} {followsLast : Bool} {path text name : String} {place dir q : List String}
  {x : Target} {t : FileTree} {e : OsError}

/-- A path that can be followed at all. -/
structure IsPath (path : String) : Prop where
  noNul : '\x00' ∉ path.toList
  ne_empty : path ≠ ""
  short : Text.size path < pathLimit

/-- Where the pieces of a path begin. -/
def start (d : Disk) (path : String) : List String :=
  if Path.isAbsolute path then [] else d.workingDirectory

/-- A path leads to a target from its start, piece by piece. -/
theorem target_iff : d.target followsLast path = .ok x ↔ IsPath path ∧
    Leads d.root followsLast maxLinks (d.start path) (Text.splitAt '/' path) x := by
  rw [leads_iff, target, start]
  constructor
  · intro h
    split at h
    · cases h
    next hnul =>
    split at h
    · cases h
    next hempty =>
    split at h
    · cases h
    next hlong => exact ⟨⟨by simpa using hnul, hempty, Nat.lt_of_not_le hlong⟩, h⟩
  · rintro ⟨hp, h⟩
    rw [if_neg (by simpa using hp.noNul), if_neg hp.ne_empty, if_neg (Nat.not_le.mpr hp.short), h]

/-- A path finds what it leads to. -/
theorem find_iff :
    d.find followsLast path = .ok (q, t) ↔ d.target followsLast path = .ok (.found q t) := by
  rw [find]
  cases d.target followsLast path with
  | error e => simp [bind, Except.bind]
  | ok x => cases x <;> simp [bind, Except.bind, pure, Except.pure, throw, throwThe,
    MonadExceptOf.throw]

/-- A slash alone finds the root. -/
theorem find_slash (d : Disk) : d.find followsLast "/" = .ok
    ([], d.root) := by cases followsLast <;> rfl

/-- The working directory is a directory, and with it the root. -/
def Rooted (d : Disk) : Prop := d.root.nodeAt? d.workingDirectory = some .directory

/-- On a rooted disk each path starts at a directory. -/
theorem Rooted.start (h : d.Rooted) (path : String) : d.root.nodeAt?
    (d.start path) = some .directory := by
  rw [Disk.start]
  split
  · rw [Rooted] at h
    cases hw : d.workingDirectory with
    | nil => rwa [hw] at h
    | cons name place =>
      rw [hw] at h
      exact FileTree.nodeAt?_root h
  · exact h

/-- An absolute path begins at the root, whatever the working directory is. -/
theorem start_of_isAbsolute (hroot : d.root.isDirectory = true) (h : Path.isAbsolute path = true) :
    d.root.nodeAt? (d.start path) = some .directory := by
  rw [start, if_pos h, FileTree.nodeAt?_nil, FileTree.node_eq_directory.mpr hroot]

/-- The disk has grown: what was there still is, files perhaps with another content, and there are
no more links. -/
structure Grown (d d' : Disk) : Prop where
  workingDirectory : d'.workingDirectory = d.workingDirectory
  keeps : d.root.Keeps d'.root
  links : ∀ place target, d'.root.nodeAt? place = some (.link target) →
    d.root.nodeAt? place = some (.link target)

/-- A disk has grown from itself. -/
theorem Grown.refl (d : Disk) : Grown d d := ⟨rfl, .refl _, fun _ _ => id⟩

/-- What has grown from a later disk has grown from the earlier one. -/
theorem Grown.trans {d'' : Disk} (h : Grown d d') (h' : Grown d' d'') : Grown d d'' where
  workingDirectory := h'.workingDirectory.trans h.workingDirectory
  keeps := h.keeps.trans h'.keeps
  links place target := h.links place target ∘ h'.links place target

/-- A rooted disk stays rooted when it grows. -/
theorem Grown.rooted (h : Grown d d') (hd : d.Rooted) : d'.Rooted := by
  rw [Rooted, h.workingDirectory]
  exact h.keeps.directory hd

/-- What a path finds stands at its place. -/
theorem get?_of_find (hd : d.Rooted) (h : d.find followsLast path = .ok (q, t)) :
    d.root.get? q = some t := (target_iff.mp (find_iff.mp h)).2.sound (hd.start path)

/-- A path leads to the same place after the disk has grown. -/
theorem Grown.find (h : Grown d d') (hq : d.find followsLast path = .ok (q, t)) :
    ∃ t', d'.find followsLast path = .ok (q, t') := by
  obtain ⟨hp, hleads⟩ := target_iff.mp (find_iff.mp hq)
  obtain ⟨t', hleads'⟩ := hleads.keeps h.keeps
  have hstart : d'.start path = d.start path := by rw [start, start, h.workingDirectory]
  exact ⟨t', find_iff.mpr (target_iff.mpr ⟨hp, hstart ▸ hleads'⟩)⟩

/-- A name in a directory leads into it, unless a link is followed that stands under the name. -/
theorem target_join (hd : d.Rooted) {base : String} (hbase : base ≠ "")
    (hname : Path.Plain name) (hup : name ≠ "..")
    (h : d.target followsLast (Path.join base name) = .ok x)
    (hlink : followsLast = true →
      ∀ q target, d.find false (Path.join base name) ≠ .ok (q, .link target)) :
    ∃ dir u, d.find true base = .ok (dir, u) ∧ x.place = dir ++ [name] := by
  obtain ⟨hp, hleads⟩ := target_iff.mp h
  obtain ⟨pieces, hjoin, hpieces⟩ := Path.pieces_join base hname.isAbsolute
  rw [Text.splitAt_of_not_mem hname.2] at hjoin
  rw [hjoin] at hleads
  have hstart : d.start (Path.join base name) = d.start base := by
    rw [start, start, Path.isAbsolute_join_of_ne_empty hbase hname.isAbsolute]
  obtain ⟨dir, u, hdir, hd', hx⟩ := hleads.concat hname.1 hup (fun hf q target hl =>
    hlink hf q target (find_iff.mpr (target_iff.mpr ⟨hp, hjoin ▸ hl⟩))) (hd.start _)
  have hpath : IsPath base := by
    obtain ⟨hnul, -, hshort⟩ := hp
    obtain ⟨rest, hrest⟩ := Path.join_eq_append base hname.isAbsolute
    rw [hrest] at hnul hshort
    refine ⟨fun hmem => hnul (by simp [hmem]), hbase, ?_⟩
    rw [Text.size, String.utf8ByteSize_append] at hshort
    rw [Text.size]
    omega
  refine ⟨dir, u, find_iff.mpr (target_iff.mpr ⟨hpath, ?_⟩), hx⟩
  rw [hstart] at hdir
  rcases hpieces with hpieces | hpieces
  · rwa [hpieces]
  · have hu := hdir.sound (hd.start base)
    rw [hpieces]
    refine hdir.append_empty ?_
    rw [Target.Sound] at hu
    rwa [FileTree.nodeAt?, hu, Option.map_some, Option.some.injEq,
      FileTree.node_eq_directory] at hd'

/-- What is found under a name in a directory stands in it, unless the name is that of a link. -/
theorem find_join (hd : d.Rooted) {base : String} (hbase : base ≠ "")
    (hname : Path.Plain name) (hup : name ≠ "..")
    (h : d.find followsLast (Path.join base name) = .ok (q, t))
    (hlink : followsLast = true →
      ∀ q target, d.find false (Path.join base name) ≠ .ok (q, .link target)) :
    ∃ dir u, d.find true base = .ok (dir, u) ∧ q = dir ++ [name] :=
  target_join hd hbase hname hup (find_iff.mp h) hlink

/-! ### Directories -/

/-- Empty directories have been added where nothing was, and nothing else has changed. -/
structure AddsDirectories (d d' : Disk) : Prop where
  workingDirectory : d'.workingDirectory = d.workingDirectory
  node : ∀ place, d'.root.nodeAt? place = d.root.nodeAt? place ∨
    d.root.nodeAt? place = none ∧ d'.root.nodeAt? place = some .directory
  ordered : d.root.Ordered → d'.root.Ordered

/-- A disk adds no directories to itself. -/
theorem AddsDirectories.refl (d : Disk) : AddsDirectories d d := ⟨rfl, fun _ => .inl rfl, id⟩

/-- Directories are added one after the other. -/
theorem AddsDirectories.trans {d'' : Disk} (h : AddsDirectories d d')
    (h' : AddsDirectories d' d'') : AddsDirectories d d'' := by
  refine ⟨h'.workingDirectory.trans h.workingDirectory, fun place => ?_,
    h'.ordered ∘ h.ordered⟩
  rcases h.node place with hn | ⟨hnone, hd⟩ <;> rcases h'.node place with hn' | ⟨hnone', hd'⟩
  · exact .inl (hn'.trans hn)
  · exact .inr ⟨hn ▸ hnone', hd'⟩
  · exact .inr ⟨hnone, hn'.trans hd⟩
  · rw [hd] at hnone'
    cases hnone'

/-- A disk with more directories has grown. -/
theorem AddsDirectories.grown (h : AddsDirectories d d') : Grown d d' := by
  refine ⟨h.workingDirectory, fun place n hn => ?_, fun place target hlink => ?_⟩
  · rcases h.node place with hn' | ⟨hnone, _⟩
    · exact .inl (hn'.trans hn)
    · rw [hnone] at hn
      cases hn
  · rcases h.node place with hn' | ⟨-, hdir⟩
    · exact hn' ▸ hlink
    · rw [hdir] at hlink
      cases hlink

/-- No node stands where no tree does. -/
theorem nodeAt?_eq_none : t.nodeAt? place = none ↔ t.get? place = none := by
  simp [FileTree.nodeAt?]

/-- An empty directory in place of nothing adds to the disk. -/
theorem addsDirectories_insertAt (hdir : d.root.nodeAt? dir = some .directory)
    (hnone : d.root.get? (dir ++ [name]) = none) :
    AddsDirectories d { d with root := .insertAt dir name .empty d.root } := by
  rw [← nodeAt?_eq_none] at hnone
  refine ⟨rfl, fun place => ?_, fun ho => ho.insertAt (FileTree.ordered_of_entries rfl)⟩
  rw [FileTree.nodeAt?_insertAt hdir rfl (by simp [hnone])]
  split
  · next hp => exact .inr ⟨hp ▸ hnone, rfl⟩
  · exact .inl rfl

/-- To look where a path leads to changes nothing. -/
theorem targetNow_apply : (targetNow followsLast path) d = (d.target followsLast path, d) := by
  rw [targetNow, Step.bind_apply, Step.get_apply]
  exact Step.ofExcept_apply

/-- To make a directory adds directories only. -/
theorem addsDirectories_makeDirectory (hstart : d.root.nodeAt? (d.start path) = some .directory) :
    AddsDirectories d (makeDirectory path d).2 := by
  rw [makeDirectory, Step.bind_apply, targetNow_apply]
  cases ht : d.target false path with
  | error e => exact .refl d
  | ok x =>
    cases x with
    | found place t => exact .refl d
    | vacant dir name demand =>
      obtain ⟨hdir, hnone, -⟩ := (target_iff.mp ht).2.sound hstart
      exact addsDirectories_insertAt hdir hnone

/-- On a disk with a root, empty directories are added. -/
def Directories (d d' : Disk) : Prop := d.Rooted → AddsDirectories d d'

instance : IsPreorder Disk Directories where
  refl d _ := .refl d
  trans _ _ _ h h' hd := (h hd).trans (h' ((h hd).grown.rooted hd))

private theorem moves_makeDirectory : Step.Moves Directories (makeDirectory path) := fun _ hd =>
  addsDirectories_makeDirectory (hd.start path)

/-- Making directories one after the other does to the disk what making each of them does. -/
theorem moves_makeChain {R : Disk → Disk → Prop} [IsPreorder Disk R] {paths : List String}
    (h : ∀ path ∈ paths, Step.Moves R (makeDirectory path)) : Step.Moves R (makeChain paths) := by
  have checked (path : String) (e : OsError) : Step.Moves R
      (do unless e = .exists && (← get).isDirectory path do throw e : Disk.Action Unit) := by
    refine Step.Moves.bind .get fun d => ?_
    split
    · exact .pure ()
    · exact .throw e
  induction paths with
  | nil => exact .pure ()
  | cons path above ih =>
    have hpath := h path (List.mem_cons_self ..)
    have habove := ih fun p hp => h p (List.mem_cons_of_mem _ hp)
    rw [makeChain]
    refine hpath.tryCatch fun e => ?_
    split
    · exact habove.bind fun _ => hpath.tryCatch fun e => checked path e
    · exact checked path _

/-- Making the directories of a path does to the disk what making each of them does, whatever
befalls it. -/
theorem moves_makeDirectories {R : Disk → Disk → Prop} [IsPreorder Disk R] {fault? : Option Fault}
    (h : ∀ p ∈ ancestors (Text.size path + 1) path, Step.Moves R (makeDirectory p)) :
    Step.Moves R (makeDirectories path fault?) := by
  unfold makeDirectories
  dsimp only
  split
  · exact moves_makeChain h
  · exact .throw _
  · exact (moves_makeChain fun p hp => h p (List.mem_of_mem_drop hp)).bind fun _ => .throw _

/-- To make the directories of a path adds directories only, also when it fails. -/
theorem addsDirectories_makeDirectories (path : String) (fault? : Option Fault) (hd : d.Rooted) :
    AddsDirectories d (makeDirectories path fault? d).2 :=
  moves_makeDirectories (fun _ _ => moves_makeDirectory) d hd

/-! ### Files -/

/-- The place that a file written at a path takes. -/
def writePlace (d : Disk) (path : String) : Except OsError (List String) :=
  match d.target true path with
  | .error e => .error e
  | .ok (.found place (.file _)) => .ok place
  | .ok (.found ..) => .error .isDirectory
  | .ok (.vacant dir name directoryOnly) =>
    if directoryOnly then .error .isDirectory else .ok (dir ++ [name])

/-- The disk with a file at a place. -/
def store (d : Disk) (place : List String) (content : Content) : Disk :=
  { d with root := .insertAt place.dropLast (place.getLastD "") (.file content) d.root }

/-- The disk with a text file at a place. -/
abbrev put (d : Disk) (place : List String) (text : String) : Disk := d.store place (.text text)

/-- The disk with as much of a text file at a place as a fault leaves there. -/
def putPart (d : Disk) (place : List String) (text : String) : Fault → Disk
  | .refused _ => d
  | .brokenOff _ n => d.store place ((Content.text text).cut n)

private theorem storeIn_apply (place : List String) (fault? : Option Fault) :
    storeIn place.dropLast (place.getLastD "") (.text text) fault? d = match fault? with
      | none => (.ok (), d.put place text)
      | some fault => (.error fault.cause, d.putPart place text fault) := by
  rcases fault? with _ | _ | _ <;> rfl

/-- A text is written as far as the fault lets it. -/
theorem writeText_eq {fault? : Option Fault} :
    writeText path text fault? d = match d.writePlace path, fault? with
      | .error e, _ => (.error e, d)
      | .ok place, none => (.ok (), d.put place text)
      | .ok place, some fault => (.error fault.cause, d.putPart place text fault) := by
  rw [writeText, writeContent, Step.bind_apply, targetNow_apply, writePlace]
  cases d.target true path with
  | error e => rfl
  | ok x =>
    cases x with
    | found place t =>
      cases t with
      | file content =>
        simp only [storeIn_apply]
        cases fault? <;> rfl
      | link target => rfl
      | directory es => rfl
    | vacant dir name directoryOnly =>
      cases directoryOnly with
      | true => rfl
      | false =>
        have hstored := @storeIn_apply d text (dir ++ [name]) fault?
        rw [List.dropLast_concat, List.getLastD_concat] at hstored
        simp only [Bool.false_eq_true, if_false, hstored]
        cases fault? <;> rfl

/-- A place for a file: in a directory, where nothing is or a file. -/
structure Writable (root : FileTree) (place : List String) : Prop where
  ne_nil : place ≠ []
  directory : root.nodeAt? place.dropLast = some .directory
  node : root.nodeAt? place = none ∨ ∃ old, root.nodeAt? place = some (.file old)

private theorem Writable.eq_concat (h : Writable t place) :
    place = place.dropLast ++ [place.getLastD ""] := by
  obtain ⟨above, name, rfl⟩ := (List.eq_nil_or_concat' place).resolve_left h.ne_nil
  simp

/-- A path that starts at a directory leads to a place that can be written. -/
theorem writable_of_start (hstart : d.root.nodeAt? (d.start path) = some .directory)
    (h : d.writePlace path = .ok place) : Writable d.root place := by
  rw [writePlace] at h
  split at h
  · cases h
  · next place content ht =>
    obtain rfl := Except.ok.inj h
    have hfile := FileTree.nodeAt?_eq_file.mpr ((target_iff.mp ht).2.sound hstart)
    have hne : place ≠ [] := by
      rintro rfl
      have hroot : d.root.nodeAt? [] = some .directory := by
        cases hbegin : d.start path with
        | nil => rwa [hbegin] at hstart
        | cons name above => exact FileTree.nodeAt?_root (hbegin ▸ hstart)
      rw [hfile] at hroot
      cases hroot
    obtain ⟨above, name, rfl⟩ := (List.eq_nil_or_concat' place).resolve_left hne
    refine ⟨hne, ?_, .inr ⟨_, hfile⟩⟩
    rw [List.dropLast_concat]
    exact FileTree.nodeAt?_dropLast hfile
  · cases h
  · next dir name directoryOnly ht =>
    split at h
    · cases h
    obtain rfl := Except.ok.inj h
    obtain ⟨hdir, hnone, -⟩ := (target_iff.mp ht).2.sound hstart
    exact ⟨by simp, by rwa [List.dropLast_concat], .inl (nodeAt?_eq_none.mpr hnone)⟩

/-- On a rooted disk a path leads to a place that can be written. -/
theorem writable_of_writePlace (hd : d.Rooted) (h : d.writePlace path = .ok place) :
    Writable d.root place := writable_of_start (hd.start path) h

/-- What is stored stands at its place, all else as before. -/
theorem nodeAt?_store {content : Content} (h : Writable d.root place) (p : List String) :
    (d.store place content).root.nodeAt? p =
      if p = place then some (.file content) else d.root.nodeAt? p := by
  have hold : d.root.nodeAt? (place.dropLast ++ [place.getLastD ""]) ≠ some .directory := by
    rw [← h.eq_concat]
    rcases h.node with hn | ⟨_, hn⟩ <;> simp [hn]
  rw [store, FileTree.nodeAt?_insertAt h.directory rfl hold, ← h.eq_concat]
  rfl

/-- A text that is put stands at its place, all else as before. -/
theorem nodeAt?_put (h : Writable d.root place) (p : List String) :
    (d.put place text).root.nodeAt? p =
      if p = place then some (.file (.text text)) else d.root.nodeAt? p := nodeAt?_store h p

/-- A disk on which a file is stored has grown. -/
theorem grown_store {content : Content} (h : Writable d.root place) :
    Grown d (d.store place content) := by
  refine ⟨rfl, FileTree.keeps_insertAt h.directory rfl ?_, fun p target hlink => ?_⟩
  · rw [← h.eq_concat]
    exact h.node.imp_right fun ⟨old, hold⟩ => ⟨old, _, hold, rfl⟩
  · rw [nodeAt?_store h] at hlink
    split at hlink
    · cases hlink
    · exact hlink

/-- A disk on which a text is put has grown. -/
theorem grown_put (h : Writable d.root place) : Grown d (d.put place text) := grown_store h

/-- A disk on which a part of a text is put has grown. -/
theorem grown_putPart (h : Writable d.root place) (fault : Fault) :
    Grown d (d.putPart place text fault) := by
  cases fault with
  | refused => exact .refl d
  | brokenOff => exact grown_store h

/-- To put a text keeps the order of the names. -/
theorem ordered_put (h : d.root.Ordered) : (d.put place text).root.Ordered :=
  h.insertAt (FileTree.ordered_of_entries rfl)

/-- What was stored at a path is found there. -/
theorem find_store (hd : d.Rooted) (h : d.writePlace path = .ok place) (content : Content) :
    (d.store place content).find true path = .ok (place, .file content) := by
  have hw := writable_of_writePlace hd h
  have hkeeps : d.root.Keeps (d.store place content).root := (grown_store hw).keeps
  have hfile : (d.store place content).root.get? place = some (.file content) := by
    rw [← FileTree.nodeAt?_eq_file, nodeAt?_store hw, if_pos rfl]
  rw [find_iff, target_iff]
  rw [writePlace] at h
  split at h
  · cases h
  · next old ht =>
    obtain rfl := Except.ok.inj h
    obtain ⟨hp, hleads⟩ := target_iff.mp ht
    obtain ⟨t', hleads'⟩ := hleads.keeps hkeeps
    have := hleads'.sound (hkeeps.directory (hd.start path))
    rw [Target.Sound, hfile, Option.some.injEq] at this
    exact ⟨hp, this ▸ hleads'⟩
  · cases h
  · next dir name directoryOnly ht =>
    split at h
    · cases h
    next hfree =>
    obtain rfl := Except.ok.inj h
    obtain ⟨hp, hleads⟩ := target_iff.mp ht
    obtain rfl : directoryOnly = false := by simpa using hfree
    exact ⟨hp, hleads.filled hkeeps hfile⟩

/-- A text that is put is found at its path. -/
theorem find_put (hd : d.Rooted) (h : d.writePlace path = .ok place) :
    (d.put place text).find true path = .ok (place, .file (.text text)) := find_store hd h _

/-- A text that is put is read at its path. -/
theorem readText_put (hd : d.Rooted) (h : d.writePlace path = .ok place) :
    (d.put place text).readText path = .ok text := by
  rw [readText, find_put hd h]
  rfl

end GoContracts.Disk

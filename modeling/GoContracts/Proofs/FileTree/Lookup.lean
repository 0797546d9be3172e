import GoContracts.Proofs.FileTree.Changes
import GoContracts.Proofs.FileTree.Shape
import Mathlib.Data.List.Induction

/-!
# Paths below a directory

Below a directory without links a path of names leads to the place that the names spell. A path that
ends in a name leads to that entry wherever it leads to a file.
-/

namespace GoContracts.Disk

open FileTree (Node)

variable {d d' : Disk} {followsLast : Bool} {links : Nat} {root tree t : FileTree} {x : Target}
  {base path name : String} {pieces place names q : List String}

/-! ### Where a file can be written -/

/-- A file stands where the path leads, or one can be put there. -/
def Target.OfFile : Target → Prop
  | .found _ t => t.isFile = true
  | .vacant _ _ directoryOnly => directoryOnly = false

/-- A path is written where it leads to, be this a file or nothing. -/
theorem writePlace_iff :
    d.writePlace path = .ok q ↔ ∃ x, d.target true path = .ok x ∧ x.OfFile ∧ x.place = q := by
  rw [writePlace]
  cases d.target true path with
  | error e => simp
  | ok x =>
    cases x with
    | found place t => cases t <;> simp [Target.OfFile, Target.place, FileTree.isFile]
    | vacant dir name directoryOnly =>
      cases directoryOnly <;> simp [Target.OfFile, Target.place]

/-- A path that finds a file is written there. -/
theorem writePlace_of_find (h : d.find true path = .ok (q, t)) (ht : t.isFile = true) :
    d.writePlace path = .ok q :=
  writePlace_iff.mpr ⟨_, find_iff.mp h, ht, rfl⟩

/-- A path is that of a file if it finds one. -/
theorem isFile_iff : d.isFile path = true ↔ ∃ q t, d.find true path = .ok
    (q, t) ∧ t.isFile = true := by
  rw [isFile]
  rcases d.find true path with e | ⟨q, t⟩ <;> simp

/-- What reads as a text is a file. -/
theorem isFile_of_readText {text : String} (h : d.readText path = .ok text) :
    d.isFile path = true := by
  rw [readText] at h
  rcases hfind : d.find true path with cause | ⟨q, t⟩
  · rw [hfind] at h
    cases h
  · rw [hfind] at h
    cases t with
    | file content => exact isFile_iff.mpr ⟨q, _, hfind, rfl⟩
    | link | directory => cases h

/-- Where a walk is in a directory, there is no file. -/
theorem not_ofFile_here (hplace : root.nodeAt? place = some .directory) :
    ¬(Target.found place ((root.get? place).getD .empty)).OfFile := by
  obtain ⟨es, hes⟩ := FileTree.nodeAt?_eq_directory.mp hplace
  simp [Target.OfFile, hes, FileTree.isFile]

private theorem Leads.not_ofFile (h : Leads root followsLast links place [] x)
    (hplace : root.nodeAt? place = some .directory) : ¬x.OfFile := by
  cases h
  exact not_ofFile_here hplace

/-- Where a path leads to a file, its last piece is the name of an entry. -/
theorem Leads.isEntry_last (h : Leads root followsLast links place (pieces ++ [name]) x)
    (hplace : root.nodeAt? place = some .directory) (hx : x.OfFile) : IsEntry name := by
  generalize hall : pieces ++ [name] = all at h
  -- Until the last piece is reached the target stays the same.
  induction h generalizing pieces with
  | here => simp at hall
  | silent hs h ih =>
    cases pieces with
    | nil =>
      obtain ⟨rfl, rfl⟩ := List.cons.inj hall
      exact absurd hx (h.not_ofFile hplace)
    | cons piece pieces => exact ih hplace hx (List.cons.inj hall).2
  | up h ih =>
    cases pieces with
    | nil =>
      obtain ⟨rfl, rfl⟩ := List.cons.inj hall
      exact absurd hx (h.not_ofFile (nodeAt?_up hplace))
    | cons piece pieces => exact ih (nodeAt?_up hplace) hx (List.cons.inj hall).2
  | vacant hp _ hrest =>
    cases pieces with
    | nil =>
      obtain ⟨rfl, -⟩ := List.cons.inj hall
      exact hp
    | cons piece pieces =>
      obtain ⟨-, rfl⟩ := List.cons.inj hall
      simp [Target.OfFile] at hx
  | into hp hdir h ih =>
    cases pieces with
    | nil =>
      obtain ⟨rfl, -⟩ := List.cons.inj hall
      exact hp
    | cons piece pieces => exact ih hdir hx (List.cons.inj hall).2
  | file hp =>
    cases pieces with
    | nil =>
      obtain ⟨rfl, -⟩ := List.cons.inj hall
      exact hp
    | cons piece pieces => simp at hall
  | link hp =>
    cases pieces with
    | nil =>
      obtain ⟨rfl, -⟩ := List.cons.inj hall
      exact hp
    | cons piece pieces => simp at hall
  | through hp _ _ _ ih =>
    cases pieces with
    | nil =>
      obtain ⟨rfl, -⟩ := List.cons.inj hall
      exact hp
    | cons piece pieces =>
      obtain ⟨-, rfl⟩ := List.cons.inj hall
      exact ih (nodeAt?_linkStart hplace) hx (List.append_assoc ..)

/-- A path that ends in a piece leads to a file only if the piece is the name of an entry. -/
theorem isEntry_of_target (hd : d.Rooted) (hslash : '/' ∉ name.toList)
    (h : d.target followsLast (Path.join base name) = .ok x) (hx : x.OfFile) : IsEntry name := by
  have hname : Path.isAbsolute name = false := Path.isAbsolute_of_not_mem hslash
  obtain ⟨pieces, hjoin, -⟩ := Path.pieces_join base hname
  obtain ⟨-, hleads⟩ := target_iff.mp h
  rw [hjoin, Text.splitAt_of_not_mem hslash] at hleads
  exact hleads.isEntry_last (hd.start _) hx

/-! ### Below a directory without links -/

/-- A path to a directory without links. -/
structure LeadsInto (d : Disk) (base : String) (place : List String) (tree : FileTree) : Prop where
  found : d.find false base = .ok (place, tree)
  isDirectory : tree.isDirectory = true
  linkless : tree.Linkless

private theorem Leads.followed (h : Leads root false links place pieces (.found q t))
    (ht : ∀ target, t ≠ .link target) : Leads root true links place pieces (.found q t) := by
  generalize hx : Target.found q t = x at h
  induction h with
  | here => exact .here
  | silent hs _ ih => exact .silent hs (ih hx)
  | up _ ih => exact .up (ih hx)
  | vacant => cases hx
  | into hp hdir _ ih => exact .into hp hdir (ih hx)
  | file hp hfile => exact .file hp hfile
  | link =>
    obtain ⟨-, rfl⟩ := Target.found.inj hx
    exact absurd rfl (ht _)
  | through hp hlink _ _ ih => exact .through hp hlink (.inr rfl) (ih hx)

private theorem find_followed (h : d.find false path = .ok (q, t))
    (ht : ∀ target, t ≠ .link target) :
    d.find true path = .ok (q, t) := by
  obtain ⟨hp, hleads⟩ := target_iff.mp (find_iff.mp h)
  exact find_iff.mpr (target_iff.mpr ⟨hp, hleads.followed ht⟩)

namespace LeadsInto

private theorem ne_empty (h : d.LeadsInto base place tree) : base ≠ "" :=
  (target_iff.mp (find_iff.mp h.found)).1.ne_empty

/-- A path that leads into a tree finds it, whether or not its last link is followed. -/
theorem followed (h : d.LeadsInto base place tree) (followsLast : Bool) :
    d.find followsLast base = .ok (place, tree) := by
  cases followsLast with
  | false => exact h.found
  | true =>
    apply find_followed h.found
    rintro target rfl
    cases h.isDirectory

private theorem get? (hd : d.Rooted) (h : d.LeadsInto base place tree) :
    d.root.get? (place ++ names) = tree.get? names := by
  rw [FileTree.get?_append, get?_of_find hd h.found, Option.bind_some]

/-- No entry is a link. -/
theorem find_ne_link (hd : d.Rooted) (h : d.LeadsInto base place tree)
    (hbase : Path.joinAll base names ≠ "")
    (hplace : ∀ dir u, d.find true (Path.joinAll base names) = .ok (dir, u) → dir = place ++ names)
    (hname : Path.Plain name) (hup : name ≠ "..") (target : String) :
    d.find false (Path.join (Path.joinAll base names) name) ≠ .ok (q, .link target) := by
  intro hlink
  obtain ⟨dir, u, hdir, rfl⟩ := find_join hd hbase hname hup hlink (by simp)
  have hget := get?_of_find hd hlink
  rw [hplace dir u hdir, List.append_assoc, h.get? hd] at hget
  exact h.linkless _ _ hget

/-- What names lead to below the directory stands where they spell. -/
theorem place_eq (hd : d.Rooted) (h : d.LeadsInto base place tree)
    (hnames : ∀ n ∈ names, IsName n)
    (hx : d.target followsLast (Path.joinAll base names) = .ok x) : x.place = place ++ names := by
  induction names using List.reverseRecOn generalizing followsLast x with
  | nil =>
    have hbase := find_iff.mp (h.followed followsLast)
    rw [Path.joinAll_nil, hbase, Except.ok.injEq] at hx
    rw [← hx, Target.place, List.append_nil]
  | append_singleton init name ih =>
    have hinit : ∀ n ∈ init, IsName n := fun n hn => hnames n (List.mem_append_left _ hn)
    have hname : IsName name := hnames name (by simp)
    have hbase : Path.joinAll base init ≠ "" :=
      Path.joinAll_ne_empty h.ne_empty fun n hn => (hinit n hn).plain
    have hdirectory (dir : List String) (u : FileTree)
        (hdir : d.find true (Path.joinAll base init) = .ok (dir, u)) : dir = place ++ init :=
      ih hinit (find_iff.mp hdir)
    rw [Path.joinAll_concat] at hx
    obtain ⟨dir, u, hdir, hplace⟩ := target_join hd hbase hname.plain hname.ne_up hx
      fun _ q => h.find_ne_link hd hbase hdirectory hname.plain hname.ne_up
    rw [hplace, hdirectory dir u hdir, List.append_assoc]

/-- A file that is found or written under a piece in a directory below stands in that directory, and
the piece is its name. -/
theorem writePlace_eq (hd : d.Rooted) (h : d.LeadsInto base place tree)
    (hnames : ∀ n ∈ names, IsName n) (hslash : '/' ∉ name.toList)
    (hq : d.writePlace (Path.join (Path.joinAll base names) name) = .ok q) :
    IsEntry name ∧ q = place ++ names ++ [name] := by
  obtain ⟨x, hx, hfile, rfl⟩ := writePlace_iff.mp hq
  have hentry := isEntry_of_target hd hslash hx hfile
  have hbase : Path.joinAll base names ≠ "" :=
    Path.joinAll_ne_empty h.ne_empty fun n hn => (hnames n hn).plain
  have hdirectory (dir : List String) (u : FileTree)
      (hdir : d.find true (Path.joinAll base names) = .ok (dir, u)) : dir = place ++ names :=
    h.place_eq hd hnames (find_iff.mp hdir)
  obtain ⟨dir, u, hdir, hplace⟩ := target_join hd hbase ⟨hentry.loud, hslash⟩ hentry.ne_up hx
    fun _ q => h.find_ne_link hd hbase hdirectory ⟨hentry.loud, hslash⟩ hentry.ne_up
  exact ⟨hentry, by rw [hplace, hdirectory dir u hdir]⟩

end LeadsInto

/-! ### Disks that differ at one place -/

/-- The disks differ at most in the file at a place, which may be missing on either. -/
structure DiffersAt (d : Disk) (q : List String) (d' : Disk) : Prop where
  workingDirectory : d'.workingDirectory = d.workingDirectory
  node : ∀ place, place ≠ q → d'.root.nodeAt? place = d.root.nodeAt? place
  before : ∀ n, d.root.nodeAt? q = some n → ∃ content, n = .file content
  after : ∀ n, d'.root.nodeAt? q = some n → ∃ content, n = .file content

namespace DiffersAt

private theorem symm (h : DiffersAt d q d') : DiffersAt d' q d where
  workingDirectory := h.workingDirectory.symm
  node place hplace := (h.node place hplace).symm
  before := h.after
  after := h.before

/-- Writing a file changes at most the file at its place. -/
theorem of_put {text : String} (h : Writable d.root q) : DiffersAt d q (d.put q text) where
  workingDirectory := rfl
  node place hplace := by rw [nodeAt?_put h, if_neg hplace]
  before n hn := by
    rcases h.node with hnone | ⟨content, hold⟩
    · rw [hnone] at hn
      cases hn
    · rw [hold, Option.some.injEq] at hn
      exact ⟨content, hn.symm⟩
  after n hn := by
    rw [nodeAt?_put h, if_pos rfl, Option.some.injEq] at hn
    exact ⟨_, hn.symm⟩

/-- What is neither a file nor missing is the same on both disks. -/
theorem keeps (h : DiffersAt d q d') {n : Node} (hn : d.root.nodeAt? place = some n)
    (hfile : ∀ content, n ≠ .file content) : d'.root.nodeAt? place = some n := by
  rw [h.node place ?_, hn]
  rintro rfl
  obtain ⟨content, rfl⟩ := h.before n hn
  exact hfile content rfl

/-- A path that leads elsewhere leads to the same on both disks. -/
theorem leads (h : DiffersAt d q d')
    (hleads : Leads d.root followsLast links place pieces (.found names t)) (hne : names ≠ q) :
    ∃ t', t'.node = t.node ∧ Leads d'.root followsLast links place pieces (.found names t') := by
  generalize hx : Target.found names t = x at hleads
  -- Only directories and links are passed on the way, and none of them differs.
  induction hleads with
  | here =>
    obtain ⟨rfl, rfl⟩ := Target.found.inj hx
    refine ⟨_, ?_, .here⟩
    have hnode := h.node _ hne
    rw [FileTree.nodeAt?, FileTree.nodeAt?] at hnode
    cases hget : d.root.get? names with
    | none =>
      rw [hget, Option.map_none, Option.map_eq_none_iff] at hnode
      rw [hnode]
    | some t =>
      rw [hget, Option.map_some, Option.map_eq_some_iff] at hnode
      obtain ⟨t', ht', hnode⟩ := hnode
      rw [ht']
      exact hnode
  | silent hs _ ih =>
    obtain ⟨t', ht', hleads⟩ := ih hx
    exact ⟨t', ht', .silent hs hleads⟩
  | up _ ih =>
    obtain ⟨t', ht', hleads⟩ := ih hx
    exact ⟨t', ht', .up hleads⟩
  | vacant => cases hx
  | into hp hdir _ ih =>
    obtain ⟨t', ht', hleads⟩ := ih hx
    exact ⟨t', ht', .into hp (h.keeps hdir (by simp)) hleads⟩
  | file hp hfile =>
    obtain ⟨rfl, rfl⟩ := Target.found.inj hx
    refine ⟨_, rfl, .file hp ?_⟩
    rwa [← FileTree.nodeAt?_eq_file, h.node _ hne, FileTree.nodeAt?_eq_file]
  | link hp hlink hlast =>
    obtain ⟨rfl, rfl⟩ := Target.found.inj hx
    refine ⟨_, rfl, .link hp ?_ hlast⟩
    rwa [← FileTree.nodeAt?_eq_link, h.node _ hne, FileTree.nodeAt?_eq_link]
  | through hp hlink hlast _ ih =>
    obtain ⟨t', ht', hleads⟩ := ih hx
    refine ⟨t', ht', .through hp ?_ hlast hleads⟩
    rw [← FileTree.nodeAt?_eq_link] at hlink ⊢
    exact h.keeps hlink (by simp)

/-- A file can be put at the place on both disks. -/
theorem leads_entry (h : DiffersAt d (place ++ [name]) d') (hname : IsEntry name) :
    ∃ x, Leads d'.root followsLast links place [name] x ∧ x.OfFile ∧ x.place = place ++ [name] := by
  cases hget : d'.root.get? (place ++ [name]) with
  | none => exact ⟨_, .vacant hname hget rfl, rfl, rfl⟩
  | some t =>
    have hnode : d'.root.nodeAt? (place ++ [name]) = some t.node := by
      rw [FileTree.nodeAt?, hget, Option.map_some]
    obtain ⟨content, ht⟩ := h.after _ hnode
    rw [FileTree.node_eq_file] at ht
    rw [ht] at hget
    exact ⟨_, .file hname hget, rfl, rfl⟩

/-- A path that leads to the file leads there on both disks. -/
theorem leads_ofFile (h : DiffersAt d q d') (hplace : d.root.nodeAt? place = some .directory)
    (hleads : Leads d.root followsLast links place pieces x) (hfile : x.OfFile) (hq : x.place = q) :
    ∃ x', Leads d'.root followsLast links place pieces x' ∧ x'.OfFile ∧ x'.place = q := by
  induction hleads with
  | here => exact absurd hfile (not_ofFile_here hplace)
  | silent hs _ ih =>
    obtain ⟨x', hleads, hx'⟩ := ih hplace hfile hq
    exact ⟨x', .silent hs hleads, hx'⟩
  | up _ ih =>
    obtain ⟨x', hleads, hx'⟩ := ih (nodeAt?_up hplace) hfile hq
    exact ⟨x', .up hleads, hx'⟩
  | @vacant _ _ _ rest hp =>
    obtain rfl : rest = [] := by simpa [Target.OfFile] using hfile
    subst hq
    exact h.leads_entry hp
  | into hp hdir _ ih =>
    obtain ⟨x', hleads, hx'⟩ := ih hdir hfile hq
    exact ⟨x', .into hp (h.keeps hdir (by simp)) hleads, hx'⟩
  | file hp =>
    subst hq
    exact h.leads_entry hp
  | link => cases hfile
  | through hp hlink hlast _ ih =>
    obtain ⟨x', hleads, hx'⟩ := ih (nodeAt?_linkStart hplace) hfile hq
    refine ⟨x', .through hp ?_ hlast hleads, hx'⟩
    rw [← FileTree.nodeAt?_eq_link] at hlink ⊢
    exact h.keeps hlink (by simp)

private theorem start_eq (h : DiffersAt d q d') : d'.start path = d.start path := by
  rw [start, start, h.workingDirectory]

/-- A rooted disk stays rooted if it differs at one place. -/
theorem rooted (h : DiffersAt d q d') (hd : d.Rooted) : d'.Rooted := by
  rw [Rooted, h.workingDirectory]
  exact h.keeps hd (by simp)

/-- A path finds the same at all places but the one that differs. -/
theorem find (h : DiffersAt d q d') (hfind : d.find followsLast path = .ok (place, t))
    (hne : place ≠ q) : ∃ t', t'.node = t.node ∧ d'.find followsLast path = .ok (place, t') := by
  obtain ⟨hp, hleads⟩ := target_iff.mp (find_iff.mp hfind)
  obtain ⟨t', ht', hleads'⟩ := h.leads hleads hne
  exact ⟨t', ht', find_iff.mpr (target_iff.mpr ⟨hp, h.start_eq ▸ hleads'⟩)⟩

private theorem writePlace (h : DiffersAt d q d') (hd : d.Rooted) (hq : d.writePlace path = .ok q) :
    d'.writePlace path = .ok q := by
  obtain ⟨x, hx, hfile, hplace⟩ := writePlace_iff.mp hq
  obtain ⟨hp, hleads⟩ := target_iff.mp hx
  obtain ⟨x', hleads', hx'⟩ := h.leads_ofFile (hd.start path) hleads hfile hplace
  exact writePlace_iff.mpr ⟨x', target_iff.mpr ⟨hp, h.start_eq ▸ hleads'⟩, hx'⟩

/-- A file that is found elsewhere is found on both disks. -/
theorem find_file (h : DiffersAt d q d') (hq : d.writePlace path ≠ .ok q) {content : Content}
    (hfind : d.find true path = .ok (place, .file content)) :
    d'.find true path = .ok (place, .file content) := by
  have hne : place ≠ q := by
    rintro rfl
    exact hq (writePlace_of_find hfind rfl)
  obtain ⟨t', ht', hfind'⟩ := h.find hfind hne
  rw [hfind', FileTree.node_eq_file.mp ht']

/-- A path that does not lead to the file reads the same on both disks. -/
theorem readText_eq (h : DiffersAt d q d') (hd : d.Rooted) (hq : d.writePlace path ≠ .ok q) :
    d'.isFile path = d.isFile path ∧
      (d.isFile path = true → d'.readText path = d.readText path) := by
  have hq' : d'.writePlace path ≠ .ok q := fun h' => hq (h.symm.writePlace (h.rooted hd) h')
  constructor
  · rw [Bool.eq_iff_iff, isFile_iff, isFile_iff]
    constructor
    · rintro ⟨p, t, hfind, ht⟩
      cases t with
      | file content => exact ⟨p, _, h.symm.find_file hq' hfind, rfl⟩
      | link | directory => cases ht
    · rintro ⟨p, t, hfind, ht⟩
      cases t with
      | file content => exact ⟨p, _, h.find_file hq hfind, rfl⟩
      | link | directory => cases ht
  · intro hfile
    obtain ⟨p, t, hfind, ht⟩ := isFile_iff.mp hfile
    cases t with
    | file content => rw [readText, readText, hfind, h.find_file hq hfind]
    | link | directory => cases ht

end DiffersAt

end GoContracts.Disk

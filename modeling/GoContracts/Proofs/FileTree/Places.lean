import GoContracts.Proofs.FileTree.Lookup

/-!
# Absolute paths of places

The absolute path of a place leads there, if no link is on the way and the path is not too long.
Where a path goes down only and meets no link, the directories that are made for it stand on the way
to its place.
-/

namespace GoContracts.Disk

variable {d d' : Disk} {followsLast : Bool} {tree t : FileTree} {place below q names : List String}
  {x : Target} {name path : String} {content : Content} {es : List (String × FileTree)}

/-- No link stands on the way to a place. -/
def Clear (d : Disk) (place : List String) : Prop :=
  ∀ above, above <+: place → ∀ target, d.root.get? above ≠ some (.link target)

/-- A clear place stays clear when the disk grows. -/
theorem Clear.grown (h : d.Clear place) (hg : Grown d d') : d'.Clear place := by
  intro above habove target hlink
  have hold := hg.links above target (FileTree.nodeAt?_eq_link.mpr hlink)
  exact h above habove target (FileTree.nodeAt?_eq_link.mp hold)

/-- No link stands on the way to what is below a directory without links. -/
theorem clear_of_linkless (ht : d.root.get? place = some tree) (h : tree.Linkless) :
    d.Clear (place ++ below) := by
  intro above habove target hlink
  rcases List.prefix_or_prefix_of_prefix habove (List.prefix_append place below) with
    ⟨rest, rfl⟩ | ⟨rest, rfl⟩
  · cases rest with
    | nil =>
      rw [List.append_nil, hlink, Option.some.injEq] at ht
      exact h [] target (by rw [← ht, FileTree.get?_nil])
    | cons name rest =>
      have hnode : d.root.nodeAt? (above ++ name :: rest) = some tree.node := by
        rw [FileTree.nodeAt?, ht, Option.map_some]
      have hdir := FileTree.nodeAt?_dropLast hnode
      rw [FileTree.nodeAt?_eq_link.mpr hlink] at hdir
      cases hdir
  · rw [FileTree.get?_append, ht, Option.bind_some] at hlink
    exact h rest target hlink

/-! ### Paths that can be followed -/

private theorem noNul_ofPlace (h : ∀ n ∈ place, IsName n) : '\x00' ∉
    (Path.ofPlace place).toList := by
  induction place using List.reverseRecOn with
  | nil => decide
  | append_singleton init name ih =>
    have hinit := ih fun n hn => h n (List.mem_append_left _ hn)
    have hname := (h name (by simp)).noNul
    rw [Path.ofPlace_concat]
    split <;> simp [hinit, hname]

private theorem isPath_ofPlace (h : ∀ n ∈ place, IsName n) :
    IsPath (Path.ofPlace place) ↔ Text.size (Path.ofPlace place) < pathLimit := by
  constructor
  · exact IsPath.short
  · intro hshort
    exact ⟨noNul_ofPlace h, by simp [Path.ofPlace], hshort⟩

/-- The path of a place is no longer than one below it. -/
theorem size_ofPlace_append :
    Text.size (Path.ofPlace place) ≤ Text.size (Path.ofPlace (place ++ below)) := by
  induction below using List.reverseRecOn with
  | nil => rw [List.append_nil]
  | append_singleton init name ih =>
    rw [← List.append_assoc, Path.ofPlace_concat]
    simp only [Text.size, String.utf8ByteSize_append] at ih ⊢
    omega

/-! ### Paths that go down -/

/-- A path that goes down from the root on the way to a place. -/
structure GoesDown (path : String) (place : List String) : Prop where
  isAbsolute : Path.isAbsolute path = true
  noUp : ".." ∉ Text.splitAt '/' path
  spelled : Path.spelled path <+: place

/-- The path of a place of names goes down to it. -/
theorem goesDown_ofPlace (h : ∀ n ∈ place, Path.Plain n ∧ n ≠ "..") :
    GoesDown (Path.ofPlace place) place := by
  have hplain : ∀ n ∈ place, Path.Plain n := fun n hn => (h n hn).1
  refine ⟨Path.isAbsolute_ofPlace, fun hup => ?_, ?_⟩
  · rw [Path.pieces_ofPlace hplain] at hup
    rcases List.mem_cons.mp hup with hup | hup
    · exact absurd hup (by decide)
    · split at hup
      · exact absurd (List.mem_singleton.mp hup) (by decide)
      · exact (h _ hup).2 rfl
  · simp only [Path.spelled_ofPlace hplain, List.prefix_rfl]

/-- A path that goes down without links leads to the place that it spells. -/
theorem place_of_goesDown (h : GoesDown path place) (hclear : d.Clear place)
     (hx : d.target followsLast path = .ok x) : x.place = Path.spelled path := by
  obtain ⟨-, hleads⟩ := target_iff.mp hx
  rw [start, if_pos h.isAbsolute] at hleads
  exact hleads.place_eq h.noUp fun below hbelow => hclear below (hbelow.trans h.spelled)

/-- The names that a path spells are pieces of it. -/
theorem GoesDown.plain (h : GoesDown path place) :
    ∀ n ∈ Path.spelled path, Path.Plain n ∧ n ≠ ".." := by
  intro n hn
  obtain ⟨hpiece, hloud⟩ := List.mem_filter.mp hn
  refine ⟨⟨by simpa using hloud, Text.not_mem_of_mem_splitAt hpiece⟩, ?_⟩
  rintro rfl
  exact h.noUp hpiece

/-- An entry of the directory at the end of a path that goes down. -/
theorem GoesDown.join (h : GoesDown path (Path.spelled path)) (hname : Path.Plain name)
    (hup : name ≠ "..") : GoesDown (Path.join path name) (Path.spelled path ++ [name]) := by
  obtain ⟨before, hjoin, hbase⟩ := Path.pieces_join path hname.isAbsolute
  rw [Text.splitAt_of_not_mem hname.2] at hjoin
  refine ⟨Path.isAbsolute_join h.isAbsolute, fun hmem => ?_, ?_⟩
  · rw [hjoin] at hmem
    rcases List.mem_append.mp hmem with hmem | hmem
    · apply h.noUp
      rcases hbase with hbase | hbase <;> rw [hbase]
      · exact hmem
      · exact List.mem_append_left _ hmem
    · exact hup (List.mem_singleton.mp hmem).symm
  · simp only [Path.spelled_join hname.isAbsolute, hname.spelled, List.prefix_rfl]

/-- Every piece of a path that leads anywhere is the name of an entry, unless it says nothing or
leads up. -/
theorem Leads.isEntry {root : FileTree} {links : Nat} {pieces : List String}
    (h : Leads root followsLast links place pieces x) :
    ∀ piece ∈ pieces, Path.isSilent piece = true ∨ piece = ".." ∨ IsEntry piece := by
  induction h with
  | here => simp
  | silent hs _ ih =>
    intro piece hpiece
    rcases List.mem_cons.mp hpiece with rfl | hpiece
    · exact .inl hs
    · exact ih piece hpiece
  | up _ ih =>
    intro piece hpiece
    rcases List.mem_cons.mp hpiece with rfl | hpiece
    · exact .inr (.inl rfl)
    · exact ih piece hpiece
  | vacant hp _ hrest =>
    intro piece hpiece
    rcases List.mem_cons.mp hpiece with rfl | hpiece
    · exact .inr (.inr hp)
    · obtain rfl : piece = "" := by simpa using List.all_eq_true.mp hrest piece hpiece
      exact .inl rfl
  | into hp _ _ ih =>
    intro piece hpiece
    rcases List.mem_cons.mp hpiece with rfl | hpiece
    · exact .inr (.inr hp)
    · exact ih piece hpiece
  | file hp | link hp =>
    intro piece hpiece
    rw [List.mem_singleton.mp hpiece]
    exact .inr (.inr hp)
  | through hp _ _ _ ih =>
    intro piece hpiece
    rcases List.mem_cons.mp hpiece with rfl | hpiece
    · exact .inr (.inr hp)
    · exact ih piece (List.mem_append_right _ hpiece)

/-- What a path spells that leads anywhere can be the names of entries. -/
theorem isName_spelled (h : d.target followsLast path = .ok x)
    (hup : ".." ∉ Text.splitAt '/' path) : ∀ n ∈ Path.spelled path, IsName n := by
  intro n hn
  obtain ⟨hpath, hleads⟩ := target_iff.mp h
  obtain ⟨hpiece, hloud⟩ := List.mem_filter.mp hn
  have hentry : IsEntry n := by
    rcases hleads.isEntry n hpiece with hs | rfl | hentry
    · simp [hs] at hloud
    · exact absurd hpiece hup
    · exact hentry
  refine ⟨hentry, Text.not_mem_of_mem_splitAt hpiece, fun hnul => ?_⟩
  exact hpath.noNul (Text.mem_of_mem_splitAt hpiece hnul)

/-- A file is found under a piece only if that is a name. -/
theorem isName_of_isFile {base : String} (hd : d.Rooted) (hslash : '/' ∉ name.toList)
    (h : d.isFile (Path.join base name) = true) : IsName name := by
  obtain ⟨q, t, hfind, ht⟩ := isFile_iff.mp h
  have hentry := isEntry_of_target hd hslash (find_iff.mp hfind) ht
  refine ⟨hentry, hslash, fun hnul => ?_⟩
  obtain ⟨hpath, -⟩ := target_iff.mp (find_iff.mp hfind)
  obtain ⟨before, hjoin, -⟩ := Path.pieces_join base (Path.isAbsolute_of_not_mem hslash)
  have hpiece : name ∈ Text.splitAt '/' (Path.join base name) := by
    rw [hjoin, Text.splitAt_of_not_mem hslash]
    simp
  exact hpath.noNul (Text.mem_of_mem_splitAt hpiece hnul)

/-- A file that is written under a name in a directory stands there. -/
theorem writePlace_join (h : GoesDown path (Path.spelled path)) (hname : Path.Plain name)
    (hup : name ≠ "..") (hclear : d.Clear (Path.spelled path ++ [name]))
    (hq : d.writePlace (Path.join path name) = .ok q) : q = Path.spelled path ++ [name] := by
  obtain ⟨x, hx, -, rfl⟩ := writePlace_iff.mp hq
  rw [place_of_goesDown (h.join hname hup) hclear hx, Path.spelled_join hname.isAbsolute,
    hname.spelled]

/-- The path of a place leads there and nowhere else. -/
theorem find_ofPlace (hd : d.Rooted) (hnames : ∀ n ∈ place, IsName n) (hclear : d.Clear place) :
    d.find followsLast (Path.ofPlace place) = .ok (q, t) ↔
      q = place ∧ Text.size (Path.ofPlace place) < pathLimit ∧ d.root.get? place = some t := by
  have hplain : ∀ n ∈ place, Path.Plain n := fun n hn => (hnames n hn).plain
  have hstart : d.start (Path.ofPlace place) = [] := if_pos Path.isAbsolute_ofPlace
  constructor
  · intro h
    obtain ⟨hpath, hleads⟩ := target_iff.mp (find_iff.mp h)
    have hdown : GoesDown (Path.ofPlace place) place :=
      goesDown_ofPlace fun n hn => ⟨hplain n hn, (hnames n hn).ne_up⟩
    obtain rfl : q = place := by
      rw [← Path.spelled_ofPlace hplain]
      exact place_of_goesDown hdown hclear (find_iff.mp h)
    exact ⟨rfl, hpath.short, get?_of_find hd h⟩
  · rintro ⟨rfl, hshort, hget⟩
    rw [find_iff, target_iff, isPath_ofPlace hnames, hstart, Path.pieces_ofPlace hplain]
    refine ⟨hshort, .silent rfl ?_⟩
    have hlink (target : String) : t ≠ .link target := by
      rintro rfl
      exact hclear q (List.prefix_refl q) target hget
    split
    · next hnil =>
      subst hnil
      have hhere : Leads d.root followsLast maxLinks [] []
          (.found [] ((d.root.get? []).getD .empty)) := .here
      rw [hget] at hhere
      exact .silent rfl hhere
    · exact leads_names (fun n hn => (hnames n hn).toIsEntry) hget hlink

/-! ### What stays -/

/-- A file stays one while the disk grows. -/
theorem Grown.isFile (h : Grown d d') (hd : d.Rooted) (hfile : d.isFile path = true) :
    d'.isFile path = true := by
  obtain ⟨q, t, hfind, ht⟩ := isFile_iff.mp hfile
  obtain ⟨t', hfind'⟩ := h.find hfind
  have hget := get?_of_find hd hfind
  cases t with
  | link | directory => cases ht
  | file content =>
    obtain ⟨new, hnew⟩ := h.keeps.file (FileTree.nodeAt?_eq_file.mpr hget)
    have hget' := get?_of_find (h.rooted hd) hfind'
    rw [FileTree.nodeAt?_eq_file, hget', Option.some.injEq] at hnew
    exact isFile_iff.mpr ⟨q, t', hfind', hnew ▸ rfl⟩

private theorem isDirectory_iff :
    d.isDirectory path = true ↔ ∃ q t, d.find true path = .ok (q, t) ∧ t.isDirectory = true := by
  rw [isDirectory]
  rcases d.find true path with e | ⟨q, t⟩ <;> simp

/-- A directory stays one while the disk grows. -/
theorem Grown.isDirectory (h : Grown d d') (hd : d.Rooted) (hdir : d.isDirectory path = true) :
    d'.isDirectory path = true := by
  obtain ⟨q, t, hfind, ht⟩ := isDirectory_iff.mp hdir
  obtain ⟨t', hfind'⟩ := h.find hfind
  have hnode : d.root.nodeAt? q = some .directory := by
    rw [FileTree.nodeAt?, get?_of_find hd hfind, Option.map_some, FileTree.node_eq_directory.mpr ht]
  have hnode' := h.keeps.directory hnode
  rw [FileTree.nodeAt?, get?_of_find (h.rooted hd) hfind', Option.map_some, Option.some.injEq,
    FileTree.node_eq_directory] at hnode'
  exact isDirectory_iff.mpr ⟨q, t', hfind', hnode'⟩

/-- A file under a name stands in a directory. -/
theorem isDirectory_of_isFile (hd : d.Rooted) (h : GoesDown path (Path.spelled path))
    (hname : Path.Plain name) (hup : name ≠ "..") (hclear : d.Clear (Path.spelled path ++ [name]))
    (hfile : d.isFile (Path.join path name) = true) : d.isDirectory path = true := by
  obtain ⟨q, t, hfind, ht⟩ := isFile_iff.mp hfile
  have hplace {q : List String} {t : FileTree} {followsLast : Bool}
      (hfind : d.find followsLast (Path.join path name) = .ok (q, t)) :
      q = Path.spelled path ++ [name] := by
    have hspelled := place_of_goesDown (h.join hname hup) hclear (find_iff.mp hfind)
    rwa [Path.spelled_join hname.isAbsolute, hname.spelled] at hspelled
  have hlink : ∀ q target, d.find false (Path.join path name) ≠ .ok (q, .link target) := by
    intro q target hfind
    obtain rfl := hplace hfind
    exact hclear _ (List.prefix_refl _) target (get?_of_find hd hfind)
  have hbase := Path.ne_empty_of_isAbsolute h.isAbsolute
  obtain ⟨dir, u, hdir, rfl⟩ := find_join hd hbase hname hup hfind fun _ => hlink
  have hnode : d.root.nodeAt? (dir ++ [name]) = some t.node := by
    rw [FileTree.nodeAt?, get?_of_find hd hfind, Option.map_some]
  have habove := FileTree.nodeAt?_dropLast hnode
  rw [FileTree.nodeAt?, get?_of_find hd hdir, Option.map_some, Option.some.injEq,
    FileTree.node_eq_directory] at habove
  exact isDirectory_iff.mpr ⟨dir, u, hdir, habove⟩

/-! ### Looking at places -/

/-- The path of a clear place is that of a file if it is short enough and a file stands there. -/
theorem isFile_ofPlace (hd : d.Rooted) (hnames : ∀ n ∈ place, IsName n) (hclear : d.Clear place) :
    d.isFile (Path.ofPlace place) = true ↔ Text.size (Path.ofPlace place) < pathLimit ∧
      ∃ content, d.root.get? place = some (.file content) := by
  rw [isFile_iff]
  constructor
  · rintro ⟨q, t, hfind, ht⟩
    obtain ⟨rfl, hshort, hget⟩ := (find_ofPlace hd hnames hclear).mp hfind
    cases t with
    | file content => exact ⟨hshort, content, hget⟩
    | link | directory => cases ht
  · rintro ⟨hshort, content, hget⟩
    exact ⟨place, _, (find_ofPlace hd hnames hclear).mpr ⟨rfl, hshort, hget⟩, rfl⟩

/-- The text at a clear place is read at the path of the place. -/
theorem readText_ofPlace (hd : d.Rooted) (hnames : ∀ n ∈ place, IsName n) (hclear : d.Clear place)
    (hshort : Text.size (Path.ofPlace place) < pathLimit)
    (hget : d.root.get? place = some (.file content)) :
    d.readText (Path.ofPlace place) = match content with
      | .text s => .ok s
      | .binary _ => .error .invalidUtf8 := by
  have hfind : d.find true (Path.ofPlace place) = .ok (place, .file content) :=
    (find_ofPlace hd hnames hclear).mpr ⟨rfl, hshort, hget⟩
  rw [readText, hfind]
  cases content <;> rfl

/-- The entries of a directory at a clear place are read at the path of the place. -/
theorem readDirectory_ofPlace (hd : d.Rooted) (hnames : ∀ n ∈ place, IsName n)
    (hclear : d.Clear place) : d.readDirectory (Path.ofPlace place) = .ok es ↔
      Text.size (Path.ofPlace place) < pathLimit ∧ d.root.get? place = some (.directory es) := by
  have hread : d.readDirectory (Path.ofPlace place) = .ok es ↔
      ∃ q, d.find true (Path.ofPlace place) = .ok (q, .directory es) := by
    rw [readDirectory]
    rcases d.find true (Path.ofPlace place) with e | ⟨q, t⟩
    · simp [bind, Except.bind]
    · cases t <;>
        simp [bind, Except.bind, pure, Except.pure, throw, throwThe, MonadExceptOf.throw]
  rw [hread]
  constructor
  · rintro ⟨q, hfind⟩
    obtain ⟨rfl, hshort, hget⟩ := (find_ofPlace hd hnames hclear).mp hfind
    exact ⟨hshort, hget⟩
  · rintro ⟨hshort, hget⟩
    exact ⟨place, (find_ofPlace hd hnames hclear).mpr ⟨rfl, hshort, hget⟩⟩

end GoContracts.Disk

/-! ### Directories made on the way -/

namespace GoContracts

namespace Disk

variable {d d' : Disk} {path : String} {place : List String}

/-- Where no link is on the way to a place, directories are added on this way only. -/
def AddsAlong (place : List String) (d d' : Disk) : Prop :=
  d.Rooted → d.Clear place → AddsDirectories d d' ∧
    ∀ p, d'.root.nodeAt? p ≠ d.root.nodeAt? p → p <+: place

instance : IsPreorder Disk (AddsAlong place) where
  refl d _ _ := ⟨.refl d, by simp⟩
  trans a b c h h' hd hclear := by
    obtain ⟨hadds, halong⟩ := h hd hclear
    obtain ⟨hadds', halong'⟩ := h' (hadds.grown.rooted hd) (hclear.grown hadds.grown)
    refine ⟨hadds.trans hadds', fun p hp => ?_⟩
    by_cases hsame : b.root.nodeAt? p = a.root.nodeAt? p
    · exact halong' p (hsame ▸ hp)
    · exact halong p hsame

private theorem moves_makeDirectory_along (h : GoesDown path place) :
    Step.Moves (AddsAlong place) (makeDirectory path) := by
  intro d hd hclear
  rw [makeDirectory, Step.bind_apply, targetNow_apply]
  cases ht : d.target false path with
  | error e => exact ⟨.refl d, fun p hp => absurd rfl hp⟩
  | ok x =>
    cases x with
    | found q t => exact ⟨.refl d, fun p hp => absurd rfl hp⟩
    | vacant dir name demand =>
      obtain ⟨hdir, hnone, -⟩ := (target_iff.mp ht).2.sound (hd.start path)
      refine ⟨addsDirectories_insertAt hdir hnone, fun p hp => ?_⟩
      rw [← nodeAt?_eq_none] at hnone
      by_contra hout
      have hplace : dir ++ [name] = Path.spelled path := place_of_goesDown h hclear ht
      have hne : p ≠ dir ++ [name] := by
        rintro rfl
        exact hout (hplace ▸ h.spelled)
      apply hp
      change (FileTree.insertAt dir name .empty d.root).nodeAt? p = _
      rw [FileTree.nodeAt?_insertAt hdir rfl (by simp [hnone]), if_neg hne]

private theorem GoesDown.parent? {above : String} (h : GoesDown path place)
    (habove : Path.parent? path = some above) : GoesDown above place := by
  obtain ⟨habs, first, rest, hpieces, hfirst, hpieces'⟩ := Path.pieces_parent? h.isAbsolute habove
  refine ⟨habs, fun hup => h.noUp ?_, ?_⟩
  · rw [hpieces'] at hup
    rw [hpieces]
    rcases List.mem_cons.mp hup with hup | hup
    · exact absurd hup (by decide)
    · split at hup
      · exact absurd (List.mem_singleton.mp hup) (by decide)
      · exact List.mem_cons_of_mem _ (hfirst.subset hup)
  · have hspelled : Path.spelled above = first.filter (!Path.isSilent ·) := by
      rw [Path.spelled, hpieces', List.filter_cons_of_neg (by decide)]
      split
      · next hnil => simp [hnil, Path.isSilent]
      · rfl
    rw [hspelled]
    refine .trans ?_ h.spelled
    rw [Path.spelled, hpieces, List.filter_cons_of_neg (by decide)]
    exact hfirst.filter _

private theorem GoesDown.ancestors {n : Nat} {p : String} (h : GoesDown path place)
    (hp : p ∈ ancestors n path) : GoesDown p place := by
  induction n generalizing path with
  | zero => simp [Disk.ancestors] at hp
  | succ n ih =>
    rw [Disk.ancestors] at hp
    split at hp
    · cases hp
    · next above habove =>
      split at hp
      · cases hp
      · rcases List.mem_cons.mp hp with rfl | hp
        · exact h
        · exact ih (h.parent? habove) hp

/-- Directories are made on the way to the place only. -/
theorem makeDirectories_along {fault? : Option Fault} (hd : d.Rooted) (h : GoesDown path place)
    (hclear : d.Clear place) : AddsDirectories d (makeDirectories path fault? d).2 ∧
      ∀ p, (makeDirectories path fault? d).2.root.nodeAt? p ≠ d.root.nodeAt? p → p <+: place :=
  moves_makeDirectories (fun _ hp => moves_makeDirectory_along (h.ancestors hp)) d hd hclear

/-- A path that is followed to its end leads somewhere without that as well. -/
theorem Leads.unfollowed {root t : FileTree} {links : Nat} {q pieces : List String}
    (h : Leads root true links place pieces (.found q t)) :
    ∃ q' t', Leads root false links place pieces (.found q' t') := by
  generalize hx : Target.found q t = x at h
  induction h with
  | here => exact ⟨_, _, .here⟩
  | silent hs _ ih =>
    obtain ⟨q', t', h⟩ := ih hx
    exact ⟨q', t', .silent hs h⟩
  | up _ ih =>
    obtain ⟨q', t', h⟩ := ih hx
    exact ⟨q', t', .up h⟩
  | vacant => cases hx
  | into hp hdir _ ih =>
    obtain ⟨q', t', h⟩ := ih hx
    exact ⟨q', t', .into hp hdir h⟩
  | file hp hfile => exact ⟨_, _, .file hp hfile⟩
  | link _ _ hlast => cases hlast
  | @through _ _ _ rest _ _ hp hlink _ _ ih =>
    cases rest with
    | nil => exact ⟨_, _, .link hp hlink rfl⟩
    | cons piece rest =>
      obtain ⟨q', t', h⟩ := ih hx
      exact ⟨q', t', .through hp hlink (.inl (by simp)) h⟩

private theorem makeDirectory_of_isDirectory (h : d.isDirectory path = true) :
    makeDirectory path d = (.error .exists, d) := by
  rw [isDirectory] at h
  rcases hfind : d.find true path with e | ⟨q, t⟩
  · simp [hfind] at h
  · obtain ⟨hpath, hleads⟩ := target_iff.mp (find_iff.mp hfind)
    obtain ⟨q', t', hleads'⟩ := hleads.unfollowed
    rw [makeDirectory, Step.bind_apply, targetNow_apply, target_iff.mpr ⟨hpath, hleads'⟩]
    rfl

/-- Nothing is made where the directory is there. -/
theorem makeDirectories_of_isDirectory (h : d.isDirectory path = true) :
    makeDirectories path none d = (.ok (), d) := by
  unfold makeDirectories
  dsimp only
  rw [ancestors]
  split
  · rfl
  · split
    · rfl
    · rw [makeChain, Step.tryCatch_apply, makeDirectory_of_isDirectory h]
      simp only
      rw [Step.bind_apply, Step.get_apply]
      simp only [h]
      rfl

end Disk

end GoContracts

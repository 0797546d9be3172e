import GoContracts.FileTree.Disk
import GoContracts.Proofs.FileTree.Nodes

/-!
# Where paths lead

Following a path is a walk of steps, one for each piece and for each link on the way. What holds of
every path that leads somewhere is proved step by step.
-/

namespace GoContracts.Disk

open FileTree (Node)

/-- A piece that names an entry. -/
structure IsEntry (piece : String) : Prop where
  loud : Path.isSilent piece = false
  ne_up : piece ≠ ".."
  short : Text.size piece ≤ maxNameLength

/-- The place where the target of a link begins that stands in the directory at a place. -/
def linkStart (target : String) (place : List String) : List String :=
  if Path.isAbsolute target then [] else place

/-- The pieces of a path lead from a place to a target through at most the given number of links. -/
inductive Leads (root : FileTree) (followsLast : Bool) :
    Nat → List String → List String → Target → Prop
  | here {links place} :
    Leads root followsLast links place [] (.found place ((root.get? place).getD .empty))
  | silent {links place piece rest x} (hs : Path.isSilent piece = true)
    (h : Leads root followsLast links place rest x) :
    Leads root followsLast links place (piece :: rest) x
  | up {links place rest x} (h : Leads root followsLast links place.dropLast rest x) :
    Leads root followsLast links place (".." :: rest) x
  | vacant {links place piece rest} (hp : IsEntry piece)
    (hnone : root.get? (place ++ [piece]) = none) (hrest : rest.all (· = "") = true) :
    Leads root followsLast links place (piece :: rest) (.vacant place piece !rest.isEmpty)
  | into {links place piece rest x} (hp : IsEntry piece)
    (hdir : root.nodeAt? (place ++ [piece]) = some .directory)
    (h : Leads root followsLast links (place ++ [piece]) rest x) :
    Leads root followsLast links place (piece :: rest) x
  | file {links place piece content} (hp : IsEntry piece)
    (hfile : root.get? (place ++ [piece]) = some (.file content)) :
    Leads root followsLast links place [piece] (.found (place ++ [piece]) (.file content))
  | link {links place piece target} (hp : IsEntry piece)
    (hlink : root.get? (place ++ [piece]) = some (.link target)) (hlast : followsLast = false) :
    Leads root followsLast links place [piece] (.found (place ++ [piece]) (.link target))
  | through {links place piece rest target x} (hp : IsEntry piece)
    (hlink : root.get? (place ++ [piece]) = some (.link target))
    (hlast : rest ≠ [] ∨ followsLast = true)
    (h : Leads root followsLast links (linkStart target place) (Text.splitAt '/' target ++ rest)
      x) :
    Leads root followsLast (links + 1) place (piece :: rest) x

/-- The target stands in the tree as it is given. -/
def Target.Sound (root : FileTree) : Target → Prop
  | .found place t => root.get? place = some t
  | .vacant dir name _ =>
    root.nodeAt? dir = some .directory ∧ root.get? (dir ++ [name]) = none ∧ IsEntry name

/-- The place of what is found, or of what is missing. -/
def Target.place : Target → List String
  | .found place _ => place
  | .vacant dir name _ => dir ++ [name]

variable {root root' : FileTree} {followsLast : Bool} {links : Nat}
  {place dir q : List String} {piece name : String} {pieces rest : List String} {x : Target}
  {t : FileTree} {demand : Bool}

private theorem isSilent_up : Path.isSilent ".." = false := by decide

/-- The steps of a walk are those of the function, if they are so behind a link. -/
private theorem leads_of_followWith {follows : List String → List String → Except OsError Target}
    (hfollows : ∀ target place piece rest x, IsEntry piece →
      root.get? (place ++ [piece]) = some (.link target) → (rest ≠ [] ∨ followsLast = true) →
      follows (linkStart target place) (Text.splitAt '/' target ++ rest) = .ok x →
      Leads root followsLast links place (piece :: rest) x)
    (h : followWith root followsLast follows place pieces = .ok x) :
    Leads root followsLast links place pieces x := by
  -- Links are the business of `follows`; the pieces before the first one are used up here.
  induction pieces generalizing place with
  | nil =>
    obtain rfl := Except.ok.inj h
    exact .here
  | cons piece rest ih =>
    rw [followWith] at h
    split at h
    · next hs => exact .silent hs (ih h)
    next hs =>
    split at h
    · next hup => exact hup ▸ .up (ih h)
    next hup =>
    split at h
    · cases h
    next hlong =>
    have hp : IsEntry piece := ⟨by simpa using hs, hup, Nat.le_of_not_lt hlong⟩
    split at h
    · next hnone =>
      split at h
      · next hrest =>
        obtain rfl := Except.ok.inj h
        exact .vacant hp hnone hrest
      · cases h
    · next hdir => exact .into hp (FileTree.nodeAt?_eq_directory.mpr ⟨_, hdir⟩) (ih h)
    · next hfile =>
      split at h
      · next hrest =>
        obtain rfl := Except.ok.inj h
        obtain rfl := List.isEmpty_iff.mp hrest
        exact .file hp hfile
      · cases h
    · next hlink =>
      split at h
      · next hrest =>
        obtain rfl := Except.ok.inj h
        simp only [Bool.and_eq_true, List.isEmpty_iff, Bool.not_eq_true'] at hrest
        obtain ⟨rfl, hlast⟩ := hrest
        exact .link hp hlink hlast
      · next hrest =>
        refine hfollows _ _ _ _ _ hp hlink ?_ h
        simp only [Bool.and_eq_true, List.isEmpty_iff, Bool.not_eq_true', not_and,
          Bool.not_eq_false] at hrest
        by_cases hne : rest = []
        · exact .inr (hrest hne)
        · exact .inl hne

private theorem leads_of_follow (h : follow root followsLast links place pieces = .ok x) :
    Leads root followsLast links place pieces x := by
  induction links generalizing place pieces x with
  | zero => exact leads_of_followWith (fun _ _ _ _ _ _ _ _ h => by cases h) h
  | succ links ih =>
    exact leads_of_followWith (fun _ _ _ _ _ hp hlink hlast h => .through hp hlink hlast (ih h)) h

/-- `follow` is `followWith` for some way to follow links. -/
private theorem exists_followWith (root : FileTree) (followsLast : Bool) (links : Nat) :
    ∃ follows, follow root followsLast links = followWith root followsLast follows := by
  cases links with
  | zero => exact ⟨_, rfl⟩
  | succ links => exact ⟨_, rfl⟩

private theorem followWith_entry {follows : List String → List String → Except OsError Target}
    (hp : IsEntry piece) : followWith root followsLast follows place (piece :: rest) =
      match root.get? (place ++ [piece]) with
      | none =>
        if rest.all (· = "") then .ok (.vacant place piece !rest.isEmpty) else .error .notFound
      | some (.directory _) => followWith root followsLast follows (place ++ [piece]) rest
      | some (.file content) =>
        if rest.isEmpty then .ok (.found (place ++ [piece]) (.file content))
        else .error .notDirectory
      | some (.link target) =>
        if rest.isEmpty && !followsLast then .ok (.found (place ++ [piece]) (.link target))
        else follows (linkStart target place) (Text.splitAt '/' target ++ rest) := by
  rw [followWith, if_neg (by simp [hp.loud]), if_neg hp.ne_up, if_neg (Nat.not_lt.mpr hp.short)]
  rfl

private theorem follow_of_leads (h : Leads root followsLast links place pieces x) :
    follow root followsLast links place pieces = .ok x := by
  -- Only a link that is followed uses up one of the links; all other steps keep `follows`.
  induction h with
  | @through links place piece rest target x hp hlink hlast _ ih =>
    have hfollowed : (rest.isEmpty && !followsLast) = false := by
      rcases hlast with hne | rfl
      · simp [hne]
      · simp
    rw [follow, followWith_entry hp, hlink]
    simpa only [hfollowed, Bool.false_eq_true, if_false] using ih
  | @here links =>
    obtain ⟨follows, hf⟩ := exists_followWith root followsLast links
    rw [hf, followWith]
  | @silent links _ _ _ _ hs _ ih =>
    obtain ⟨follows, hf⟩ := exists_followWith root followsLast links
    rw [hf] at ih ⊢
    rw [followWith, if_pos hs, ih]
  | @up links _ _ _ _ ih =>
    obtain ⟨follows, hf⟩ := exists_followWith root followsLast links
    rw [hf] at ih ⊢
    rw [followWith, if_neg (by simp [isSilent_up]), if_pos rfl, ih]
  | @vacant links _ _ _ hp hnone hrest =>
    obtain ⟨follows, hf⟩ := exists_followWith root followsLast links
    rw [hf, followWith_entry hp, hnone]
    simp only [hrest, if_true]
  | @into links _ _ _ _ hp hdir _ ih =>
    obtain ⟨follows, hf⟩ := exists_followWith root followsLast links
    obtain ⟨es, hes⟩ := FileTree.nodeAt?_eq_directory.mp hdir
    rw [hf] at ih ⊢
    rw [followWith_entry hp, hes]
    exact ih
  | @file links _ _ _ hp hfile =>
    obtain ⟨follows, hf⟩ := exists_followWith root followsLast links
    rw [hf, followWith_entry hp, hfile]
    rfl
  | @link links _ _ _ hp hlink hlast =>
    obtain ⟨follows, hf⟩ := exists_followWith root followsLast links
    rw [hf, followWith_entry hp, hlink]
    simp [hlast]

/-- The relation holds of what the pieces of a path are followed to. -/
theorem leads_iff : Leads root followsLast links place pieces x ↔
    follow root followsLast links place pieces = .ok x :=
  ⟨follow_of_leads, leads_of_follow⟩

/-! ### What a walk leads to -/

/-- Above a directory stands a directory. -/
theorem nodeAt?_up (h : root.nodeAt? place = some .directory) :
    root.nodeAt? place.dropLast = some .directory := by
  rcases List.eq_nil_or_concat' place with rfl | ⟨above, name, rfl⟩
  · exact h
  · rw [List.dropLast_concat]
    exact FileTree.nodeAt?_dropLast h

/-- The target of a link in a directory starts at a directory. -/
theorem nodeAt?_linkStart {target : String} (h : root.nodeAt? place = some .directory) :
    root.nodeAt? (linkStart target place) = some .directory := by
  rw [linkStart]
  split
  · cases place with
    | nil => exact h
    | cons name place => exact FileTree.nodeAt?_root h
  · exact h

/-- What the pieces lead to stands where it is said to stand. -/
theorem Leads.sound (h : Leads root followsLast links place pieces x)
    (hplace : root.nodeAt? place = some .directory) : x.Sound root := by
  induction h with
  | here =>
    obtain ⟨es, hes⟩ := FileTree.nodeAt?_eq_directory.mp hplace
    simp [Target.Sound, hes]
  | silent _ _ ih => exact ih hplace
  | up _ ih => exact ih (nodeAt?_up hplace)
  | vacant hp hnone _ => exact ⟨hplace, hnone, hp⟩
  | into _ hdir _ ih => exact ih hdir
  | file _ hfile => exact hfile
  | link _ hlink _ => exact hlink
  | through _ _ _ _ ih => exact ih (nodeAt?_linkStart hplace)

/-- What is found is found at the same place after the tree has grown. -/
theorem Leads.keeps (hk : root.Keeps root')
    (h : Leads root followsLast links place pieces (.found q t)) :
    ∃ t', Leads root' followsLast links place pieces (.found q t') := by
  generalize hx : Target.found q t = x at h
  induction h with
  | here =>
    obtain ⟨rfl, -⟩ := Target.found.inj hx
    exact ⟨_, .here⟩
  | silent hs _ ih => exact (ih hx).imp fun _ h => .silent hs h
  | up _ ih => exact (ih hx).imp fun _ h => .up h
  | vacant => cases hx
  | into hp hdir _ ih => exact (ih hx).imp fun _ h => .into hp (hk.directory hdir) h
  | file hp hfile =>
    obtain ⟨rfl, -⟩ := Target.found.inj hx
    obtain ⟨new, hnew⟩ := hk.file (FileTree.nodeAt?_eq_file.mpr hfile)
    exact ⟨_, .file hp (FileTree.nodeAt?_eq_file.mp hnew)⟩
  | link hp hlink hlast =>
    obtain ⟨rfl, -⟩ := Target.found.inj hx
    exact ⟨_, .link hp (FileTree.nodeAt?_eq_link.mp
      (hk.link (FileTree.nodeAt?_eq_link.mpr hlink))) hlast⟩
  | through hp hlink hlast _ ih =>
    exact (ih hx).imp fun _ h => .through hp (FileTree.nodeAt?_eq_link.mp
      (hk.link (FileTree.nodeAt?_eq_link.mpr hlink))) hlast h

/-- What was missing is found once it is there. -/
theorem Leads.filled {content : Content} (hk : root.Keeps root')
    (h : Leads root followsLast links place pieces (.vacant dir name false))
    (hfile : root'.get? (dir ++ [name]) = some (.file content)) :
    Leads root' followsLast links place pieces (.found (dir ++ [name]) (.file content)) := by
  generalize hx : Target.vacant dir name false = x at h
  induction h with
  | here => cases hx
  | silent hs _ ih => exact .silent hs (ih hx)
  | up _ ih => exact .up (ih hx)
  | @vacant _ _ _ rest hp _ _ =>
    obtain ⟨rfl, rfl, hrest⟩ := Target.vacant.inj hx
    obtain rfl : rest = [] := by simpa using hrest.symm
    exact .file hp hfile
  | into hp hdir _ ih => exact .into hp (hk.directory hdir) (ih hx)
  | file => cases hx
  | link => cases hx
  | through hp hlink hlast _ ih =>
    exact .through hp (FileTree.nodeAt?_eq_link.mp
      (hk.link (FileTree.nodeAt?_eq_link.mpr hlink))) hlast (ih hx)

/-- A slash behind a path to a directory leads no further. -/
theorem Leads.append_empty (h : Leads root followsLast links place pieces (.found q t))
    (ht : t.isDirectory = true) :
    Leads root followsLast links place (pieces ++ [""]) (.found q t) := by
  generalize hx : Target.found q t = x at h
  induction h with
  | here =>
    obtain ⟨rfl, rfl⟩ := Target.found.inj hx
    exact .silent (by decide) .here
  | silent hs _ ih => exact .silent hs (ih hx)
  | up _ ih => exact .up (ih hx)
  | vacant => cases hx
  | into hp hdir _ ih => exact .into hp hdir (ih hx)
  | file =>
    obtain ⟨-, rfl⟩ := Target.found.inj hx
    cases ht
  | link =>
    obtain ⟨-, rfl⟩ := Target.found.inj hx
    cases ht
  | through hp hlink _ _ ih =>
    exact .through hp hlink (.inl (by simp)) (List.append_assoc .. ▸ ih hx)

/-- The way to an entry leads to its directory first, unless a link is followed that stands under
its name. -/
theorem Leads.concat (hloud : Path.isSilent name = false) (hup : name ≠ "..")
    (h : Leads root followsLast links place (pieces ++ [name]) x)
    (hlink : followsLast = true → ∀ q target,
      ¬Leads root false links place (pieces ++ [name]) (.found q (.link target)))
    (hplace : root.nodeAt? place = some .directory) :
    ∃ dir t, Leads root true links place pieces (.found dir t) ∧
      root.nodeAt? dir = some .directory ∧ x.place = dir ++ [name] := by
  generalize hall : pieces ++ [name] = all at h
  -- The last piece is reached by the case in which nothing is left before it.
  induction h generalizing pieces with
  | here => simp at hall
  | silent hs _ ih =>
    cases pieces with
    | nil =>
      obtain ⟨rfl, -⟩ := List.cons.inj hall
      simp [hloud] at hs
    | cons piece pieces =>
      obtain ⟨rfl, rfl⟩ := List.cons.inj hall
      obtain ⟨dir, t, hdir, hd, hx⟩ := ih (fun hf q u hl => hlink hf q u (.silent hs hl)) hplace rfl
      exact ⟨dir, t, .silent hs hdir, hd, hx⟩
  | up _ ih =>
    cases pieces with
    | nil =>
      obtain ⟨rfl, -⟩ := List.cons.inj hall
      exact absurd rfl hup
    | cons piece pieces =>
      obtain ⟨rfl, rfl⟩ := List.cons.inj hall
      obtain ⟨dir, t, hdir, hd, hx⟩ := ih (fun hf q u hl => hlink hf q u (.up hl))
        (nodeAt?_up hplace) rfl
      exact ⟨dir, t, .up hdir, hd, hx⟩
  | vacant _ _ hrest =>
    cases pieces with
    | nil =>
      obtain ⟨rfl, -⟩ := List.cons.inj hall
      exact ⟨_, _, .here, hplace, rfl⟩
    | cons piece pieces =>
      obtain ⟨rfl, rfl⟩ := List.cons.inj hall
      have hempty : name = "" := by simpa using List.all_eq_true.mp hrest name (by simp)
      simp [hempty, Path.isSilent] at hloud
  | into hp hdir h ih =>
    cases pieces with
    | nil =>
      obtain ⟨rfl, rfl⟩ := List.cons.inj hall
      cases h
      exact ⟨_, _, .here, hplace, rfl⟩
    | cons piece pieces =>
      obtain ⟨rfl, rfl⟩ := List.cons.inj hall
      obtain ⟨dir, t, hleads, hd, hx⟩ :=
        ih (fun hf q u hl => hlink hf q u (.into hp hdir hl)) hdir rfl
      exact ⟨dir, t, .into hp hdir hleads, hd, hx⟩
  | file =>
    cases pieces with
    | nil =>
      obtain ⟨rfl, -⟩ := List.cons.inj hall
      exact ⟨_, _, .here, hplace, rfl⟩
    | cons piece pieces => simp at hall
  | link =>
    cases pieces with
    | nil =>
      obtain ⟨rfl, -⟩ := List.cons.inj hall
      exact ⟨_, _, .here, hplace, rfl⟩
    | cons piece pieces => simp at hall
  | through hp hto hlast _ ih =>
    cases pieces with
    | nil =>
      obtain ⟨rfl, rfl⟩ := List.cons.inj hall
      exact absurd (.link hp hto rfl) (hlink (hlast.resolve_left fun hne => hne rfl) _ _)
    | cons piece pieces =>
      obtain ⟨rfl, rfl⟩ := List.cons.inj hall
      have hne : pieces ++ [name] ≠ [] := by simp
      obtain ⟨dir, t, hdir, hd, hx⟩ := ih
        (fun hf q u hl => hlink hf q u (.through hp hto (.inl hne) (List.append_assoc .. ▸ hl)))
        (nodeAt?_linkStart hplace) (List.append_assoc ..)
      exact ⟨dir, t, .through hp hto (.inr rfl) hdir, hd, hx⟩

/-- Where no link is on the way, the pieces spell the place. -/
theorem Leads.place_eq (h : Leads root followsLast links place pieces x) (hup : ".." ∉ pieces)
    (hlink : ∀ below, below <+: pieces.filter (!Path.isSilent ·) →
      ∀ target, root.get? (place ++ below) ≠ some (.link target)) :
    x.place = place ++ pieces.filter (!Path.isSilent ·) := by
  induction h with
  | here => simp [Target.place]
  | silent hs _ ih =>
    rw [List.filter_cons_of_neg (by simpa using hs)] at hlink ⊢
    exact ih (fun h => hup (List.mem_cons_of_mem _ h)) hlink
  | up => simp at hup
  | @vacant _ _ _ rest hp _ hrest =>
    have hsilent : rest.filter (!Path.isSilent ·) = [] := by
      rw [List.filter_eq_nil_iff]
      intro piece hpiece
      have := List.all_eq_true.mp hrest piece hpiece
      simp_all [Path.isSilent]
    rw [List.filter_cons_of_pos (by simpa using hp.loud), hsilent, Target.place]
  | into hp _ _ ih =>
    rw [List.filter_cons_of_pos (by simpa using hp.loud)] at hlink ⊢
    rw [ih (fun h => hup (List.mem_cons_of_mem _ h)) fun below hbelow target => ?_]
    · simp
    · have := hlink (_ :: below) (List.cons_prefix_cons.mpr ⟨rfl, hbelow⟩) target
      simpa using this
  | file hp =>
    rw [List.filter_cons_of_pos (by simpa using hp.loud)]
    rfl
  | link hp =>
    rw [List.filter_cons_of_pos (by simpa using hp.loud)]
    rfl
  | through hp hto =>
    rw [List.filter_cons_of_pos (by simpa using hp.loud)] at hlink
    exact absurd hto (hlink [_] (by simp) _)

/-- The names of a place lead to what stands there, unless it is a link. -/
theorem leads_names {names : List String} (hnames : ∀ name ∈ names, IsEntry name)
    (ht : root.get? (place ++ names) = some t) (hlink : ∀ target, t ≠ .link target) :
    Leads root followsLast links place names (.found (place ++ names) t) := by
  induction names generalizing place with
  | nil =>
    rw [List.append_nil] at ht ⊢
    have hhere : Leads root followsLast links place []
        (.found place ((root.get? place).getD .empty)) := .here
    rwa [ht] at hhere
  | cons name names ih =>
    have hp := hnames name (List.mem_cons_self ..)
    have hinner : Leads root followsLast links (place ++ [name]) names
        (.found (place ++ [name] ++ names) t) :=
      ih (fun n hn => hnames n (List.mem_cons_of_mem _ hn)) (by simpa using ht)
    rw [List.append_assoc, List.singleton_append] at hinner
    cases names with
    | nil =>
      cases t with
      | directory es => exact .into hp (FileTree.nodeAt?_eq_directory.mpr ⟨es, ht⟩) hinner
      | file content => exact .file hp ht
      | link target => exact absurd rfl (hlink target)
    | cons second names =>
      have hnode : root.nodeAt? (place ++ [name] ++ second :: names) = some t.node := by
        rw [FileTree.nodeAt?, List.append_assoc, List.singleton_append, ht, Option.map_some]
      exact .into hp (FileTree.nodeAt?_dropLast hnode) hinner

end GoContracts.Disk

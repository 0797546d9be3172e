import GoContracts.Proofs.FileTree.Places
import GoContracts.Proofs.Overlay.Storing

/-!
# Generated files

Files are generated by making a directory and writing files, one after the other. What has been
written last at a place stands there. So files that are generated again leave the disk as it is.
-/

namespace GoContracts

namespace FileTree

/-- Ordered trees are told by their nodes. -/
theorem eq_of_nodeAt? (t u : FileTree) (ht : t.Ordered) (hu : u.Ordered)
    (h : ∀ place, t.nodeAt? place = u.nodeAt? place) : t = u := by
  have hroot : t.node = u.node := by
    have hnil := h []
    rwa [nodeAt?_nil, nodeAt?_nil, Option.some.injEq] at hnil
  match t, u with
  | .file content, u => exact (node_eq_file.mp hroot.symm).symm
  | .link target, u => exact (node_eq_link.mp hroot.symm).symm
  | .directory es, .file _ => cases hroot
  | .directory es, .link _ => cases hroot
  | .directory es, .directory fs =>
    congr 1
    apply Keyed.Ascending.ext (ht [] es rfl) (hu [] fs rfl)
    intro name
    change (directory es).below? name = (directory fs).below? name
    have hbelow (place : List String) := h (name :: place)
    simp only [nodeAt?, get?_cons] at hbelow
    cases hes : (directory es).below? name with
    | none =>
      have hnil := hbelow []
      rw [hes] at hnil
      cases hfs : (directory fs).below? name with
      | none => rfl
      | some v => simp [hfs] at hnil
    | some v =>
      cases hfs : (directory fs).below? name with
      | none =>
        have hnil := hbelow []
        simp [hes, hfs] at hnil
      | some w =>
        congr 1
        simp only [hes, hfs, Option.bind_some] at hbelow
        have hmem : (name, v) ∈ es := (below?_eq_some (ht [] es rfl)).mp hes
        exact eq_of_nodeAt? v w (ht.of_below? hes) (hu.of_below? hfs) hbelow
termination_by sizeOf t
decreasing_by
  have := List.sizeOf_lt_of_mem hmem
  simp_wf
  simp at this
  omega

end FileTree

/-- The name of the manifest is plain. -/
theorem Manifest.plain_fileName : Path.Plain fileName := by
  constructor <;> decide

namespace Disk

variable {d d' d'' : Disk} {place p : List String} {writes more : List (List String × String)}
  {text : String}

/-- The text that is written last at a place. -/
def lastAt (writes : List (List String × String)) (p : List String) : Option String :=
  (writes.reverse.find? (·.1 = p)).map (·.2)

/-- Nothing was written, nothing stands. -/
@[simp] theorem lastAt_nil : lastAt [] p = none := rfl

/-- The later writes decide. -/
theorem lastAt_append : lastAt (writes ++ more) p = (lastAt more p).or (lastAt writes p) := by
  rw [lastAt, List.reverse_append, List.find?_append, Option.map_or]
  rfl

/-- One write decides about its place only. -/
theorem lastAt_singleton : lastAt [(place, text)] p = if place = p then some text else none := by
  by_cases h : place = p <;> simp [lastAt, h]

/-- The text that is written last at a place is one that is written there. -/
theorem mem_of_lastAt (h : lastAt writes p = some text) : (p, text) ∈ writes := by
  rw [lastAt, Option.map_eq_some_iff] at h
  obtain ⟨write, hwrite, rfl⟩ := h
  have hplace : write.1 = p := by simpa using List.find?_some hwrite
  rw [← hplace]
  exact List.mem_reverse.mp (List.mem_of_find?_eq_some hwrite)

/-- Files have been written one after the other, and before them directories may have been made on
the way to a place. -/
structure Generates (place : List String) (writes : List (List String × String)) (d d' : Disk) :
    Prop where
  grown : Grown d d'
  ordered : d.root.Ordered → d'.root.Ordered
  written : ∀ p text, lastAt writes p = some text →
    d'.root.nodeAt? p = some (.file (.text text))
  others : ∀ p, lastAt writes p = none → d'.root.nodeAt? p = d.root.nodeAt? p ∨
    p <+: place ∧ d.root.nodeAt? p = none ∧ d'.root.nodeAt? p = some .directory

namespace Generates

/-- A disk is generated from itself by no writes. -/
theorem refl (d : Disk) : Generates place [] d d :=
  ⟨.refl d, id, by simp, fun _ _ => .inl rfl⟩

/-- What is generated in two parts is generated by the writes of both. -/
theorem trans (h : Generates place writes d d') (h' : Generates place more d' d'') :
    Generates place (writes ++ more) d d'' where
  grown := h.grown.trans h'.grown
  ordered := h'.ordered ∘ h.ordered
  written p text hlast := by
    rw [lastAt_append, Option.or_eq_some_iff] at hlast
    rcases hlast with hlast | ⟨hnone, hlast⟩
    · exact h'.written p text hlast
    · have hnode := h.written p text hlast
      rcases h'.others p hnone with hsame | ⟨-, habsent, -⟩
      · rw [hsame, hnode]
      · rw [hnode] at habsent
        cases habsent
  others p hlast := by
    rw [lastAt_append, Option.or_eq_none_iff] at hlast
    rcases h.others p hlast.2 with hsame | ⟨halong, habsent, hmade⟩
    · rw [← hsame]
      exact h'.others p hlast.1
    · right
      refine ⟨halong, habsent, ?_⟩
      rcases h'.others p hlast.1 with hsame | ⟨-, habsent', -⟩
      · rw [hsame, hmade]
      · rw [hmade] at habsent'
        cases habsent'

/-- To make the directories of a place generates the disk by no writes. -/
theorem of_make (h : AddsDirectories d d')
    (halong : ∀ p, d'.root.nodeAt? p ≠ d.root.nodeAt? p → p <+: place) :
      Generates place [] d d' where
  grown := h.grown
  ordered := h.ordered
  written := by simp
  others p _ := by
    rcases h.node p with hsame | ⟨hnone, hdir⟩
    · exact .inl hsame
    · exact .inr ⟨halong p (by simp [hnone, hdir]), hnone, hdir⟩

/-- One write generates the disk. -/
theorem of_put (h : Writable d.root p) : Generates place [(p, text)] d (d.put p text) where
  grown := grown_put h
  ordered := ordered_put
  written q last hlast := by
    rw [lastAt_singleton] at hlast
    split at hlast
    · next heq =>
      rw [nodeAt?_put h, if_pos heq.symm, Option.some.inj hlast]
    · cases hlast
  others q hlast := by
    rw [lastAt_singleton] at hlast
    split at hlast
    · cases hlast
    · next hne =>
      rw [nodeAt?_put h, if_neg fun heq => hne heq.symm]
      exact .inl rfl

/-- Names that can stand in paths are added where the place and those of the files are such. -/
theorem named (h : Generates place writes d d') (hd : d.root.Named) (hplace : ∀ n ∈ place, IsName n)
    (hwrites : ∀ p text, (p, text) ∈ writes → ∀ n ∈ p, IsName n) : d'.root.Named := by
  intro p t ht
  cases hlast : lastAt writes p with
  | some text => exact hwrites p text (mem_of_lastAt hlast)
  | none =>
    have hnode : d'.root.nodeAt? p = some t.node := by rw [FileTree.nodeAt?, ht, Option.map_some]
    rcases h.others p hlast with hsame | ⟨halong, -, -⟩
    · rw [hsame, FileTree.nodeAt?, Option.map_eq_some_iff] at hnode
      obtain ⟨u, hu, -⟩ := hnode
      exact hd p u hu
    · exact fun n hn => hplace n (halong.subset hn)

/-- What stands in a directory that is not below the place is as it was, unless it is a directory
that was made on the way. -/
theorem node_outside (h : Generates place writes d d')
    (hwrites : ∀ p text, (p, text) ∈ writes → ∃ n, p = place ++ [n]) (hout : ¬place <+: p)
    (name : String) : d'.root.nodeAt? (p ++ [name]) = d.root.nodeAt? (p ++ [name]) ∨
      p ++ [name] <+: place ∧ d.root.nodeAt? (p ++ [name]) = none ∧
        d'.root.nodeAt? (p ++ [name]) = some .directory := by
  apply h.others
  cases hlast : lastAt writes (p ++ [name]) with
  | none => rfl
  | some text =>
    obtain ⟨n, hn⟩ := hwrites _ _ (mem_of_lastAt hlast)
    obtain ⟨rfl, -⟩ := List.append_inj' hn rfl
    exact absurd (List.prefix_refl _) hout

/-- Outside of the place of the writes all files stay the same. -/
theorem file_outside (h : Generates place writes d d')
    (hwrites : ∀ p text, (p, text) ∈ writes → ∃ n, p = place ++ [n]) (hout : ¬place <+: p)
    {name : String} {content : Content} : d'.root.get? (p ++ [name]) = some (.file content) ↔
      d.root.get? (p ++ [name]) = some (.file content) := by
  rw [← FileTree.nodeAt?_eq_file, ← FileTree.nodeAt?_eq_file]
  rcases h.node_outside hwrites hout name with hsame | ⟨-, hnone, hmade⟩
  · rw [hsame]
  · simp [hnone, hmade]

/-- A file in a directory that is not below the place reads as it did. -/
theorem readText_outside (h : Generates place writes d d') (hd : d.Rooted)
    (hwrites : ∀ p text, (p, text) ∈ writes → ∃ n, p = place ++ [n]) (hout : ¬place <+: p)
    (hp : ∀ n ∈ p, IsName n) (hclear : ∀ below, d.Clear (p ++ below)) {name : String}
    (hslash : '/' ∉ name.toList) :
    d'.isFile (Path.join (Path.ofPlace p) name) = d.isFile (Path.join (Path.ofPlace p) name) ∧
      (d.isFile (Path.join (Path.ofPlace p) name) = true →
        d'.readText (Path.join (Path.ofPlace p) name) =
          d.readText (Path.join (Path.ofPlace p) name)) := by
  have hd' := h.grown.rooted hd
  by_cases hname : IsName name
  · have hall : ∀ n ∈ p ++ [name], IsName n := by
      simpa [or_imp, forall_and, hname] using hp
    have hclear' := (hclear [name]).grown h.grown
    rw [Path.join_ofPlace (fun n hn => (hp n hn).plain) hname.plain]
    constructor
    · rw [Bool.eq_iff_iff, isFile_ofPlace hd' hall hclear', isFile_ofPlace hd hall (hclear [name])]
      simp only [h.file_outside hwrites hout]
    · intro hfile
      obtain ⟨hshort, content, hget⟩ := (isFile_ofPlace hd hall (hclear [name])).mp hfile
      rw [readText_ofPlace hd hall (hclear [name]) hshort hget,
        readText_ofPlace hd' hall hclear' hshort ((h.file_outside hwrites hout).mpr hget)]
      cases content <;> rfl
  · have hfile {d : Disk} (hd : d.Rooted) : d.isFile (Path.join (Path.ofPlace p) name) = false := by
      rw [← Bool.not_eq_true]
      exact fun hfile => hname (isName_of_isFile hd hslash hfile)
    rw [hfile hd, hfile hd']
    simp

/-- Writing once more what stands there already leaves the disk as it is. -/
theorem eq_self (h : Generates place writes d d') (hd : d.root.Ordered)
    (hplace : d.root.nodeAt? place = some .directory)
    (hwritten : ∀ p text, lastAt writes p = some text →
      d.root.nodeAt? p = some (.file (.text text))) : d' = d := by
  have hroot : d'.root = d.root := by
    apply FileTree.eq_of_nodeAt? _ _ (h.ordered hd) hd
    intro p
    cases hlast : lastAt writes p with
    | some text => rw [h.written p text hlast, hwritten p text hlast]
    | none =>
      rcases h.others p hlast with hsame | ⟨⟨below, rfl⟩, hnone, -⟩
      · exact hsame
      · cases below with
        | nil =>
          rw [List.append_nil, hnone] at hplace
          cases hplace
        | cons name below =>
          rw [FileTree.nodeAt?_dropLast hplace] at hnone
          cases hnone
  have hworking := h.grown.workingDirectory
  cases d
  cases d'
  simp_all

end Generates

end Disk

end GoContracts

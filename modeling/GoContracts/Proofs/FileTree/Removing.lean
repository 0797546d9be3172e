import GoContracts.Proofs.FileTree.Changes

/-!
# Removing directories

A directory that is removed is emptied first. The files that are lost are those below it, and no
others, whether or not the directory itself can be removed.
-/

namespace GoContracts

namespace FileTree

variable {root t : FileTree} {place p : List String} {name other : String} {n : Node}
  {keep : String → Bool} {content : Content}

private theorem below?_filter {es : List (String × FileTree)} :
    (directory (es.filter fun e => keep e.1)).below? name =
      if keep name then (directory es).below? name else none := by
  change Keyed.value? (es.filter fun e => keep e.1) name = if _ then Keyed.value? es name else none
  induction es with
  | nil => simp
  | cons e es ih =>
    rw [List.filter_cons, Keyed.value?_cons]
    by_cases hname : e.1 = name
    · subst hname
      cases hkeep : keep e.1 with
      | true => simp [Keyed.value?_cons]
      | false => simpa [hkeep] using ih
    · cases hkeep : keep e.1 with
      | true => simpa [Keyed.value?_cons, hname] using ih
      | false => simpa [hname] using ih

private theorem eq_directory_of_isDirectory (h : root.isDirectory = true) :
    ∃ es, root = directory es := by
  cases root with
  | file | link => cases h
  | directory es => exact ⟨es, rfl⟩

private theorem modifyAt_of_not_directory {f : List (String × FileTree) → List (String × FileTree)}
    (h : root.isDirectory = false) : modifyAt f place root = root := by
  cases root with
  | file | link => cases place <;> simp [modifyAt]
  | directory es => cases h

/-- Entries of the directory at a place are left out. What stands below them is lost, and nothing
else. -/
theorem nodeAt?_filterAt :
    (modifyAt (List.filter fun e => keep e.1) place root).nodeAt? p = some n ↔
    root.nodeAt? p = some n ∧ ∀ name below, p = place ++ name :: below → keep name = true := by
  induction place generalizing root p with
  | nil =>
    cases hroot : root.isDirectory with
    | false =>
      rw [modifyAt_of_not_directory hroot, Iff.comm, and_iff_left_iff_imp]
      rintro h name below rfl
      simp [isDirectory_root h] at hroot
    | true =>
      obtain ⟨es, rfl⟩ := eq_directory_of_isDirectory hroot
      rw [modifyAt]
      cases p with
      | nil => simp [nodeAt?_nil, node]
      | cons first rest =>
        rw [nodeAt?, get?_cons, below?_filter, nodeAt?, get?_cons]
        cases hkeep : keep first <;> simp [hkeep]
  | cons d place ih =>
    cases hroot : root.isDirectory with
    | false =>
      rw [modifyAt_of_not_directory hroot, Iff.comm, and_iff_left_iff_imp]
      rintro h name below rfl
      simp [isDirectory_root h] at hroot
    | true =>
      obtain ⟨es, rfl⟩ := eq_directory_of_isDirectory hroot
      rw [modifyAt]
      cases p with
      | nil => simp [nodeAt?_nil, node]
      | cons first rest =>
        rw [nodeAt?, get?_cons, below?_modified]
        by_cases h : first = d
        · subst h
          rw [if_pos rfl, nodeAt?, get?_cons]
          cases (directory es).below? first with
          | none => simp
          | some t => simpa [nodeAt?] using ih
        · rw [if_neg h, nodeAt?, get?_cons]
          simp [h]

end FileTree

/-! ### Paths that end in slashes -/

namespace Path

private theorem splitAt_append_slashes (s : String) (n : Nat) :
    Text.splitAt '/' (s ++ String.ofList (List.replicate n '/')) =
      Text.splitAt '/' s ++ List.replicate n "" := by
  induction n with
  | zero => simp
  | succ n ih =>
    have hlast : Text.splitAt '/'
        (s ++ String.ofList (List.replicate n '/') ++ String.ofList ['/'] ++ "") = _ :=
      Text.splitAt_append_sep
    have htext : s ++ String.ofList (List.replicate (n + 1) '/') =
        s ++ String.ofList (List.replicate n '/') ++ String.ofList ['/'] ++ "" := by
      rw [List.replicate_succ', String.ofList_append, String.append_empty, String.append_assoc]
    rw [htext, hlast, ih, List.replicate_succ', List.append_assoc]
    rfl

variable {path : String}

private theorem eq_append_slashes (path : String) : ∃ n,
    path = withoutTrailingSlashes path ++ String.ofList (List.replicate n '/') := by
  have hslashes : path.toList.reverse.takeWhile (· = '/') =
      List.replicate (path.toList.reverse.takeWhile (· = '/')).length '/' :=
    List.eq_replicate_iff.mpr
      ⟨rfl, fun c hc => of_decide_eq_true (List.all_eq_true.mp List.all_takeWhile c hc)⟩
  have hparts := List.takeWhile_append_dropWhile (p := (· = '/')) (l := path.toList.reverse)
  refine ⟨(path.toList.reverse.takeWhile (· = '/')).length, String.toList_injective ?_⟩
  rw [withoutTrailingSlashes, String.toList_append, String.toList_ofList, String.toList_ofList,
    Text.dropEndWhile, ← List.reverse_inj, List.reverse_append, List.reverse_reverse,
    List.reverse_replicate, ← hslashes, hparts]

private theorem isAbsolute_withoutTrailingSlashes (h : withoutTrailingSlashes path ≠ "") :
    isAbsolute (withoutTrailingSlashes path) = isAbsolute path := by
  obtain ⟨n, hslashes⟩ := eq_append_slashes path
  have hne : (withoutTrailingSlashes path).toList ≠ [] := by simpa using h
  conv_rhs => rw [hslashes]
  rw [isAbsolute, isAbsolute, String.toList_append, List.head?_append_of_ne_nil _ hne]

end Path

namespace Disk

variable {d : Disk} {path : String} {place q : List String} {n : FileTree.Node} {content : Content}
  {es : List (String × FileTree)}

private theorem Leads.append_empties {root t : FileTree} {links : Nat} {pieces : List String}
    (h : Leads root false links place pieces (.found q t)) (ht : t.isDirectory = true) (n : Nat) :
    Leads root false links place (pieces ++ List.replicate n "") (.found q t) := by
  induction n with
  | zero => simpa using h
  | succ n ih =>
    rw [List.replicate_succ', ← List.append_assoc]
    exact ih.append_empty ht

/-- Slashes behind the path of a directory make no difference. -/
theorem find_of_withoutTrailingSlashes (hpath : IsPath path)
    (h : d.find false (Path.withoutTrailingSlashes path) = .ok (place, .directory es)) :
    d.find false path = .ok (place, .directory es) := by
  obtain ⟨n, hslashes⟩ := Path.eq_append_slashes path
  obtain ⟨hshort, hleads⟩ := target_iff.mp (find_iff.mp h)
  have hpieces := Path.splitAt_append_slashes (Path.withoutTrailingSlashes path) n
  have hstart : d.start path = d.start (Path.withoutTrailingSlashes path) := by
    rw [start, start, Path.isAbsolute_withoutTrailingSlashes hshort.ne_empty]
  rw [← hslashes] at hpieces
  refine find_iff.mpr (target_iff.mpr ⟨hpath, ?_⟩)
  rw [hpieces, hstart]
  exact hleads.append_empties rfl n

/-! ### Emptied directories -/

/-- The disk with the directory at a place emptied. -/
def emptied (d : Disk) (place : List String) : Disk :=
  { d with root := .modifyAt (fun _ => []) place d.root }

/-- The disk without the entry at a place. -/
def without (d : Disk) (place : List String) : Disk :=
  { d with root := .eraseAt place.dropLast (place.getLastD "") d.root }

/-- What stands in the later tree stood in the earlier one, and all that stood elsewhere than at the
place or below it still does. -/
structure Loses (place : List String) (d d' : Disk) : Prop where
  root : d'.root.isDirectory = d.root.isDirectory
  stood : ∀ {q n}, d'.root.nodeAt? q = some n → d.root.nodeAt? q = some n
  stays : ∀ {q n}, d.root.nodeAt? q = some n → ¬place <+: q → d'.root.nodeAt? q = some n

private theorem Loses.refl (place : List String) (d : Disk) :
    Loses place d d := ⟨rfl, id, fun h _ => h⟩

private theorem Loses.trans {d' d'' : Disk} (h : Loses place d d') (h' : Loses place d' d'') :
    Loses place d d'' where
  root := h'.root.trans h.root
  stood hn := h.stood (h'.stood hn)
  stays hn hq := h'.stays (h.stays hn hq) hq

private theorem isDirectory_modifyAt {f : List (String × FileTree) → List (String × FileTree)}
    {root : FileTree} : (FileTree.modifyAt f place root).isDirectory = root.isDirectory := by
  cases root <;> cases place <;> simp [FileTree.modifyAt, FileTree.isDirectory]

/-- Leaving out entries of a directory at the place, or the entry at the place, loses what stands
there. -/
theorem loses_filterAt {keep : String → Bool} {directory : List String}
    (h : ∀ name, keep name = false → place <+: directory ++ [name]) :
    Loses place d
      { d with root := .modifyAt (List.filter fun e => keep e.1) directory d.root } where
  root := isDirectory_modifyAt
  stood hn := (FileTree.nodeAt?_filterAt.mp hn).1
  stays hn hq := by
    refine FileTree.nodeAt?_filterAt.mpr ⟨hn, ?_⟩
    rintro name below rfl
    by_contra hkeep
    apply hq
    have hprefix := h name (Bool.eq_false_iff.mpr hkeep)
    exact hprefix.trans ⟨below, by simp⟩

private theorem loses_emptied : Loses place d (d.emptied place) := by
  have hfilter : (fun _ => [] : List (String × FileTree) → List (String × FileTree)) =
      List.filter fun e => (fun _ => false) e.1 := by
    funext es
    simp
  have hemptied : d.emptied place = { d with
      root := .modifyAt (List.filter fun e => (fun _ => false) e.1) place d.root } := by
    rw [emptied, hfilter]
  rw [hemptied]
  exact @loses_filterAt d place (fun _ => false) place fun name _ => List.prefix_append place [name]

private theorem loses_without : Loses place d (d.without place) := by
  refine @loses_filterAt d place (fun name => decide (name ≠ place.getLastD "")) _
    fun name hname => ?_
  rcases List.eq_nil_or_concat' place with rfl | ⟨above, last, rfl⟩
  · exact List.nil_prefix
  · rw [List.getLastD_concat] at hname
    rw [List.dropLast_concat]
    simp_all

/-! ### Removing -/

private theorem removeEntry_eq : removeEntry path d = match d.find false path with
    | .error e => (.error e, d)
    | .ok (place, _) => (.ok (), d.without place) := by
  rw [removeEntry, Step.bind_apply, Step.get_apply]
  simp only
  rw [Step.bind_apply, Step.ofExcept_apply]
  cases d.find false path <;> rfl

/-- Removing an emptied directory removes the entry of a directory, or nothing. -/
theorem removeEmptied_cases : (removeEmptied path d).2 = d ∨ ∃ place es,
    d.find false (Path.withoutTrailingSlashes path) = .ok (place, .directory es) ∧
      (removeEmptied path d).2 = d.without place := by
  fun_cases removeEmptied path
  · exact .inl rfl
  · exact .inl rfl
  · rw [Step.bind_apply, Step.get_apply]
    simp only
    rw [Step.bind_apply, Step.ofExcept_apply]
    cases hfind : d.find false (Path.withoutTrailingSlashes path) with
    | error e => exact .inl rfl
    | ok found =>
      obtain ⟨place, t⟩ := found
      cases t with
      | file | link => exact .inl rfl
      | directory es => exact .inr ⟨place, es, rfl, rfl⟩

/-- A directory is removed from the place at which it was emptied. -/
theorem place_of_emptied (hroot : d.root.isDirectory = true) (habsolute : Path.isAbsolute path)
    (hfind : d.find false path = .ok (place, .directory es)) {place' : List String}
    {es' : List (String × FileTree)}
    (hfind' : (d.emptied place).find false (Path.withoutTrailingSlashes path) =
      .ok (place', .directory es')) : place' = place := by
  have hpath := (target_iff.mp (find_iff.mp hfind)).1
  obtain ⟨hshort, hleads'⟩ := target_iff.mp (find_iff.mp hfind')
  rw [← Path.isAbsolute_withoutTrailingSlashes hshort.ne_empty] at habsolute
  have hkeeps : (d.emptied place).root.Keeps d.root := fun _ _ hn =>
    .inl ((@loses_emptied d place).stood hn)
  obtain ⟨t, hleads⟩ := hleads'.keeps hkeeps
  have hfound : d.find false (Path.withoutTrailingSlashes path) = .ok (place', t) :=
    find_iff.mpr (target_iff.mpr ⟨hshort, hleads⟩)
  -- the place is that of a directory in both trees
  have hemptied := hleads'.sound
    (start_of_isAbsolute (d := d.emptied place) (isDirectory_modifyAt.trans hroot) habsolute)
  have hdirectory := hkeeps.directory (FileTree.nodeAt?_eq_directory.mpr ⟨es', hemptied⟩)
  have hsound := hleads.sound (start_of_isAbsolute hroot habsolute)
  obtain ⟨es, hes⟩ := FileTree.nodeAt?_eq_directory.mp hdirectory
  obtain rfl : t = .directory es := Option.some.inj (hsound.symm.trans hes)
  rw [find_of_withoutTrailingSlashes hpath hfound] at hfind
  exact congrArg Prod.fst (Except.ok.inj hfind)

/-- Removing a directory loses what stands in it, and removing a link loses the link. -/
theorem removeAll_loses (hroot : d.root.isDirectory = true) (habsolute : Path.isAbsolute path) :
    (removeAll path d).2 = d ∨ ∃ place t, d.find false path = .ok (place, t) ∧ t.isFile = false ∧
      Loses place d (removeAll path d).2 := by
  rw [removeAll, Step.bind_apply, Step.get_apply]
  simp only
  rw [Step.bind_apply, Step.ofExcept_apply]
  cases hfind : d.find false path with
  | error e => exact .inl rfl
  | ok found =>
    obtain ⟨place, t⟩ := found
    cases t with
    | file content => exact .inl rfl
    | link target =>
      refine .inr ⟨place, _, rfl, rfl, ?_⟩
      simp only
      rw [removeEntry_eq, hfind]
      exact loses_without
    | directory es =>
      refine .inr ⟨place, _, rfl, rfl, ?_⟩
      change Loses place d (removeEmptied path (d.emptied place)).2
      refine loses_emptied.trans ?_
      rcases @removeEmptied_cases (d.emptied place) path with
        hsame | ⟨place', es', hfind', hwithout⟩
      · rw [hsame]
        exact .refl ..
      · rw [hwithout, place_of_emptied hroot habsolute hfind hfind']
        exact loses_without

/-- What is removed below the root leaves a directory there. -/
theorem isDirectory_removeAll (hroot : d.root.isDirectory = true)
    (habsolute : Path.isAbsolute path) : (removeAll path d).2.root.isDirectory = true := by
  rcases removeAll_loses hroot habsolute with hsame | ⟨_, _, _, _, hloses⟩
  · rwa [hsame]
  · rwa [hloses.root]

/-- A file is lost with the directory in which it stands, and stays otherwise. -/
theorem file_of_removeAll (hroot : d.root.isDirectory = true) (habsolute : Path.isAbsolute path)
    (h : d.root.get? q = some (.file content)) :
    (removeAll path d).2.root.get? q = some (.file content) ∨ ∃ place es,
      d.find false path = .ok (place, .directory es) ∧ place <+: q := by
  rcases removeAll_loses hroot habsolute with hsame | ⟨place, t, hfind, hfile, hloses⟩
  · exact .inl (by rwa [hsame])
  by_cases hq : place <+: q
  · refine .inr ?_
    have hsound := (target_iff.mp (find_iff.mp hfind)).2.sound (start_of_isAbsolute hroot habsolute)
    cases t with
    | file content => cases hfile
    | directory es => exact ⟨place, es, hfind, hq⟩
    | link target =>
      -- nothing stands below a link
      have hlink := FileTree.nodeAt?_eq_link.mpr hsound
      have hnode := FileTree.nodeAt?_eq_file.mpr h
      obtain ⟨below, rfl⟩ := hq
      cases below with
      | nil =>
        rw [List.append_nil, hlink] at hnode
        cases hnode
      | cons name below =>
        rw [FileTree.nodeAt?_dropLast hnode] at hlink
        cases hlink
  · exact .inl (FileTree.nodeAt?_eq_file.mp (hloses.stays (FileTree.nodeAt?_eq_file.mpr h) hq))

end Disk

end GoContracts

import GoContracts.FileTree.Basic
import GoContracts.Proofs.Lists

/-!
# What stands at a place

A node is a tree without what is below it. A tree is told by its nodes: putting an entry without
entries of its own into a directory changes the node at one place only.
-/

namespace GoContracts.FileTree

/-- What a tree is, whatever is below it. -/
inductive Node where
  | file (content : Content)
  | link (target : String)
  | directory
  deriving DecidableEq

/-- The tree without what is below it. -/
def node : FileTree → Node
  | .file content => .file content
  | .link target => .link target
  | .directory _ => .directory

/-- What stands at a place. -/
def nodeAt? (root : FileTree) (place : List String) : Option Node := (root.get? place).map node

variable {root t : FileTree} {place below : List String} {name other : String} {n : Node}

/-- The node of a directory is a directory. -/
theorem node_eq_directory : t.node = .directory ↔ t.isDirectory = true := by
  cases t <;> simp [node, isDirectory]

/-- The node of a file has its content. -/
theorem node_eq_file {content : Content} : t.node = .file content ↔ t = .file content := by
  cases t <;> simp [node]

/-- The node of a link has its target. -/
theorem node_eq_link {target : String} : t.node = .link target ↔ t = .link target := by
  cases t <;> simp [node]

/-- A tree stands at its own root. -/
@[simp] theorem get?_nil : root.get? [] = some root := by rw [get?]

/-- A place is followed from its first name. -/
theorem get?_cons : root.get? (name :: place) = (root.below? name).bind (·.get? place) := by
  rw [get?]

/-- A place is followed part by part. -/
theorem get?_append : root.get? (place ++ below) = (root.get? place).bind (·.get? below) := by
  induction place generalizing root with
  | nil => simp
  | cons name place ih =>
    rw [List.cons_append, get?_cons, get?_cons, Option.bind_assoc]
    exact Option.bind_congr fun t _ => ih

/-- A place ends with an entry of the directory above. -/
theorem get?_concat : root.get? (place ++ [name]) = (root.get? place).bind (·.below? name) := by
  rw [get?_append]
  refine Option.bind_congr fun t _ => ?_
  rw [get?_cons]
  simp

/-- What has an entry is a directory. -/
theorem isDirectory_of_below? (h : root.below? name = some t) : root.isDirectory = true := by
  cases root <;> simp_all [below?, entries, isDirectory]

/-- The node at the root is that of the tree. -/
theorem nodeAt?_nil : root.nodeAt? [] = some root.node := by rw [nodeAt?, get?_nil, Option.map_some]

/-- A directory stands at a place if the tree there is one. -/
theorem nodeAt?_eq_directory :
    root.nodeAt? place = some .directory ↔ ∃ es, root.get? place = some (.directory es) := by
  simp only [nodeAt?, Option.map_eq_some_iff, node_eq_directory]
  constructor
  · rintro ⟨t, ht, hd⟩
    cases t <;> simp_all [isDirectory]
  · rintro ⟨es, h⟩
    exact ⟨_, h, rfl⟩

/-- A file stands at a place if the tree there is one with its content. -/
theorem nodeAt?_eq_file {content : Content} :
    root.nodeAt? place = some (.file content) ↔ root.get? place = some (.file content) := by
  simp [nodeAt?, node_eq_file]

/-- A link stands at a place if the tree there is one with its target. -/
theorem nodeAt?_eq_link {target : String} :
    root.nodeAt? place = some (.link target) ↔ root.get? place = some (.link target) := by
  simp [nodeAt?, node_eq_link]

/-- What stands at a place stands in directories. -/
theorem nodeAt?_dropLast (h : root.nodeAt? (place ++ name :: below) = some n) :
    root.nodeAt? place = some .directory := by
  rw [nodeAt?, get?_append, Option.map_eq_some_iff] at h
  obtain ⟨t, ht, -⟩ := h
  obtain ⟨above, habove, ht⟩ := Option.bind_eq_some_iff.mp ht
  rw [get?_cons] at ht
  obtain ⟨_, hbelow, -⟩ := Option.bind_eq_some_iff.mp ht
  rw [nodeAt?, habove, Option.map_some, node_eq_directory.mpr (isDirectory_of_below? hbelow)]

/-- What has a node below its root is a directory. -/
theorem nodeAt?_root (h : root.nodeAt? (name :: place) = some n) :
    root.nodeAt? [] = some .directory := nodeAt?_dropLast h

/-- A tree with a node below its root is a directory. -/
theorem isDirectory_root (h : root.nodeAt? (name :: place) = some n) : root.isDirectory = true := by
  have hroot := nodeAt?_root h
  rwa [nodeAt?_nil, Option.some.injEq, node_eq_directory] at hroot

/-! ### One entry put into a directory -/

private theorem setEntry_eq_put {es : List (String × FileTree)} :
    setEntry name t es = Keyed.put name t es := by
  induction es with
  | nil => rfl
  | cons e es ih => rw [setEntry, Keyed.put, ih]

private theorem below?_setEntry {es : List (String × FileTree)} :
    (directory (setEntry name t es)).below? other =
      if other = name then some t else (directory es).below? other := by
  rw [setEntry_eq_put]
  exact Keyed.value?_put

/-- An entry that is modified is found so, all others as before. -/
theorem below?_modified {f : FileTree → FileTree} {es : List (String × FileTree)} :
    (directory (es.map fun e => if e.1 = name then (e.1, f e.2) else e)).below? other =
      if other = name then ((directory es).below? name).map f else (directory es).below? other := by
  change Keyed.value? (es.map _) other =
    if _ then (Keyed.value? es name).map f else Keyed.value? es other
  induction es with
  | nil => simp
  | cons e es ih =>
    have hkey : (if e.1 = name then (e.1, f e.2) else e).1 = e.1 := by split_ifs <;> rfl
    rw [List.map_cons, Keyed.value?_cons, hkey, Keyed.value?_cons, Keyed.value?_cons, ih]
    by_cases heo : e.1 = other
    · subst heo
      by_cases h : e.1 = name <;> simp [h]
    · by_cases h : other = name
      · subst h
        simp [heo]
      · simp [h, heo]

/-- An entry that has no entries of its own, put into a directory in place of none or of one that is
no directory, changes nothing else. -/
theorem nodeAt?_insertAt (hdir : root.nodeAt? place = some .directory) (ht : t.entries = [])
    (hold : root.nodeAt? (place ++ [name]) ≠ some .directory) (p : List String) :
    (insertAt place name t root).nodeAt? p =
      if p = place ++ [name] then some t.node else root.nodeAt? p := by
  -- The place and the one that is asked for are followed side by side.
  induction place generalizing root p with
  | nil =>
    obtain ⟨es, hes⟩ := nodeAt?_eq_directory.mp hdir
    obtain rfl : root = directory es := Option.some.inj hes
    rw [insertAt, modifyAt]
    cases p with
    | nil => simp [nodeAt?_nil, node]
    | cons first rest =>
      rw [nodeAt?, get?_cons, below?_setEntry]
      by_cases h : first = name
      · subst h
        rw [if_pos rfl, Option.bind_some]
        cases rest with
        | nil => simp
        | cons second rest =>
          have hnone : t.get? (second :: rest) = none := by simp [get?_cons, below?, ht]
          have hout : (directory es).nodeAt? (first :: second :: rest) = none := by
            by_contra hsome
            obtain ⟨n, hn⟩ := Option.ne_none_iff_exists'.mp hsome
            have hdirectory : (directory es).nodeAt? [first] = some .directory :=
              nodeAt?_dropLast hn
            exact hold hdirectory
          simp [hnone, hout]
      · rw [if_neg h, if_neg (by simp [h]), nodeAt?, get?_cons]
  | cons d place ih =>
    have hroot := isDirectory_root hdir
    obtain ⟨es, rfl⟩ : ∃ es, root = directory es := by
      cases root <;> simp_all [isDirectory]
    rw [insertAt, modifyAt]
    cases p with
    | nil => simp [nodeAt?_nil, node]
    | cons first rest =>
      rw [nodeAt?, get?_cons, below?_modified]
      by_cases h : first = d
      · subst h
        rw [nodeAt?, get?_cons] at hdir
        obtain ⟨u, hu, hdir⟩ := Option.map_eq_some_iff.mp hdir
        obtain ⟨v, hv, hu⟩ := Option.bind_eq_some_iff.mp hu
        have hv' : v.nodeAt? place = some .directory := by rw [nodeAt?, hu, Option.map_some, hdir]
        have hinner := ih hv' (by simpa [nodeAt?, get?_cons, hv] using hold) rest
        simpa [nodeAt?, get?_cons, hv, insertAt] using hinner
      · rw [if_neg h, if_neg (by simp [h]), nodeAt?, get?_cons]

/-! ### Growth -/

/-- What stands somewhere in the one tree stands there in the other as well, files perhaps with
another content. -/
def Keeps (root root' : FileTree) : Prop :=
  ∀ place n, root.nodeAt? place = some n → root'.nodeAt? place = some n ∨
    ∃ old new, n = .file old ∧ root'.nodeAt? place = some (.file new)

namespace Keeps

variable {root' root'' : FileTree}

/-- A tree keeps itself. -/
theorem refl (root : FileTree) : root.Keeps root := fun _ _ h => .inl h

/-- What keeps a later tree keeps the earlier one. -/
theorem trans (h : root.Keeps root') (h' : root'.Keeps root'') : root.Keeps root'' := by
  intro place n hn
  rcases h place n hn with hn | ⟨old, mid, rfl, hmid⟩
  · exact h' place n hn
  · refine .inr ?_
    rcases h' place _ hmid with hnew | ⟨_, new, _, hnew⟩
    · exact ⟨old, mid, rfl, hnew⟩
    · exact ⟨old, new, rfl, hnew⟩

/-- Directories are kept. -/
theorem directory (h : root.Keeps root') (hd : root.nodeAt? place = some .directory) :
    root'.nodeAt? place = some .directory :=
  (h place _ hd).resolve_right fun ⟨_, _, hfile, _⟩ => by cases hfile

/-- Links are kept. -/
theorem link {target : String} (h : root.Keeps root')
    (hl : root.nodeAt? place = some (.link target)) : root'.nodeAt? place = some (.link target) :=
  (h place _ hl).resolve_right fun ⟨_, _, hfile, _⟩ => by cases hfile

/-- Files are kept, with some content. -/
theorem file {content : Content} (h : root.Keeps root')
    (hf : root.nodeAt? place = some (.file content)) :
    ∃ new, root'.nodeAt? place = some (.file new) := by
  rcases h place _ hf with hf | ⟨_, new, _, hnew⟩
  · exact ⟨content, hf⟩
  · exact ⟨new, hnew⟩

end Keeps

/-- A tree without entries, put in place of nothing or of a file, keeps the rest. -/
theorem keeps_insertAt (hdir : root.nodeAt? place = some .directory) (ht : t.entries = [])
    (hold : root.nodeAt? (place ++ [name]) = none ∨ ∃ old new,
      root.nodeAt? (place ++ [name]) = some (.file old) ∧ t = .file new) :
    root.Keeps (insertAt place name t root) := by
  have hnot : root.nodeAt? (place ++ [name]) ≠ some .directory := by
    rcases hold with h | ⟨_, _, h, _⟩ <;> simp [h]
  intro p n hn
  rw [nodeAt?_insertAt hdir ht hnot]
  by_cases hp : p = place ++ [name]
  · subst hp
    rw [if_pos rfl]
    rcases hold with h | ⟨old, new, h, rfl⟩
    · simp [h] at hn
    · rw [h, Option.some.injEq] at hn
      exact .inr ⟨old, new, hn.symm, rfl⟩
  · rw [if_neg hp]
    exact .inl hn

/-! ### Order -/

/-- The names of every directory ascend. -/
def Ordered (root : FileTree) : Prop :=
  ∀ place es, root.get? place = some (directory es) → Keyed.Ascending es

/-- The entries of an ordered tree are ordered. -/
theorem Ordered.of_below? (h : root.Ordered) (ht : root.below? name = some t) : t.Ordered := by
  intro place es hes
  exact h (name :: place) es (by rw [get?_cons, ht, Option.bind_some, hes])

/-- A tree without entries is ordered. -/
theorem ordered_of_entries (ht : t.entries = []) : t.Ordered := by
  intro place es hes
  cases place with
  | nil =>
    obtain rfl : t = directory es := by simpa using hes
    obtain rfl : es = [] := ht
    exact .nil
  | cons name place => simp [get?_cons, below?, ht] at hes

/-- An ordered tree put into an ordered one leaves it ordered. -/
theorem Ordered.insertAt (h : root.Ordered) (ht : t.Ordered) :
    (insertAt place name t root).Ordered := by
  -- The entries keep their order at each level, whether the name is new or not.
  induction place generalizing root with
  | nil =>
    cases root with
    | file | link => exact h
    | directory es =>
      intro p es' hes'
      rw [FileTree.insertAt, modifyAt] at hes'
      cases p with
      | nil =>
        obtain rfl : setEntry name t es = es' := by simpa using hes'
        rw [setEntry_eq_put]
        exact (h [] es rfl).put
      | cons first rest =>
        rw [get?_cons, below?_setEntry] at hes'
        split_ifs at hes' with hfirst
        · exact ht rest es' hes'
        · exact h (first :: rest) es' (by rwa [get?_cons])
  | cons d place ih =>
    cases root with
    | file | link => exact h
    | directory es =>
      intro p es' hes'
      rw [FileTree.insertAt, modifyAt] at hes'
      cases p with
      | nil =>
        obtain rfl : es.map _ = es' := by simpa using hes'
        refine List.pairwise_map.mpr ((h [] es rfl).imp fun {a b} hab => ?_)
        have hkey (e : String × FileTree) :
            (if e.1 = d then (e.1, modifyAt (setEntry name t) place e.2) else e).1 = e.1 := by
          split_ifs <;> rfl
        rwa [hkey, hkey]
      | cons first rest =>
        rw [get?_cons, below?_modified] at hes'
        split_ifs at hes' with hfirst
        · obtain ⟨u, hu, hes'⟩ := Option.bind_eq_some_iff.mp hes'
          obtain ⟨v, hv, rfl⟩ := Option.map_eq_some_iff.mp hu
          exact ih (Ordered.of_below? h hv) rest es' hes'
        · exact h (first :: rest) es' (by rwa [get?_cons])

end GoContracts.FileTree

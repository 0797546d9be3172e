import GoContracts.Proofs.FileTree.Following
import GoContracts.Proofs.Path

/-!
# Well-formed trees

The trees that stand on a disk: every name can be the piece of a path, and the names of a directory
ascend. Each tree below a well-formed one is well formed.
-/

namespace GoContracts

/-- A piece that can be the name of an entry on a disk. -/
structure Disk.IsName (name : String) : Prop extends Disk.IsEntry name where
  noSlash : '/' ∉ name.toList
  noNul : '\x00' ∉ name.toList

instance (name : String) : Decidable (Disk.IsName name) :=
  decidable_of_iff ((Path.isSilent name = false ∧ name ≠ ".." ∧
      Text.size name ≤ Disk.maxNameLength) ∧ '/' ∉ name.toList ∧ '\x00' ∉ name.toList)
    ⟨fun h => ⟨⟨h.1.1, h.1.2.1, h.1.2.2⟩, h.2.1, h.2.2⟩,
      fun h => ⟨⟨h.loud, h.ne_up, h.short⟩, h.noSlash, h.noNul⟩⟩

/-- The name of an entry is plain. -/
theorem Disk.IsName.plain {name : String} (h : Disk.IsName name) : Path.Plain name :=
  ⟨h.loud, h.noSlash⟩

namespace FileTree

variable {root t : FileTree} {place below : List String} {name target : String}

/-- The names in the tree can stand in paths. -/
def Named (root : FileTree) : Prop :=
  ∀ place t, root.get? place = some t → ∀ name ∈ place, Disk.IsName name

/-- There is no link in the tree. -/
def Linkless (root : FileTree) : Prop := ∀ place target, root.get? place ≠ some (.link target)

/-- A tree as it stands on a disk. -/
structure WellFormed (root : FileTree) : Prop where
  ordered : root.Ordered
  named : root.Named

private theorem Named.of_get? (h : root.Named) (ht : root.get? place = some t) : t.Named := by
  intro below u hu name hname
  apply h (place ++ below) u
  · rw [get?_append, ht, Option.bind_some, hu]
  · exact List.mem_append_right place hname

private theorem Ordered.of_get? (h : root.Ordered) (ht : root.get? place = some t) : t.Ordered := by
  intro below es hes
  apply h (place ++ below)
  rw [get?_append, ht, Option.bind_some, hes]

/-- What stands in a well-formed tree is well formed. -/
theorem WellFormed.of_get? (h : root.WellFormed) (ht : root.get? place = some t) : t.WellFormed :=
  ⟨h.ordered.of_get? ht, h.named.of_get? ht⟩

private theorem get?_singleton : root.get? [name] = root.below? name := by
  rw [get?_cons]
  simp

private theorem Named.isName (h : root.Named) (ht : root.below? name = some t) : Disk.IsName name :=
  h [name] t (get?_singleton.trans ht) name (List.mem_singleton_self name)

private theorem wellFormed_of_entries (h : t.entries = []) : t.WellFormed := by
  refine ⟨ordered_of_entries h, fun place u hu name hname => ?_⟩
  cases place with
  | nil => cases hname
  | cons first place => simp [get?_cons, below?, h] at hu

/-- A file is well formed. -/
@[simp] theorem wellFormed_file {content : Content} : (file content).WellFormed :=
  wellFormed_of_entries rfl

/-- An entry is found under its name where the names ascend. -/
theorem below?_eq_some {es : List (String × FileTree)} (h : Keyed.Ascending es) :
    (directory es).below? name = some t ↔ (name, t) ∈ es := h.mem_iff.symm

/-- A directory is well formed if its entries are in order and each of them is well formed. -/
@[simp] theorem wellFormed_directory {es : List (String × FileTree)} : (directory es).WellFormed ↔
    Keyed.Ascending es ∧ ∀ e ∈ es, Disk.IsName e.1 ∧ e.2.WellFormed := by
  constructor
  · intro h
    have hasc : Keyed.Ascending es := h.ordered [] es rfl
    refine ⟨hasc, fun e he => ?_⟩
    have hbelow : (directory es).below? e.1 = some e.2 := (below?_eq_some hasc).mpr he
    exact ⟨h.named.isName hbelow, h.of_get? (get?_singleton.trans hbelow)⟩
  · rintro ⟨hasc, hes⟩
    constructor
    · intro place fs hfs
      cases place with
      | nil =>
        obtain rfl : es = fs := by simpa using hfs
        exact hasc
      | cons name place =>
        rw [get?_cons, Option.bind_eq_some_iff] at hfs
        obtain ⟨t, ht, hfs⟩ := hfs
        exact (hes (name, t) ((below?_eq_some hasc).mp ht)).2.ordered place fs hfs
    · intro place u hu n hn
      cases place with
      | nil => cases hn
      | cons name place =>
        rw [get?_cons, Option.bind_eq_some_iff] at hu
        obtain ⟨t, ht, hu⟩ := hu
        have hentry := hes (name, t) ((below?_eq_some hasc).mp ht)
        rcases List.mem_cons.mp hn with rfl | hn
        · exact hentry.1
        · exact hentry.2.named place u hu n hn

/-- The first entry of a directory, and the directory of the others. -/
theorem below?_directory_cons {e : String × FileTree} {es : List (String × FileTree)} :
    (directory (e :: es)).below? name =
      if e.1 = name then some e.2 else (directory es).below? name :=
  Keyed.value?_cons

/-- No later entry has the name of the first where the names ascend. -/
theorem below?_of_ascending {e : String × FileTree} {es : List (String × FileTree)}
    (h : Keyed.Ascending (e :: es)) : (directory es).below? e.1 = none := by
  obtain ⟨hlt, hes⟩ := List.pairwise_cons.mp h
  rw [Option.eq_none_iff_forall_not_mem]
  intro t ht
  exact String.lt_irrefl _ (hlt (e.1, t) ((Keyed.Ascending.mem_iff hes).mpr ht))

/-- A well-formed directory is made of a well-formed entry and the directory of the others. -/
theorem WellFormed.uncons {e : String × FileTree} {es : List (String × FileTree)}
    (h : (directory (e :: es)).WellFormed) :
    Disk.IsName e.1 ∧ e.2.WellFormed ∧ (directory es).WellFormed := by
  obtain ⟨hasc, hes⟩ := wellFormed_directory.mp h
  obtain ⟨hname, he⟩ := hes e (List.mem_cons_self ..)
  refine ⟨hname, he, wellFormed_directory.mpr ⟨(List.pairwise_cons.mp hasc).2, fun f hf => ?_⟩⟩
  exact hes f (List.mem_cons_of_mem e hf)

/-- A file has no links. -/
@[simp] theorem linkless_file {content : Content} : (file content).Linkless := by
  intro place target
  cases place <;> simp [get?_cons, below?, entries]

/-- A directory is without links if all its entries are. -/
theorem linkless_directory {es : List (String × FileTree)} (h : ∀ e ∈ es, e.2.Linkless) :
    (directory es).Linkless := by
  intro place target
  cases place with
  | nil => simp
  | cons name place =>
    rw [get?_cons, Ne, Option.bind_eq_some_iff]
    rintro ⟨t, ht, hlink⟩
    rw [below?, Option.map_eq_some_iff] at ht
    obtain ⟨e, he, rfl⟩ := ht
    exact h e (List.mem_of_find?_eq_some he) place target hlink

end FileTree

end GoContracts

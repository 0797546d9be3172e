import GoContracts.Overlay.Manifest
import GoContracts.Proofs.FileTree.Changes
import GoContracts.Proofs.Path

/-!
# Shadows on a disk

The name of a shadow is one piece of a path. It tells the stem of the file and the first digits of
the digest, and it is never the name of the manifest.

What is left on a disk when shadows are stored one after another: directories may have been made,
and shadows of one name may have taken each other's place.
-/

namespace GoContracts

namespace Digest

private theorem length_bigEndian (count n : Nat) : (bigEndian count n).length = count := by
  induction count generalizing n with
  | zero => rfl
  | succ count ih => rw [bigEndian, List.length_append, ih, List.length_singleton]

private theorem length_ofBytes (bytes : List UInt8) : (ofBytes bytes).length = 32 := by
  simp [ofBytes, length_bigEndian]

private theorem length_ofText (s : String) : (ofText s).toList.length = 64 := by
  simp [ofText, hexByte, length_ofBytes]

end Digest

namespace Shadow

variable {path other text content : String}

/-- The digits of a digest that stand in a name. -/
def digits (text : String) : List Char := (Digest.ofText text).toList.take digestLength

private theorem length_digits : (digits text).length = digestLength := by
  rw [digits, List.length_take, Digest.length_ofText]
  rfl

private theorem toList_name : (name path text).toList =
    (Path.fileStem path).toList ++ ('_' :: digits text ++ ".go".toList) := by
  simp [name, digits]

/-- A name tells the stem and the digits. -/
theorem name_inj (h : name path text = name other content) :
    Path.fileStem path = Path.fileStem other ∧ digits text = digits content := by
  have hlist := congrArg String.toList h
  rw [toList_name, toList_name] at hlist
  obtain ⟨hstem, htail⟩ := List.append_inj' hlist (by simp [length_digits])
  obtain ⟨-, htail⟩ := List.cons.inj htail
  exact ⟨String.toList_injective hstem, (List.append_inj' htail rfl).1⟩

/-- No shadow has the name of the manifest. -/
theorem name_ne_manifest : name path text ≠ Manifest.fileName := by
  intro h
  have hlist := congrArg (fun s : String => s.toList.getLast?) h
  have hlast : (name path text).toList.getLast? = some 'o' := by
    rw [toList_name, ← List.append_assoc]
    exact List.getLast?_append_of_ne_nil _ (by decide)
  rw [hlast] at hlist
  revert hlist
  decide

private theorem digitChar_ne_slash {n : Nat} (h : n < 16) : Nat.digitChar n ≠ '/' := by
  revert n
  decide

private theorem slash_not_mem_digits : '/' ∉ digits text := by
  intro h
  have hmem := List.mem_of_mem_take h
  rw [Digest.ofText, String.toList_ofList, List.mem_flatMap] at hmem
  obtain ⟨b, -, hb⟩ := hmem
  have hlt := b.toNat_lt
  rcases List.mem_cons.mp hb with hb | hb
  · exact digitChar_ne_slash (by omega) hb.symm
  · exact digitChar_ne_slash (by omega) (List.mem_singleton.mp hb).symm

private theorem slash_not_mem_stemOf {file : String} (h : '/' ∉ file.toList) :
    '/' ∉ (Path.stemOf file).toList := by
  rw [Path.stemOf]
  split
  · exact h
  · rw [String.toList_ofList, List.mem_reverse]
    exact fun hmem => h (List.mem_reverse.mp
      ((List.dropWhile_sublist _).subset (List.mem_of_mem_tail hmem)))

private theorem slash_not_mem_fileStem : '/' ∉ (Path.fileStem path).toList := by
  rw [Path.fileStem]
  cases h : Path.fileName? path with
  | none => simp
  | some file =>
    rw [Option.map_some, Option.getD_some]
    refine slash_not_mem_stemOf ?_
    obtain ⟨hlast, hname⟩ := Option.filter_eq_some_iff.mp h
    exact Path.slash_not_mem_component (List.mem_of_getLast? hlast) (by rintro rfl; simp at hname)

private theorem slash_not_mem_name : '/' ∉ (name path text).toList := by
  rw [toList_name]
  simp [slash_not_mem_fileStem, slash_not_mem_digits]

private theorem length_name_pos (path text : String) : 2 < (name path text).toList.length := by
  rw [toList_name, List.length_append, List.length_append, List.length_cons, length_digits]
  simp [digestLength]

/-- The name of a shadow is plain. -/
theorem plain_name : Path.Plain (name path text) := by
  have hlength := length_name_pos path text
  refine ⟨?_, slash_not_mem_name⟩
  rw [Path.isSilent, Bool.or_eq_false_iff, decide_eq_false_iff_not, decide_eq_false_iff_not]
  constructor <;> intro h <;> simp [h] at hlength

/-- No shadow has the name of the directory above. -/
theorem name_ne_up : name path text ≠ ".." := by
  intro h
  have hlength := length_name_pos path text
  simp [h] at hlength

end Shadow

/-! ### Shadows stored one after another -/

/-- The path under which the shadow of a file is stored, given the file's path and the text. -/
def Shadow.pathIn (directory : String) (shadow : String × String) : String :=
  Path.join directory (name shadow.1 shadow.2)

namespace Disk

variable {d d' d'' : Disk} {directory path text : String} {shadow : String × String}
  {shadows more : List (String × String)} {place : List String}

/-- A path leads to a text file. -/
def Holds (d : Disk) (path : String) (place : List String) (text : String) : Prop :=
  d.find true path = .ok (place, .file (.text text))

/-- A text that a disk holds stands at its place. -/
theorem Holds.nodeAt? (h : d.Holds path place text) (hd : d.Rooted) :
    d.root.nodeAt? place = some (.file (.text text)) :=
  FileTree.nodeAt?_eq_file.mpr (get?_of_find hd h)

/-- A text that a disk holds is read at its path. -/
theorem Holds.readText (h : d.Holds path place text) : d.readText path = .ok text := by
  rw [Disk.readText, h]
  rfl

/-- A text file that stands where it stood is still found. -/
theorem Holds.grown (h : d.Holds path place text) (hg : Grown d d') (hd : d.Rooted)
    {content : String} (hnode : d'.root.nodeAt? place = some (.file (.text content))) :
    d'.Holds path place content := by
  obtain ⟨t, ht⟩ := hg.find h
  have hget := get?_of_find (hg.rooted hd) ht
  rw [FileTree.nodeAt?_eq_file, hget, Option.some.injEq] at hnode
  rw [Holds, ht, hnode]

/-- Shadows have been stored in a directory, which may have been made, and nothing else has been
done. -/
structure Stores (directory : String) (shadows : List (String × String)) (d d' : Disk) : Prop where
  grown : Grown d d'
  ordered : d.root.Ordered → d'.root.Ordered
  /-- What has changed is a directory that was made, or the file of a shadow. -/
  changed : ∀ place, d'.root.nodeAt? place = d.root.nodeAt? place ∨
    d.root.nodeAt? place = none ∧ d'.root.nodeAt? place = some .directory ∨
    ∃ shadow ∈ shadows, d'.Holds (Shadow.pathIn directory shadow) place shadow.2
  /-- Each shadow is in its place, or another one that belongs there as well. -/
  stored : ∀ shadow ∈ shadows, ∃ place, ∃ other ∈ shadows,
    d'.Holds (Shadow.pathIn directory shadow) place other.2 ∧
      d'.Holds (Shadow.pathIn directory other) place other.2

/-- To add directories stores no shadows. -/
theorem AddsDirectories.stores (h : AddsDirectories d d') : Stores directory [] d d' where
  grown := h.grown
  ordered := h.ordered
  changed place := (h.node place).imp_right .inl
  stored := by simp

/-- One shadow is stored where its path leads to. -/
theorem stores_put (hd : d.Rooted)
    (h : d.writePlace (Shadow.pathIn directory shadow) = .ok place) :
    Stores directory [shadow] d (d.put place shadow.2) := by
  have hw := writable_of_writePlace hd h
  have hholds : (d.put place shadow.2).Holds (Shadow.pathIn directory shadow) place shadow.2 :=
    find_put hd h
  refine ⟨grown_put hw, ordered_put, fun p => ?_, fun s hs => ?_⟩
  · rw [nodeAt?_put hw]
    split
    · next hp =>
      subst hp
      exact .inr (.inr ⟨shadow, List.mem_singleton_self _, hholds⟩)
    · exact .inl rfl
  · obtain rfl := List.mem_singleton.mp hs
    exact ⟨place, s, hs, hholds, hholds⟩

/-- Shadows are stored one after the other. -/
theorem Stores.trans (hd : d.Rooted) (h : Stores directory shadows d d')
    (h' : Stores directory more d' d'') : Stores directory (shadows ++ more) d d'' := by
  have hd' := h.grown.rooted hd
  refine ⟨h.grown.trans h'.grown, h'.ordered ∘ h.ordered, fun place => ?_, fun shadow hs => ?_⟩
  · rcases h'.changed place with hsame | ⟨hnone, hdir⟩ | ⟨shadow, hs, hholds⟩
    · rw [hsame]
      rcases h.changed place with hsame' | hdir | ⟨shadow, hs, hholds⟩
      · exact .inl hsame'
      · exact .inr (.inl hdir)
      · exact .inr (.inr ⟨shadow, List.mem_append_left _ hs,
          hholds.grown h'.grown hd' (hsame.trans (hholds.nodeAt? hd'))⟩)
    · rcases h.changed place with hsame | ⟨-, hdir'⟩ | ⟨shadow, hs, hholds⟩
      · exact .inr (.inl ⟨hsame ▸ hnone, hdir⟩)
      · rw [hdir'] at hnone
        cases hnone
      · rw [hholds.nodeAt? hd'] at hnone
        cases hnone
    · exact .inr (.inr ⟨shadow, List.mem_append_right _ hs, hholds⟩)
  · rcases List.mem_append.mp hs with hs | hs
    · obtain ⟨place, other, hother, hholds, hholds'⟩ := h.stored shadow hs
      have hnode := hholds.nodeAt? hd'
      rcases h'.changed place with hsame | ⟨hnone, -⟩ | ⟨last, hlast, hnew⟩
      · exact ⟨place, other, List.mem_append_left _ hother,
          hholds.grown h'.grown hd' (hsame.trans hnode),
          hholds'.grown h'.grown hd' (hsame.trans hnode)⟩
      · rw [hnode] at hnone
        cases hnone
      · exact ⟨place, last, List.mem_append_right _ hlast,
          hholds.grown h'.grown hd' (hnew.nodeAt? (h'.grown.rooted hd')), hnew⟩
    · obtain ⟨place, other, hother, hholds⟩ := h'.stored shadow hs
      exact ⟨place, other, List.mem_append_right _ hother, hholds⟩

end Disk

end GoContracts

import GoContracts.Path
import GoContracts.Proofs.Text.Lines
import GoContracts.Proofs.Text.Slices
import Mathlib.Algebra.Ring.Nat
import Mathlib.Data.List.Induction
import Mathlib.Tactic.SplitIfs

/-!
# Paths of places

The path of a place spells its names, and what paths are joined from is found again in the names
that they spell. It is no longer than any other path that spells them.
-/

namespace GoContracts.Path

variable {names : List String} {name base path : String}

/-- The pieces of a path that say something. -/
def spelled (path : String) : List String := (Text.splitAt '/' path).filter (!isSilent ·)

/-- Names that are pieces of their own and say something. -/
def Plain (name : String) : Prop := isSilent name = false ∧ '/' ∉ name.toList

private theorem Plain.ne_empty (h : Plain name) : name ≠ "" := by
  rintro rfl
  cases h.1

/-- A name without a slash is no absolute path. -/
theorem isAbsolute_of_not_mem (h : '/' ∉ name.toList) : isAbsolute name = false := by
  rw [isAbsolute, decide_eq_false_iff_not]
  exact fun hhead => h (List.mem_of_mem_head? hhead)

/-- A plain name is no absolute path. -/
theorem Plain.isAbsolute (h : Plain name) : isAbsolute name = false := isAbsolute_of_not_mem h.2

/-- A plain name spells itself. -/
theorem Plain.spelled (h : Plain name) : spelled name = [name] := by
  rw [Path.spelled, Text.splitAt_of_not_mem h.2]
  simp [h.1]

private theorem filter_plain (h : ∀ n ∈ names, Plain n) : names.filter (!isSilent ·) = names := by
  rw [List.filter_eq_self]
  intro n hn
  simp [(h n hn).1]

/-! ### Joined paths -/

/-- The pieces of a joined path are those of its parts; one slash may stand at the joint. -/
theorem pieces_join (base : String) (hname : isAbsolute name = false) : ∃ before,
    Text.splitAt '/' (join base name) = before ++ Text.splitAt '/' name ∧
      (Text.splitAt '/' base = before ∨ Text.splitAt '/' base = before ++ [""]) := by
  rw [join, hname, if_neg (by simp)]
  split
  · next h =>
    rw [Bool.or_eq_true, decide_eq_true_eq, decide_eq_true_eq] at h
    rcases h with rfl | h
    · exact ⟨[], by simp, .inr rfl⟩
    · obtain ⟨start, hstart⟩ := List.getLast?_eq_some_iff.mp h
      obtain rfl : base = String.ofList start ++ String.ofList ['/'] :=
        String.toList_injective (by simpa using hstart)
      refine ⟨Text.splitAt '/' (String.ofList start), Text.splitAt_append_sep, .inr ?_⟩
      have hsplit : Text.splitAt '/' (String.ofList start ++ String.ofList ['/'] ++ "") = _ :=
        Text.splitAt_append_sep
      rwa [String.append_empty] at hsplit
  · exact ⟨_, Text.splitAt_append_sep, .inl rfl⟩

/-- A joined path spells what its parts spell. -/
theorem spelled_join (hname : isAbsolute name = false) :
    spelled (join base name) = spelled base ++ spelled name := by
  obtain ⟨before, hjoin, hbase⟩ := pieces_join base hname
  rw [spelled, hjoin, List.filter_append]
  congr 1
  rcases hbase with h | h
  · rw [spelled, h]
  · rw [spelled, h, List.filter_append]
    simp [isSilent]

/-- What is joined to a base begins with the base. -/
theorem join_eq_append (base : String) (hname : isAbsolute name = false) :
    ∃ rest, join base name = base ++ rest := by
  rw [join, hname, if_neg (by simp)]
  split
  · exact ⟨name, rfl⟩
  · exact ⟨"/" ++ name, String.append_assoc ..⟩

/-- What is joined to an absolute path is absolute. -/
theorem isAbsolute_join (h : isAbsolute base = true) : isAbsolute (join base name) = true := by
  rw [join]
  split
  · assumption
  obtain ⟨cs, hcs⟩ := List.head?_eq_some_iff.mp (decide_eq_true_eq.mp h)
  split <;> simp [isAbsolute, hcs]

/-- An absolute path is not empty. -/
theorem ne_empty_of_isAbsolute (h : isAbsolute path = true) : path ≠ "" := by
  rintro rfl
  cases h

/-- What is joined to a base is absolute if the base is. -/
theorem isAbsolute_join_of_ne_empty (hbase : base ≠ "") (hname : isAbsolute name = false) :
    isAbsolute (join base name) = isAbsolute base := by
  obtain ⟨rest, hrest⟩ := join_eq_append base hname
  have hhead : base.toList ≠ [] := by simpa using hbase
  rw [hrest, isAbsolute, isAbsolute, String.toList_append, List.head?_append_of_ne_nil _ hhead]

/-- The components of an absolute path. -/
theorem components_of_isAbsolute (h : isAbsolute path = true) :
    components path = "/" :: spelled path := by
  obtain ⟨cs, hcs⟩ := List.head?_eq_some_iff.mp (decide_eq_true_eq.mp h)
  obtain rfl : path = "" ++ String.ofList ['/'] ++ String.ofList cs :=
    String.toList_injective (by simpa using hcs)
  rw [components, spelled, Text.splitAt_append_sep]
  have hempty : Text.splitAt '/' "" = [""] := rfl
  rw [hempty, List.singleton_append, componentsOf, List.filter_cons_of_neg (by simp [isSilent])]
  simp [Text.splitAt_ne_nil]

/-- No component but the root has a slash. -/
theorem slash_not_mem_component {c : String} (h : c ∈ components path) (hc : c ≠ "/") :
    '/' ∉ c.toList := by
  rw [components] at h
  have hpieces (p : String) (hp : p ∈ Text.splitAt '/' path) := Text.not_mem_of_mem_splitAt hp
  revert h hpieces
  cases Text.splitAt '/' path with
  | nil => simp [componentsOf]
  | cons first rest =>
    intro h hpieces
    rcases List.mem_append.mp h with h | h
    · split_ifs at h
      · simp at h
      · exact absurd (List.mem_singleton.mp h) hc
      · exact hpieces c (List.mem_singleton.mp h ▸ List.mem_cons_self ..)
    · exact hpieces c (List.mem_cons_of_mem _ (List.mem_filter.mp h).1)

/-! ### Paths of places -/

private theorem ofComponents_concat (hne : names ≠ []) :
    ofComponents (names ++ [name]) = ofComponents names ++ "/" ++ name := by
  induction names with
  | nil => exact absurd rfl hne
  | cons first names ih =>
    cases names with
    | nil => simp [ofComponents, String.intercalate_cons_cons]
    | cons second names =>
      have := ih (by simp)
      simp only [ofComponents, List.cons_append, String.intercalate_cons_cons] at this ⊢
      rw [this]
      simp [String.append_assoc]

/-- The path of a place below another begins with the path of the other. -/
theorem ofPlace_concat :
    ofPlace (names ++ [name]) = ofPlace names ++ (if names = [] then "" else "/") ++ name := by
  by_cases hne : names = []
  · subst hne
    simp [ofPlace, ofComponents]
  · rw [if_neg hne, ofPlace, ofComponents_concat hne, ofPlace]
    simp only [String.append_assoc]

private theorem pieces_ofComponents (hne : names ≠ []) (h : ∀ n ∈ names, '/' ∉ n.toList) :
    Text.splitAt '/' (ofComponents names) = names := by
  induction names with
  | nil => exact absurd rfl hne
  | cons first names ih =>
    have hfirst := Text.splitAt_of_not_mem (h first (List.mem_cons_self ..))
    cases names with
    | nil => simpa [ofComponents] using hfirst
    | cons second names =>
      have := ih (by simp) fun n hn => h n (List.mem_cons_of_mem _ hn)
      rw [ofComponents, String.intercalate_cons_cons]
      exact Text.splitAt_append_sep.trans (by rw [hfirst]; exact congrArg _ this)

/-- The path of a place is absolute. -/
theorem isAbsolute_ofPlace : isAbsolute (ofPlace names) = true := by simp [isAbsolute, ofPlace]

/-- The slashes of the path of a place separate its names. -/
theorem pieces_ofPlace (h : ∀ n ∈ names, Plain n) :
    Text.splitAt '/' (ofPlace names) = "" :: if names = [] then [""] else names := by
  have hslash : ofPlace names = "" ++ String.ofList ['/'] ++ ofComponents names := by
    rw [String.empty_append]
    rfl
  rw [hslash, Text.splitAt_append_sep]
  split
  · next hnil => subst hnil; rfl
  · next hne => rw [pieces_ofComponents hne fun n hn => (h n hn).2]; rfl

/-- The path of a place spells the place. -/
@[simp] theorem spelled_ofPlace (h : ∀ n ∈ names, Plain n) : spelled (ofPlace names) = names := by
  rw [spelled, pieces_ofPlace h, List.filter_cons_of_neg (by simp [isSilent])]
  split
  · next hnil => simp [hnil, isSilent]
  · exact filter_plain h

/-- Two absolute paths are the same if they spell the same. -/
theorem same_iff {a b : String} (ha : isAbsolute a = true) (hb : isAbsolute b = true) :
    same a b = true ↔ spelled a = spelled b := by
  rw [same, decide_eq_true_eq, components_of_isAbsolute ha, components_of_isAbsolute hb,
    List.cons.injEq]
  simp

/-- The path of an entry of a directory. -/
theorem join_ofPlace (h : ∀ n ∈ names, Plain n) (hname : Plain name) :
    join (ofPlace names) name = ofPlace (names ++ [name]) := by
  rw [join, hname.isAbsolute, if_neg (by simp)]
  by_cases hne : names = []
  · subst hne
    rfl
  · rw [if_neg]
    · simp [ofPlace, ofComponents_concat hne, String.append_assoc]
    · rw [Bool.or_eq_true, decide_eq_true_eq, decide_eq_true_eq, not_or]
      refine ⟨by simp [ofPlace], fun hlast => ?_⟩
      -- A slash at the end would leave an empty piece behind it.
      obtain ⟨start, hstart⟩ := List.getLast?_eq_some_iff.mp hlast
      have hsplit : ofPlace names = String.ofList start ++ String.ofList ['/'] ++ "" :=
        String.toList_injective (by simpa using hstart)
      have hpieces := pieces_ofPlace h
      rw [hsplit, Text.splitAt_append_sep, if_neg hne, Text.splitAt_of_not_mem (s := "") (by simp)]
        at hpieces
      obtain ⟨init, last, rfl⟩ := (List.eq_nil_or_concat' names).resolve_left hne
      rw [← List.cons_append] at hpieces
      have hend := (List.append_inj' hpieces rfl).2
      exact (h last (by simp)).ne_empty (List.singleton_inj.mp hend).symm

/-- The parent of the path of a place is that of the place above. -/
theorem parent?_ofPlace (h : ∀ n ∈ names, Plain n) (hname : Plain name) :
    parent? (ofPlace (names ++ [name])) = some (ofPlace names) := by
  have hall : ∀ n ∈ names ++ [name], Plain n := by
    simpa [or_imp, forall_and] using ⟨h, hname⟩
  rw [parent?, pieces_ofPlace hall, if_neg (by simp), parentPieces?]
  have hdrop : names.reverse.dropWhile isSilent = names.reverse := by
    cases hrev : names.reverse with
    | nil => rfl
    | cons last above =>
      have := (h last (List.mem_reverse.mp (hrev ▸ List.mem_cons_self ..))).1
      rw [List.dropWhile_cons_of_neg (by simp [this])]
  rw [List.reverse_append, List.reverse_singleton, List.singleton_append,
    List.dropWhile_cons_of_neg (by simp [hname.1])]
  simp only [hdrop, List.reverse_reverse, Option.map_some, Option.some.injEq]
  cases names with
  | nil => rfl
  | cons first names => simp [ofPlace, ofComponents, String.intercalate_cons_cons]

/-! ### The path above -/

private theorem pieces_of_isAbsolute (h : isAbsolute path = true) :
    ∃ rest, rest ≠ [] ∧ Text.splitAt '/' path = "" :: rest := by
  obtain ⟨cs, hcs⟩ := List.head?_eq_some_iff.mp (decide_eq_true_eq.mp h)
  obtain rfl : path = "" ++ String.ofList ['/'] ++ String.ofList cs :=
    String.toList_injective (by simpa using hcs)
  exact ⟨Text.splitAt '/' (String.ofList cs), Text.splitAt_ne_nil, Text.splitAt_append_sep⟩

/-- The pieces above the last component are the first ones. -/
theorem parentPieces?_prefix {rest pieces : List String}
    (h : parentPieces? ("" :: rest) = some pieces) : ∃ first, pieces = "" :: first ∧
      first <+: rest := by
  rw [parentPieces?] at h
  cases hdrop : rest.reverse.dropWhile isSilent with
  | nil => simp [hdrop] at h
  | cons last above =>
    rw [hdrop] at h
    refine ⟨_, (Option.some.inj h).symm, ?_⟩
    have hsuffix : above.dropWhile isSilent <:+ rest.reverse := by
      apply (List.dropWhile_suffix isSilent).trans
      apply (List.suffix_cons last above).trans
      rw [← hdrop]
      exact List.dropWhile_suffix isSilent
    rwa [← List.reverse_prefix, List.reverse_reverse] at hsuffix

/-- The path above an absolute one has some of its first pieces. -/
theorem pieces_parent? {above : String} (h : isAbsolute path = true)
    (habove : parent? path = some above) : isAbsolute above = true ∧ ∃ first rest,
      Text.splitAt '/' path = "" :: rest ∧ first <+: rest ∧
        Text.splitAt '/' above = "" :: if first = [] then [""] else first := by
  obtain ⟨rest, -, hpieces⟩ := pieces_of_isAbsolute h
  rw [parent?, hpieces, Option.map_eq_some_iff] at habove
  obtain ⟨pieces, hparent, rfl⟩ := habove
  obtain ⟨first, rfl, hfirst⟩ := parentPieces?_prefix hparent
  have hslash (n : String) (hn : n ∈ "" :: first) : '/' ∉ n.toList := by
    apply Text.not_mem_of_mem_splitAt
    rw [hpieces]
    exact List.cons_subset_cons _ hfirst.subset hn
  cases first with
  | nil => exact ⟨rfl, [], rest, hpieces, hfirst, rfl⟩
  | cons second first =>
    have hsplit := pieces_ofComponents (by simp) hslash
    rw [if_neg (by simp), ← ofComponents]
    refine ⟨?_, second :: first, rest, hpieces, hfirst, hsplit⟩
    simp [isAbsolute, ofComponents, String.intercalate_cons_cons]

/-! ### Paths below a path -/

/-- The path to which names lead from a path. -/
def joinAll (base : String) (names : List String) : String := names.foldl join base

/-- No names are joined to the base. -/
@[simp] theorem joinAll_nil : joinAll base [] = base := rfl

/-- The last name is joined last. -/
theorem joinAll_concat : joinAll base (names ++ [name]) = join (joinAll base names) name := by
  rw [joinAll, List.foldl_append, List.foldl_cons, List.foldl_nil, joinAll]

private theorem components_join (hname : Plain name) :
    components (join base name) = components base ++ [name] := by
  have hloud : (!isSilent name) = true := by simp [hname.1]
  by_cases hempty : base = ""
  · subst hempty
    have hjoin : join "" name = name := by simp [join, hname.isAbsolute]
    have hnone : components "" = [] := rfl
    rw [hjoin, hnone, components, Text.splitAt_of_not_mem hname.2, componentsOf,
      if_neg hname.ne_empty]
    rfl
  obtain ⟨pieces, hjoin, hbase⟩ := pieces_join base hname.isAbsolute
  rw [Text.splitAt_of_not_mem hname.2] at hjoin
  cases pieces with
  | nil =>
    -- Only the empty path has a single piece that is empty.
    rcases hbase with h | h
    · exact absurd h Text.splitAt_ne_nil
    · exact absurd (Text.splitAt_eq_singleton h) hempty
  | cons first rest =>
    rw [components, components, hjoin, List.cons_append, componentsOf]
    rcases hbase with h | h
    · have hrest : first = "" → rest ≠ [] := by
        rintro rfl rfl
        exact hempty (Text.splitAt_eq_singleton h)
      rw [h, componentsOf]
      by_cases hfirst : first = "" <;> simp [hfirst, hrest, hloud]
    · rw [h, List.cons_append, componentsOf]
      have hsilent : (!isSilent "") = false := by decide
      by_cases hfirst : first = "" <;> simp [hfirst, hloud, hsilent]

/-- The components of plain names come behind those of the base. -/
theorem components_joinAll (h : ∀ n ∈ names, Plain n) :
    components (joinAll base names) = components base ++ names := by
  induction names generalizing base with
  | nil => simp
  | cons name names ih =>
    have htail : components (joinAll (join base name) names) =
      components (join base name) ++ names :=
      ih fun n hn => h n (List.mem_cons_of_mem _ hn)
    rw [joinAll, List.foldl_cons, ← joinAll, htail, components_join
      (h name (List.mem_cons_self ..)),
      List.append_assoc, List.singleton_append]

/-- What is joined to a base is not empty. -/
theorem joinAll_ne_empty (hbase : base ≠ "") (h : ∀ n ∈ names, Plain n) :
    joinAll base names ≠ "" := by
  induction names generalizing base with
  | nil => exact hbase
  | cons name names ih =>
    apply ih
    · obtain ⟨rest, hrest⟩ := join_eq_append base (h name (List.mem_cons_self ..)).isAbsolute
      simp [hrest, hbase]
    · exact fun n hn => h n (List.mem_cons_of_mem _ hn)

/-- What is below a path is told relative to it. -/
theorem relativeTo?_joinAll {above below : List String} (habove : ∀ n ∈ above, Plain n)
    (hbelow : ∀ n ∈ below, Plain n) : relativeTo? (joinAll base above) (joinAll base below) =
      if above <+: below then some (below.drop above.length) else none := by
  have hstarts : (components base ++ above).isPrefixOf (components base ++ below) = true ↔
      above <+: below := by
    rw [List.isPrefixOf_iff_prefix, List.prefix_append_right_inj]
  rw [relativeTo?, components_joinAll habove, components_joinAll hbelow]
  by_cases h : above <+: below
  · rw [if_pos (hstarts.mpr h), if_pos h, List.length_append, ← List.drop_drop, List.drop_left]
  · rw [if_neg (hstarts.not.mpr h), if_neg h]

/-- Names joined to the path of a place give the path of the place below. -/
theorem joinAll_ofPlace {below : List String} (h : ∀ n ∈ names ++ below, Plain n) :
    joinAll (ofPlace names) below = ofPlace (names ++ below) := by
  induction below generalizing names with
  | nil => simp
  | cons name below ih =>
    have hnames : ∀ n ∈ names, Plain n := fun n hn => h n (List.mem_append_left _ hn)
    have hname : Plain name := h name (by simp)
    rw [joinAll, List.foldl_cons, ← joinAll, join_ofPlace hnames hname,
      ih (by simpa [or_assoc] using h), List.append_assoc, List.singleton_append]

end GoContracts.Path

/-! ### Lengths of paths -/

namespace GoContracts

namespace Text

variable {sep : Char} {s : String}

/-- The pieces of a text with a separator behind each are as long as the text with one. -/
theorem sum_size_splitAt : ((splitAt sep s).map fun piece => size piece + sep.utf8Size).sum =
    size s + sep.utf8Size := by
  have hchars (cs : List Char) :
      ((splitChars sep cs).map fun piece => byteLength piece + sep.utf8Size).sum =
        byteLength cs + sep.utf8Size := by
    induction cs with
    | nil => simp [splitChars]
    | cons c cs ih =>
      rw [splitChars]
      split
      · next hc =>
        subst hc
        rw [List.map_cons, List.sum_cons, ih, byteLength_nil, byteLength_cons]
        omega
      · cases hs : splitChars sep cs with
        | nil => exact absurd hs (splitChars_ne_nil sep cs)
        | cons head tail =>
          rw [hs, List.map_cons, List.sum_cons] at ih
          rw [List.map_cons, List.sum_cons, byteLength_cons, byteLength_cons]
          omega
  rw [splitAt_eq, List.map_map, size_eq, ← hchars]
  congr 1
  apply List.map_congr_left
  intro cs _
  simp [size_eq]

end Text

namespace Path

variable {names : List String} {path : String}

private theorem size_ofPlace (hne : names ≠ []) :
    Text.size (ofPlace names) = (names.map fun name => Text.size name + 1).sum := by
  have hsep : "/".utf8ByteSize = 1 := rfl
  induction names using List.reverseRecOn with
  | nil => exact absurd rfl hne
  | append_singleton init name ih =>
    rw [ofPlace_concat, List.map_append, List.sum_append, List.map_singleton, List.sum_singleton]
    by_cases hinit : init = []
    · subst hinit
      simp [Text.size, ofPlace, ofComponents, hsep, Nat.add_comm]
    · rw [← ih hinit, if_neg hinit]
      simp only [Text.size, String.utf8ByteSize_append, hsep]
      omega

/-- The names that a path spells have a path that is no longer. -/
theorem size_ofPlace_spelled (h : isAbsolute path = true) :
    Text.size (ofPlace (spelled path)) ≤ Text.size path := by
  obtain ⟨rest, hrest, hpieces⟩ := pieces_of_isAbsolute h
  have hsum : ((Text.splitAt '/' path).map fun piece => Text.size piece + Char.utf8Size '/').sum =
    Text.size path + Char.utf8Size '/' := Text.sum_size_splitAt
  rw [hpieces, List.map_cons, List.sum_cons] at hsum
  have hslash : Char.utf8Size '/' = 1 := rfl
  have hempty : Text.size "" = 0 := rfl
  have hspelled : spelled path = rest.filter (!isSilent ·) := by
    rw [spelled, hpieces, List.filter_cons_of_neg (by simp [isSilent])]
  rw [hslash, hempty] at hsum
  by_cases hnone : spelled path = []
  · obtain ⟨first, rest, rfl⟩ := List.exists_cons_of_ne_nil hrest
    have hroot : Text.size (ofPlace []) = 1 := rfl
    rw [List.map_cons, List.sum_cons] at hsum
    rw [hnone, hroot]
    omega
  · have hle (pieces : List String) :
        ((pieces.filter (!isSilent ·)).map fun name => Text.size name + 1).sum ≤
          (pieces.map fun name => Text.size name + 1).sum := by
      induction pieces with
      | nil => rfl
      | cons piece pieces ih =>
        rw [List.map_cons, List.sum_cons, List.filter_cons]
        split
        · rw [List.map_cons, List.sum_cons]
          omega
        · omega
    rw [size_ofPlace hnone, hspelled]
    have hrest := hle rest
    omega

end Path

end GoContracts

import GoContracts.Proofs.FileTree.Shape
import GoContracts.Selection.Basic
import Mathlib.Data.List.Infix
import Mathlib.Order.Basic

/-!
# The walk through a tree

The walk reaches what it does not leave out on the way. While it lasts, the rules of all directories
that have been entered are in force; those that say anything of an entry are the rules of the
directories around it. What is found is put relative to the place from which the walk goes on, so
that it is proved along the tree.
-/

namespace GoContracts.Selection

open FileTree (Node)

variable {s : Selection} {rules : List IgnoreRules} {place above below names : List String}
  {name : String} {t u : FileTree} {entries : List (String × FileTree)} {isDirectory : Bool}

/-- The path of what stands at a place below the root. -/
def pathOf (s : Selection) (place : List String) : String := Path.joinAll s.root place

private theorem pathOf_concat : s.pathOf (place ++ [name]) = Path.join (s.pathOf place) name :=
  Path.joinAll_concat

/-- The rules of a directory, if it has any that can be read. -/
def own? (s : Selection) (directory : List String) : Option IgnoreRules :=
  match s.rulesOf (s.pathOf directory) with
  | .ok rules? => rules?
  | .error _ => none

/-- The rules of the directory cover what stands below it. -/
def Ignores (s : Selection) (directory below : List String) (isDirectory : Bool) : Prop :=
  ∃ rules, s.own? directory = some rules ∧
    rules.covers (Path.ofComponents below) isDirectory = true

/-- The entry at a place is left out: it is a directory to be skipped, or the rules of a directory
around it cover it. -/
def LeavesOut (s : Selection) (place : List String) (isDirectory : Bool) : Prop :=
  (isDirectory = true ∧ s.skips (place.getLastD "") (s.pathOf place) = true) ∨
    ∃ above below, place = above ++ below ∧ below ≠ [] ∧ s.Ignores above below isDirectory

/-- The names lead from a tree at a place to a tree below it, and nothing on the way is left out. -/
def Reaches (s : Selection) : List String → FileTree → List String → FileTree → Prop
  | _, t, [], u => t = u
  | place, t, name :: names, u => ∃ v, t.below? name = some v ∧
    ¬s.LeavesOut (place ++ [name]) v.isDirectory ∧ s.Reaches (place ++ [name]) v names u

/-- A directory that can be searched: its path is not too long, and its rules can be read. -/
def Opens (s : Selection) (place : List String) : Prop :=
  unreadable? (s.pathOf place) = none ∧ (s.rulesOf (s.pathOf place)).isOk = true

/-- A file at a place is taken for its name, and no pattern excludes it. -/
def Takes (s : Selection) (place : List String) : Prop :=
  SourceFile.isSourceName (place.getLastD "") = true ∧ s.excludes (s.pathOf place) = false

/-! ### The rules in force -/

/-- The rules are those of directories that have been entered, the given one and those around it
among them. -/
def InForce (s : Selection) (rules : List IgnoreRules) (place : List String) : Prop :=
  ∃ entered : List (List String), rules = entered.filterMap s.own? ∧
    (∀ directory ∈ entered, ∀ n ∈ directory, Path.Plain n) ∧
    ∀ directory, directory <+: place → directory ∈ entered

private theorem base_of_parse? {base content path : String} {own : IgnoreRules}
    (h : IgnoreRules.parse? base content path = .ok (some own)) : own.base = base := by
  rw [IgnoreRules.parse?] at h
  cases hrules : (IgnoreRules.ruleLines content).mapM (IgnoreRules.parseLine path) with
  | error e => simp [hrules, bind, Except.bind] at h
  | ok parsed =>
    simp only [hrules, bind, Except.bind, pure, Except.pure, Except.ok.injEq] at h
    split at h
    · cases h
    · rw [← Option.some.inj h]

private theorem base_of_own? {own : IgnoreRules} (h : s.own? place = some own) :
    own.base = s.pathOf place := by
  rw [own?, rulesOf] at h
  split at h
  · next rules? hrules =>
    subst h
    split at hrules
    · split at hrules
      · exact base_of_parse? hrules
      · cases hrules
    · cases hrules
  · cases h

/-- Of the rules in force those count that belong to a directory around the entry. -/
theorem any_coversPath (h : s.InForce rules above) (hplain : ∀ n ∈ above ++ [name], Path.Plain n) :
    (rules.any fun r => r.coversPath (s.pathOf (above ++ [name])) isDirectory) = true ↔
      ∃ around below, above ++ [name] = around ++ below ∧ below ≠ [] ∧
        s.Ignores around below isDirectory := by
  obtain ⟨entered, rfl, hentered, hall⟩ := h
  have hcovers {own : IgnoreRules} {directory : List String} (hown : s.own? directory = some own)
      (hdirectory : ∀ n ∈ directory, Path.Plain n) :
      own.coversPath (s.pathOf (above ++ [name])) isDirectory = true ↔
        ∃ below, above ++ [name] = directory ++ below ∧ below ≠ [] ∧
          own.covers (Path.ofComponents below) isDirectory = true := by
    rw [IgnoreRules.coversPath, base_of_own? hown, pathOf, pathOf,
      Path.relativeTo?_joinAll hdirectory hplain]
    split
    · next hnone =>
      simp only [Bool.false_eq_true, false_iff, not_exists, not_and]
      rintro below hbelow hne
      rw [if_pos ⟨below, hbelow.symm⟩] at hnone
      cases hnone
    · next hnil =>
      simp only [Bool.false_eq_true, false_iff, not_exists, not_and]
      rintro below hbelow hne
      rw [if_pos ⟨below, hbelow.symm⟩, hbelow, List.drop_left, Option.some.injEq] at hnil
      exact absurd hnil hne
    · next below hne hsome =>
      split at hsome
      · next hway =>
        obtain ⟨rest, hrest⟩ := hway
        rw [← hrest, List.drop_left, Option.some.injEq] at hsome
        subst hsome
        rw [← hrest]
        constructor
        · exact fun h => ⟨rest, rfl, hne, h⟩
        · rintro ⟨below, hbelow, -, h⟩
          rwa [List.append_cancel_left hbelow]
      · cases hsome
  simp only [List.any_eq_true, List.mem_filterMap]
  constructor
  · rintro ⟨own, ⟨directory, hdirectory, hown⟩, hcover⟩
    obtain ⟨below, hbelow, hne, h⟩ := (hcovers hown (hentered _ hdirectory)).mp hcover
    exact ⟨directory, below, hbelow, hne, own, hown, h⟩
  · rintro ⟨directory, below, hbelow, hne, own, hown, h⟩
    have haround : directory <+: above := by
      obtain ⟨init, last, rfl⟩ := (List.eq_nil_or_concat' below).resolve_left hne
      rw [← List.append_assoc] at hbelow
      exact ⟨init, (List.append_inj' hbelow rfl).1.symm⟩
    have hmem := hall _ haround
    exact ⟨own, ⟨directory, hmem, hown⟩, (hcovers hown (hentered _ hmem)).mpr
      ⟨below, hbelow, hne, h⟩⟩

private theorem InForce.leave (h : s.InForce rules (place ++ [name])) : s.InForce rules place := by
  obtain ⟨entered, hrules, hplain, hall⟩ := h
  exact ⟨entered, hrules, hplain, fun directory hd =>
    hall directory (hd.trans (List.prefix_append ..))⟩

/-- A directory adds its own rules to those above, if they can be read. -/
theorem withOwn_eq (s : Selection) (rules : List IgnoreRules) (place : List String) :
    (s.withOwn (s.pathOf place) rules).1 = rules ++ (s.own? place).toList ∧
      ((s.withOwn (s.pathOf place) rules).2 = none ↔
        (s.rulesOf (s.pathOf place)).isOk = true) := by
  rw [withOwn, own?]
  rcases s.rulesOf (s.pathOf place) with failure | _ | own <;> simp [Except.isOk, Except.toBool]

/-- Entering a directory puts its rules in force, if those of all directories around it are. -/
theorem InForce.enter (hplain : ∀ n ∈ place, Path.Plain n)
    (h : (rules = [] ∧ place = []) ∨ s.InForce rules place.dropLast) :
    s.InForce (s.withOwn (s.pathOf place) rules).1 place := by
  rw [(s.withOwn_eq rules place).1]
  obtain ⟨entered, rfl, hentered, hall⟩ : ∃ entered : List (List String),
      rules = entered.filterMap s.own? ∧ (∀ directory ∈ entered, ∀ n ∈ directory, Path.Plain n) ∧
        ∀ directory, directory <+: place → directory ≠ place → directory ∈ entered := by
    rcases h with ⟨rfl, rfl⟩ | ⟨entered, hrules, hentered, hall⟩
    · refine ⟨[], rfl, by simp, fun directory hd hne => ?_⟩
      exact absurd (List.prefix_nil.mp hd) hne
    · refine ⟨entered, hrules, hentered, fun directory ⟨rest, hrest⟩ hne => hall directory ?_⟩
      have hsome : rest ≠ [] := by
        rintro rfl
        exact hne (by simpa using hrest)
      rw [← hrest, List.dropLast_append_of_ne_nil hsome]
      exact List.prefix_append ..
  refine ⟨entered ++ [place], ?_, ?_, ?_⟩
  · rw [List.filterMap_append]
    cases hown : s.own? place <;> simp [hown]
  · intro directory hd
    rcases List.mem_append.mp hd with hd | hd
    · exact hentered directory hd
    · rw [List.mem_singleton.mp hd]
      exact hplain
  · intro directory hd
    by_cases hne : directory = place
    · simp [hne]
    · exact List.mem_append_left _ (hall directory hd hne)

/-! ### What a search finds -/

/-- Nothing stands in the way of a selection. -/
def Found.Clean (f : Found) : Prop := f.unreadable? = none ∧ f.failure? = none

private theorem Found.clean_append {a b : Found} : (a.append b).Clean ↔ a.Clean ∧ b.Clean := by
  simp only [Found.Clean, Found.append, Option.or_eq_none_iff]
  tauto

/-- The search from a place has found what can be reached: it fails unless every directory that is
reached can be searched, and it takes the files that are reached, in the order of their names. -/
structure Finds (s : Selection) (place : List String) (reached : List String → FileTree → Prop)
    (found : Found) : Prop where
  clean : found.Clean ↔
    ∀ names u, reached names u → u.isDirectory = true → s.Opens (place ++ names)
  taken : found.Clean → ∃ taken : List (List String),
    found.paths = taken.map (fun names => s.pathOf (place ++ names)) ∧
      taken.Pairwise (List.Lex (· < ·)) ∧
      ∀ names, names ∈ taken ↔
        ∃ u, reached names u ∧ u.isFile = true ∧ s.Takes (place ++ names)

namespace Finds

variable {reached other : List String → FileTree → Prop} {found more : Found}

private theorem congr (h : s.Finds place reached found)
    (hr : ∀ names u, reached names u ↔ other names u) :
    s.Finds place other found := by
  rwa [show other = reached from funext₂ fun names u => propext (hr names u).symm]

/-- Where neither a directory nor a file can be reached, nothing is found. -/
theorem nothing (hr : ∀ names u, reached names u → u.isDirectory = false ∧ u.isFile = false) :
    s.Finds place reached {} := by
  constructor
  · constructor
    · intro _ names u h hu
      simp [(hr names u h).1] at hu
    · intro _
      exact ⟨rfl, rfl⟩
  · intro _
    refine ⟨[], rfl, .nil, fun names => ?_⟩
    simp only [List.not_mem_nil, false_iff, not_exists, not_and]
    intro u h hu
    simp [(hr names u h).2] at hu

/-- What is found from an entry is found from its directory. -/
theorem under (h : s.Finds (place ++ [name]) reached found) :
    s.Finds place (fun names u => ∃ rest, names = name :: rest ∧ reached rest u) found := by
  have hplace (names : List String) : place ++ name :: names = place ++ [name] ++ names := by simp
  constructor
  · rw [h.clean]
    constructor
    · rintro hopens _ u ⟨rest, rfl, hreached⟩ hu
      rw [hplace]
      exact hopens rest u hreached hu
    · intro hopens names u hreached hu
      rw [← hplace]
      exact hopens (name :: names) u ⟨names, rfl, hreached⟩ hu
  · intro hclean
    obtain ⟨taken, hpaths, hsorted, hmem⟩ := h.taken hclean
    refine ⟨taken.map (name :: ·), ?_, ?_, ?_⟩
    · rw [hpaths, List.map_map]
      exact List.map_congr_left fun names _ => congrArg s.pathOf (hplace names).symm
    · rw [List.pairwise_map]
      exact hsorted.imp fun hlt => .cons hlt
    · intro names
      rw [List.mem_map]
      constructor
      · rintro ⟨rest, hrest, rfl⟩
        obtain ⟨u, hreached, hu, htakes⟩ := (hmem rest).mp hrest
        exact ⟨u, ⟨rest, rfl, hreached⟩, hu, by rwa [hplace]⟩
      · rintro ⟨u, ⟨rest, rfl, hreached⟩, hu, htakes⟩
        rw [hplace] at htakes
        exact ⟨rest, (hmem rest).mpr ⟨u, hreached, hu, htakes⟩, rfl⟩

/-- What is found one after the other is found together. -/
theorem append (h : s.Finds place reached found) (h' : s.Finds place other more)
    (hlt : ∀ a u b v, reached a u → other b v → List.Lex (· < ·) a b) :
    s.Finds place (fun names u => reached names u ∨ other names u) (found.append more) := by
  constructor
  · rw [Found.clean_append, h.clean, h'.clean]
    constructor
    · rintro ⟨hopens, hopens'⟩ names u (hr | hr) hu
      · exact hopens names u hr hu
      · exact hopens' names u hr hu
    · intro hopens
      exact ⟨fun names u hr => hopens names u (.inl hr), fun names u hr => hopens names u (.inr hr)⟩
  · intro hclean
    rw [Found.clean_append] at hclean
    obtain ⟨taken, hpaths, hsorted, hmem⟩ := h.taken hclean.1
    obtain ⟨rest, hpaths', hsorted', hmem'⟩ := h'.taken hclean.2
    refine ⟨taken ++ rest, ?_, ?_, ?_⟩
    · rw [Found.append, hpaths, hpaths', List.map_append]
    · rw [List.pairwise_append]
      refine ⟨hsorted, hsorted', fun a ha b hb => ?_⟩
      obtain ⟨u, hu, -⟩ := (hmem a).mp ha
      obtain ⟨v, hv, -⟩ := (hmem' b).mp hb
      exact hlt a u b v hu hv
    · intro names
      rw [List.mem_append, hmem, hmem', ← exists_or]
      exact exists_congr fun u => by tauto

end Finds

/-! ### The walk -/

private theorem reaches_directory_cons {e : String × FileTree} (h : Keyed.Ascending (e :: entries))
    (hne : names ≠ []) : s.Reaches place (.directory (e :: entries)) names u ↔
      (∃ rest, names = e.1 :: rest ∧ ¬s.LeavesOut (place ++ [e.1]) e.2.isDirectory ∧
        s.Reaches (place ++ [e.1]) e.2 rest u) ∨
      s.Reaches place (.directory entries) names u := by
  obtain ⟨first, rest, rfl⟩ := List.exists_cons_of_ne_nil hne
  rw [Reaches, Reaches, FileTree.below?_directory_cons]
  by_cases hfirst : e.1 = first
  · subst hfirst
    simp [FileTree.below?_of_ascending h]
  · rw [if_neg hfirst]
    constructor
    · exact .inr
    · rintro (⟨_, hcons, -⟩ | h)
      · exact absurd (List.cons.inj hcons).1.symm hfirst
      · exact h

/-- The names behind the first entry of a directory come after it. -/
theorem lt_of_reaches {e : String × FileTree} (h : Keyed.Ascending (e :: entries))
    {rest : List String} (hr : names ≠ [] ∧ s.Reaches place (.directory entries) names u) :
    List.Lex (· < ·) (e.1 :: rest) names := by
  obtain ⟨first, names, rfl⟩ := List.exists_cons_of_ne_nil hr.1
  obtain ⟨hlt, hentries⟩ := List.pairwise_cons.mp h
  obtain ⟨v, hv, -⟩ := hr.2
  exact .rel (hlt (first, v) ((Keyed.Ascending.mem_iff hentries).mpr hv))

/-- The entry is left out by the walk if it is to be left out. -/
theorem leavesOut_iff (hrules : s.InForce rules place)
    (hplain : ∀ n ∈ place ++ [name], Path.Plain n) :
    ((isDirectory && s.skips name (s.pathOf (place ++ [name])) ||
        rules.any fun r => r.coversPath (s.pathOf (place ++ [name])) isDirectory) = true) ↔
      s.LeavesOut (place ++ [name]) isDirectory := by
  rw [Bool.or_eq_true, any_coversPath hrules hplain, Bool.and_eq_true, LeavesOut,
    List.getLastD_concat]

/-- A file is found if it is taken. -/
theorem visitFile_finds (hname : place.getLastD "" = name) {content : Content} :
    s.Finds place (s.Reaches place (.file content)) (s.visitFile name (s.pathOf place)) := by
  have hreached (names : List String) (u : FileTree) :
      s.Reaches place (.file content) names u ↔ names = [] ∧ .file content = u := by
    cases names with
    | nil => simp [Reaches]
    | cons first rest => simp [Reaches, FileTree.below?, FileTree.entries]
  have htakes : s.Takes place ↔
      (SourceFile.isSourceName name && !s.excludes (s.pathOf place)) = true := by
    rw [Takes, hname]
    simp
  constructor
  · refine ⟨fun _ names u hr hu => ?_, fun _ => ⟨rfl, rfl⟩⟩
    obtain ⟨-, rfl⟩ := (hreached names u).mp hr
    cases hu
  · intro _
    rw [visitFile]
    split
    · next htaken =>
      refine ⟨[[]], by simp, List.pairwise_singleton .., fun names => ?_⟩
      rw [List.mem_singleton]
      constructor
      · rintro rfl
        exact ⟨_, (hreached [] _).mpr ⟨rfl, rfl⟩, rfl, by simpa using htakes.mpr htaken⟩
      · rintro ⟨u, hr, -⟩
        exact ((hreached names u).mp hr).1
    · next hleft =>
      refine ⟨[], rfl, .nil, fun names => ?_⟩
      simp only [List.not_mem_nil, false_iff, not_exists, not_and]
      intro u hr _ ht
      obtain ⟨rfl, -⟩ := (hreached names u).mp hr
      exact hleft (htakes.mp (by simpa using ht))

/-- A directory is found with what is found in its entries, if it can be searched. -/
theorem visitDirectory_finds {found : Found} {failure? : Option Failure}
    (hfailure : failure? = none ↔ (s.rulesOf (s.pathOf place)).isOk = true)
    (h : s.Finds place (fun names u => names ≠ [] ∧ s.Reaches place (.directory entries) names u)
      found) :
    s.Finds place (s.Reaches place (.directory entries))
      (match unreadable? (s.pathOf place) with
        | some unreadable => { unreadable? := some unreadable, failure? }
        | none => ({ failure? } : Found).append found) := by
  have hsplit (names : List String) (u : FileTree) :
      s.Reaches place (.directory entries) names u ↔
        names = [] ∧ .directory entries = u ∨
          names ≠ [] ∧ s.Reaches place (.directory entries) names u := by
    cases names with
    | nil => simp [Reaches]
    | cons first rest => simp
  have hopens : (∀ names u, s.Reaches place (.directory entries) names u → u.isDirectory = true →
      s.Opens (place ++ names)) ↔ s.Opens place ∧ found.Clean := by
    rw [h.clean]
    constructor
    · intro hall
      refine ⟨?_, fun names u hr => hall names u hr.2⟩
      simpa using hall [] _ ((hsplit [] _).mpr (.inl ⟨rfl, rfl⟩)) rfl
    · rintro ⟨hplace, hall⟩ names u hr hu
      rcases (hsplit names u).mp hr with ⟨rfl, -⟩ | hr
      · simpa using hplace
      · exact hall names u hr hu
  cases hlong : unreadable? (s.pathOf place) with
  | some unreadable =>
    constructor
    · rw [hopens, Opens, hlong]
      simp [Found.Clean]
    · intro hclean
      cases hclean.1
  | none =>
    constructor
    · rw [hopens, Opens, Found.clean_append, hlong, ← hfailure]
      simp [Found.Clean]
    · intro hclean
      obtain ⟨taken, hpaths, hsorted, hmem⟩ := h.taken (Found.clean_append.mp hclean).2
      refine ⟨taken, by simpa [Found.append] using hpaths, hsorted, fun names => ?_⟩
      rw [hmem]
      constructor
      · rintro ⟨u, hr, hu⟩
        exact ⟨u, hr.2, hu⟩
      · rintro ⟨u, hr, hu⟩
        rcases (hsplit names u).mp hr with ⟨-, rfl⟩ | hr
        · cases hu.1
        · exact ⟨u, hr, hu⟩

mutual

/-- A search of an entry finds what can be reached through it. -/
theorem visit_finds : ∀ (t : FileTree) {rules : List IgnoreRules} {place : List String}
    {name : String}, t.WellFormed → (∀ n ∈ place ++ [name], Path.Plain n) →
    s.InForce rules place →
      s.Finds (place ++ [name]) (s.Reaches (place ++ [name]) t)
        (s.visit rules name (s.pathOf (place ++ [name])) t).1 ∧
      s.InForce (s.visit rules name (s.pathOf (place ++ [name])) t).2 place
  | .file content, rules, place, name, _, _, hrules => by
    rw [visit]
    exact ⟨visitFile_finds (by simp), hrules⟩
  | .link target, rules, place, name, _, _, hrules => by
    rw [visit]
    refine ⟨.nothing fun names u hr => ?_, hrules⟩
    cases names with
    | nil =>
      rw [Reaches] at hr
      subst hr
      exact ⟨rfl, rfl⟩
    | cons first rest => simp [Reaches, FileTree.below?, FileTree.entries] at hr
  | .directory entries, rules, place, name, hshape, hplain, hrules => by
    have henter := InForce.enter hplain (.inr (by simpa using hrules))
    obtain ⟨hfinds, hafter⟩ := visitEntries_finds entries hshape hplain henter
    have hfound := visitDirectory_finds (s.withOwn_eq rules _).2 hfinds
    rw [visit]
    cases hlong : unreadable? (s.pathOf (place ++ [name])) with
    | some unreadable =>
      simp only [hlong] at hfound ⊢
      exact ⟨hfound, henter.leave⟩
    | none =>
      simp only [hlong] at hfound ⊢
      exact ⟨hfound, hafter.leave⟩

/-- A search of the entries of a directory finds what can be reached through them. -/
theorem visitEntries_finds : ∀ (entries : List (String × FileTree)) {rules : List IgnoreRules}
    {place : List String}, (FileTree.directory entries).WellFormed →
    (∀ n ∈ place, Path.Plain n) → s.InForce rules place →
      s.Finds place
        (fun names u => names ≠ [] ∧ s.Reaches place (.directory entries) names u)
        (s.visitEntries rules (s.pathOf place) entries).1 ∧
      s.InForce (s.visitEntries rules (s.pathOf place) entries).2 place
  | [], rules, place, _, _, hrules => by
    rw [visitEntries]
    refine ⟨.nothing fun names u ⟨hne, hr⟩ => ?_, hrules⟩
    obtain ⟨first, rest, rfl⟩ := List.exists_cons_of_ne_nil hne
    simp [Reaches, FileTree.below?, FileTree.entries] at hr
  | (name, t) :: entries, rules, place, hshape, hplain, hrules => by
    obtain ⟨hname, ht, hentries⟩ := hshape.uncons
    have hnames : ∀ n ∈ place ++ [name], Path.Plain n := by
      simpa [or_imp, forall_and] using ⟨hplain, hname.plain⟩
    have hout : _ ↔ s.LeavesOut (place ++ [name]) t.isDirectory := leavesOut_iff hrules hnames
    have hasc : Keyed.Ascending ((name, t) :: entries) := hshape.ordered [] _ rfl
    rw [visitEntries, ← pathOf_concat]
    -- What the entry yields, and the rules that are in force behind it.
    obtain ⟨found, after, hfirst, hfound, hafter⟩ : ∃ found after,
        (if ((t.isDirectory && s.skips name (s.pathOf (place ++ [name]))) ||
            rules.any fun r => r.coversPath (s.pathOf (place ++ [name])) t.isDirectory) = true
          then ({}, rules) else s.visit rules name (s.pathOf (place ++ [name])) t) =
            (found, after) ∧
        s.Finds place (fun names u => ∃ rest, names = name :: rest ∧
          ¬s.LeavesOut (place ++ [name]) t.isDirectory ∧ s.Reaches (place ++ [name]) t rest u)
          found ∧ s.InForce after place := by
      by_cases h : s.LeavesOut (place ++ [name]) t.isDirectory
      · refine ⟨{}, rules, if_pos (hout.mpr h), .nothing ?_, hrules⟩
        rintro _ u ⟨rest, -, hnot, -⟩
        exact absurd h hnot
      · obtain ⟨hfinds, hafter⟩ := visit_finds t ht hnames hrules
        refine ⟨_, _, (if_neg (hout.not.mpr h)).trans rfl, hfinds.under.congr ?_, hafter⟩
        intro names u
        simp [h]
    obtain ⟨hmore, hlast⟩ := visitEntries_finds entries hentries hplain hafter
    simp only [hfirst]
    refine ⟨(hfound.append hmore ?_).congr ?_, hlast⟩
    · rintro _ u b v ⟨rest, rfl, -⟩ hr
      exact lt_of_reaches hasc hr
    · intro names u
      by_cases hne : names = []
      · simp [hne]
      · rw [reaches_directory_cons hasc hne]
        simp [hne]

end

/-! ### Failures -/

/-- What a selection fails of: a directory cannot be read, or an ignore file, or a pattern in it. -/
def OfSelection : Failure → Prop
  | .walk .. | .read .. | .ignorePattern .. => True
  | _ => False

/-- All failures in what is found are those of a selection. -/
structure Found.Fails (f : Found) : Prop where
  unreadable : ∀ failure ∈ f.unreadable?, OfSelection failure
  failure : ∀ failure ∈ f.failure?, OfSelection failure

private theorem Found.fails_empty : ({} : Found).Fails := ⟨by simp, by simp⟩

private theorem Found.Fails.append {a b : Found} (ha : a.Fails) (hb : b.Fails) :
    (a.append b).Fails where
  unreadable failure h := by
    rcases Option.or_eq_some_iff.mp h with h | ⟨-, h⟩
    · exact ha.unreadable failure h
    · exact hb.unreadable failure h
  failure failure h := by
    rcases Option.or_eq_some_iff.mp h with h | ⟨-, h⟩
    · exact ha.failure failure h
    · exact hb.failure failure h

private theorem ofSelection_parse? {base content path : String} {failure : Failure}
    (h : IgnoreRules.parse? base content path = .error failure) : OfSelection failure := by
  have hmapM (lines : List String)
      (hlines : lines.mapM (IgnoreRules.parseLine path) = .error failure) :
        OfSelection failure := by
    induction lines with
    | nil => cases hlines
    | cons line lines ih =>
      rw [List.mapM_cons] at hlines
      cases hline : IgnoreRules.parseLine path line with
      | error f =>
        simp only [hline, bind, Except.bind, Except.error.injEq] at hlines
        subst hlines
        rw [IgnoreRules.parseLine] at hline
        split at hline
        · cases hline
        · obtain rfl := Except.error.inj hline
          trivial
      | ok rule =>
        cases hmore : lines.mapM (IgnoreRules.parseLine path) with
        | error f =>
          simp only [hline, hmore, bind, Except.bind, Except.error.injEq] at hlines
          exact ih (hlines ▸ hmore)
        | ok rules => simp [hline, hmore, bind, Except.bind, pure, Except.pure] at hlines
  rw [IgnoreRules.parse?] at h
  cases hrules : (IgnoreRules.ruleLines content).mapM (IgnoreRules.parseLine path) with
  | error f =>
    simp only [hrules, bind, Except.bind, Except.error.injEq] at h
    exact hmapM _ (h ▸ hrules)
  | ok rules => simp [hrules, bind, Except.bind, pure, Except.pure] at h

private theorem ofSelection_rulesOf {directory : String} {failure : Failure}
    (h : s.rulesOf directory = .error failure) : OfSelection failure := by
  rw [rulesOf] at h
  split at h
  · split at h
    · exact ofSelection_parse? h
    · obtain rfl := Except.error.inj h
      trivial
  · cases h

private theorem ofSelection_withOwn {directory : String} {failure : Failure}
    (h : (s.withOwn directory rules).2 = some failure) : OfSelection failure := by
  rw [withOwn] at h
  cases hrules : s.rulesOf directory with
  | error f =>
    rw [hrules] at h
    obtain rfl := Option.some.inj h
    exact ofSelection_rulesOf hrules
  | ok own? => cases own? <;> simp [hrules] at h

private theorem ofSelection_unreadable? {path : String} {failure : Failure}
    (h : unreadable? path = some failure) : OfSelection failure := by
  rw [unreadable?, Option.ite_none_right_eq_some, Option.some.injEq] at h
  rw [← h.2]
  trivial

mutual

private theorem visit_fails : ∀ (t : FileTree) (rules : List IgnoreRules) (name path : String),
    (s.visit rules name path t).1.Fails
  | .file _, _, _, _ => by
    rw [visit]
    exact ⟨by simp [visitFile], by simp [visitFile]⟩
  | .link _, _, _, _ => by
    rw [visit]
    exact Found.fails_empty
  | .directory entries, rules, _, path => by
    have hentries := visitEntries_fails entries (s.withOwn path rules).1 path
    rw [visit]
    simp only
    split
    · next unreadable h =>
      refine ⟨fun failure hfailure => ?_, fun failure => ofSelection_withOwn⟩
      obtain rfl : unreadable = failure := Option.some.inj hfailure
      exact ofSelection_unreadable? h
    · exact .append ⟨by simp, fun failure => ofSelection_withOwn⟩ hentries

private theorem visitEntries_fails : ∀ (entries : List (String × FileTree))
    (rules : List IgnoreRules)
    (directory : String), (s.visitEntries rules directory entries).1.Fails
  | [], _, _ => by
    rw [visitEntries]
    exact Found.fails_empty
  | (name, t) :: entries, rules, directory => by
    rw [visitEntries]
    refine .append ?_ (visitEntries_fails entries _ directory)
    split
    · exact Found.fails_empty
    · exact visit_fails t rules name _

end

/-- A selection fails of what it reads and nothing else. -/
theorem files_error {failure : Failure} (h : s.files = .error failure) : OfSelection failure := by
  have hfound (f : Except Failure Found) (hf : s.found = f) :
      (∃ path cause, f = .error (.walk path cause)) ∨ ∃ found : Found, f = .ok found ∧
        found.Fails := by
    subst hf
    rw [found]
    split
    · exact .inl ⟨_, _, rfl⟩
    · split
      · exact .inl ⟨_, _, rfl⟩
      · exact .inr ⟨_, rfl, visitEntries_fails _ _ _⟩
    · exact .inr ⟨_, rfl, visit_fails _ _ _ _⟩
  rw [files] at h
  rcases hfound s.found rfl with ⟨path, cause, hf⟩ | ⟨found, hf, hfails⟩
  · simp only [hf, bind, Except.bind, Except.error.injEq] at h
    rw [← h]
    trivial
  · simp only [hf, bind, Except.bind] at h
    split at h
    · next failure' hor =>
      obtain rfl : failure' = failure := Except.error.inj h
      rcases Option.or_eq_some_iff.mp hor with hsome | ⟨-, hsome⟩
      · exact hfails.unreadable _ hsome
      · exact hfails.failure _ hsome
    · cases h

end GoContracts.Selection

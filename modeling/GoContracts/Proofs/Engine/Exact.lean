import GoContracts.Proofs.Engine.Failing
import GoContracts.Proofs.Engine.Project
import GoContracts.Proofs.Package.Rendering

/-!
# What a run amounts to

A run maps the selected files that hold directives, each to the shadow that it has in the package of
its directory, and stores these shadows. Files whose paths are too long are not loaded.
-/

namespace GoContracts

namespace Engine

open Package (StandsAt LoadedFrom filesIn ofFiles shadowIn? sourcesOf)
open Reporting (Gives value?)
open Session (Generated Renders directoryOf packageOf process publish rendered run shadowsOf start
  writesOf writeShadow)

variable {e : Engine} {d : Disk} {path text : String} {place cache file init : List String}
  {tree : FileTree} {name : String} {paths before : List String} {es : List (String × FileTree)}
  {package : Package} {text? : Option String} {mid t : Session} {f : Failure} {m : Manifest}
  {after : Session}

/-- The package of all source files of a directory of a tree. -/
def sources (place : List String) (tree : FileTree) (directory : List String) : Package :=
  match tree.get? directory with
  | some (.directory es) => ofFiles (sourcesOf (Path.ofPlace (place ++ directory)) es)
  | _ => {}

/-- The shadow of a file of a tree in the package of all source files of its directory. -/
def shadow? (place : List String) (tree : FileTree) (file : List String) : Option String :=
  (value? ((sources place tree file.dropLast).shadowAt? (Path.ofPlace (place ++ file))) []).join

/-- No source file in the directory of a selected file has a path that is too long. -/
def ShortSources (e : Engine) (d : Disk) (place : List String) (tree : FileTree) : Prop :=
  ∀ file, (e.selection d).Selects tree file → ∀ name content,
    tree.get? (file.dropLast ++ [name]) = some (.file content) →
      SourceFile.isSourceName name = true →
        Text.size (Path.ofPlace (place ++ (file.dropLast ++ [name]))) < Disk.pathLimit

/-- A selected file that holds a directive. -/
structure Compiles (e : Engine) (d : Disk) (place : List String) (tree : FileTree)
    (file : List String) : Prop where
  selected : (e.selection d).Selects tree file
  directive : ∃ s, tree.get? file = some (.file (.text s)) ∧
    (SourceFile.read (Path.ofPlace (place ++ file)) s).anchors ≠ []

/-- The path of the shadow of a file with the given text. -/
def shadowPath (e : Engine) (place file : List String) (text : String) : String :=
  Path.join e.cacheDirectory (Shadow.name (Path.ofPlace (place ++ file)) text)

/-- The manifest maps the selected files that hold directives, each once, and no other file. -/
structure Maps (e : Engine) (d : Disk) (place : List String) (tree : FileTree) (m : Manifest) :
    Prop where
  mapped : ∀ file, e.Compiles d place tree file → ∃ text, shadow? place tree file = some text ∧
    m.entries.countP (·.1 = Path.ofPlace (place ++ file)) = 1 ∧
      m.shadow? (Path.ofPlace (place ++ file)) = some (e.shadowPath place file text)
  others : ∀ path, (∀ file, e.Compiles d place tree file → Path.ofPlace (place ++ file) ≠ path) →
    m.entries.countP (·.1 = path) = 0

/-- Shadows with the same name have the same text. -/
def Distinct (e : Engine) (d : Disk) (place : List String) (tree : FileTree) : Prop :=
  ∀ file other text content, e.Compiles d place tree file → e.Compiles d place tree other →
    shadow? place tree file = some text → shadow? place tree other = some content →
    Path.fileStem (Path.ofPlace (place ++ file)) = Path.fileStem (Path.ofPlace (place ++ other)) →
    Shadow.digits text = Shadow.digits content → text = content

/-! ### The package of a selected file -/

/-- A selected file is found in the package that is loaded for its directory, which is made of all
source files there. -/
theorem Located.package_eq (h : e.Located d path place cache tree)
    (hshort : e.ShortSources d place tree)
    (hfiles : (e.selection d).files = .ok paths) (hfile : (e.selection d).Selects tree file)
    (hloaded : Package.loaded? d (directoryOf e.root (Path.ofPlace (place ++ file))) =
      some package) :
    package = sources place tree file.dropLast ∧ ∃ s, tree.get? file = some (.file (.text s)) ∧
      package.shadowAt? (Path.ofPlace (place ++ file)) =
        package.shadowOf? (.read (Path.ofPlace (place ++ file)) s) := by
  obtain ⟨init, name, es, rfl, hes, hstands, -⟩ := h.standsAt hfiles hfile
  obtain ⟨content, hcontent⟩ := hfile.isFile
  have hsource : SourceFile.isSourceName name = true := by
    simpa using hfile.source
  have hentry : (name, .file content) ∈ es := by
    rw [Package.mem_of_get? hstands.tree hstands.ascending, List.append_assoc, h.get?_append]
    exact hcontent
  rw [← List.append_assoc, hstands.directoryOf (hstands.plain _ hentry).1] at hloaded
  obtain ⟨files, hloads, rfl⟩ := Package.loaded?_eq_some.mp hloaded
  have hlengths : ∀ entry ∈ es, SourceFile.isSourceName entry.1 = true → entry.2.isFile = true →
      Text.size (Path.join (Path.ofPlace (place ++ init)) entry.1) < Disk.pathLimit := by
    rintro ⟨n, t⟩ hn hn' ht
    cases t with
    | file other =>
      have hlength := hshort (init ++ [name]) hfile n other
      rw [List.dropLast_concat, ← h.get?_append, ← List.append_assoc] at hlength
      rw [hstands.join_eq (hstands.plain _ hn).1]
      exact hlength ((Package.mem_of_get? hstands.tree hstands.ascending).mp hn) hn'
    | link | directory => cases ht
  have hlength := hlengths (name, .file content) hentry hsource rfl
  obtain ⟨s, rfl⟩ := hstands.isText hentry hsource hlength hloads
  have hall := hstands.files_eq hlengths hloads
  subst hall
  refine ⟨?_, s, hcontent, ?_⟩
  · rw [sources, List.dropLast_concat, hes]
  · rw [← List.append_assoc]
    exact hstands.shadowAt?_sourcesOf hentry hsource

/-- What becomes of a selected file: it has a shadow if it holds a directive. -/
theorem Located.shadow?_eq (h : e.Located d path place cache tree)
    (hshort : e.ShortSources d place tree)
    (hfiles : (e.selection d).files = .ok paths) (hfile : (e.selection d).Selects tree file)
    (hshadow : shadowIn? d (directoryOf e.root (Path.ofPlace (place ++ file)))
      (Path.ofPlace (place ++ file)) = some text?) :
    shadow? place tree file = text? ∧ (text?.isSome = true ↔ e.Compiles d place tree file) := by
  rw [shadowIn?, Option.bind_eq_some_iff] at hshadow
  obtain ⟨package, hloaded, hvalue⟩ := hshadow
  obtain ⟨rfl, s, hs, hat⟩ := h.package_eq hshort hfiles hfile hloaded
  refine ⟨by rw [shadow?, hvalue, Option.join_some], ?_⟩
  rw [hat] at hvalue
  obtain ⟨after, hgives⟩ := Reporting.gives_of_value? hvalue
  rw [Package.isSome_of_gives hgives]
  constructor
  · intro hanchors
    exact ⟨hfile, s, hs, hanchors⟩
  · rintro ⟨-, s', hs', hanchors⟩
    rw [hs, Option.some.injEq, FileTree.file.injEq, Content.text.injEq] at hs'
    rwa [hs']

/-! ### What is mapped and stored -/

/-- The shadows of a run are those of the selected files that hold directives. -/
theorem Located.mem_shadowsOf (h : e.Located d path place cache tree)
    (hshort : e.ShortSources d place tree) (hfiles : (e.selection d).files = .ok paths)
    (hbefore : before <+: paths) {q : String} (hmem : (q, text) ∈ shadowsOf d e.root before) :
    ∃ file, q = Path.ofPlace (place ++ file) ∧ e.Compiles d place tree file ∧
      shadow? place tree file = some text := by
  obtain ⟨hq, hshadow⟩ := Session.mem_shadowsOf.mp hmem
  obtain ⟨files, rfl, -, hselects⟩ := h.selected hfiles
  obtain ⟨file, hfile, rfl⟩ := List.mem_map.mp (hbefore.subset hq)
  obtain ⟨htext, hcompiles⟩ := h.shadow?_eq hshort hfiles ((hselects file).mp hfile) hshadow
  exact ⟨file, rfl, hcompiles.mp rfl, htext⟩

/-- A selected file that holds a directive has its shadow among those of the run. -/
theorem Located.exists_shadow (h : e.Located d path place cache tree)
    (hshort : e.ShortSources d place tree) (hfiles : (e.selection d).files = .ok paths)
    (ht : Generated (start e d).opened (place ++ cache) paths t)
    (hcompiles : e.Compiles d place tree file) : ∃ text, shadow? place tree file = some text ∧
      (Path.ofPlace (place ++ file), text) ∈ shadowsOf d e.root paths := by
  obtain ⟨files, hpaths, -, hselects⟩ := h.selected hfiles
  have hmem : Path.ofPlace (place ++ file) ∈ paths := by
    rw [hpaths]
    exact List.mem_map_of_mem ((hselects file).mpr hcompiles.selected)
  rcases ht.compiled.left _ hmem with ⟨text, htext⟩ | hnone
  · obtain ⟨-, hshadow⟩ := Session.mem_shadowsOf.mp htext
    exact ⟨text, (h.shadow?_eq hshort hfiles hcompiles.selected hshadow).1, htext⟩
  · have hshadow := (h.standsOutside hfiles _ hmem).shadowIn?_eq hnone
    have hsome := (h.shadow?_eq hshort hfiles hcompiles.selected hshadow).2.mpr hcompiles
    cases hsome

private theorem Located.maps (h : e.Located d path place cache tree)
    (hshort : e.ShortSources d place tree)
    (hfiles : (e.selection d).files = .ok paths)
    (ht : Generated (start e d).opened (place ++ cache) paths t) :
    e.Maps d place tree t.engine.manifest := by
  have hasc : t.engine.manifest.Ascending := by
    rw [h.manifest_eq ht]
    exact Manifest.Ascending.empty.recordAll
  have hmapped {file shadow : String} : t.engine.manifest.shadow? file = some shadow ↔
      ∃ text, (file, text) ∈ shadowsOf d e.root paths ∧
        shadow = Shadow.pathIn e.cacheDirectory (file, text) := by
    rw [h.manifest_eq ht, Manifest.shadow?_recordAll_eq_some]
    · simp only [List.mem_map, Prod.mk.injEq, Prod.exists]
      constructor
      · rintro ⟨file, text, htext, rfl, rfl⟩
        exact ⟨text, htext, rfl⟩
      · rintro ⟨text, htext, rfl⟩
        exact ⟨file, text, htext, rfl, rfl⟩
    · -- A file has one shadow only.
      intro file a b ha hb
      obtain ⟨⟨_, text⟩, htext, hfile⟩ := List.mem_map.mp ha
      obtain ⟨rfl, rfl⟩ := Prod.mk.inj hfile
      obtain ⟨⟨_, content⟩, hcontent, hfile⟩ := List.mem_map.mp hb
      obtain ⟨rfl, rfl⟩ := Prod.mk.inj hfile
      have hsame := (Session.mem_shadowsOf.mp htext).2.symm.trans
        (Session.mem_shadowsOf.mp hcontent).2
      rw [Option.some.injEq, Option.some.injEq] at hsame
      rw [hsame]
  constructor
  · intro file hcompiles
    obtain ⟨text, hshadow, hmem⟩ := h.exists_shadow hshort hfiles ht hcompiles
    have hvalue := hmapped.mpr ⟨text, hmem, rfl⟩
    refine ⟨text, hshadow, ?_, hvalue⟩
    rw [hasc.count, ← Manifest.shadow?_eq_value?, hvalue]
    rfl
  · intro q hothers
    rw [hasc.count, ← Manifest.shadow?_eq_value?]
    cases hvalue : t.engine.manifest.shadow? q with
    | none => rfl
    | some shadow =>
      obtain ⟨text, hmem, -⟩ := hmapped.mp hvalue
      obtain ⟨file, rfl, hcompiles, -⟩ := h.mem_shadowsOf hshort hfiles (List.prefix_refl _) hmem
      exact absurd rfl (hothers file hcompiles)

/-- Each shadow that is mapped is read back. -/
theorem Located.stored (h : e.Located d path place cache tree)
    (hshort : e.ShortSources d place tree)
    (hfiles : (e.selection d).files = .ok paths)
    (ht : Generated (start e d).opened (place ++ cache) paths t) {d' : Disk}
    (hwritten : Disk.Generates (place ++ cache)
      [(place ++ cache ++ [Manifest.fileName], t.engine.manifest.render)] t.disk d')
    (hdistinct : e.Distinct d place tree) (hcompiles : e.Compiles d place tree file)
    (htext : shadow? place tree file = some text) :
    d'.readText (e.shadowPath place file text) = .ok text := by
  obtain ⟨content, hcontent, hmem⟩ := h.exists_shadow hshort hfiles ht hcompiles
  obtain rfl : text = content := Option.some.inj (htext.symm.trans hcontent)
  have hwrites := h.writesAt.follows ht.compiled.follows
  have hdirectory : t.writer.directory = e.cacheDirectory := ht.compiled.follows.directory
  -- Where the shadow is found stands the shadow of a file with the same name.
  obtain ⟨q, ⟨other, last⟩, hother, hholds, hholds'⟩ := (ht.compiled.stores h.rooted).stored _ hmem
  have hplace {shadow : String × String}
      (hfound : t.disk.Holds (Shadow.pathIn e.cacheDirectory shadow) q last) :
      q = place ++ cache ++ [Shadow.name shadow.1 shadow.2] := by
    apply hwrites.writePlace_eq Shadow.plain_name Shadow.name_ne_up
    rw [hdirectory]
    exact Disk.writePlace_of_find hfound rfl
  have hname : Shadow.name (Path.ofPlace (place ++ file)) text = Shadow.name other last := by
    have hsame := (hplace hholds).symm.trans (hplace hholds')
    rwa [List.append_right_inj, List.singleton_inj] at hsame
  obtain ⟨otherFile, rfl, hotherCompiles, hlast⟩ :=
    h.mem_shadowsOf hshort hfiles (List.prefix_refl _) hother
  obtain ⟨hstem, hdigits⟩ := Shadow.name_inj hname
  obtain rfl : text = last :=
    hdistinct file otherFile text last hcompiles hotherCompiles htext hlast hstem hdigits
  have hnode := hholds.nodeAt? hwrites.rooted
  have hlast : Disk.lastAt [(place ++ cache ++ [Manifest.fileName], t.engine.manifest.render)] q =
      none := by
    rw [Disk.lastAt_singleton, if_neg]
    rw [hplace hholds, List.append_right_inj, List.singleton_inj]
    exact Shadow.name_ne_manifest.symm
  have hkept : d'.root.nodeAt? q = some (.file (.text text)) := by
    rcases hwritten.others q hlast with hsame | ⟨-, hnone, -⟩
    · rw [hsame, hnode]
    · rw [hnode] at hnone
      cases hnone
  exact (hholds.grown hwritten.grown hwrites.rooted hkept).readText

/-! ### Failures and runs without directives -/

/-- The selected file that fails has a source in the package of its directory. -/
theorem Located.process_error (h : e.Located d path place cache tree)
    (hshort : e.ShortSources d place tree) {q : String} {rest : List String}
    (hfiles : (e.selection d).files = .ok (before ++ q :: rest))
    (hmid : Generated (start e d).opened (place ++ cache) before mid)
    (hfails : process q mid = (.error f, t)) (at_ : String) : f ≠ .fileNotInPackage at_ := by
  have hwrites := h.writesAt.follows hmid.compiled.follows
  rcases Session.process_error hfails with hrendered | ⟨text, looked, hrendered, hwrite⟩
  · rcases Session.rendered_error hrendered with ⟨_, _, rfl⟩ | ⟨package, looked, hpackage, hat⟩
    · simp
    · have hq : q ∈ before ++ q :: rest := by simp
      have hstands := h.standsOutside hfiles q hq
      obtain ⟨⟨near, hsame, hnear⟩, -⟩ := Session.packageOf_ok hmid.compiled.knows
        (fun _ => hmid.load h.writesAt h.wellFormed.ordered hstands) hpackage
      have hroot : mid.engine.root = e.root := hmid.compiled.follows.root
      rw [hroot] at hsame
      have hloaded := hstands.loaded?_of_same hsame hnear
      obtain ⟨files, hpaths, -, hselects⟩ := h.selected hfiles
      rw [hpaths] at hq
      obtain ⟨file, hfile, rfl⟩ := List.mem_map.mp hq
      obtain ⟨-, s, -, hshadow⟩ := h.package_eq hshort hfiles ((hselects file).mp hfile) hloaded
      rw [hshadow] at hat
      obtain ⟨expression, rfl⟩ := Package.shadowOf?_error hat
      simp
  · have hlooks := Session.rendered_looks mid q
    rw [hrendered] at hlooks
    have hrooted := (hwrites.follows hlooks.follows).rooted
    obtain ⟨_, _, rfl | rfl⟩ := (Session.writeShadow_error hrooted hwrite).1 <;> simp

/-- Where no file holds a directive, nothing is written for those that are processed. -/
theorem Located.shadowsOf_eq_nil (h : e.Located d path place cache tree)
    (hshort : e.ShortSources d place tree) (hnone : ∀ file, ¬e.Compiles d place tree file)
    (hfiles : (e.selection d).files = .ok paths) (hbefore : before <+: paths) :
    shadowsOf d e.root before = [] := by
  apply List.eq_nil_iff_forall_not_mem.mpr
  rintro ⟨q, text⟩ hmem
  obtain ⟨file, -, hcompiles, -⟩ := h.mem_shadowsOf hshort hfiles hbefore hmem
  exact hnone file hcompiles

/-- A file that is processed where no file holds a directive leaves the disk alone. -/
theorem Located.disk_of_process (h : e.Located d path place cache tree)
    (hshort : e.ShortSources d place tree)
      (hnone : ∀ file, ¬e.Compiles d place tree file) {q : String}
    {rest : List String} (hfiles : (e.selection d).files = .ok (before ++ q :: rest))
    (hmid : Generated (start e d).opened (place ++ cache) before mid)
    (hfails : process q mid = (.error f, t)) : t.disk = mid.disk := by
  have hwrites := h.writesAt.follows hmid.compiled.follows
  have hlooks := Session.rendered_looks mid q
  rcases Session.process_error hfails with hrendered | ⟨text, looked, hrendered, -⟩ <;>
    rw [hrendered] at hlooks
  · exact hlooks.disk
  · -- A file that is rendered with a shadow holds a directive.
    have hq : q ∈ before ++ q :: rest := by simp
    have hstands := h.standsOutside hfiles q hq
    obtain ⟨hrenders, -⟩ := Session.rendered_ok hmid.compiled.knows
      (fun _ => hmid.load h.writesAt h.wellFormed.ordered hstands) hrendered
    have hroot : mid.engine.root = e.root := hmid.compiled.follows.root
    rw [hroot] at hrenders
    have hshadow := hstands.shadowIn?_eq hrenders
    obtain ⟨files, hpaths, -, hselects⟩ := h.selected hfiles
    rw [hpaths] at hq
    obtain ⟨file, hfile, rfl⟩ := List.mem_map.mp hq
    have hcompiles := (h.shadow?_eq hshort hfiles ((hselects file).mp hfile) hshadow).2
    exact absurd (hcompiles.mp rfl) (hnone file)

/-- Where no file holds a directive, the disk is left alone. -/
theorem Located.disk_eq (h : e.Located d path place cache tree)
    (hshort : e.ShortSources d place tree)
    (hnone : ∀ file, ¬e.Compiles d place tree file) : (run (start e d)).2.disk = d := by
  have hempty {paths : List String} {t : Session} (hfiles : (e.selection d).files = .ok paths)
      (ht : Generated (start e d).opened (place ++ cache) paths t) :
      t.engine.manifest.isEmpty = true := by
    rw [h.manifest_eq ht, h.shadowsOf_eq_nil hshort hnone hfiles (List.prefix_refl _)]
    rfl
  have hran := h.ran
  generalize (run (start e d)).1 = r at hran
  generalize (run (start e d)).2.disk = last at hran ⊢
  cases hran with
  | unselected => rfl
  | unprocessed hfiles hmid hfails =>
    have hbefore := h.shadowsOf_eq_nil hshort hnone hfiles (List.prefix_append ..)
    rw [h.disk_of_process hshort hnone hfiles hmid hfails]
    exact hmid.compiled.disk hbefore
  | unpublished hfiles ht hfails =>
    have hmapped := (hempty hfiles ht).symm.trans (Session.publish_error hfails).1
    cases hmapped
  | unmapped hfiles ht =>
    exact ht.compiled.disk (h.shadowsOf_eq_nil hshort hnone hfiles (List.prefix_refl _))
  | published hfiles ht hmapped =>
    rw [hempty hfiles ht] at hmapped
    cases hmapped

/-- If no path of a source file is too long, every selected file is loaded with the package of its
directory. A run that succeeds maps exactly the selected files that hold directives, and the shadows
that are mapped stand on the disk unless shadows of one name differ. Where no selected file holds a
directive, the disk is left alone. -/
theorem run_exact (h : e.Located d path place cache tree) (hshort : e.ShortSources d place tree) :
    (∀ q, (run (start e d)).1 ≠ .error (.fileNotInPackage q)) ∧
    (∀ m after, run (start e d) = (.ok m, after) → e.Maps d place tree m ∧
      (e.Distinct d place tree → ∀ file text, e.Compiles d place tree file →
        shadow? place tree file = some text →
          after.disk.readText (e.shadowPath place file text) = .ok text)) ∧
    ((∀ file, ¬e.Compiles d place tree file) → (run (start e d)).2.disk = d) := by
  have hran := h.ran
  refine ⟨fun q hq => ?_, fun m after hrun => ?_, h.disk_eq hshort⟩
  · rw [hq] at hran
    generalize (run (start e d)).2.disk = last at hran
    cases hran with
    | unselected hfiles => exact Selection.files_error hfiles
    | unprocessed hfiles hmid hfails => exact h.process_error hshort hfiles hmid hfails q rfl
    | unpublished hfiles ht hfails =>
      obtain ⟨-, _, _, hf | hf⟩ := Session.publish_error hfails <;> cases hf
  · rw [hrun] at hran
    simp only at hran
    generalize after.disk = last at hran ⊢
    cases hran with
    | unmapped hfiles ht hempty =>
      have hmaps := h.maps hshort hfiles ht
      refine ⟨hmaps, fun _ file text hcompiles _ => ?_⟩
      obtain ⟨text, -, -, hvalue⟩ := hmaps.mapped file hcompiles
      rw [Manifest.isEmpty_iff.mp hempty] at hvalue
      cases hvalue
    | published hfiles ht hempty hwritten =>
      exact ⟨h.maps hshort hfiles ht, fun hdistinct file text hcompiles htext =>
        h.stored hshort hfiles ht hwritten hdistinct hcompiles htext⟩

/-! ### A path that is too long -/

/-- A source file with a directive. -/
def contract : String := "package p\n/* @must */"

/-- A source file at the end of a chain of directories. -/
def chain : Nat → FileTree
  | 0 => .directory [("a.go", .file (.text contract))]
  | n + 1 => .directory [("d", chain n)]

/-- The names of the directories of a chain. -/
def chainNames (n : Nat) : List String := List.replicate n "d"

/-- The place of the file at the end of a chain. -/
def chainFile (n : Nat) : List String := chainNames n ++ ["a.go"]

/-- A disk that holds a chain. -/
def chained (n : Nat) : Disk := { root := chain n }

variable {n k : Nat} {names : List String} {u : FileTree}

private theorem isDirectory_chain : (chain n).isDirectory = true := by cases n <;> rfl

/-- What stands in a chain is one of its directories, or the file. -/
theorem get?_chain (h : (chain n).get? names = some u) :
    (∃ k ≤ n, names = chainNames k ∧ u = chain (n - k)) ∨
      names = chainFile n ∧ u = .file (.text contract) := by
  induction n generalizing names with
  | zero =>
    cases names with
    | nil => exact .inl ⟨0, Nat.le_refl 0, rfl, (Option.some.inj h).symm⟩
    | cons name rest =>
      rw [chain, FileTree.get?_cons, FileTree.below?_directory_cons] at h
      split at h
      · next hname =>
        subst hname
        cases rest with
        | nil => exact .inr ⟨rfl, (Option.some.inj h).symm⟩
        | cons second rest => cases h
      · cases h
  | succ n ih =>
    cases names with
    | nil => exact .inl ⟨0, Nat.zero_le _, rfl, (Option.some.inj h).symm⟩
    | cons name rest =>
      rw [chain, FileTree.get?_cons, FileTree.below?_directory_cons] at h
      split at h
      · next hname =>
        subst hname
        rcases ih h with ⟨k, hk, rfl, rfl⟩ | ⟨rfl, rfl⟩
        · exact .inl ⟨k + 1, by omega, rfl, by rw [Nat.add_sub_add_right]⟩
        · exact .inr ⟨rfl, rfl⟩
      · cases h

private theorem get?_chainNames (n : Nat) : (chain n).get? (chainNames n) = some (chain 0) := by
  induction n with
  | zero => rfl
  | succ n ih => exact ih

private theorem get?_chainFile (n : Nat) :
    (chain n).get? (chainFile n) = some (.file (.text contract)) := by
  rw [chainFile, FileTree.get?_concat, get?_chainNames]
  rfl

/-- The chain of directories has no links. -/
theorem linkless_chain : (chain n).Linkless := by
  intro place target hlink
  rcases get?_chain hlink with ⟨k, -, -, hdirectory⟩ | ⟨-, hfile⟩
  · have hkind := isDirectory_chain (n := n - k)
    rw [← hdirectory] at hkind
    cases hkind
  · cases hfile

private theorem wellFormed_chain : (chain n).WellFormed := by
  induction n with
  | zero =>
    simp only [chain, FileTree.wellFormed_directory, Keyed.Ascending.iff_keys, List.map_cons,
      List.map_nil, List.forall_mem_cons, List.not_mem_nil, false_implies, implies_true, and_true,
      FileTree.wellFormed_file]
    decide
  | succ n ih =>
    rw [chain, FileTree.wellFormed_directory]
    refine ⟨List.pairwise_singleton .., fun e he => ?_⟩
    obtain rfl := List.mem_singleton.mp he
    exact ⟨(by decide : Disk.IsName "d"), ih⟩

private theorem size_chainNames : Text.size (Path.ofPlace (chainNames k)) ≤ 2 * k + 1 := by
  induction k with
  | zero => decide
  | succ k ih =>
    rw [chainNames, List.replicate_succ', ← chainNames, Path.ofPlace_concat]
    have hsep : Text.size (if chainNames k = [] then "" else "/") ≤ 1 := by split <;> decide
    have hname : Text.size "d" = 1 := by decide
    simp only [Text.size, String.utf8ByteSize_append] at *
    omega

private theorem size_chainFile : Text.size (Path.ofPlace (chainFile n)) = 2 * n + 5 := by
  have hdirectories (k : Nat) : Text.size (Path.ofPlace (chainNames (k + 1))) = 2 * k + 2 := by
    induction k with
    | zero => decide
    | succ k ih =>
      rw [chainNames, List.replicate_succ', ← chainNames, Path.ofPlace_concat,
        if_neg (by simp [chainNames])]
      have hsep : Text.size "/" = 1 := by decide
      have hname : Text.size "d" = 1 := by decide
      simp only [Text.size, String.utf8ByteSize_append] at *
      omega
  cases n with
  | zero => decide
  | succ n =>
    rw [chainFile, Path.ofPlace_concat, if_neg (by simp [chainNames])]
    have hlength := hdirectories n
    have hsep : Text.size "/" = 1 := by decide
    have hname : Text.size "a.go" = 4 := by decide
    simp only [Text.size, String.utf8ByteSize_append] at *
    omega

/-- The chained project stands at the root and its cache in a directory of its own. -/
theorem located_chained (n : Nat) :
    atRoot.Located (chained n) "/" [] [".inco_cache"] (chain n) where
  rooted := FileTree.nodeAt?_eq_directory.mpr (by cases n <;> exact ⟨_, rfl⟩)
  wellFormed := wellFormed_chain
  created := .inl ⟨{}, rfl⟩
  found := Disk.find_slash _
  isDirectory := isDirectory_chain
  linkless := linkless_chain
  caches := ⟨by decide, by decide, by simp, by decide⟩

private theorem shortSources_chained (hn : 2 * n + 5 < Disk.pathLimit) :
    atRoot.ShortSources (chained n) [] (chain n) := by
  intro file _ name content hget _
  rcases get?_chain hget with ⟨k, -, -, hdirectory⟩ | ⟨hplace, -⟩
  · have hkind := isDirectory_chain (n := n - k)
    rw [← hdirectory] at hkind
    cases hkind
  · rw [List.nil_append, hplace, size_chainFile]
    exact hn

/-- The file at the end of a short chain is mapped. -/
theorem mapped_chained : ∃ m after, run (start atRoot (chained 1)) =
    (.ok m, after) ∧ m.size = 1 := by
  have hsize : (run (start atRoot (chained 1))).1.toOption.map Manifest.size = some 1 := by
    decide +kernel
  rcases hrun : run (start atRoot (chained 1)) with ⟨f | m, after⟩ <;> rw [hrun] at hsize
  · cases hsize
  · exact ⟨m, after, rfl, Option.some.inj hsize⟩

/-- There is no ignore file in a chain. -/
theorem rulesOf_chained (hget : (chain n).get? names = some u) :
    (atRoot.selection (chained n)).rulesOf ((atRoot.selection (chained n)).pathOf names) =
      .ok none := by
  have h := located_chained n
  have hnames := wellFormed_chain.named names u hget
  have hignore : Disk.IsName ".incoignore" := by decide
  have hall : ∀ m ∈ names ++ [".incoignore"], Disk.IsName m := by
    simpa [or_imp, forall_and, hignore] using hnames
  rw [h.pathOf fun m hm => (hnames m hm).plain, List.nil_append, Selection.rulesOf, if_neg]
  change ¬(chained n).isFile (Path.join (Path.ofPlace names) ".incoignore") = true
  have hclear : (chained n).Clear ([] ++ (names ++ [".incoignore"])) := h.clear
  rw [Path.join_ofPlace (fun m hm => (hnames m hm).plain) hignore.plain,
    Disk.isFile_ofPlace h.rooted hall hclear]
  rintro ⟨-, content, hfile⟩
  rcases get?_chain hfile with ⟨k, -, hplace, -⟩ | ⟨hplace, -⟩
  · have hmem : ".incoignore" ∈ chainNames k := hplace ▸ by simp
    exact absurd (List.eq_of_mem_replicate hmem) (by decide)
  · exact absurd (List.append_inj' hplace rfl).2 (by decide)

/-- What stands on the way to the file is a directory of the chain. -/
theorem get?_of_above {directory : List String} (h : directory <+: chainFile n) :
    (∃ v, (chain n).get? directory = some v) ∧
      (directory ≠ chainFile n → ∃ k, directory = chainNames k) := by
  obtain ⟨rest, hrest⟩ := h
  have hget := get?_chainFile n
  rw [← hrest, FileTree.get?_append, Option.bind_eq_some_iff] at hget
  obtain ⟨v, hv, -⟩ := hget
  refine ⟨⟨v, hv⟩, fun hne => ?_⟩
  rcases get?_chain hv with ⟨k, -, hplace, -⟩ | ⟨hplace, -⟩
  · exact ⟨k, hplace⟩
  · exact absurd hplace hne

private theorem selects_chained :
    (atRoot.selection (chained n)).Selects (chain n) file ↔ file = chainFile n := by
  have h := located_chained n
  constructor
  · intro hselects
    obtain ⟨content, hcontent⟩ := hselects.isFile
    rcases get?_chain hcontent with ⟨k, -, -, hdirectory⟩ | ⟨hplace, -⟩
    · have hkind := isDirectory_chain (n := n - k)
      rw [← hdirectory] at hkind
      cases hkind
    · exact hplace
  · rintro rfl
    refine ⟨⟨_, get?_chainFile n⟩, ?_, ?_, ?_, rfl⟩
    · rw [chainFile, List.getLastD_concat]
      decide +kernel
    · intro directory hstarts hne hfile
      obtain ⟨k, rfl⟩ := (get?_of_above hstarts).2 hfile
      obtain ⟨k, rfl⟩ : ∃ m, k = m + 1 :=
        Nat.exists_eq_succ_of_ne_zero (by rintro rfl; exact hne rfl)
      have hname : (chainNames (k + 1)).getLastD "" = "d" := by
        rw [chainNames, List.replicate_succ', List.getLastD_concat]
      have hplain : ∀ m ∈ chainNames (k + 1), Path.Plain m := by
        intro m hm
        rw [List.eq_of_mem_replicate hm]
        exact (by decide : Disk.IsName "d").plain
      rw [hname]
      refine ⟨by decide +kernel, (by decide : "d" ∉ atRoot.settings.skippedDirectories), ?_⟩
      change Path.same _ atRoot.cacheDirectory = false
      rw [h.pathOf hplain, List.nil_append, Bool.eq_false_iff, Ne,
        Path.same_iff Path.isAbsolute_ofPlace h.goesDown.isAbsolute, Path.spelled_ofPlace hplain,
        h.spelled_cacheDirectory, chainNames, List.replicate_succ]
      exact fun hsame => absurd (List.cons.inj hsame).1 (by decide)
    · rintro directory rest hstarts - ⟨rules, hrules, -⟩
      obtain ⟨v, hv⟩ := (get?_of_above ((List.prefix_append directory rest).trans hstarts)).1
      rw [Selection.own?, rulesOf_chained hv] at hrules
      cases hrules

/-- Only the file of a chain is compiled, so no two shadows share a name. -/
theorem distinct_chained : atRoot.Distinct (chained n) [] (chain n) := by
  intro file other text content hfile hother htext hcontent _ _
  rw [selects_chained.mp hfile.selected] at htext
  rw [selects_chained.mp hother.selected, htext] at hcontent
  exact Option.some.inj hcontent

/-- The file of the chained project compiles. -/
theorem compiles_chained : atRoot.Compiles (chained 1) [] (chain 1) (chainFile 1) :=
  ⟨selects_chained.mpr rfl, contract, get?_chainFile 1, by decide +kernel⟩

/-- The run over a project of one file, whose shadow has the text that was made for it. -/
theorem run_exact_chained :
    (∀ q, (run (start atRoot (chained 1))).1 ≠ .error (.fileNotInPackage q)) ∧
    atRoot.Compiles (chained 1) [] (chain 1) (chainFile 1) ∧
    ∃ m after, run (start atRoot (chained 1)) = (.ok m, after) ∧ m.size = 1 ∧
      atRoot.Maps (chained 1) [] (chain 1) m ∧
      ∃ text, shadow? [] (chain 1) (chainFile 1) = some text ∧
        after.disk.readText (atRoot.shadowPath [] (chainFile 1) text) = .ok text := by
  obtain ⟨hloaded, hmaps, -⟩ := run_exact (located_chained 1) (shortSources_chained (by decide))
  obtain ⟨m, after, hrun, hsize⟩ := mapped_chained
  obtain ⟨hmapped, hstored⟩ := hmaps m after hrun
  obtain ⟨text, htext, -⟩ := hmapped.mapped _ compiles_chained
  exact ⟨hloaded, compiles_chained, m, after, hrun, hsize, hmapped, text, htext,
    hstored distinct_chained _ text compiles_chained htext⟩

private theorem files_chained (hn : 2 * n + 1 < Disk.pathLimit) :
    (atRoot.selection (chained n)).files = .ok [Path.ofPlace (chainFile n)] := by
  have h := located_chained n
  have hroot : (atRoot.selection (chained n)).RootIs [] (chain n) :=
    ⟨Disk.find_slash _, isDirectory_chain, wellFormed_chain⟩
  have hplain {names : List String} {u : FileTree} (hget : (chain n).get? names = some u) :
      ∀ m ∈ names, Path.Plain m := fun m hm => (wellFormed_chain.named names u hget m hm).plain
  rw [Selection.files_iff hroot]
  constructor
  · intro names u hreached hu
    have hget := (Selection.reaches_iff.mp hreached).1
    refine ⟨?_, by rw [rulesOf_chained hget]; rfl⟩
    rcases get?_chain hget with ⟨k, hk, rfl, -⟩ | ⟨-, rfl⟩
    · have hlength := size_chainNames (k := k)
      rw [h.pathOf (hplain hget), List.nil_append, Selection.unreadable?, if_neg (by omega)]
    · cases hu
  · refine ⟨[chainFile n], ?_, List.pairwise_singleton .., fun file => ?_⟩
    · rw [List.map_singleton, h.pathOf (hplain (get?_chainFile n)), List.nil_append]
    · rw [List.mem_singleton, selects_chained]

/-- A file whose path is too long is not loaded with its directory. -/
theorem filesIn_chained (hn : 2 * n + 1 < Disk.pathLimit) (hlong : Disk.pathLimit ≤ 2 * n + 5) :
    filesIn (chained n) (directoryOf "/" (Path.ofPlace (chainFile n))) = .ok [] := by
  have h := located_chained n
  obtain ⟨init, name, es, hfile, hes, hstands, -⟩ :=
    h.standsAt (files_chained hn) (selects_chained.mpr rfl)
  obtain ⟨rfl, hname⟩ := List.append_inj' hfile rfl
  obtain rfl : "a.go" = name := List.singleton_inj.mp hname
  rw [get?_chainNames, Option.some.injEq] at hes
  obtain rfl : [("a.go", .file (.text contract))] = es := FileTree.directory.inj hes
  rw [List.nil_append] at hstands
  have hplain := (hstands.plain _ (List.mem_singleton_self _)).1
  have hsources : Package.sourceNames (Path.ofPlace (chainNames n))
      [("a.go", .file (.text contract))] = [] := by
    rw [Package.sourceNames, List.filter_singleton, hstands.join_eq hplain, ← chainFile,
      size_chainFile, decide_eq_false (by omega)]
    simp
  rw [chainFile, hstands.directoryOf hplain, hstands.filesIn_eq, hsources]
  rfl

/-- A selected file whose path is too long is missing in its package. -/
theorem run_chained (hn : 2 * n + 1 < Disk.pathLimit) (hlong : Disk.pathLimit ≤ 2 * n + 5) :
    (run (start atRoot (chained n))).1 =
      .error (.fileNotInPackage (Path.ofPlace (chainFile n))) := by
  obtain ⟨s, hs⟩ : ∃ s, (start atRoot (chained n)).opened = s := ⟨_, rfl⟩
  have hpackage : (packageOf (directoryOf s.engine.root (Path.ofPlace (chainFile n))) s).1 =
      .ok (ofFiles []) := by
    rw [Session.packageOf_of_empty (by rw [← hs]; rfl), ← hs]
    exact congrArg (Except.map ofFiles) (filesIn_chained hn hlong)
  have hprocess : ∃ t, process (Path.ofPlace (chainFile n)) s =
      (.error (.fileNotInPackage (Path.ofPlace (chainFile n))), t) := by
    rw [directoryOf] at hpackage
    rw [Session.process_eq, Session.rendered_eq]
    revert hpackage
    rcases packageOf ((Path.parent? (Path.ofPlace (chainFile n))).getD s.engine.root) s with ⟨r, t⟩
    intro hpackage
    obtain rfl : r = .ok (ofFiles []) := hpackage
    exact ⟨_, rfl⟩
  obtain ⟨t, ht⟩ := hprocess
  rw [← hs] at ht
  have hfiles : (atRoot.selection (chained n)).files =
    .ok ([] ++ Path.ofPlace (chainFile n) :: []) :=
    files_chained hn
  have hrun : run (start atRoot (chained n)) = _ :=
    Session.run_of_process_error hfiles Session.compile_nil ht
  rw [hrun]

/-- The directories of a chain of 2046 have paths that can be followed, but not the file. -/
theorem fileNotInPackage_chained :
    atRoot.Located (chained 2046) "/" [] [".inco_cache"] (chain 2046) ∧
      (run (start atRoot (chained 2046))).1 =
        .error (.fileNotInPackage (Path.ofPlace (chainFile 2046))) :=
  ⟨located_chained 2046, run_chained (by decide) (by decide)⟩

end Engine

end GoContracts

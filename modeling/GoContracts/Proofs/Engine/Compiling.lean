import GoContracts.Proofs.Engine.Loop
import GoContracts.Proofs.Overlay.Storing
import GoContracts.Proofs.Package.Uniformity

/-!
# What the loop leaves behind

Each file of the loop is rendered in a package of its directory. A shadow that comes of it is stored
and recorded, and nothing else happens on the disk.
-/

namespace GoContracts.Session

open Reporting (value?)

variable {s t u : Session} {directory path text : String} {paths more : List String} {f : Failure}
  {r : Except Failure Unit} {text? : Option String} {package : Package}
  {known : String → Package → Prop} {shadows others : List (String × String)}

/-- The directory in whose package a file is compiled. -/
def directoryOf (root path : String) : String := (Path.parent? path).getD root

/-- What one of the packages known for a directory makes of a file: the text of its shadow, or none
if it holds no directive. -/
def Renders (known : String → Package → Prop) (directory path : String) (text? : Option String) :
    Prop :=
  ∃ near package, Path.same near directory = true ∧ known near package ∧
    value? (package.shadowAt? path) [] = some text?

/-- All loaded packages are known. -/
def Knows (s : Session) (known : String → Package → Prop) : Prop :=
  ∀ entry ∈ s.engine.packages, known entry.1 entry.2

/-- A package is one that is known for its directory, and what is known stays so. -/
theorem packageOf_ok (hs : s.Knows known)
    (hload : ∀ package, value? (Package.load s.disk directory) [] = some package →
      known directory package)
    (h : packageOf directory s = (.ok package, t)) :
    (∃ near, Path.same near directory = true ∧ known near package) ∧ t.Knows known := by
  rw [packageOf_eq] at h
  split at h
  · next cached hcached =>
    obtain ⟨hpackage, rfl⟩ := Prod.mk.inj h
    obtain rfl := Except.ok.inj hpackage
    obtain ⟨entry, hentry, rfl⟩ := Option.map_eq_some_iff.mp hcached
    obtain ⟨hsame, -⟩ := List.find?_eq_some_iff_append.mp hentry
    exact ⟨⟨entry.1, hsame, hs entry (List.mem_of_find?_eq_some hentry)⟩, hs⟩
  · split at h
    · cases (Prod.mk.inj h).1
    · next loaded reports hloaded =>
      obtain ⟨hpackage, rfl⟩ := Prod.mk.inj h
      obtain rfl := Except.ok.inj hpackage
      have hknown := hload loaded (Package.uniform_load.value?_eq hloaded)
      refine ⟨⟨directory, by simp [Path.same], hknown⟩, fun entry hentry => ?_⟩
      rcases List.mem_cons.mp hentry with rfl | hentry
      · exact hknown
      · exact hs entry hentry

/-- A file is rendered by a package that is known, and what is known stays so. -/
theorem rendered_ok (hs : s.Knows known)
    (hload : ∀ package,
      value? (Package.load s.disk (directoryOf s.engine.root path)) [] = some package →
      known (directoryOf s.engine.root path) package)
    (h : rendered path s = (.ok text?, t)) :
    Renders known (directoryOf s.engine.root path) path text? ∧ t.Knows known := by
  rw [rendered_eq] at h
  split at h
  · cases (Prod.mk.inj h).1
  · next package mid hpackage =>
    obtain ⟨⟨near, hsame, hknown⟩, hmid⟩ := packageOf_ok hs hload hpackage
    obtain ⟨htext, rfl⟩ := Prod.mk.inj h
    have hgives : Reporting.Gives (package.shadowAt? path) mid.reports text?
        (package.shadowAt? path mid.reports).2 := Prod.ext htext rfl
    exact ⟨⟨near, package, hsame, hknown, Package.uniform_shadowAt?.value?_eq hgives⟩, hmid⟩

/-- From one session to another files have been compiled, with the shadows that are given in
order. -/
structure Compiled (known : String → Package → Prop) (s : Session) (paths : List String)
    (shadows : List (String × String)) (t : Session) : Prop where
  follows : Follows s t
  knows : t.Knows known
  stores : s.disk.Rooted → Disk.Stores s.writer.directory shadows s.disk t.disk
  disk : shadows = [] → t.disk = s.disk
  manifest : t.engine.manifest = s.engine.manifest.recordAll
    (shadows.map fun shadow => (shadow.1, Shadow.pathIn s.writer.directory shadow))
  made : ∀ shadow ∈ shadows, shadow.1 ∈ paths ∧
    Renders known (directoryOf s.engine.root shadow.1) shadow.1 (some shadow.2)
  left : ∀ path ∈ paths, (∃ text, (path, text) ∈ shadows) ∨
    Renders known (directoryOf s.engine.root path) path none

/-- Two lists of files are compiled one after the other. -/
theorem Compiled.trans (h : Compiled known s paths shadows t)
    (h' : Compiled known t more others u) :
    Compiled known s (paths ++ more) (shadows ++ others) u where
  follows := h.follows.trans h'.follows
  knows := h'.knows
  stores hd := by
    have hstores := h'.stores ((h.follows.grown hd).rooted hd)
    rw [h.follows.directory] at hstores
    exact (h.stores hd).trans hd hstores
  disk hnil := by
    obtain ⟨hnil, hnil'⟩ := List.append_eq_nil_iff.mp hnil
    exact (h'.disk hnil').trans (h.disk hnil)
  manifest := by
    rw [h'.manifest, h.manifest, h.follows.directory, List.map_append, Manifest.recordAll_append]
  made shadow hshadow := by
    rcases List.mem_append.mp hshadow with hshadow | hshadow
    · exact (h.made shadow hshadow).imp_left (List.mem_append_left _)
    · rw [← h.follows.root]
      exact (h'.made shadow hshadow).imp_left (List.mem_append_right _)
  left path hpath := by
    rcases List.mem_append.mp hpath with hpath | hpath
    · exact (h.left path hpath).imp_left fun ⟨text, ht⟩ => ⟨text, List.mem_append_left _ ht⟩
    · rw [← h.follows.root]
      exact (h'.left path hpath).imp_left fun ⟨text, ht⟩ => ⟨text, List.mem_append_right _ ht⟩

private theorem writeShadow_stores (hd : s.disk.Rooted) {shadow : String}
    (h : writeShadow path text s = (.ok shadow, t)) :
    t.engine = s.engine ∧ shadow = Shadow.pathIn s.writer.directory (path, text) ∧
      Disk.Stores s.writer.directory [(path, text)] s.disk t.disk := by
  have hprepared := ensureDirectory_prepares s
  obtain ⟨mid, place, hensure, rfl, hw, rfl⟩ := writeShadow_ok h
  rw [hensure] at hprepared
  have hpath : mid.shadowPath path text = Shadow.pathIn s.writer.directory (path, text) := by
    rw [shadowPath, hprepared.directory, Shadow.pathIn]
  have hmade : Disk.Stores s.writer.directory [] s.disk mid.disk := (hprepared.disk hd).stores
  rw [hpath] at hw
  have hput := Disk.stores_put (hmade.grown.rooted hd) hw
  exact ⟨hprepared.engine, hpath, hmade.trans hd hput⟩

/-- The cache directory is the only thing that fails to be made. -/
theorem ensureDirectory_error (h : ensureDirectory s = (.error f, t)) :
    ∃ at_ cause, f = .createCacheDirectory at_ cause := by
  rw [ensureDirectory_eq] at h
  split at h
  · cases (Prod.mk.inj h).1
  · split at h
    · cases (Prod.mk.inj h).1
    · exact ⟨_, _, (Except.error.inj (Prod.mk.inj h).1).symm⟩

/-- A shadow that cannot be stored leaves no trace but the directory, and a beginning of its text if
writing it broke off. -/
theorem writeShadow_error (hd : s.disk.Rooted) (h : writeShadow path text s = (.error f, t)) :
    (∃ at_ cause, f = .createCacheDirectory at_ cause ∨ f = .writeShadow at_ cause) ∧
      (Disk.AddsDirectories s.disk t.disk ∨ ∃ mid place n, Disk.AddsDirectories s.disk mid ∧
        mid.writePlace (Shadow.pathIn s.writer.directory (path, text)) = .ok place ∧
          t.disk = mid.store place ((Content.text text).cut n)) := by
  have hprepared := ensureDirectory_prepares s
  rw [writeShadow_eq] at h
  rcases hensure : ensureDirectory s with ⟨g | v, mid⟩ <;> rw [hensure] at h hprepared
  · obtain ⟨hf, rfl⟩ := Prod.mk.inj h
    obtain rfl := Except.error.inj hf
    obtain ⟨at_, cause, hf⟩ := ensureDirectory_error hensure
    exact ⟨⟨at_, cause, .inl hf⟩, .inl (hprepared.disk hd)⟩
  have hpath : mid.shadowPath path text = Shadow.pathIn s.writer.directory (path, text) := by
    rw [shadowPath, hprepared.directory, Shadow.pathIn]
  simp only at h
  cases hplace : mid.disk.writePlace (mid.shadowPath path text) with
  | error cause =>
    rw [hplace] at h
    obtain ⟨hf, rfl⟩ := Prod.mk.inj h
    exact ⟨⟨_, _, .inr (Except.error.inj hf).symm⟩, .inl (hprepared.disk hd)⟩
  | ok place =>
    cases hfault : mid.nextFault? with
    | none =>
      rw [hplace, hfault] at h
      cases (Prod.mk.inj h).1
    | some fault =>
      rw [hplace, hfault] at h
      obtain ⟨hf, rfl⟩ := Prod.mk.inj h
      refine ⟨⟨_, _, .inr (Except.error.inj hf).symm⟩, ?_⟩
      cases fault with
      | refused cause => exact .inl (hprepared.disk hd)
      | brokenOff cause n =>
        exact .inr ⟨mid.disk, place, n, hprepared.disk hd, hpath ▸ hplace, rfl⟩

/-! ### The loop -/

/-- No files are compiled to no shadows. -/
theorem Compiled.nil (hs : s.Knows known) : Compiled known s [] [] s where
  follows := .refl s
  knows := hs
  stores _ := (Disk.AddsDirectories.refl _).stores
  disk _ := rfl
  manifest := rfl
  made := by simp
  left := by simp

/-- A file that is processed is compiled without a shadow, or with the one that is stored for it. -/
theorem process_ok (hd : s.disk.Rooted) (hs : s.Knows known)
    (hload : ∀ package,
      value? (Package.load s.disk (directoryOf s.engine.root path)) [] = some package →
      known (directoryOf s.engine.root path) package)
    {o : Option String} (h : process path s = (.ok o, t)) :
    Compiled known s [path] [] t ∨ ∃ text mid shadow last, Looks s mid ∧
      writeShadow path text mid = (.ok shadow, last) ∧ t.disk = last.disk ∧
        Compiled known s [path] [(path, text)] t := by
  have hfollows := process_follows s path
  rw [h] at hfollows
  have hlooks := rendered_looks s path
  rw [process_eq] at h
  rcases hrendered : rendered path s with ⟨g | _ | text, mid⟩ <;> rw [hrendered] at h hlooks
  · cases (Prod.mk.inj h).1
  · obtain ⟨-, rfl⟩ := Prod.mk.inj h
    obtain ⟨hrenders, hmid⟩ := rendered_ok hs hload hrendered
    refine .inl ⟨hfollows, hmid, fun _ => ?_, fun _ => hlooks.disk, hlooks.manifest, by simp, ?_⟩
    · rw [hlooks.disk]
      exact (Disk.AddsDirectories.refl _).stores
    · exact fun p hp => .inr (List.mem_singleton.mp hp ▸ hrenders)
  · obtain ⟨hrenders, hmid⟩ := rendered_ok hs hload hrendered
    simp only at h
    rcases hwrite : writeShadow path text mid with ⟨g | shadow, last⟩ <;> rw [hwrite] at h
    · cases (Prod.mk.inj h).1
    obtain ⟨-, rfl⟩ := Prod.mk.inj h
    obtain ⟨hengine, hshadow, hstores⟩ := writeShadow_stores (hlooks.disk ▸ hd) hwrite
    rw [hlooks.disk, hlooks.writer] at hstores
    refine .inr ⟨text, mid, shadow, last, hlooks, hwrite, rfl, hfollows, ?_, fun _ => hstores,
      by simp, ?_, ?_, ?_⟩
    · rw [Knows, recorded, hengine]
      exact hmid
    · rw [recorded, hengine, hshadow, hlooks.manifest, hlooks.writer]
      rfl
    · intro e he
      obtain rfl := List.mem_singleton.mp he
      exact ⟨List.mem_singleton_self _, hrenders⟩
    · exact fun p hp => .inl ⟨text, by rw [List.mem_singleton.mp hp]; simp⟩

/-- The loop compiles the files up to the end, or to the one that fails. -/
theorem compile_compiled (hd : s.disk.Rooted) (hs : s.Knows known)
    (hload : ∀ {before path shadows t}, before ++ [path] <+: paths →
      Compiled known s before shadows t → ∀ package,
      value? (Package.load t.disk (directoryOf s.engine.root path)) [] = some package →
      known (directoryOf s.engine.root path) package)
    (h : compile paths s = (r, t)) :
    (r = .ok () ∧ ∃ shadows, Compiled known s paths shadows t) ∨
      ∃ f before path rest mid shadows, r = .error f ∧ paths = before ++ path :: rest ∧
        Compiled known s before shadows mid ∧ process path mid = (.error f, t) := by
  have hcases := compile_cases (fun before t => ∃ shadows, Compiled known s before shadows t)
    ⟨[], .nil hs⟩ (fun {before path mid o u} hprefix ⟨shadows, hmid⟩ hstep => ?_) h
  · rcases hcases with hok | ⟨f, before, path, rest, mid, hr, hall, ⟨shadows, hmid⟩, hstep⟩
    · exact .inl hok
    · exact .inr ⟨f, before, path, rest, mid, shadows, hr, hall, hmid, hstep⟩
  · have hrooted := (hmid.follows.grown hd).rooted hd
    have hloads := hload hprefix hmid
    rw [← hmid.follows.root] at hloads
    rcases process_ok hrooted hmid.knows hloads hstep with hnew | ⟨_, _, _, _, _, _, _, hnew⟩
    · exact ⟨_, hmid.trans hnew⟩
    · exact ⟨_, hmid.trans hnew⟩

/-- A file fails when it is rendered, which leaves the disk alone, or when its shadow is stored. -/
theorem process_error (h : process path s = (.error f, t)) :
    rendered path s = (.error f, t) ∨ ∃ text mid, rendered path s = (.ok (some text), mid) ∧
      writeShadow path text mid = (.error f, t) := by
  rw [process_eq] at h
  rcases hrendered : rendered path s with ⟨g | _ | text, mid⟩ <;> rw [hrendered] at h
  · exact .inl h
  · cases (Prod.mk.inj h).1
  · simp only at h
    rcases hwrite : writeShadow path text mid with ⟨g | shadow, last⟩ <;> rw [hwrite] at h
    · obtain ⟨hf, rfl⟩ := Prod.mk.inj h
      obtain rfl := Except.error.inj hf
      exact .inr ⟨text, mid, rfl, hwrite⟩
    · cases (Prod.mk.inj h).1

end GoContracts.Session

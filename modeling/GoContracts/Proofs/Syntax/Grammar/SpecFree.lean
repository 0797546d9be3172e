import GoContracts.Proofs.Syntax.Attachment
import GoContracts.Proofs.Syntax.Grammar.Imports
import GoContracts.Syntax.SourceFile

/-!
# Trees and import specs

Only import declarations hold import specs. What the readers of the grammar make is free of them if
all that they make it of is. The imports of a file are those of the import specs in its tree,
wherever its comments are.
-/

namespace GoContracts.Syntax

/-! ### Trees -/

/-- What may hold trees, and whether none of them has an import spec in it. -/
class HoldsTrees (α : Type) where
  specFree : α → Prop

export HoldsTrees (specFree)

instance : HoldsTrees Tree := ⟨fun t => ∀ u ∈ t.preorder, u.label ≠ .node .importSpec⟩

instance : HoldsTrees Unit := ⟨fun _ => True⟩

instance : HoldsTrees Bool := ⟨fun _ => True⟩

instance : HoldsTrees Token := ⟨fun _ => True⟩

instance {α : Type} [HoldsTrees α] : HoldsTrees (List α) := ⟨fun as => ∀ a ∈ as, specFree a⟩

instance {α : Type} [HoldsTrees α] : HoldsTrees (Option α) := ⟨fun o => ∀ a ∈ o, specFree a⟩

instance {α β : Type} [HoldsTrees α] [HoldsTrees β] : HoldsTrees (α × β) :=
  ⟨fun p => specFree p.1 ∧ specFree p.2⟩

section

variable {α β : Type} [HoldsTrees α] [HoldsTrees β] {a : α} {as bs : List α}

/-- An empty list has no specification. -/
@[simp] theorem specFree_nil : specFree ([] : List α) := fun _ h => absurd h List.not_mem_nil

/-- A list has no specification if neither its first member nor the rest has one. -/
@[simp] theorem specFree_cons : specFree (a :: as) ↔ specFree a ∧ specFree as :=
  List.forall_mem_cons

/-- Two lists have no specification if neither has one. -/
@[simp] theorem specFree_append : specFree (as ++ bs) ↔ specFree as ∧ specFree bs :=
  List.forall_mem_append

/-- Nothing has no specification. -/
@[simp] theorem specFree_none : specFree (none : Option α) :=
  fun a h => absurd h (Option.not_mem_none a)

/-- An option has no specification if its value has none. -/
@[simp] theorem specFree_some : specFree (some a) ↔ specFree a := by
  simp [specFree]

/-- A pair has no specification if neither part has one. -/
@[simp] theorem specFree_pair {b : β} : specFree (a, b) ↔ specFree a ∧ specFree b := .rfl

/-- An option has no specification if it has none as a list. -/
@[simp] theorem specFree_toList {o : Option α} : specFree o.toList ↔ specFree o := by
  cases o <;> simp

/-- Lists have no specification if they have none side by side. -/
@[simp] theorem specFree_flatten {ass : List (List α)} : specFree ass.flatten ↔ specFree ass := by
  induction ass with
  | nil => simp
  | cons as ass ih => rw [List.flatten_cons, specFree_append, specFree_cons, ih]

/-- A function that keeps a member free of specifications keeps a list so. -/
theorem specFree_map {f : α → β} (h : specFree as) (hf : ∀ a, specFree a → specFree (f a)) :
    specFree (as.map f) := by
  intro b hb
  obtain ⟨a, ha, rfl⟩ := List.mem_map.mp hb
  exact hf a (h a ha)

/-- A function that keeps a value free of specifications keeps an option so. -/
theorem specFree_mapOption {o : Option α} {f : α → β} (h : specFree o)
    (hf : ∀ a, specFree a → specFree (f a)) : specFree (o.map f) := by
  cases o with
  | none => simp
  | some a => simpa using hf a (by simpa using h)

end

section

variable {t : Tree} {k : Kind} {label : Label} {parts : List Tree}

/-- A tree has no specification if it is none and its parts have none. -/
theorem specFree_mk {role? : Option Role} {start stop : Nat} :
    specFree (Tree.mk label role? start stop parts) ↔
      label ≠ .node .importSpec ∧ specFree parts := by
  change (∀ u ∈ Tree.preorder _, u.label ≠ _) ↔ _
  rw [Tree.preorder, List.forall_mem_cons]
  refine and_congr_right fun _ => ⟨fun h t ht u hu => h u (Tree.mem_preorderAll.mpr ⟨t, ht, hu⟩),
    fun h u hu => ?_⟩
  obtain ⟨t, ht, hu⟩ := Tree.mem_preorderAll.mp hu
  exact h t ht u hu

/-- The role does not matter. -/
@[simp] theorem specFree_asRole {r : Role} : specFree (t.asRole r) ↔ specFree t := by
  cases t
  rw [Tree.asRole, specFree_mk, specFree_mk]

/-- The role does not matter if it is taken away. -/
@[simp] theorem specFree_withoutRole : specFree t.withoutRole ↔ specFree t := by
  cases t
  rw [Tree.withoutRole, specFree_mk, specFree_mk]

/-- Another kind makes no specification unless it is that of one. -/
@[simp] theorem specFree_asKind (hk : k ≠ .importSpec) (h : specFree t) :
    specFree (t.asKind k) := by
  cases t
  rw [Tree.asKind, specFree_mk]
  exact ⟨fun hl => hk (Label.node.inj hl), (specFree_mk.mp h).2⟩

/-- The children of a tree without specifications have none. -/
theorem specFree_children (h : specFree t) : specFree t.children := by
  cases t
  exact (specFree_mk.mp h).2

/-- A leaf has no specification unless it is one. -/
theorem specFree_leaf {start stop : Nat} (h : label ≠ .node .importSpec) :
    specFree (Tree.leaf label start stop) :=
  specFree_mk.mpr ⟨h, specFree_nil⟩

/-- A node has no specification unless it is one or its parts have one. -/
@[simp] theorem specFree_node (hk : k ≠ .importSpec) (h : specFree parts) :
    specFree (Tree.node k parts) :=
  specFree_mk.mpr ⟨fun hl => hk (Label.node.inj hl), fun t ht => h t (List.mem_of_mem_filter ht)⟩

end

namespace Grammar

variable {α β : Type} [HoldsTrees α] [HoldsTrees β] {k : Kind} {free : Bool}

/-! ### Readers -/

/-- Whether all that a reader yields is free of import specs. -/
abbrev Clean (r : Reader α) : Prop := Yields specFree r

/-- Two clean readers in a row are clean. -/
theorem clean_bind {x : Reader β} {f : β → Reader α} (hx : Clean x)
    (hf : ∀ b, specFree b → Clean (f b)) : Clean (x >>= f) := by
  intro ts a rest ha
  obtain ⟨b, mid, hb, ha⟩ := bind_eq_some.mp ha
  exact hf b (hx ts b mid hb) mid a rest ha

/-- What is read or left out is clean. -/
theorem clean_optional {r : Reader α} (h : Clean r) : Clean (optional? r) := by
  intro ts o rest ho
  rcases optional_eq_some.mp ho with ⟨a, rfl, ha⟩ | ⟨_, rfl, _⟩
  · simpa using h ts a rest ha
  · simp

/-- A reader behind what may be left out is clean if it is so in both cases. -/
theorem clean_optional_bind {r : Reader β} {f : Option β → Reader α} (h : Clean r)
    (hsome : ∀ b, specFree b → Clean (f (some b))) (hnone : Clean (f none)) :
    Clean (optional? r >>= f) := by
  refine clean_bind (clean_optional h) fun o ho => ?_
  cases o with
  | none => exact hnone
  | some b => exact hsome b (specFree_some.mp ho)

/-- Clean steps gather a clean list. -/
theorem clean_gather {step : Reader (Option α)} (h : Clean step) : Clean (gather step) := by
  intro ts as rest has
  refine gather_induction (P := fun as _ _ => specFree as) has (fun _ => specFree_nil)
    (fun _ _ _ => specFree_nil) fun a as ts mid rest ha has => ?_
  exact specFree_cons.mpr ⟨specFree_some.mp (h ts (some a) mid ha), has⟩

/-- Clean steps extend what is clean to what is clean. -/
theorem clean_extend {step : α → Reader (Option α)} {a : α} (ha : specFree a)
    (h : ∀ a, specFree a → Clean (step a)) : Clean (extend step a) := by
  intro ts b rest hb
  refine extend_induction (P := fun a _ => specFree a) hb ha (fun _ _ _ ha _ => ha)
    fun a b ts rest ha hb => ?_
  exact specFree_some.mp (h a ha ts (some b) rest hb)

/-- Clean readers for the members of a list are clean in a row. -/
theorem clean_mapM {f : β → Reader α} {bs : List β} (hbs : specFree bs)
    (h : ∀ b, specFree b → Clean (f b)) : Clean (bs.mapM f) := by
  induction bs with
  | nil => exact yields_pure specFree_nil
  | cons b bs ih =>
    rw [List.mapM_cons]
    obtain ⟨hb, hbs⟩ := specFree_cons.mp hbs
    exact clean_bind (h b hb) fun a ha => clean_bind (ih hbs) fun as has =>
      yields_pure (specFree_cons.mpr ⟨ha, has⟩)

/-- A token is no specification. -/
theorem clean_lexeme {x : Lexeme} (hk : k ≠ .importSpec) : Clean (lexeme free x k) := by
  intro ts t rest h
  unfold lexeme at h
  split at h
  · simp only [Option.ite_none_right_eq_some, Option.some.injEq, Prod.mk.injEq] at h
    exact h.2.1 ▸ specFree_leaf fun hl => hk (Label.node.inj hl)
  · simp at h

/-- A name is no specification. -/
theorem clean_name (hk : k ≠ .importSpec) : Clean (name free k) := clean_lexeme hk

/-- A keyword is no specification. -/
theorem clean_keyword {w : String} : Clean (keyword free w) := by
  intro ts t rest h
  unfold keyword at h
  split at h
  · simp only [Option.ite_none_right_eq_some, Option.some.injEq, Prod.mk.injEq] at h
    exact h.2.1 ▸ specFree_leaf (by simp)
  · simp at h

/-- A symbol is no specification. -/
theorem clean_symbol {text : String} : Clean (symbol free text) := by
  intro ts t rest h
  unfold symbol at h
  split at h
  · simp only [Option.map_eq_some_iff, Prod.exists, Prod.mk.injEq] at h
    obtain ⟨stop, us, _, rfl, _⟩ := h
    exact specFree_leaf (by simp)
  · simp at h

/-- A terminator is no specification. -/
theorem clean_terminator : Clean terminator := by
  refine yields_orElse ?_ (yields_orElse clean_symbol clean_symbol)
  intro ts t rest h
  unfold terminator.lineBreak at h
  split at h
  · simp only [Option.ite_none_right_eq_some, Option.some.injEq, Prod.mk.injEq] at h
    exact h.2.1 ▸ specFree_leaf (by simp)
  · simp at h

private theorem clean_ended {atEnd : List Token → Bool} {t : Tree} (ht : specFree t) :
    Clean (ended atEnd t) := by
  refine clean_bind (clean_optional clean_terminator) fun stop hstop => ?_
  split
  · exact yields_pure (by simpa [ht] using hstop)
  · exact yields_bind fun _ => yields_bind fun _ => yields_pure (by simp [ht])

/-- Clean items make a clean list with terminators. -/
theorem clean_terminatedList {atEnd : List Token → Bool} {item : Reader Tree} (h : Clean item) :
    Clean (terminatedList atEnd item) := by
  refine clean_bind (clean_gather (yields_bind fun _ => yields_ite (yields_pure specFree_none)
    (yields_bind fun _ => clean_bind h fun t ht => clean_bind (clean_ended ht) fun group hgroup =>
      yields_pure (specFree_some.mpr hgroup)))) fun groups hgroups => ?_
  exact yields_pure (specFree_flatten.mpr hgroups)

/-- Items with a separator before each of them. -/
theorem clean_separated {mark : String} {item : Reader Tree} (h : Clean item) {f : Tree → Tree}
    (hf : ∀ t, specFree t → specFree (f t)) :
    Clean (gather do
      if ← looking (atSymbol free mark) then
        let separator ← symbol free mark
        let t ← item
        return some [separator, f t]
      else return none) :=
  clean_gather (yields_bind fun _ => yields_ite (clean_bind clean_symbol fun _ hs =>
    clean_bind h fun t ht => yields_pure (by simp [hs, hf t ht])) (yields_pure specFree_none))

/-- Items with a comma before each of them, and perhaps a comma before the closing symbol. -/
theorem clean_trailed {closing : String} {item : Reader Tree} (h : Clean item) :
    Clean (gather do
      if ← looking (atSymbol true ",") then
        let comma ← symbol true ","
        if ← looking (atSymbol true closing) then return some [comma]
        return some [comma, ← item]
      else return none) :=
  clean_gather (yields_bind fun _ => yields_ite (clean_bind clean_symbol fun _ hs =>
    yields_bind fun _ => yields_ite (yields_pure (by simp [hs])) (clean_bind h fun t ht =>
      yields_pure (by simp [hs, ht]))) (yields_pure specFree_none))

/-- Clean items make a clean list with commas. -/
theorem clean_commaList {closing : String} {item : Reader Tree} (h : Clean item) :
    Clean (commaList closing item) :=
  yields_bind fun _ => yields_ite (yields_pure specFree_nil)
    (clean_bind (clean_optional h) fun _ hfirst => clean_bind (clean_trailed h) fun _ hmore =>
      yields_bind fun _ => yields_pure (by simpa using ⟨hfirst, hmore⟩))

end Grammar

end GoContracts.Syntax

/-! ### Imports in trees -/

namespace GoContracts

open Syntax (Kind Label Role Token Tree specFree)
open Syntax.Tree (preorderAll attachAll)

/-- The import that an import spec stands for. -/
def importAt? (text : String) (spec : Tree) : Option Import := do
  let path ← spec.child? .path
  return { path := SourceFile.unquotePath (Text.slice text path.start path.stop),
           alias? := (spec.child? .name).map fun t => Text.slice text t.start t.stop }

/-- The imports of the import specs in trees. -/
def importsIn (text : String) (trees : List Tree) : List Import :=
  ((preorderAll trees).filter (·.is .importSpec)).filterMap (importAt? text)

variable {text : String} {trees more comments : List Tree} {t : Tree} {label : Label}
  {role? : Option Role} {start stop : Nat} {children : List Tree}

/-! ### Trees -/

/-- No trees, no imports. -/
theorem importsIn_nil : importsIn text [] = [] := rfl

private theorem preorderAll_append : preorderAll
    (trees ++ more) = preorderAll trees ++ preorderAll more := by
  induction trees with
  | nil => rfl
  | cons t trees ih => rw [List.cons_append, preorderAll, preorderAll, ih, List.append_assoc]

/-- The imports of trees come one after the other. -/
theorem importsIn_append : importsIn text (trees ++ more) =
    importsIn text trees ++ importsIn text more := by
  rw [importsIn, preorderAll_append, List.filter_append, List.filterMap_append]
  rfl

/-- The import that a tree is comes before those in it and behind it. -/
theorem importsIn_cons : importsIn text (.mk label role? start stop children :: more) =
    (if label = .node .importSpec then
      (importAt? text (.mk label role? start stop children)).toList else []) ++
      importsIn text children ++ importsIn text more := by
  have hparts : ((preorderAll children ++ preorderAll more).filter
      (·.is .importSpec)).filterMap (importAt? text) = importsIn text children ++
        importsIn text more := by
    rw [← preorderAll_append, ← importsIn_append]
    rfl
  rw [importsIn, preorderAll, Tree.preorder, List.cons_append, List.append_assoc, ← hparts]
  by_cases hlabel : label = .node .importSpec
  · rw [if_pos hlabel, List.filter_cons_of_pos (by simp [Tree.is, Tree.label, hlabel]),
      List.filterMap_cons]
    cases importAt? text (.mk label role? start stop children) <;> rfl
  · rw [if_neg hlabel, List.filter_cons_of_neg (by simp [Tree.is, Tree.label, hlabel])]
    rfl

/-- Trees without specifications have no imports. -/
theorem importsIn_of_specFree (h : specFree trees) : importsIn text trees = [] := by
  have hnone : (preorderAll trees).filter (·.is .importSpec) = [] := by
    rw [List.filter_eq_nil_iff]
    intro u hu hspec
    obtain ⟨t, ht, hu⟩ := Tree.mem_preorderAll.mp hu
    exact h t ht u hu (of_decide_eq_true hspec)
  rw [importsIn, hnone, List.filterMap_nil]

/-- Whether the tree is a comment as the tokens of a text give it. -/
def IsLeafComment (c : Tree) : Prop := ∃ start stop, c = .leaf (.node .comment) start stop

private theorem importsIn_comments (hc : ∀ c ∈ comments, IsLeafComment c) :
    importsIn text comments = [] := by
  refine importsIn_of_specFree fun c hmem => ?_
  obtain ⟨start, stop, rfl⟩ := hc c hmem
  exact Syntax.specFree_leaf (by decide)

/-- Comments among the children do not change where the child in a role stands. -/
theorem child?_attachAll (role : Role) (hc : ∀ c ∈ comments, IsLeafComment c) :
    ((attachAll trees comments).find? (·.role? = some role)).map (fun t => (t.start, t.stop)) =
      (trees.find? (·.role? = some role)).map fun t => (t.start, t.stop) := by
  have hnone : ∀ few : List Tree, (∀ c ∈ few, IsLeafComment c) →
      few.find? (·.role? = some role) = none := by
    intro few hfew
    rw [List.find?_eq_none]
    intro c hmem
    obtain ⟨start, stop, rfl⟩ := hfew c hmem
    simp [Tree.leaf, Tree.role?]
  induction trees generalizing comments with
  | nil =>
    rw [attachAll, hnone _ hc]
    rfl
  | cons t trees ih =>
    cases t with
    | mk label role? start stop children =>
      rw [Tree.attachAll_cons, List.find?_append,
        hnone _ fun c hmem => hc c (List.mem_of_mem_filter hmem), Option.none_or]
      by_cases hrole : role? = some role
      · rw [List.find?_cons_of_pos (by simp [Tree.role?, hrole]),
          List.find?_cons_of_pos (by simp [Tree.role?, hrole])]
        rfl
      · rw [List.find?_cons_of_neg (by simp [Tree.role?, hrole]),
          List.find?_cons_of_neg (by simp [Tree.role?, hrole])]
        exact ih fun c hmem => hc c (List.mem_of_mem_filter hmem)

private theorem importAt?_attachAll (hc : ∀ c ∈ comments, IsLeafComment c) :
    importAt? text (.mk label role? start stop (attachAll children comments)) =
      importAt? text (.mk label role? start stop children) := by
  have hpath := @child?_attachAll children comments .path hc
  have hname := @child?_attachAll children comments .name hc
  unfold importAt? Tree.child?
  simp only [Tree.children]
  generalize (attachAll children comments).find? (·.role? = some .path) = p at hpath
  generalize (attachAll children comments).find? (·.role? = some .name) = n at hname
  generalize children.find? (·.role? = some .path) = p' at hpath
  generalize children.find? (·.role? = some .name) = n' at hname
  cases p <;> cases p' <;> cases n <;> cases n' <;> simp_all

/-- The imports in trees do not depend on comments among the nodes. -/
theorem importsIn_attachAll (trees comments : List Tree) (hc : ∀ c ∈ comments, IsLeafComment c) :
    importsIn text (attachAll trees comments) = importsIn text trees := by
  match trees with
  | [] =>
    rw [attachAll, importsIn_comments hc]
    rfl
  | .mk label role? start stop children :: trees =>
    have hfew : ∀ p : Tree → Bool, ∀ c ∈ comments.filter p, IsLeafComment c :=
      fun p c hmem => hc c (List.mem_of_mem_filter hmem)
    rw [Tree.attachAll_cons, importsIn_append, importsIn_comments (hfew _), List.nil_append,
      importsIn_cons, importsIn_cons, importAt?_attachAll (hfew _),
      importsIn_attachAll children _ (hfew _), importsIn_attachAll trees _ (hfew _)]
termination_by sizeOf trees

/-! ### Nodes -/

namespace Syntax.Grammar

variable {k : Kind}

/-- What ends a line may be left out. -/
theorem importsIn_filter {parts : List Tree}
    (h : ∀ p ∈ parts, p.label = .lineBreak → specFree p) :
    importsIn text (parts.filter (·.label ≠ .lineBreak)) = importsIn text parts := by
  induction parts with
  | nil => rfl
  | cons p parts ih =>
    obtain ⟨hp, hparts⟩ := List.forall_mem_cons.mp h
    have hone : ∀ more, importsIn text (p :: more) = importsIn text [p] ++ importsIn text more :=
      fun more => @importsIn_append text [p] more
    by_cases hl : p.label = .lineBreak
    · rw [List.filter_cons_of_neg (by simpa using hl), ih hparts, hone,
        importsIn_of_specFree (specFree_cons.mpr ⟨hp hl, specFree_nil⟩), List.nil_append]
    · rw [List.filter_cons_of_pos (by simpa using hl), hone, hone parts, ih hparts]

/-- A node of another kind has the imports of its parts, if what ends a line has none. -/
theorem importsIn_node {parts : List Tree} (hk : k ≠ .importSpec)
    (h : ∀ p ∈ parts, p.label = .lineBreak → specFree p) :
    importsIn text [.node k parts] = importsIn text parts := by
  rw [Tree.node, importsIn_cons, if_neg fun hl => hk (Label.node.inj hl), importsIn_filter h,
    importsIn_nil, List.append_nil, List.nil_append]

/-- An import spec over parts without import specs. -/
theorem importsIn_spec {parts : List Tree} (h : specFree parts) :
    importsIn text [.node .importSpec parts] =
      (importAt? text (.node .importSpec parts)).toList := by
  have hkept : specFree (parts.filter (·.label ≠ .lineBreak)) :=
    fun t ht => h t (List.mem_of_mem_filter ht)
  rw [Tree.node, importsIn_cons, if_pos rfl, importsIn_of_specFree hkept, importsIn_nil,
    List.append_nil, List.append_nil]

/-- A specification of a path alone is an import without a name. -/
theorem importsIn_path {a b : Nat} (hk : k ≠ .importSpec) :
    importsIn text [.node .importSpec [(Tree.leaf (.node k) a b).asRole .path]] =
      [⟨SourceFile.unquotePath (Text.slice text a b), none⟩] := by
  have hpath : specFree (Tree.leaf (.node k) a b) := specFree_leaf fun hl => hk (Label.node.inj hl)
  rw [importsIn_spec (by simpa using hpath)]
  rfl

/-- A specification of a name and a path is an import with the name. -/
theorem importsIn_named {a b c d : Nat} {k' : Kind} (hk : k ≠ .importSpec)
    (hk' : k' ≠ .importSpec) :
    importsIn text [.node .importSpec [(Tree.leaf (.node k') c d).asRole .name,
        (Tree.leaf (.node k) a b).asRole .path]] =
      [⟨SourceFile.unquotePath (Text.slice text a b), some (Text.slice text c d)⟩] := by
  have hpath : specFree (Tree.leaf (.node k) a b) := specFree_leaf fun hl => hk (Label.node.inj hl)
  have hname : specFree (Tree.leaf (.node k') c d) :=
    specFree_leaf fun hl => hk' (Label.node.inj hl)
  rw [importsIn_spec (by simpa using ⟨hname, hpath⟩)]
  rfl

/-- A declaration of one import has the imports of its import spec. -/
theorem importsIn_single {a b : Nat} (hlabel : t.label = .node .importSpec) :
    importsIn text [.node .importDeclaration [.leaf (.token "import") a b, t]] =
      importsIn text [t] := by
  have hword : specFree [Tree.leaf (.token "import") a b] := by simpa using specFree_leaf (by simp)
  rw [importsIn_node (by decide) fun p hp hl => ?_, ← List.singleton_append, importsIn_append,
    importsIn_of_specFree hword, List.nil_append]
  rcases List.mem_cons.mp hp with rfl | hp
  · cases hl
  · rw [List.mem_singleton.mp hp, hlabel] at hl
    cases hl

/-- A declaration of a list of imports has the imports between the parentheses. -/
theorem importsIn_list {specs : List Tree} {a b c d e f : Nat}
    (h : ∀ p ∈ specs, p.label = .lineBreak → specFree p) :
    importsIn text [.node .importDeclaration [.leaf (.token "import") a b,
        .node .importSpecList (.leaf (.token "(") c d :: specs ++ [.leaf (.token ")") e f])]] =
      importsIn text specs := by
  have hword : specFree [Tree.leaf (.token "import") a b] := by simpa using specFree_leaf (by simp)
  have hopening : specFree (Tree.leaf (.token "(") c d) := specFree_leaf (by simp)
  have hclosing : specFree (Tree.leaf (.token ")") e f) := specFree_leaf (by simp)
  rw [importsIn_node (by decide) (by simp [Tree.leaf, Tree.label, Tree.node]),
    ← List.singleton_append, importsIn_append, importsIn_of_specFree hword,
    importsIn_node (by decide), List.cons_append, ← List.singleton_append, importsIn_append,
    importsIn_append, importsIn_of_specFree (by simpa using hopening),
    importsIn_of_specFree (show specFree [_] by simpa using hclosing), List.append_nil]
  · rfl
  · intro p hp hl
    simp only [List.cons_append, List.mem_cons, List.mem_append, List.not_mem_nil,
      or_false] at hp
    rcases hp with rfl | hp | rfl
    · exact hopening
    · exact h p hp hl
    · exact hclosing

end Syntax.Grammar

end GoContracts

import GoContracts.Proofs.Scope.Paths

/-!
# Scopes and lexical scoping

A scope holds the bindings of the declarations that are in force at its position, in their order. So
looking a name up yields the first declaration of the name, outwards, that has a binding, which is
the one in force if its form is plain.
-/

namespace GoContracts

open Syntax (Tree Kind Laid)
open Syntax.Tree (preorder preorderAll pathIn)
open Lexical

variable {file : SourceFile} {pos : Nat} {name : String}

namespace Lexical

/-! ### Declarations and their bindings -/

/-- The bindings of declarations. -/
def bindings (declarations : List Declaration) : List Binding :=
  declarations.filterMap (·.binding?)

/-- The bindings of declarations come one after the other. -/
@[simp] theorem bindings_append (ds es : List Declaration) :
    bindings (ds ++ es) = bindings ds ++ bindings es :=
  List.filterMap_append

/-- The bindings of what is declared by items come item by item. -/
@[simp] theorem bindings_flatMap {α : Type} (items : List α) (f : α → List Declaration) :
    bindings (items.flatMap f) = items.flatMap fun t => bindings (f t) :=
  List.filterMap_flatMap

private theorem bindings_filterMap {α : Type} (items : List α) (f : α → Option Declaration) :
    bindings (items.filterMap f) = items.filterMap fun t => (f t).bind (·.binding?) :=
  List.filterMap_filterMap

private theorem bindings_map_overlooked {α : Type} (items : List α) (f : α → String) {form : Form}
    (h : form.isPlain = false) :
    bindings (items.map fun t => .overlooked (f t) form h) = [] := by
  simp [bindings, Declaration.overlooked, List.filterMap_map]

/-- The first declaration of a name that has a binding has the first binding of the name. -/
theorem findSome?_boundAs? (ds : List Declaration) :
    ds.findSome? (·.boundAs? name) = (bindings ds).find? (·.name = name) := by
  induction ds with
  | nil => rfl
  | cons d ds ih =>
    rw [List.findSome?_cons, bindings, List.filterMap_cons, ih, Declaration.boundAs?]
    cases hb : d.binding? with
    | none => simp [bindings]
    | some b =>
      have hnamed := d.named b hb
      by_cases hname : d.name = name
      · simp [hname, hnamed]
      · simp [hname, hnamed, bindings]

private theorem boundAs?_eq_none {d : Declaration} (h : d.name ≠ name) :
    d.boundAs? name = none := if_neg h

/-- Among declarations of different names their order does not matter. -/
theorem findSome?_reverse {ds : List Declaration} (h : (ds.map (·.name)).Nodup) :
    ds.reverse.findSome? (·.boundAs? name) = ds.findSome? (·.boundAs? name) := by
  induction ds with
  | nil => rfl
  | cons d ds ih =>
    rw [List.map_cons, List.nodup_cons] at h
    rw [List.reverse_cons, List.findSome?_append, ih h.2, List.findSome?_cons, List.findSome?_nil,
      List.findSome?_cons]
    by_cases hname : d.name = name
    · have hnone : ds.findSome? (·.boundAs? name) = none :=
        List.findSome?_eq_none_iff.mpr fun e he =>
          boundAs?_eq_none fun hsame => h.1 (List.mem_map.mpr ⟨e, he, hsame.trans hname.symm⟩)
      rw [hnone, Option.none_or]
    · rw [boundAs?_eq_none hname]
      exact Option.or_none

/-- The bindings of parts in reverse are found as the declarations in reverse are, if the names that
are declared together differ. -/
theorem findSome?_flatten_reverse {parts : List (List Declaration)}
    (h : ∀ part ∈ parts, (part.map (·.name)).Nodup) :
    parts.flatten.reverse.findSome? (·.boundAs? name) =
      (parts.reverse.flatMap bindings).find? (·.name = name) := by
  induction parts with
  | nil => rfl
  | cons part parts ih =>
    rw [List.forall_mem_cons] at h
    rw [List.flatten_cons, List.reverse_append, List.findSome?_append, ih h.2,
      findSome?_reverse h.1, findSome?_boundAs?, List.reverse_cons, List.flatMap_append,
      List.flatMap_singleton, List.find?_append]

/-! ### Single declarations -/

section

variable (file)

private theorem target?_bind (form : Form) (t : Tree) (origin : Origin) :
    (target? file form t origin).bind (·.binding?) = Scope.bind? file t origin := by
  rw [target?]
  split
  · next h =>
    have hne : t.is .identifier = false := by
      simp only [isPredeclared, Tree.is, Bool.or_eq_true, decide_eq_true_eq] at h
      rcases h with ((h | h) | h) | h <;> simp [Tree.is, h]
    simp [Scope.bind?, hne, Declaration.overlooked]
  · cases Scope.bind? file t origin <;> rfl

private theorem unbound?_bind {form : Form} (h : form.isPlain = false) (t : Tree) :
    (unbound? file form h t).bind (·.binding?) = none := by
  rw [unbound?]
  split <;> rfl

private theorem bindings_filterMap_unbound? {form : Form} (h : form.isPlain = false)
    (trees : List Tree) :
    bindings (trees.filterMap (unbound? file form h)) = [] := by
  simp [bindings_filterMap, unbound?_bind]

private theorem bindings_map_asEarly (ds : List Declaration) : bindings (ds.map asEarly) = [] :=
  bindings_map_overlooked ds (·.name) (by decide)

private theorem bindings_valueDeclarations (form : Form) (targets : List Tree) (values : Tree) :
    bindings (valueDeclarations file form targets values) =
      Scope.bindValues file targets values := by
  simp [valueDeclarations, Scope.bindValues, bindings_filterMap, target?_bind]

private theorem bindings_specDeclarations (spec : Tree) :
    bindings (specDeclarations file spec) = Scope.specBindings file spec := by
  unfold specDeclarations Scope.specBindings
  cases spec.child? .type with
  | some type => simp [bindings_filterMap, target?_bind]
  | none =>
    cases spec.child? .value with
    | some values => exact bindings_valueDeclarations file _ _ values
    | none => exact bindings_filterMap_unbound? file rfl _

private theorem bindings_rangeDeclarations (clause : Tree) :
    bindings (rangeDeclarations file clause) = Scope.rangeBindings file clause := by
  have hoption : ∀ (t? : Option Tree) (form : Form) (origin : Origin),
      bindings (t?.bind fun t => target? file form t origin).toList =
        (t?.bind fun t => Scope.bind? file t origin).toList := by
    intro t? form origin
    cases t? with
    | none => rfl
    | some t =>
      rw [Option.bind_some, Option.bind_some, ← target?_bind file form t origin]
      cases target? file form t origin with
      | none => rfl
      | some d => cases h : d.binding? <;> simp [bindings, h]
  unfold rangeDeclarations Scope.rangeBindings
  cases clause.child? .left with
  | none => rfl
  | some left =>
    cases clause.child? .right with
    | none => rfl
    | some right => simp only [bindings_append, hoption]

private theorem bindings_unlabelledDeclarations (statement : Tree) :
    bindings (unlabelledDeclarations file statement) = Scope.statementBindings file statement := by
  unfold unlabelledDeclarations Scope.statementBindings
  split
  · next h =>
    rw [h]
    cases statement.child? .left with
    | none => rfl
    | some left =>
      cases statement.child? .right with
      | none => rfl
      | some right => exact bindings_valueDeclarations file _ _ _
  · next h => simp only [h, bindings_flatMap, bindings_specDeclarations]
  · next h => simp only [h, bindings_flatMap, bindings_specDeclarations]
  · next h =>
    rw [h, bindings_filterMap]
    simp only [Option.bind_assoc, unbound?_bind]
    simp
  · next h =>
    rw [h]
    split
    · simp only [bindings_flatMap, bindings_filterMap_unbound?]
      simp
    · rfl
  · next hshort hvar hconst _ _ =>
    split
    · next h => exact (hshort h).elim
    · next h => exact (hvar h).elim
    · next h => exact (hconst h).elim
    · rfl

/-- The bindings of a statement are those that a scope has for it. A label hides them. -/
theorem bindings_statementDeclarations (statement : Tree) :
    bindings (statementDeclarations file statement) = Scope.statementBindings file statement := by
  rw [statementDeclarations]
  split
  · next h =>
    rw [bindings_map_overlooked, Scope.statementBindings, Syntax.Tree.is_iff.mp h]
  · exact bindings_unlabelledDeclarations file statement

private theorem bindings_parameterDeclarations (function : Tree) :
    bindings (parameterDeclarations file function) =
      (Scope.paramBindings (Signature.ofFunction file function).allParams).filter
        (·.name ≠ "_") := by
  rw [parameterDeclarations, bindings_append, bindings_map_overlooked,
    List.nil_append, bindings, List.filterMap_map]
  exact List.filterMap_some

/-! ### Blocks -/

variable (pos)

private theorem bindings_initialDeclarations (statement : Tree) :
    bindings (initialDeclarations file pos statement) =
      match statement.child? .initializer with
      | some first => if first.stop ≤ pos then Scope.statementBindings file first else []
      | none => [] := by
  rw [initialDeclarations, bindings_flatMap]
  simp only [bindings_statementDeclarations]
  cases statement.child? .initializer with
  | none => rfl
  | some first => by_cases h : first.stop ≤ pos <;> simp [Option.filter, h]

private theorem bindings_examinedDeclarations (switch : Tree) :
    bindings (examinedDeclarations file pos switch) = [] := by
  rw [examinedDeclarations]
  split
  · simp only [bindings_flatMap, bindings_filterMap_unbound?, List.flatMap_eq_nil_iff, implies_true]
  · rfl

private theorem bindings_groupedDeclarations (spec : Tree) :
    bindings (groupedDeclarations file spec) = [] :=
  bindings_map_asEarly _

end

/-- What must hold of a file around a position for scopes to follow the blocks: the position is in
the bodies of the functions around it, the clauses of loops around it declare what they range into,
and names that are declared together differ. -/
structure Regular (file : SourceFile) (pos : Nat) : Prop where
  inBody : ∀ node ∈ file.pathTo pos, node.kind?.any Kind.isFunction → isEntered pos node
  ranges : ∀ node ∈ file.pathTo pos, node.is .forStatement → ∀ clause ∈ before pos node,
    clause.is .rangeClause → declares clause ∨ (clause.child? .left).isNone
  distinct : ∀ node ∈ file.pathTo pos, ∀ part ∈ partsBefore file pos node,
    (part.map (·.name)).Nodup

instance (file : SourceFile) (pos : Nat) : Decidable (Regular file pos) :=
  decidable_of_iff
    ((∀ node ∈ file.pathTo pos, node.kind?.any Kind.isFunction → isEntered pos node) ∧
      (∀ node ∈ file.pathTo pos, node.is .forStatement → ∀ clause ∈ before pos node,
        clause.is .rangeClause → declares clause ∨ (clause.child? .left).isNone) ∧
      ∀ node ∈ file.pathTo pos, ∀ part ∈ partsBefore file pos node, (part.map (·.name)).Nodup)
    ⟨fun h => ⟨h.1, h.2.1, h.2.2⟩, fun h => ⟨h.inBody, h.ranges, h.distinct⟩⟩

private theorem bindings_headerDeclarations (file : SourceFile) {loop : Tree}
    (h : ∀ clause ∈ before pos loop,
      clause.is .rangeClause → declares clause ∨ (clause.child? .left).isNone) :
    bindings (headerDeclarations file pos loop) =
      (before pos loop).flatMap fun clause =>
        if clause.is .rangeClause then Scope.rangeBindings file clause
        else if clause.is .forClause then
          ((clause.child? .initializer).map (Scope.statementBindings file)).getD []
        else [] := by
  rw [headerDeclarations, bindings_flatMap]
  refine List.flatMap_congr fun clause hclause => ?_
  by_cases hrange : clause.is .rangeClause = true
  · rw [if_pos hrange, if_pos hrange]
    split
    · exact bindings_rangeDeclarations file clause
    · next hassigns =>
      have hnone := (h clause hclause hrange).resolve_left hassigns
      rw [Scope.rangeBindings, Option.isNone_iff_eq_none.mp hnone]
      rfl
  rw [if_neg hrange, if_neg hrange]
  split
  · cases clause.child? .initializer with
    | none => rfl
    | some first => simp [bindings_statementDeclarations]
  · rfl

/-- A node on the way to a regular position has the bindings of its declarations, the latest part
first. -/
theorem find?_bindingsOf (h : Regular file pos) {node : Tree} (hnode : node ∈ file.pathTo pos)
    (hname : name ≠ "_") :
    (Scope.bindingsOf file pos node).find? (·.name = name) =
      ((partsBefore file pos node).reverse.flatMap bindings).find? (·.name = name) := by
  have hentered := h.inBody node hnode
  have hranges := h.ranges node hnode
  unfold Scope.bindingsOf partsBefore
  cases hkind : node.kind? with
  | none => rfl
  | some kind =>
    rw [hkind, Option.any_some] at hentered
    by_cases hscope : kind.listsStatements = true
    · simp only [if_pos hscope, before, ← List.map_reverse, List.flatMap_map,
        bindings_statementDeclarations]
    by_cases hfunction : kind.isFunction = true
    · simp only [if_neg hscope, if_pos hfunction, if_pos (hentered hfunction),
        List.reverse_singleton, List.flatMap_singleton, bindings_parameterDeclarations]
      rw [List.find?_filter]
      congr 1
      funext b
      by_cases hb : b.name = name <;> simp [hb, hname]
    simp only [if_neg hscope, if_neg hfunction]
    split
    case h_4 =>
      rw [List.reverse_singleton, List.flatMap_singleton,
        bindings_headerDeclarations file (hranges (Syntax.Tree.is_iff.mpr hkind))]
      rfl
    case h_5 hif hswitch htypes hfor =>
      have hnone : ∀ parts : List (List Declaration), (∀ part ∈ parts, bindings part = []) →
          ([] : List Binding) = parts.reverse.flatMap bindings := fun parts hparts =>
        (List.flatMap_eq_nil_iff.mpr fun part hpart => hparts part (List.mem_reverse.mp hpart)).symm
      refine congrArg _ (hnone _ fun part hpart => ?_)
      split at hpart
      · exact (hif rfl).elim
      · exact (hswitch rfl).elim
      · exact (htypes rfl).elim
      · exact (hfor rfl).elim
      · rw [List.mem_singleton.mp hpart, bindings_map_asEarly]
      · obtain ⟨spec, _, rfl⟩ := List.mem_map.mp hpart
        exact bindings_groupedDeclarations file spec
      · obtain ⟨spec, _, rfl⟩ := List.mem_map.mp hpart
        exact bindings_groupedDeclarations file spec
      · obtain ⟨spec, _, rfl⟩ := List.mem_map.mp hpart
        exact bindings_groupedDeclarations file spec
      · rw [List.mem_singleton.mp hpart, bindings_filterMap_unbound?]
      · rw [List.mem_singleton.mp hpart, bindings_filterMap_unbound?]
      · exact absurd hpart List.not_mem_nil
    all_goals
      cases hinitializer : node.child? .initializer <;>
        simp [bindings_initialDeclarations, bindings_examinedDeclarations, hinitializer]

/-- A specification or a group of them makes no bindings of its own. -/
theorem bindingsOf_of_group {node : Tree}
    (h : isGroup node || node.is .typeSpec || node.is .typeAlias) :
    Scope.bindingsOf file pos node = [] := by
  simp only [isGroup, Bool.or_eq_true, Syntax.Tree.is_iff] at h
  unfold Scope.bindingsOf
  rcases h with ((((h | h) | h) | h) | h) <;> rw [h] <;> rfl

/-! ### The traversal -/

/-- Entering a node puts its bindings in front. -/
theorem findSome?_enter (h : Regular file pos) {node : Tree} (hnode : node ∈ file.pathTo pos)
    (hname : name ≠ "_") (s : Surroundings) :
    (s.enter file pos node).declarations.findSome? (·.boundAs? name) =
      ((Scope.bindingsOf file pos node).find? (·.name = name)).or
        (s.declarations.findSome? (·.boundAs? name)) := by
  rw [Surroundings.declarations, Surroundings.enter, List.flatMap_cons, List.findSome?_append]
  congr 1
  split
  · next hgroup =>
    rw [Bool.and_eq_true] at hgroup
    rw [bindingsOf_of_group hgroup.2]
    rfl
  · rw [findSome?_flatten_reverse (h.distinct node hnode), find?_bindingsOf h hnode hname]

/-- Entering nodes one after the other finds the bindings of the last one first. -/
theorem findSome?_foldl_enter (h : Regular file pos) {nodes : List Tree}
    (hnodes : nodes ⊆ file.pathTo pos) (hname : name ≠ "_") (s : Surroundings) :
    (nodes.foldl (Surroundings.enter file pos) s).declarations.findSome? (·.boundAs? name) =
      ((nodes.reverse.flatMap (Scope.bindingsOf file pos)).find? (·.name = name)).or
        (s.declarations.findSome? (·.boundAs? name)) := by
  induction nodes generalizing s with
  | nil => rfl
  | cons node nodes ih =>
    rw [List.cons_subset] at hnodes
    rw [List.foldl_cons, ih hnodes.2, findSome?_enter h hnodes.1 hname, List.reverse_cons,
      List.flatMap_append, List.flatMap_singleton, List.find?_append, Option.or_assoc]

/-- The innermost function entered is the last one of the nodes. -/
theorem function?_foldl_enter
    (h : ∀ node ∈ file.pathTo pos, node.kind?.any Kind.isFunction → isEntered pos node)
    {nodes : List Tree} (hnodes : nodes ⊆ file.pathTo pos) (s : Surroundings) :
    (nodes.foldl (Surroundings.enter file pos) s).function? =
      (nodes.reverse.find? fun node => node.kind?.any Kind.isFunction).or s.function? := by
  induction nodes generalizing s with
  | nil => rfl
  | cons node nodes ih =>
    rw [List.cons_subset] at hnodes
    have henter : (s.enter file pos node).function? =
        ([node].find? fun node => node.kind?.any Kind.isFunction).or s.function? := by
      rw [Surroundings.enter, List.find?_singleton]
      by_cases hfunction : node.kind?.any Kind.isFunction = true
      · rw [if_pos (h node hnodes.1 hfunction), if_pos hfunction]
        rfl
      · have hentered : ¬isEntered pos node = true := fun hentered =>
          hfunction (Bool.and_eq_true _ _ ▸ hentered).1
        rw [if_neg hentered, if_neg hfunction]
        rfl
    rw [List.foldl_cons, ih hnodes.2, henter, List.reverse_cons, List.find?_append,
      Option.or_assoc]

end Lexical

/-! ### Positions at which nodes begin -/

namespace SourceFile.InOrder

/-- The traversal of a file enters the nodes on the way to the position. -/
theorem surroundings_eq (h : file.InOrder) :
    surroundings file pos = (file.pathTo pos).foldl (Surroundings.enter file pos) {} := by
  have hlaid := h.laid
  rw [surroundings, pathTo_eq]
  cases htree : file.tree with
  | mk label role? start stop children =>
    rw [htree, Tree.children] at hlaid
    rw [descend, hlaid.descendAmong_eq file, List.foldl_cons, Tree.children]

/-- The way to the beginning of a node ends in a node that begins there. -/
theorem exists_pathTo (h : file.InOrder)
    (hstart : pos ∈ (preorderAll file.tree.children).map Tree.start) :
    ∃ around last, file.pathTo pos = around ++ [last] ∧ last.start = pos ∧
      Laid last.start last.stop last.children ∧ ∀ c ∈ last.children, ¬holds pos c := by
  obtain ⟨s, hs, rfl⟩ := List.mem_map.mp hstart
  obtain ⟨last, hlast, hsame⟩ := h.laid.exists_getLast?_pathIn hs
  obtain ⟨around, hpath⟩ := List.getLast?_eq_some_iff.mp hlast
  have hnode := (h.laid.mem_pathIn last (List.mem_of_getLast? hlast)).1
  exact ⟨file.tree :: around, last, by rw [pathTo_eq, hpath, List.cons_append], hsame,
    h.laid.node_children last hnode, h.laid.not_holds_of_getLast? hlast⟩

end SourceFile.InOrder

namespace Lexical

/-- No part of a node stands before its beginning. -/
theorem not_stop_le {t : Tree} (h : Laid t.start t.stop t.children) :
    ∀ c ∈ t.children, ¬c.stop ≤ t.start := fun c hc hle => by
  have := h.bounds c hc
  omega

private theorem before_start {t : Tree} (h : Laid t.start t.stop t.children) : before t.start t =
    [] :=
  List.filter_eq_nil_iff.mpr fun c hc => by
    simpa using not_stop_le h c (List.mem_of_mem_filter hc)

/-- A function is not entered at its beginning, before the parameters. -/
theorem bindingsOf_start {t : Tree} (h : Laid t.start t.stop t.children)
    (hfunction : ¬t.kind?.any Kind.isFunction) : Scope.bindingsOf file t.start t = [] := by
  have hbefore : t.namedChildren.filter (·.stop ≤ t.start) = [] := before_start h
  unfold Scope.bindingsOf
  cases hkind : t.kind? with
  | none => rfl
  | some kind =>
    rw [hkind] at hfunction
    have hinitial : ∀ first, t.child? .initializer = some first → ¬first.stop ≤ t.start :=
      fun first hfirst => not_stop_le h first (List.mem_of_find?_eq_some hfirst)
    rw [Option.any_some] at hfunction
    simp only [hbefore, List.reverse_nil, List.flatMap_nil, if_neg hfunction]
    split
    · rfl
    cases hfirst : t.child? .initializer with
    | none => split <;> rfl
    | some first =>
      simp only [if_neg (hinitial first hfirst)]
      split <;> rfl

end Lexical

/-! ### Lookup -/

section

variable (h : file.InOrder)
  (inBody : ∀ node ∈ file.pathTo pos, node.kind?.any Kind.isFunction → isEntered pos node)
  (regular : Regular file pos) (hstart : pos ∈ (preorderAll file.tree.children).map Tree.start)

include h hstart

section

include inBody

/-- The last node on the way, which begins at the position, adds nothing to a scope. -/
theorem Lexical.exists_ancestorsAt : ∃ last, file.pathTo pos =
      (Scope.ancestorsAt file pos).reverse ++ [last] ∧ Scope.bindingsOf file pos last = [] ∧
        ¬last.kind?.any Kind.isFunction := by
  obtain ⟨around, last, hpath, rfl, hlaid, hdeepest⟩ := h.exists_pathTo hstart
  have hancestors : Scope.ancestorsAt file last.start = around.reverse := by
    rw [Scope.ancestorsAt, ← SourceFile.pathTo, hpath, List.dropLast_concat]
  have hfunction : ¬last.kind?.any Kind.isFunction := by
    intro hfunction
    have hentered := inBody last (by simp [hpath]) hfunction
    rw [isEntered, Bool.and_eq_true] at hentered
    obtain ⟨body, hbody, hholds⟩ := (Option.any_eq_true ..).mp hentered.2
    exact hdeepest body (List.mem_of_find?_eq_some hbody) hholds
  exact ⟨last, by rw [hancestors, List.reverse_reverse, hpath], bindingsOf_start hlaid hfunction,
    hfunction⟩

/-- The signature is that of the innermost function that has the position in its body. -/
theorem Scope.signature?_of_inBody :
    (Scope.visibleAt file pos).signature? =
      (surroundings file pos).function?.map (Signature.ofFunction file) := by
  obtain ⟨last, hpath, -, hlast⟩ := exists_ancestorsAt h inBody hstart
  rw [h.surroundings_eq, function?_foldl_enter inBody (List.Subset.refl _), hpath,
    List.reverse_append, List.reverse_reverse, List.reverse_singleton, List.singleton_append,
    List.find?_cons_of_neg (by exact hlast), Option.or_none]
  rfl

end

include regular

/-- Looking a name up yields the first declaration of the name, outwards, that has a binding. -/
theorem Scope.lookup?_visibleAt (hname : name ≠ "_") :
    (Scope.visibleAt file pos).lookup? name =
      (surroundings file pos).declarations.findSome? (·.boundAs? name) := by
  obtain ⟨last, hpath, hlast, -⟩ := exists_ancestorsAt h regular.inBody hstart
  rw [h.surroundings_eq, findSome?_foldl_enter regular (List.Subset.refl _) hname, hpath,
    List.reverse_append, List.flatMap_append, List.reverse_reverse, List.reverse_singleton,
    List.flatMap_singleton, hlast, List.nil_append]
  exact Option.or_none.symm

/-- The signature is that of the innermost function around the position. -/
theorem Scope.signature?_visibleAt :
    (Scope.visibleAt file pos).signature? =
      (surroundings file pos).function?.map (Signature.ofFunction file) :=
  signature?_of_inBody h regular.inBody hstart

end

end GoContracts

import GoContracts.Proofs.Syntax.Seats
import GoContracts.Proofs.Weaving.Placement
import Mathlib.Data.List.TakeWhile

/-!
# Every list of statements once

The bodies of a tree are found by working off a stack of nodes. This is the recursive walk over
named children: it comes to each node once, in the order of the addresses of nodes, and takes a body
from each block or clause that is opened. Every comment in a body is found in that body and in no
other.
-/

namespace GoContracts

open Syntax (Tree Kind)

/-! ### Addresses -/

namespace Syntax.Tree

/-- The node at an address, which numbers the named child to take at each step down. -/
def namedAt? (t : Tree) : List Nat → Option Tree
  | [] => some t
  | i :: address => t.namedChildren[i]?.bind (namedAt? · address)

/-- The node that has the node at an address among its children, with its own address. -/
def parent? (root : Tree) (address : List Nat) : Option (List Nat × Tree) :=
  if address = [] then none else (root.namedAt? address.dropLast).map (address.dropLast, ·)

/-- The block or clause that directly holds the node at an address. A list of statements between
them is looked through. -/
def owner? (root : Tree) (address : List Nat) : Option Tree := do
  let parent ← root.parent? address
  let parent ← if parent.2.is .statementList then root.parent? parent.1 else some parent
  if parent.2.kind?.any Kind.isScope then some parent.2 else none

/-- Whether the node at an address below the tree stands directly in it, or in a list of statements
that does. -/
def StandsIn (t : Tree) : List Nat → Prop
  | [_] => True
  | [i, _] => ∃ list, t.namedChildren[i]? = some list ∧ list.is .statementList = true
  | _ => False

/-- An address is that of a node and the rest of the way from there. -/
theorem namedAt?_append (t : Tree) (address below : List Nat) :
    t.namedAt? (address ++ below) = (t.namedAt? address).bind (·.namedAt? below) := by
  induction address generalizing t with
  | nil => rfl
  | cons i address ih =>
    rw [List.cons_append, namedAt?, namedAt?]
    cases t.namedChildren[i]? with
    | none => rfl
    | some c => exact ih c

private theorem parent?_concat {root t : Tree} {address : List Nat}
    (h : root.namedAt? address = some t) (i : Nat) :
    root.parent? (address ++ [i]) = some (address, t) := by
  rw [parent?, if_neg (List.append_ne_nil_of_right_ne_nil _ (List.cons_ne_nil _ _)),
    List.dropLast_concat, h, Option.map_some]

/-- What stands in a block or clause has it for its owner. -/
theorem owner?_eq {root scope : Tree} {address below : List Nat} {k : Kind}
    (hat : root.namedAt? address = some scope) (hlabel : scope.label = .node k)
    (hscope : k.isScope = true) (hstands : scope.StandsIn below) :
    root.owner? (address ++ below) = some scope := by
  have hkind : scope.kind?.any Kind.isScope = true := by simp [kind?, hlabel, hscope]
  rcases below with _ | ⟨i, _ | ⟨j, _ | _⟩⟩
  · cases hstands
  · have hlist : scope.is .statementList = false := by
      refine decide_eq_false fun h => ?_
      obtain rfl := Label.node.inj (hlabel.symm.trans h)
      cases hscope
    simp [owner?, parent?_concat hat, hlist, hkind]
  · obtain ⟨list, hchild, hlist⟩ := hstands
    have hnext : root.namedAt? (address ++ [i]) = some list := by
      rw [namedAt?_append, hat, Option.bind_some, namedAt?, hchild]
      rfl
    have hsplit : address ++ [i, j] = address ++ [i] ++ [j] := by simp
    rw [owner?, hsplit, parent?_concat hnext]
    simp [parent?_concat hat, hlist, hkind]
  · cases hstands

mutual

/-- The recursive walk over named children: each node with its address, before the nodes below. -/
def walk : Tree → List (List Nat × Tree)
  | mk l r s e cs => ([], mk l r s e cs) :: walkFrom 0 cs

/-- The walk over those trees that are named, of which the first one has the number `i`. -/
def walkFrom (i : Nat) : List Tree → List (List Nat × Tree)
  | [] => []
  | t :: ts =>
    if t.isNamed then t.walk.map (fun node => (i :: node.1, node.2)) ++ walkFrom (i + 1) ts
    else walkFrom i ts

end

/-- A walk begins at the tree and goes through its children. -/
theorem walk_eq (t : Tree) : t.walk = ([], t) :: walkFrom 0 t.children := by
  cases t
  rw [walk]
  rfl

private theorem mem_walkFrom {i : Nat} {ts : List Tree} {address : List Nat} {u : Tree} :
    (address, u) ∈ walkFrom i ts ↔ ∃ j below t, address = (i + j) :: below ∧
      (ts.filter (·.isNamed))[j]? = some t ∧ (below, u) ∈ t.walk := by
  induction ts generalizing i with
  | nil => simp [walkFrom]
  | cons t ts ih =>
    rw [walkFrom]
    by_cases ht : t.isNamed = true
    · rw [if_pos ht, List.filter_cons_of_pos ht, List.mem_append, List.mem_map, ih]
      constructor
      · rintro (⟨⟨below, v⟩, hmem, h⟩ | ⟨j, below, v, rfl, hv, hmem⟩)
        · obtain ⟨rfl, rfl⟩ := Prod.mk.inj h
          exact ⟨0, below, t, rfl, rfl, hmem⟩
        · exact ⟨j + 1, below, v, by rw [Nat.add_right_comm, Nat.add_assoc], hv, hmem⟩
      · rintro ⟨_ | j, below, v, rfl, hv, hmem⟩
        · obtain rfl := Option.some.inj hv
          exact .inl ⟨(below, u), hmem, rfl⟩
        · exact .inr ⟨j, below, v, by rw [Nat.add_right_comm, Nat.add_assoc], hv, hmem⟩
    · rw [if_neg ht, List.filter_cons_of_neg ht, ih]

/-- The walk comes to the nodes that have addresses. -/
theorem mem_walk {t u : Tree} {address : List Nat} :
    (address, u) ∈ t.walk ↔ t.namedAt? address = some u := by
  induction address generalizing t with
  | nil =>
    rw [walk_eq, List.mem_cons, mem_walkFrom]
    simp [namedAt?, eq_comm]
  | cons i address ih =>
    rw [walk_eq, List.mem_cons, mem_walkFrom]
    simp [namedAt?, namedChildren, Option.bind_eq_some_iff, ih]

mutual

/-- The walk comes to nodes in the order of their addresses. -/
theorem pairwise_walk : ∀ t : Tree, t.walk.Pairwise fun a b => a.1 < b.1
  | mk l r s e cs => by
    rw [walk, List.pairwise_cons]
    refine ⟨fun node hnode => ?_, pairwise_walkFrom 0 cs⟩
    obtain ⟨j, below, t, haddress, _⟩ := mem_walkFrom.mp hnode
    rw [haddress]
    exact List.nil_lt_cons _ _

/-- A walk goes through the places in their order. -/
theorem pairwise_walkFrom (i : Nat) : ∀ ts : List Tree,
    (walkFrom i ts).Pairwise fun a b => a.1 < b.1
  | [] => by
    rw [walkFrom]
    exact .nil
  | t :: ts => by
    rw [walkFrom]
    split
    · rw [List.pairwise_append, List.pairwise_map]
      refine ⟨(pairwise_walk t).imp fun h => List.cons_lt_cons_self.mpr h,
        pairwise_walkFrom (i + 1) ts, fun a ha b hb => ?_⟩
      obtain ⟨node, _, rfl⟩ := List.mem_map.mp ha
      obtain ⟨j, below, _, haddress, _⟩ := mem_walkFrom.mp hb
      rw [haddress]
      exact List.cons_lt_cons_iff.mpr (.inl (by omega))
    · exact pairwise_walkFrom i ts

end

/-! ### Tokens -/

/-- Whether nothing but comments stands below symbols and keywords. -/
def TokensBare (root : Tree) : Prop :=
  ∀ t ∈ root.preorder, t.isNamed = false → ∀ c ∈ t.children, c.isComment = true ∧ c.children = []

end Syntax.Tree

namespace Syntax

open Syntax.Tree (preorderAll attachAll)

private theorem tokensBare_comment {c : Tree} (h : c.isComment = true ∧ c.children = []) :
    c.TokensBare := by
  intro t ht hnamed
  rw [Tree.preorder_eq, h.2, preorderAll, List.mem_singleton] at ht
  rw [ht, Tree.isNamed, Tree.kind?, Tree.isComment_iff.mp h.1] at hnamed
  cases hnamed

private theorem Tree.TokensBare.children {t : Tree} (h : t.TokensBare) :
    ∀ c ∈ t.children, c.TokensBare := by
  intro c hc u hu
  refine h u ?_
  rw [preorder_eq]
  exact List.mem_cons_of_mem t (mem_preorderAll.mpr ⟨c, hc, hu⟩)

private theorem tokensBare_mk {l : Label} {r : Option Role} {start stop : Nat} {cs : List Tree}
    (hself : (∃ k, l = .node k) ∨ ∀ c ∈ cs, c.isComment = true ∧ c.children = [])
    (hcs : ∀ c ∈ cs, c.TokensBare) : (Tree.mk l r start stop cs).TokensBare := by
  intro t ht hnamed
  rw [Tree.preorder] at ht
  rcases List.mem_cons.mp ht with rfl | ht
  · rcases hself with ⟨k, rfl⟩ | hbare
    · cases hnamed
    · exact hbare
  · obtain ⟨c, hc, hmem⟩ := Tree.mem_preorderAll.mp ht
    exact hcs c hc t hmem hnamed

/-- Trees that read tokens keep their symbols and keywords bare when comments are placed. -/
theorem Reads.tokensBare {trees comments : List Tree} {ts : List Token} (h : Reads trees ts)
    (hcomments : ∀ c ∈ comments, c.isComment = true ∧ c.children = []) :
    ∀ t ∈ attachAll trees comments, t.TokensBare := by
  induction h generalizing comments with
  | nil =>
    rw [attachAll]
    exact fun t ht => tokensBare_comment (hcomments t ht)
  | leaf _ _ _ _ _ _ ih =>
    have hsome (p : Tree → Bool) : ∀ c ∈ comments.filter p, c.isComment = true ∧ c.children = [] :=
      fun c hc => hcomments c (List.mem_of_mem_filter hc)
    intro t ht
    rw [Tree.attachAll_cons, attachAll, List.mem_append, List.mem_cons] at ht
    rcases ht with ht | rfl | ht
    · exact tokensBare_comment (hsome _ t ht)
    · exact tokensBare_mk (.inr (hsome _)) fun c hc => tokensBare_comment (hsome _ c hc)
    · exact ih (hsome _) t ht
  | @node k _ _ _ _ _ _ _ _ _ _ _ _ _ _ _ _ _ _ ihp ih =>
    have hsome (p : Tree → Bool) : ∀ c ∈ comments.filter p, c.isComment = true ∧ c.children = [] :=
      fun c hc => hcomments c (List.mem_of_mem_filter hc)
    intro t ht
    rw [Tree.attachAll_cons, List.mem_append, List.mem_cons] at ht
    rcases ht with ht | rfl | ht
    · exact tokensBare_comment (hsome _ t ht)
    · exact tokensBare_mk (.inl ⟨k, rfl⟩) (ihp (hsome _))
    · exact ih (hsome _) t ht

/-- In the tree of a text symbols and keywords are bare. -/
theorem Grammar.tokensBare_readSource (text : String) : (readSource text).1.TokensBare := by
  have ho := Token.ordered_readAll text
  unfold readSource
  simp only [StateT.run]
  split
  · next items rest hitems =>
    obtain ⟨newlines, _, hparsed, _⟩ := fileItems_parsed (sound_rulesTo _) hitems
    obtain ⟨own, _, hreads, _⟩ := hparsed (ho.sublist (significant_sublist _))
    rw [sourceFile, Tree.attach]
    refine tokensBare_mk (.inl ⟨_, rfl⟩) (hreads.tokensBare fun c hc => ?_)
    obtain ⟨u, _, rfl⟩ := List.mem_map.mp hc
    exact ⟨rfl, rfl⟩
  · exact tokensBare_mk (.inl ⟨_, rfl⟩) (by simp)

end Syntax

/-! ### Bodies -/

namespace Body

variable {t : Tree} {body : Body}

/-- Whether the block or clause `t` is opened, and the body holds what stands behind: its named
children after the first opening brace or colon, without comments. In the place of a list of
statements stand its own named children, again without comments. -/
structure IsBodyOf (body : Body) (t : Tree) : Prop where
  scope : ∃ k : Kind, t.label = .node k ∧ k.isScope = true
  node : body.node = t
  parts : ∃ before opener after, t.children = before ++ opener :: after ∧
    (∀ u ∈ before, u.isToken (openingToken t) = false) ∧ opener.isToken (openingToken t) = true ∧
    body.opening = opener.stop ∧
    body.statements = (after.filter fun u => u.isNamed && !u.isComment).flatMap fun u =>
      if u.is .statementList then u.items else [u]

private theorem flatMap_statementsOf_eq (trees : List Tree) : trees.flatMap statementsOf =
    (trees.filter fun u => u.isNamed && !u.isComment).flatMap fun u =>
      if u.is .statementList then u.items else [u] := by
  induction trees with
  | nil => rfl
  | cons t trees ih =>
    rw [List.flatMap_cons, ih, statementsOf, List.filter_cons]
    cases t.isNamed
    · rfl
    · cases t.isComment
      · rfl
      · rfl

private theorem of?_eq_some_iff : of? t = some body ↔ body.IsBodyOf t := by
  constructor
  · intro h
    obtain ⟨k, hk, h⟩ := Option.bind_eq_some_iff.mp h
    obtain ⟨opener, hopener, h⟩ := Option.bind_eq_some_iff.mp h
    obtain rfl := Option.some.inj h
    obtain ⟨hlabel, hscope⟩ : t.label = .node k ∧ k.isScope = true := by
      obtain ⟨hkind, hscope⟩ := Option.filter_eq_some_iff.mp hk
      exact ⟨of_decide_eq_true (Tree.is_iff.mpr hkind), hscope⟩
    obtain ⟨after, hrest⟩ := List.head?_eq_some_iff.mp hopener
    have hfirst := List.head?_dropWhile_not (!·.isToken (openingToken t)) t.children
    rw [hopener] at hfirst
    refine ⟨⟨k, hlabel, hscope⟩, rfl, t.children.takeWhile (!·.isToken (openingToken t)), opener,
      after, ?_, fun u hu => by simpa using List.mem_takeWhile_imp hu, by simpa using hfirst, rfl,
      ?_⟩
    · rw [← hrest, List.takeWhile_append_dropWhile]
    · rw [← flatMap_statementsOf_eq, hrest, List.tail_cons]
  · rintro ⟨⟨k, hk, hscope⟩, hnode, before, opener, after, hchildren, hbefore, hopener, hopening,
      hstatements⟩
    have hrest : t.children.dropWhile (!·.isToken (openingToken t)) = opener :: after := by
      rw [hchildren, List.dropWhile_append_of_pos fun u hu => by simp [hbefore u hu],
        List.dropWhile_cons_of_neg (by simp [hopener])]
    obtain ⟨node, opening, statements⟩ := body
    obtain rfl : node = t := hnode
    obtain rfl : opening = opener.stop := hopening
    obtain rfl : statements = after.flatMap statementsOf :=
      hstatements.trans (flatMap_statementsOf_eq after).symm
    have hkind : scopeKind? node = some k := by
      rw [scopeKind?, Tree.kind?, hk, Option.filter_some, if_pos hscope]
    simp [of?, hkind, hrest]

example : (of? (.node .block [.leaf (.token "\x7b") 0 1,
    .node .statementList [.leaf (.node .emptyStatement) 2 3, .leaf (.node .comment) 4 5],
    .leaf (.token "\x7d") 6 7])).map (·.statements.map Tree.start) = some [2] := by decide

/-! ### The stack -/

/-- Push nodes onto a stack, whose top is its first node. -/
def push (nodes stack : List Tree) : List Tree := nodes.foldl (fun stack t => t :: stack) stack

private theorem push_reverse (nodes stack : List Tree) :
    push nodes.reverse stack = nodes ++ stack := by
  rw [push, List.foldl_flip_cons_eq_append, List.map_id', List.reverse_reverse]

end Body

namespace Syntax.Tree

mutual

/-- Number of nodes of the tree. -/
def nodeCount : Tree → Nat
  | mk _ _ _ _ cs => nodeCountAll cs + 1

/-- Number of nodes of the trees. -/
def nodeCountAll : List Tree → Nat
  | [] => 0
  | t :: ts => nodeCount t + nodeCountAll ts

end

/-- The nodes of two lists of trees are those of both. -/
theorem nodeCountAll_append (ts us : List Tree) :
    nodeCountAll (ts ++ us) = nodeCountAll ts + nodeCountAll us := by
  induction ts with
  | nil => rw [List.nil_append, nodeCountAll, Nat.zero_add]
  | cons t ts ih => rw [List.cons_append, nodeCountAll, nodeCountAll, ih, Nat.add_assoc]

private theorem nodeCountAll_filter_le (p : Tree → Bool) (ts : List Tree) :
    nodeCountAll (ts.filter p) ≤ nodeCountAll ts := by
  induction ts with
  | nil => exact Nat.le_refl _
  | cons t ts ih =>
    rw [List.filter_cons, nodeCountAll]
    split
    · rw [nodeCountAll]
      omega
    · omega

private theorem nodeCountAll_namedChildren_lt (t : Tree) :
    nodeCountAll t.namedChildren < t.nodeCount := by
  cases t with
  | mk l r s e cs =>
    have := nodeCountAll_filter_le (·.isNamed) cs
    rw [nodeCount, namedChildren, children]
    omega

end Syntax.Tree

namespace Body

variable {t : Tree}

/-- The bodies found by working off a stack of nodes: the top node is taken, its body is noted, and
its named children are pushed, the last one first. -/
def workOff (found : List Body) : List Tree → List Body
  | [] => found
  | t :: stack => workOff (found ++ (of? t).toList) (push t.namedChildren.reverse stack)
termination_by stack => Tree.nodeCountAll stack
decreasing_by
  have := t.nodeCountAll_namedChildren_lt
  rw [push_reverse, Tree.nodeCountAll_append, Tree.nodeCountAll]
  omega

private theorem filterMap_walkFrom (i : Nat) (ts : List Tree) :
    ((Tree.walkFrom i ts).filterMap fun node => of? node.2) =
      (ts.filter (·.isNamed)).flatMap fun t => t.walk.filterMap fun node => of? node.2 := by
  induction ts generalizing i with
  | nil => rw [Tree.walkFrom, List.filter_nil, List.flatMap_nil, List.filterMap_nil]
  | cons t ts ih =>
    rw [Tree.walkFrom]
    by_cases ht : t.isNamed = true
    · rw [if_pos ht, List.filter_cons_of_pos ht, List.flatMap_cons, List.filterMap_append,
        List.filterMap_map, ih]
      rfl
    · rw [if_neg ht, List.filter_cons_of_neg ht, ih]

/-- Working off a stack walks through its nodes from the top. -/
theorem workOff_eq (found : List Body) (stack : List Tree) : workOff found stack =
    found ++ stack.flatMap fun t => t.walk.filterMap fun node => of? node.2 := by
  fun_induction workOff found stack with
  | case1 => simp
  | case2 found t stack ih =>
    have hstep : (t.walk.filterMap fun node => of? node.2) = (of? t).toList ++
        t.namedChildren.flatMap fun c => c.walk.filterMap fun node => of? node.2 := by
      rw [Tree.walk_eq, List.filterMap_cons, filterMap_walkFrom, Tree.namedChildren]
      cases of? t <;> rfl
    rw [ih, push_reverse, List.flatMap_append, List.flatMap_cons, hstep, List.append_assoc,
      List.append_assoc]

/-! ### The walk -/

/-- Below a bare symbol or keyword there are no bodies. -/
theorem filterMap_preorder_token (h : t.TokensBare) (ht : t.isNamed = false) :
    t.preorder.filterMap of? = [] := by
  have hchildren := h t t.mem_preorder_self ht
  rw [List.filterMap_eq_nil_iff]
  intro u hu
  rw [Option.eq_none_iff_forall_ne_some]
  intro body hbody
  obtain ⟨k, hlabel, hscope⟩ := (of?_eq_some_iff.mp hbody).scope
  rw [Tree.preorder_eq] at hu
  rcases List.mem_cons.mp hu with rfl | hu
  · simp [Tree.isNamed, Tree.kind?, hlabel] at ht
  · have hmem := Syntax.mem_of_mem_preorderAll (fun c hc => (hchildren c hc).2) hu
    have hcomment := Tree.isComment_iff.mp (hchildren u hmem).1
    obtain rfl := Syntax.Label.node.inj (hlabel.symm.trans hcomment)
    cases hscope

mutual

/-- All bodies are found on the walk over named children. -/
theorem filterMap_preorder : ∀ t : Tree, t.TokensBare →
    t.preorder.filterMap of? = t.walk.filterMap fun node => of? node.2
  | .mk l r s e cs, h => by
    rw [Tree.preorder, Tree.walk, List.filterMap_cons, List.filterMap_cons,
      filterMap_preorderAll cs 0 h.children]

/-- The bodies among the nodes are those of a walk. -/
theorem filterMap_preorderAll : ∀ (ts : List Tree) (i : Nat), (∀ t ∈ ts, t.TokensBare) →
    (Tree.preorderAll ts).filterMap of? = (Tree.walkFrom i ts).filterMap fun node => of? node.2
  | [], _, _ => by rw [Tree.preorderAll, Tree.walkFrom, List.filterMap_nil, List.filterMap_nil]
  | t :: ts, i, h => by
    obtain ⟨ht, hts⟩ := List.forall_mem_cons.mp h
    rw [Tree.preorderAll, Tree.walkFrom, List.filterMap_append]
    split
    · rw [List.filterMap_append, List.filterMap_map, filterMap_preorder t ht,
        filterMap_preorderAll ts (i + 1) hts]
      rfl
    · next hnamed =>
      rw [filterMap_preorder_token ht (by simpa using hnamed), List.nil_append,
        filterMap_preorderAll ts i hts]

end

/-! ### The enumeration -/

/-- The bodies are those of a tree, each once, in the order of the addresses of the nodes. -/
structure Enumerates (bodies : List Body) (root : Tree) : Prop where
  /-- They are found by working off a stack that holds the root. -/
  stack : bodies = workOff [] [root]
  /-- They are found by walking through named children. -/
  walk : bodies = root.walk.filterMap fun node => of? node.2
  /-- Each opened block or clause has one body, at the place that its address has among others. -/
  once : ∃ entries : List (List Nat × Body), entries.map (·.2) = bodies ∧
    (entries.Pairwise fun a b => a.1 < b.1) ∧ ∀ address body, (address, body) ∈ entries ↔
      ∃ t, root.namedAt? address = some t ∧ body.IsBodyOf t
  /-- The owner of a comment that stands in an opened block or clause is that block or clause, and
  its body is among the bodies. -/
  owner : ∀ address below scope comment body, root.namedAt? address = some scope →
    body.IsBodyOf scope → scope.StandsIn below → scope.namedAt? below = some comment →
      comment.isComment = true →
        root.owner? (address ++ below) = some scope ∧ body ∈ bodies ∧
          Placement.holdsComment body comment.start = true

private theorem exists_entries (root : Tree) : ∃ entries : List (List Nat × Body),
    entries.map (·.2) = (root.walk.filterMap fun node => of? node.2) ∧
      (entries.Pairwise fun a b => a.1 < b.1) ∧ ∀ address body, (address, body) ∈ entries ↔
        ∃ t, root.namedAt? address = some t ∧ body.IsBodyOf t := by
  refine ⟨root.walk.filterMap fun node => (of? node.2).map (node.1, ·), ?_, ?_, ?_⟩
  · rw [List.map_filterMap]
    refine List.filterMap_congr fun node _ => ?_
    rw [Option.map_map]
    exact Option.map_id'
  · rw [List.pairwise_filterMap]
    refine root.pairwise_walk.imp fun hlt a ha b hb => ?_
    obtain ⟨_, _, rfl⟩ := Option.map_eq_some_iff.mp ha
    obtain ⟨_, _, rfl⟩ := Option.map_eq_some_iff.mp hb
    exact hlt
  · intro address body
    simp only [List.mem_filterMap, Option.map_eq_some_iff, Prod.exists, Prod.mk.injEq,
      of?_eq_some_iff, Tree.mem_walk]
    constructor
    · rintro ⟨address, t, hat, body, hbody, rfl, rfl⟩
      exact ⟨t, hat, hbody⟩
    · rintro ⟨t, hat, hbody⟩
      exact ⟨address, t, hat, body, hbody, rfl, rfl⟩

/-- A body holds the comments that stand in its block or clause. -/
theorem IsBodyOf.holdsComment {scope comment : Tree} {body : Body} {below : List Nat}
    (h : body.IsBodyOf scope) (hstands : scope.StandsIn below)
    (hcomment : scope.namedAt? below = some comment) (hc : comment.isComment = true) :
    Placement.holdsComment body comment.start = true := by
  have hchild : ∃ t ∈ scope :: scope.children.filter (·.is .statementList),
      comment ∈ t.children := by
    match below, hstands with
    | [i], _ =>
      obtain ⟨c, hmem, hat⟩ := Option.bind_eq_some_iff.mp hcomment
      obtain rfl := Option.some.inj hat
      exact ⟨scope, List.mem_cons_self .., List.mem_of_mem_filter (List.mem_of_getElem? hmem)⟩
    | [i, j], hstands =>
      obtain ⟨list, hchild, hlist⟩ := hstands
      rw [Tree.namedAt?, hchild, Option.bind_some] at hcomment
      obtain ⟨c, hmem, hat⟩ := Option.bind_eq_some_iff.mp hcomment
      obtain rfl := Option.some.inj hat
      have hmemList := List.mem_of_mem_filter (List.mem_of_getElem? hchild)
      exact ⟨list, List.mem_cons_of_mem _ (List.mem_filter.mpr ⟨hmemList, hlist⟩),
        List.mem_of_mem_filter (List.mem_of_getElem? hmem)⟩
  obtain ⟨t, ht, hmem⟩ := hchild
  rw [Placement.holdsComment, h.node]
  exact List.any_eq_true.mpr ⟨t, ht, List.any_eq_true.mpr ⟨comment, hmem, by simp [hc]⟩⟩

/-- The bodies of a tree are enumerated if nothing but comments stands below its tokens. -/
theorem enumerates_all {root : Tree} (h : root.TokensBare) : Enumerates (all root) root := by
  have hwalk : all root = root.walk.filterMap fun node => of? node.2 := filterMap_preorder root h
  obtain ⟨entries, hentries, hpairwise, hmem⟩ := exists_entries root
  refine ⟨?_, hwalk, ⟨entries, by rw [hentries, hwalk], hpairwise, hmem⟩, ?_⟩
  · rw [workOff_eq, List.flatMap_singleton, List.nil_append, hwalk]
  · intro address below scope comment body hat hbody hstands hcomment hc
    refine ⟨?_, ?_, ?_⟩
    · obtain ⟨k, hlabel, hscope⟩ := hbody.scope
      exact Tree.owner?_eq hat hlabel hscope hstands
    · rw [hwalk, ← hentries]
      exact List.mem_map.mpr ⟨(address, body), (hmem address body).mpr ⟨scope, hat, hbody⟩, rfl⟩
    · exact hbody.holdsComment hstands hcomment hc

/-- Of things of which no two satisfy `p` at once, one that does is the only one. -/
theorem filter_eq_singleton {α : Type} {p : α → Bool} {items : List α} {a : α}
    (h : items.Pairwise fun a b => ¬(p a = true ∧ p b = true)) (ha : a ∈ items) (hp : p a = true) :
    items.filter p = [a] := by
  have hmem : a ∈ items.filter p := List.mem_filter.mpr ⟨ha, hp⟩
  have hall : ∀ b ∈ items.filter p, p b = true := fun b hb => (List.mem_filter.mp hb).2
  have hpairwise := h.sublist (List.filter_sublist (p := p))
  cases hfilter : items.filter p with
  | nil => simp [hfilter] at hmem
  | cons b rest =>
    rw [hfilter] at hmem hall hpairwise
    cases rest with
    | nil => rw [List.mem_singleton.mp hmem]
    | cons c rest =>
      exact absurd ⟨hall b (by simp), hall c (by simp)⟩
        ((List.pairwise_cons.mp hpairwise).1 c (by simp))

/-- The bodies of a tree are enumerated by a stack as by recursion, each once, and those that hold
comments are among them; in the tree of a text each comment in a body is held by that body only. -/
theorem all_enumerates : (∀ root : Tree, root.TokensBare → Enumerates (all root) root) ∧
    ∀ path text, (SourceFile.parse path text).tree.TokensBare ∧
      ∀ body ∈ all (SourceFile.parse path text).tree, ∀ comment ∈ body.node.children,
        comment.isComment = true → ((all (SourceFile.parse path text).tree).filter
          (Placement.holdsComment · comment.start)) = [body] := by
  refine ⟨fun root => enumerates_all, fun path text =>
    ⟨Syntax.Grammar.tokensBare_readSource text, fun body hbody comment hcomment hc => ?_⟩⟩
  have hpairwise := (SourceFile.inOrder_parse path text).pairwise_holdsComment
  exact filter_eq_singleton (hpairwise.imp fun h => h comment.start) hbody
    (((SourceFile.inOrder_parse path text).holdsComment_iff hbody).mpr ⟨comment, hcomment, hc, rfl⟩)

/-- A file with nested clauses and comments among their statements. -/
private def clauses : String :=
  "package p\n\nfunc f(x int) \x7b\n\t// a\n\tswitch x \x7b\n" ++
    "\tcase 1:\n\t\t// b\n\t\tx++\n\tdefault:\n\t\x7d\n\x7d\n"

/-- A file with bodies in blocks, cases and clauses. -/
theorem all_enumerates_clauses : (SourceFile.parse "/f.go" clauses).tree.TokensBare ∧
    Enumerates (all (SourceFile.parse "/f.go" clauses).tree)
      (SourceFile.parse "/f.go" clauses).tree ∧
    ((all (SourceFile.parse "/f.go" clauses).tree).map fun body =>
      (body.node.kind?, body.statements.length)) =
        [(some .block, 1), (some .expressionCase, 1), (some .defaultCase, 0)] ∧
    ∃ body comment, body.node.is .expressionCase = true ∧ comment ∈ body.node.children ∧
      comment.isComment = true ∧ ((all (SourceFile.parse "/f.go" clauses).tree).filter
        (Placement.holdsComment · comment.start)) = [body] := by
  have hshape : ((all (SourceFile.parse "/f.go" clauses).tree).map fun body =>
      (body.node.kind?, body.statements.length)) =
        [(some .block, 1), (some .expressionCase, 1), (some .defaultCase, 0)] := by
    decide +kernel
  have hcomment : ((all (SourceFile.parse "/f.go" clauses).tree).any fun body =>
      body.node.is .expressionCase && body.node.children.any (·.isComment)) = true := by
    decide +kernel
  obtain ⟨body, hbody, hmem⟩ := List.any_eq_true.mp hcomment
  obtain ⟨hkind, hmem⟩ := Bool.and_eq_true_iff.mp hmem
  obtain ⟨comment, hchild, hc⟩ := List.any_eq_true.mp hmem
  obtain ⟨hbare, hheld⟩ := all_enumerates.2 "/f.go" clauses
  exact ⟨hbare, all_enumerates.1 _ hbare, hshape, body, comment, hkind, hchild, hc,
    hheld body hbody comment hchild hc⟩

end Body

end GoContracts

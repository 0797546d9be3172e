import GoContracts.Proofs.Syntax.Readers

/-!
# Repeated items

What readers of lists take: items in a row, items between commas, and items ended by terminators.
The newlines that end statements are dropped from a finished node, so a list of statements reads up
to a last newline only.
-/

namespace GoContracts.Syntax.Grammar

variable {α : Type} {ts mid rest : List Token}

/-! ### Loops -/

/-- One turn of a loop takes nothing more, or an item and then the others. -/
theorem gather_go_cases {step : Reader (Option α)} {n : Nat} {items : List α}
    (h : gather.go step (n + 1) ts = some (items, rest)) :
    (step ts = some (none, rest) ∧ items = []) ∨ ∃ a more mid, step ts = some (some a, mid) ∧
      gather.go step n mid = some (more, rest) ∧ items = a :: more := by
  rw [gather.go, bind_eq_some] at h
  obtain ⟨o, mid, ho, h⟩ := h
  cases o with
  | none =>
    obtain ⟨rfl, rfl⟩ := pure_eq_some.mp h
    exact .inl ⟨ho, rfl⟩
  | some a =>
    obtain ⟨more, stop, hmore, h⟩ := bind_eq_some.mp h
    obtain ⟨rfl, rfl⟩ := pure_eq_some.mp h
    exact .inr ⟨a, more, mid, ho, hmore, rfl⟩

/-- A step without an item ends the list. -/
theorem gather_go_none {step : Reader (Option α)} {n : Nat} (h : step ts = some (none, rest)) :
    gather.go step (n + 1) ts = some ([], rest) := by
  rw [gather.go, bind_of h]
  rfl

/-- A step with an item goes on with the list. -/
theorem gather_go_item {step : Reader (Option α)} {n : Nat} {a : α} {items : List α}
    (h : step ts = some (some a, mid)) (hmore : gather.go step n mid = some (items, rest)) :
    gather.go step (n + 1) ts = some (a :: items, rest) := by
  rw [gather.go, bind_of h]
  exact bind_of hmore

/-- What holds of the empty list and is kept by an item before a list holds of what is gathered in
so many turns. -/
theorem gather_go_induction {step : Reader (Option α)} {P : List α → List Token → List Token → Prop}
    {items : List α} {n : Nat} (h : gather.go step n ts = some (items, rest))
    (done : ∀ ts, P [] ts ts) (last : ∀ ts rest, step ts = some (none, rest) → P [] ts rest)
    (item : ∀ a as ts mid rest, step ts = some (some a, mid) → P as mid rest →
      P (a :: as) ts rest) : P items ts rest := by
  induction n generalizing ts items with
  | zero =>
    rw [gather.go, pure_eq_some] at h
    obtain ⟨rfl, rfl⟩ := h
    exact done ts
  | succ n ih =>
    rcases gather_go_cases h with ⟨hnone, rfl⟩ | ⟨a, as, mid, ha, has, rfl⟩
    · exact last ts rest hnone
    · exact item a as ts mid rest ha (ih has)

/-- What holds of the empty list and is kept by an item before a list holds of what is gathered. -/
theorem gather_induction {step : Reader (Option α)} {P : List α → List Token → List Token → Prop}
    {items : List α} (h : gather step ts = some (items, rest))
    (done : ∀ ts, P [] ts ts) (last : ∀ ts rest, step ts = some (none, rest) → P [] ts rest)
    (item : ∀ a as ts mid rest, step ts = some (some a, mid) → P as mid rest →
      P (a :: as) ts rest) : P items ts rest :=
  gather_go_induction h done last item

/-- What every extension keeps holds of the extended result. -/
theorem extend_induction {step : α → Reader (Option α)} {P : α → List Token → Prop} {a b : α}
    (h : extend step a ts = some (b, rest)) (start : P a ts)
    (last : ∀ a ts rest, P a ts → step a ts = some (none, rest) → P a rest)
    (item : ∀ a b ts rest, P a ts → step a ts = some (some b, rest) → P b rest) : P b rest := by
  unfold extend at h
  generalize ts.length = n at h
  induction n generalizing ts a with
  | zero =>
    rw [extend.go, pure_eq_some] at h
    obtain ⟨rfl, rfl⟩ := h
    exact start
  | succ n ih =>
    rw [extend.go, bind_eq_some] at h
    obtain ⟨o, mid, ho, h⟩ := h
    cases o with
    | none =>
      rw [pure_eq_some] at h
      obtain ⟨rfl, rfl⟩ := h
      exact last a ts mid start ho
    | some c => exact ih (item a c ts mid start ho) h

/-- A gathered list reads what its items read. -/
theorem gather_parsed {step : Reader (Option α)} {items : List α} (trees : α → List Tree)
    (h : gather step ts = some (items, rest))
    (hstep : ∀ ts o rest, step ts = some (o, rest) → Parsed (o.elim [] trees) ts rest) :
    Parsed (items.flatMap trees) ts rest := by
  refine gather_induction (P := fun items ts rest => Parsed (items.flatMap trees) ts rest) h
    (fun _ => .nil) (fun ts rest h => hstep ts none rest h) (fun a as ts mid rest ha has => ?_)
  rw [List.flatMap_cons]
  exact (hstep ts (some a) mid ha).append has

/-- A gathered list of trees that end with newlines reads what they read. -/
theorem gather_covered {step : Reader (Option Tree)} {items : List Tree}
    (h : gather step ts = some (items, rest))
    (hstep : ∀ ts o rest, step ts = some (o, rest) → Covered o.toList ts rest) :
    Covered items ts rest :=
  gather_induction (P := Covered) h (fun _ => Parsed.nil.covered)
    (fun ts rest h => hstep ts none rest h)
    (fun a _ ts mid _ ha has => (hstep ts (some a) mid ha).append has)

/-- What may be left out reads what it takes. -/
theorem Parsed.optional {r : Reader Tree} {o : Option Tree} (h : optional? r ts = some (o, rest))
    (hr : ∀ {ts t rest}, r ts = some (t, rest) → Parsed [t] ts rest) : Parsed o.toList ts rest := by
  rcases optional_eq_some.mp h with ⟨t, rfl, ht⟩ | ⟨_, rfl, rfl⟩
  · exact hr ht
  · exact .nil

/-- The longest symbol is one of the candidates, and the visible tokens begin with it. -/
theorem mem_of_longestSymbol {free : Bool} {candidates : List String} {op : String}
    (h : longestSymbol? free candidates ts = some op) : op ∈ candidates := by
  unfold longestSymbol? at h
  revert h
  -- The best so far is always a candidate.
  refine List.foldlRecOn (motive := fun best => best = some op → op ∈ candidates) _ _ nofun ?_
  intro best hbest s hs h
  have hs := List.mem_of_mem_filter hs
  cases best with
  | none => exact Option.some.inj h ▸ hs
  | some b =>
    simp only at h
    split at h
    · exact Option.some.inj h ▸ hs
    · exact hbest h

/-! ### Lists with separators -/

/-- Items with a separator before each of them read their tokens. -/
theorem separated_parsed {free : Bool} {mark : String} {item : Reader Tree} {f : Tree → Tree}
    {groups : List (List Tree)}
    (h : gather (do
        if ← looking (atSymbol free mark) then
          let separator ← symbol free mark
          let t ← item
          return some [separator, f t]
        else return none) ts = some (groups, rest))
    (hitem : ∀ {ts t rest}, item ts = some (t, rest) → Parsed [f t] ts rest)
    (hp : isPlain mark = true) : Parsed groups.flatten ts rest := by
  rw [← List.flatMap_id]
  refine gather_parsed id h fun us o rest h => ?_
  rw [looking_bind] at h
  split at h
  · simp only [bind_eq_some, pure_eq_some] at h
    obtain ⟨separator, us₁, hs, t, us₂, ht, rfl, rfl⟩ := h
    exact (symbol_parsed hs hp).cons (hitem ht)
  · obtain ⟨rfl, rfl⟩ := pure_eq_some.mp h
    exact .nil

/-- Items with a comma before each of them, and perhaps a comma before the closing symbol, read
their tokens. -/
theorem trailed_parsed {closing : String} {item : Reader Tree} {groups : List (List Tree)}
    (h : gather (do
        if ← looking (atSymbol true ",") then
          let comma ← symbol true ","
          if ← looking (atSymbol true closing) then return some [comma]
          return some [comma, ← item]
        else return none) ts = some (groups, rest))
    (hitem : ∀ {ts t rest}, item ts = some (t, rest) → Parsed [t] ts rest) :
    Parsed groups.flatten ts rest := by
  rw [← List.flatMap_id]
  refine gather_parsed id h fun us o rest h => ?_
  rw [looking_bind] at h
  split at h
  · obtain ⟨comma, us₁, hcomma, h⟩ := bind_eq_some.mp h
    rw [looking_bind] at h
    split at h
    · obtain ⟨rfl, rfl⟩ := pure_eq_some.mp h
      exact symbol_parsed hcomma (by decide)
    · simp only [bind_eq_some, pure_eq_some] at h
      obtain ⟨t, us₂, ht, rfl, rfl⟩ := h
      exact (symbol_parsed hcomma (by decide)).cons (hitem ht)
  · obtain ⟨rfl, rfl⟩ := pure_eq_some.mp h
    exact .nil

/-- A list with commas reads what it takes. -/
theorem commaList_parsed {closing : String} {item : Reader Tree} {items : List Tree}
    (h : commaList closing item ts = some (items, rest))
    (hitem : ∀ {ts t rest}, item ts = some (t, rest) → Parsed [t] ts rest) :
    Parsed items ts rest := by
  rw [commaList, looking_bind] at h
  split at h
  · obtain ⟨rfl, rfl⟩ := pure_eq_some.mp h
    exact .nil
  · obtain ⟨first, ts₁, hfirst, h⟩ := bind_eq_some.mp h
    obtain ⟨more, ts₂, hmore, h⟩ := bind_eq_some.mp h
    rw [require_bind, pure_eq_some] at h
    obtain ⟨_, rfl, rfl⟩ := h
    exact (Parsed.optional hfirst hitem).append (trailed_parsed hmore hitem)

/-! ### Lists of statements -/

/-- The parts read the tokens from `ts` up to `rest`, except for newlines before `rest`. The line
breaks among the parts count for where they end only. -/
def Terminated (parts : List Tree) (ts rest : List Token) : Prop :=
  ∃ newlines, AllNewlines newlines ∧
    Parsed (parts.filter (·.label ≠ .lineBreak)) ts (newlines ++ rest) ∧
    parts.getLast?.map Tree.stop = (newlines.getLast?.map (·.stop)).or
      ((parts.filter (·.label ≠ .lineBreak)).getLast?.map Tree.stop)

namespace Terminated

variable {parts : List Tree} {t : Tree}

/-- No items are terminated. -/
theorem nil : Terminated [] ts ts := ⟨[], allNewlines_nil, .nil, rfl⟩

private theorem cons (h : Parsed [t] ts mid) (ht : t.label ≠ .lineBreak)
    (hp : Terminated parts mid rest) :
    Terminated (t :: parts) ts rest := by
  obtain ⟨newlines, hn, hparts, hlast⟩ := hp
  refine ⟨newlines, hn, ?_, ?_⟩
  · rw [List.filter_cons_of_pos (by simpa using ht)]
    exact h.cons hparts
  · rw [List.filter_cons_of_pos (by simpa using ht), List.getLast?_cons, List.getLast?_cons]
    generalize parts.getLast? = l, (parts.filter _).getLast? = f, newlines.getLast? = n at hlast ⊢
    cases l <;> cases f <;> cases n <;> simp_all

private theorem lineBreak {newline : Token} (hnew : newline.lexeme = .newline)
    (hp : Terminated parts mid rest) :
    Terminated (.leaf .lineBreak newline.start newline.stop :: parts) (newline :: mid) rest := by
  obtain ⟨newlines, hn, hparts, hlast⟩ := hp
  have hone : AllNewlines [newline] := fun t ht => by rw [List.mem_singleton.mp ht, hnew]
  rw [Terminated, List.filter_cons_of_neg (by simp [Tree.leaf, Tree.label])]
  cases hf : parts.filter (·.label ≠ .lineBreak) with
  | nil =>
    refine ⟨newline :: newlines, hone.append hn, fun ho => ?_, ?_⟩
    · obtain ⟨own, rfl, hr, _⟩ := hparts (Ordered.right (a := [newline]) ho)
      rw [hf] at hr
      exact ⟨[], by rw [hr.eq_nil]; rfl, .nil, settled_nil⟩
    · rw [hf] at hlast
      rw [List.getLast?_cons, List.getLast?_cons]
      generalize parts.getLast? = l, newlines.getLast? = n at hlast ⊢
      cases l <;> cases n <;> simp_all [Tree.leaf, Tree.stop]
  | cons u us =>
    refine ⟨newlines, hn, fun ho => ?_, ?_⟩
    · obtain ⟨own, rfl, hr, hb⟩ := hparts (Ordered.right (a := [newline]) ho)
      rw [hf] at hr
      exact ⟨[newline] ++ own, rfl, hr.skip hone, hb.skip hone (hr.ne_nil (List.cons_ne_nil _ _))⟩
    · rw [List.getLast?_cons, ← hf, ← hlast]
      cases hl : parts.getLast? with
      | none =>
        rw [List.getLast?_eq_none_iff] at hl
        simp [hl] at hf
      | some l => simp

end Terminated

private theorem terminator_cases {stop : Tree} (h : terminator ts = some (stop, rest)) :
    (∃ newline, newline.lexeme = .newline ∧ ts = newline :: rest ∧
      stop = .leaf .lineBreak newline.start newline.stop) ∨
    Parsed [stop] ts rest ∧ stop.label ≠ .lineBreak := by
  unfold terminator at h
  rcases orElse_eq_some.mp h with h | ⟨_, h⟩
  · cases ts with
    | nil => simp [terminator.lineBreak] at h
    | cons t us =>
      simp only [terminator.lineBreak, Option.ite_none_right_eq_some, Option.some.injEq,
        Prod.mk.injEq] at h
      obtain ⟨ht, rfl, rfl⟩ := h
      exact .inl ⟨t, ht, rfl, rfl⟩
  · rcases orElse_eq_some.mp h with h | ⟨_, h⟩
    · exact .inr ⟨symbol_parsed h (by decide), symbol_label_ne h⟩
    · exact .inr ⟨symbol_parsed h (by decide), symbol_label_ne h⟩

/-- An item with its terminator reads before the items behind it. -/
theorem ended_parsed {atEnd : List Token → Bool} {t : Tree} {group parts : List Tree}
    {us : List Token} (ht : Phrased t ts mid) (h : ended atEnd t mid = some (group, us))
    (hp : Terminated parts us rest) : Terminated (group ++ parts) ts rest := by
  rcases optional_bind.mp h with ⟨stop, vs, hstop, h⟩ | ⟨_, h⟩
  · obtain ⟨rfl, rfl⟩ := pure_eq_some.mp h
    refine .cons ht.parsed ht.label_ne ?_
    rcases terminator_cases hstop with ⟨newline, hn, rfl, rfl⟩ | ⟨hs, hl⟩
    · exact hp.lineBreak hn
    · exact hp.cons hs hl
  · simp only [looking_bind] at h
    rw [require_bind, pure_eq_some] at h
    obtain ⟨_, rfl, rfl⟩ := h
    exact .cons ht.parsed ht.label_ne hp

/-- Statements and their terminators read their tokens. -/
theorem terminatedList_parsed {atEnd : List Token → Bool} {item : Reader Tree} {items : List Tree}
    (h : terminatedList atEnd item ts = some (items, rest))
    (hitem : ∀ {ts t rest}, item ts = some (t, rest) → Phrased t ts rest) :
    Terminated items ts rest := by
  unfold terminatedList at h
  obtain ⟨groups, mid, hg, h⟩ := bind_eq_some.mp h
  rw [pure_eq_some] at h
  obtain ⟨rfl, rfl⟩ := h
  refine gather_induction (P := fun groups ts rest => Terminated groups.flatten ts rest) hg
    (fun _ => .nil) (fun ts rest h => ?_) (fun group groups ts mid rest h hgroups => ?_)
  · rw [looking_bind] at h
    split at h
    · obtain ⟨_, rfl⟩ := pure_eq_some.mp h
      exact .nil
    · simp only [skipNewlines_bind, bind_eq_some, pure_eq_some] at h
      obtain ⟨_, _, _, _, _, _, hnone, _⟩ := h
      simp at hnone
  · rw [looking_bind] at h
    split at h
    · simp [pure_eq_some] at h
    · simp only [skipNewlines_bind, bind_eq_some, pure_eq_some, Option.some.injEq] at h
      obtain ⟨t, us, ht, _, _, hended, rfl, rfl⟩ := h
      exact ended_parsed (hitem ht).skip hended hgroups

private theorem symbol_newlines {newlines : List Token} {text : String}
    (hn : AllNewlines newlines) :
    symbol true text (newlines ++ ts) = symbol true text ts := by
  have hskip : afterNewlines (newlines ++ ts) = afterNewlines ts := by
    rw [afterNewlines, List.dropWhile_append_of_pos fun t ht => by simpa using hn t ht]
    rfl
  simp only [symbol, visible, if_true, hskip]

/-- Statements between brackets. -/
theorem Terminated.enclosed {free : Bool} {o c : String} {opening closing : Tree}
    {parts : List Tree} {ts₁ ts₂ : List Token} (ho : symbol free o ts = some (opening, ts₁))
    (hi : Terminated parts ts₁ ts₂) (hc : symbol true c ts₂ = some (closing, rest))
    (hp : (o, c) ∈ bracketPairs) :
    Parsed (opening :: parts.filter (·.label ≠ .lineBreak) ++ [closing]) ts rest := by
  obtain ⟨newlines, hn, hparts, _⟩ := hi
  rw [← symbol_newlines hn] at hc
  exact .enclosed ho hparts hc hp

private theorem Parsed.filter_eq {parts : List Tree} (h : Parsed parts ts rest) (ho : Ordered ts) :
    parts.filter (·.label ≠ .lineBreak) = parts := by
  obtain ⟨own, _, hr, _⟩ := h ho
  rw [List.filter_eq_self]
  simpa using hr.label_ne_lineBreak

/-- A node over statements between brackets. -/
theorem Terminated.phrase {free : Bool} {o c : String} {opening closing : Tree} {k : Kind}
    (before : List Tree) {parts : List Tree} {ts₁ ts₂ : List Token} (hb : Parsed before ts mid)
    (ho : symbol free o mid = some (opening, ts₁)) (hi : Terminated parts ts₁ ts₂)
    (hc : symbol true c ts₂ = some (closing, rest)) (hp : (o, c) ∈ bracketPairs)
    (hf : ∀ cs, Formed k cs) :
    Phrased (.node k (before ++ (opening :: parts ++ [closing]))) ts rest := by
  refine ⟨rfl, fun hord => ?_⟩
  have hopen := symbol_label_ne ho
  have hclose := symbol_label_ne hc
  have hbefore := hb.filter_eq hord
  have hnode : Tree.node k (before ++ (opening :: parts ++ [closing])) =
      .node k (before ++ (opening :: parts.filter (·.label ≠ .lineBreak) ++ [closing])) := by
    have hlast : ∀ l : List Tree, (before ++ (opening :: l ++ [closing])).getLast? = some closing :=
      fun l => by rw [← List.append_assoc, List.getLast?_concat]
    rw [Tree.node, Tree.node, hlast, hlast]
    simp [List.filter_append, hopen, hclose, List.head?_append]
  rw [hnode]
  exact ((hb.append (hi.enclosed ho hc hp)).phrase (by simp) (hf _)).parsed hord

/-- A clause of statements ends with its last newline. -/
theorem Terminated.clause {k : Kind} (before : List Tree) {parts : List Tree}
    (hb : Parsed before ts mid) (hne : before ≠ []) (hi : Terminated parts mid rest)
    (hk : k.isScope = true) (hf : ∀ cs, Formed k cs) :
    Covered [.node k (before ++ parts)] ts rest := by
  obtain ⟨newlines, hn, hparts, hlast⟩ := hi
  intro ho
  have hbefore := hb.filter_eq ho
  obtain ⟨own, rfl, hr, hbal⟩ := (hb.append hparts) ho
  refine ⟨own ++ newlines, by simp, ?_, hbal.balanced.append hn.balanced⟩
  obtain ⟨child, hfirst⟩ : ∃ t, before.head? = some t :=
    Option.isSome_iff_exists.mp (by simpa using hne)
  obtain ⟨final, hfinal⟩ :
      ∃ t, (before ++ parts.filter (·.label ≠ .lineBreak)).getLast? = some t :=
    Option.isSome_iff_exists.mp (by simp [hne])
  have hstop : ((before ++ parts).getLast?.map Tree.stop).getD 0 =
      (newlines.getLast?.map (·.stop)).getD final.stop := by
    rw [List.getLast?_append] at hfinal ⊢
    generalize parts.getLast? = l, (parts.filter _).getLast? = f, newlines.getLast? = n,
      before.getLast? = m at hlast hfinal ⊢
    cases l <;> cases f <;> cases n <;> simp_all
  have hchild : (before ++ parts.filter (·.label ≠ .lineBreak)).head? = some child := by
    rw [List.head?_append, hfirst, Option.some_or]
  have hnode : Reads [.mk (.node k) none child.start _ _] _ :=
    .node hr hchild hfinal hbal.balanced (hf _) hn hstop
      ⟨hbal.solid.resolve_left (hr.ne_nil (by simp [hne])), .inr hk⟩ .nil
  rw [Tree.node, List.filter_append, hbefore, List.head?_append, hfirst]
  simpa using hnode

end GoContracts.Syntax.Grammar

import GoContracts.Proofs.Syntax.Grammar.Expressions
import GoContracts.Syntax.Grammar.Statements

/-!
# What the rules for declarations and statements take

Every tree that a rule for declarations or statements yields reads the tokens that the rule took,
provided the rules of its parts do.
-/

namespace GoContracts.Syntax.Grammar

variable {free : Bool} {ts mid rest : List Token} {t u : Tree} {rules : Rules} {c : Context}

/-! ### Declarations -/

/-- What stands after the keyword of a declaration: specifications in parentheses or one alone. -/
theorem specifications_cases {group : List Tree → List Tree} {spec : Reader Tree}
    {parts : List Tree} (h : specifications group spec ts = some (parts, rest))
    (hspec : ∀ {ts t rest}, spec ts = some (t, rest) → Phrased t ts rest) :
    (∃ opening specs closing ts₁ ts₂, symbol true "(" ts = some (opening, ts₁) ∧
      Terminated specs ts₁ ts₂ ∧ symbol true ")" ts₂ = some (closing, rest) ∧
      parts = group (opening :: specs ++ [closing])) ∨
    ∃ t, Phrased t ts rest ∧ parts = [t] := by
  rw [specifications, looking_bind] at h
  split at h
  · simp only [bind_eq_some, pure_eq_some] at h
    obtain ⟨opening, ts₁, ho, specs, ts₂, hs, closing, ts₃, hc, rfl, rfl⟩ := h
    exact .inl ⟨opening, specs, closing, ts₁, ts₂, ho, terminatedList_parsed hs hspec, hc, rfl⟩
  · simp only [bind_eq_some, pure_eq_some] at h
    obtain ⟨t, ts₁, ht, rfl, rfl⟩ := h
    exact .inr ⟨t, hspec ht, rfl⟩

/-- A declaration whose specifications are its own parts. -/
theorem grouped_phrased {w : String} {word : Tree} {spec : Reader Tree} {parts : List Tree}
    {k : Kind} (hw : keyword free w ts = some (word, mid))
    (h : specifications id spec mid = some (parts, rest))
    (hspec : ∀ {ts t rest}, spec ts = some (t, rest) → Phrased t ts rest)
    (hf : ∀ cs, Formed k cs) : Phrased (.node k (word :: parts)) ts rest := by
  rcases specifications_cases h hspec with ⟨opening, specs, closing, ts₁, ts₂, ho, hs, hc, rfl⟩ |
    ⟨t, ht, rfl⟩
  · exact Terminated.phrase [word] (keyword_parsed hw) ho hs hc (by decide) hf
  · exact ((keyword_parsed hw).cons ht.parsed).phrase (by simp) (hf _)

/-- A declaration whose specifications are the parts of a list. -/
theorem listed_phrased {w : String} {word : Tree} {spec : Reader Tree} {parts : List Tree}
    {k l : Kind} (hw : keyword free w ts = some (word, mid))
    (h : specifications (fun specs => [.node l specs]) spec mid = some (parts, rest))
    (hspec : ∀ {ts t rest}, spec ts = some (t, rest) → Phrased t ts rest)
    (hf : ∀ cs, Formed k cs) (hl : ∀ cs, Formed l cs) :
    Phrased (.node k (word :: parts)) ts rest := by
  rcases specifications_cases h hspec with ⟨opening, specs, closing, ts₁, ts₂, ho, hs, hc, rfl⟩ |
    ⟨t, ht, rfl⟩
  · have hlist := Terminated.phrase [] .nil ho hs hc (by decide) hl
    exact ((keyword_parsed hw).cons hlist.parsed).phrase (by simp) (hf _)
  · exact ((keyword_parsed hw).cons ht.parsed).phrase (by simp) (hf _)

variable (hr : Sound rules)
include hr

private theorem values_parsed {parts : List Tree} (h : values rules free ts = some (parts, rest)) :
    Parsed parts ts rest ∧ parts ≠ [] := by
  simp only [values, bind_eq_some, pure_eq_some] at h
  obtain ⟨equals, ts₁, he, list, ts₂, hl, rfl, rfl⟩ := h
  exact ⟨(symbol_parsed he (by decide)).cons ((expressionList_phrased hr hl rfl).asRole
    .value).parsed, by simp⟩

private theorem varSpec_phrased (h : varSpec rules ts = some (t, rest)) : Phrased t ts rest := by
  obtain ⟨declared, ts₁, hd, h⟩ := bind_eq_some.mp h
  have hd := names_parsed hd (by decide)
  rw [looking_bind] at h
  split at h
  · simp only [bind_eq_some, pure_eq_some] at h
    obtain ⟨parts, ts₂, hv, rfl, rfl⟩ := h
    obtain ⟨hv, hne⟩ := values_parsed hr hv
    exact (hd.append hv).phrase (by simp [hne]) (by trivial)
  · obtain ⟨type, ts₂, ht, h⟩ := bind_eq_some.mp h
    have hd := hd.append ((hr.type ht).asRole .type).parsed
    rcases optional_bind.mp h with ⟨parts, ts₃, hv, h⟩ | ⟨_, h⟩
    · obtain ⟨rfl, rfl⟩ := pure_eq_some.mp h
      simpa using (hd.append (values_parsed hr hv).1).phrase (k := .varSpec) (by simp) (by trivial)
    · obtain ⟨rfl, rfl⟩ := pure_eq_some.mp h
      exact hd.phrase (by simp) (by trivial)

private theorem constSpec_phrased (h : constSpec rules ts = some (t, rest)) :
    Phrased t ts rest := by
  obtain ⟨declared, ts₁, hd, h⟩ := bind_eq_some.mp h
  have hne : declared ≠ [] := by
    simp only [names, bind_eq_some, pure_eq_some] at hd
    obtain ⟨_, _, _, _, _, _, rfl, _⟩ := hd
    simp
  have hd : Parsed (declared.map (·.asRole .name)) ts ts₁ := by
    intro ho
    obtain ⟨own, rfl, hreads, hb⟩ := names_parsed hd (by decide) ho
    exact ⟨own, rfl, hreads.map fun t _ us ht => ht.asRole .name, hb⟩
  rcases optional_bind.mp h with ⟨parts, ts₂, hv, h⟩ | ⟨_, h⟩
  · obtain ⟨rfl, rfl⟩ := pure_eq_some.mp h
    refine (hd.append ?_).phrase (by simp [hne]) (by trivial)
    rcases orElse_eq_some.mp hv with hv | ⟨_, hv⟩
    · exact (values_parsed hr hv).1
    · rw [looking_bind] at hv
      simp only [bind_eq_some, require_eq_some, pure_eq_some] at hv
      obtain ⟨_, _, ⟨_, rfl⟩, type, ts₃, ht, more, ts₄, hm, rfl, rfl⟩ := hv
      exact ((hr.type ht).asRole .type).parsed.cons (values_parsed hr hm).1
  · obtain ⟨rfl, rfl⟩ := pure_eq_some.mp h
    exact (hd.append .nil).phrase (by simp [hne]) (by trivial)

private theorem typeSpec_phrased (h : typeSpec rules ts = some (t, rest)) : Phrased t ts rest := by
  have body {parts : List Tree} {mid : List Token} (hparts : Parsed parts ts mid) (h : (do
      if ← looking (atSymbol true "=") then
        let equals ← symbol true "="
        return .node .typeAlias (parts ++ [equals, (← rules (.type false)).asRole .type])
      else return .node .typeSpec (parts ++ [(← rules (.type false)).asRole .type]) :
        Reader Tree) mid = some (t, rest)) : Phrased t ts rest := by
    rw [looking_bind] at h
    split at h
    · simp only [bind_eq_some, pure_eq_some] at h
      obtain ⟨equals, ts₁, he, type, ts₂, ht, rfl, rfl⟩ := h
      exact (hparts.append ((symbol_parsed he (by decide)).cons
        ((hr.type ht).asRole .type).parsed)).phrase (by simp) (by trivial)
    · simp only [bind_eq_some, pure_eq_some] at h
      obtain ⟨type, ts₂, ht, rfl, rfl⟩ := h
      exact (hparts.append ((hr.type ht).asRole .type).parsed).phrase (by simp) (by trivial)
  obtain ⟨declared, ts₁, hd, h⟩ := bind_eq_some.mp h
  have hd := (name_phrased hd (by decide)).asRole .name
  rcases orElse_eq_some.mp h with h | ⟨_, h⟩
  · exact body hd.parsed h
  · obtain ⟨parameters, ts₂, hp, h⟩ := bind_eq_some.mp h
    exact body (hd.parsed.cons ((typeParameters_phrased hr hp).asRole .typeParameters).parsed) h

private theorem declaration_phrased (h : declaration rules ts = some (t, rest)) :
    Phrased t ts rest := by
  rw [declaration, get_bind] at h
  split at h
  · simp only [bind_eq_some, pure_eq_some] at h
    obtain ⟨word, ts₁, hw, parts, ts₂, hs, rfl, rfl⟩ := h
    exact listed_phrased hw hs (varSpec_phrased hr) (fun _ => trivial) fun _ => trivial
  split at h
  · simp only [bind_eq_some, pure_eq_some] at h
    obtain ⟨word, ts₁, hw, parts, ts₂, hs, rfl, rfl⟩ := h
    exact grouped_phrased hw hs (constSpec_phrased hr) fun _ => trivial
  · simp only [bind_eq_some, pure_eq_some] at h
    obtain ⟨word, ts₁, hw, parts, ts₂, hs, rfl, rfl⟩ := h
    exact grouped_phrased hw hs (typeSpec_phrased hr) fun _ => trivial

/-! ### Simple statements -/

/-- The list reads the tokens from `ts` up to `rest`, and so does the only expression in it. -/
structure Listed (t : Tree) (ts rest : List Token) : Prop where
  phrased : Phrased t ts rest
  single : ∀ e, t.children = [e] → Phrased e ts rest

private theorem expressionList_listed (h : expressionList rules c ts = some (t, rest))
    (hc : c.stars = []) : Listed t ts rest := by
  have hphrase := expressionList_phrased hr h hc
  refine ⟨hphrase, fun e he => ?_⟩
  obtain ⟨first, ts₁, hf, h⟩ := bind_eq_some.mp h
  obtain ⟨groups, ts₂, hg, h⟩ := bind_eq_some.mp h
  obtain ⟨rfl, rfl⟩ := pure_eq_some.mp h
  have hf := expression_phrased hr hf hc
  rw [Tree.node, Tree.children, List.filter_cons_of_pos (by simpa using hf.label_ne)] at he
  obtain ⟨rfl, hrest⟩ := List.cons.inj he
  have hparts := Parsed.children (k := .expressionList) (hf.parsed.cons
    (separated_parsed (f := id) hg (fun h => (expression_phrased hr h hc).parsed) (by decide)))
  rw [Tree.node, Tree.children, List.filter_cons_of_pos (by simpa using hf.label_ne), hrest]
    at hparts
  exact ⟨hf.named, hparts⟩

omit hr in
private theorem isPlain_of_mem_statementOperators :
    ∀ op ∈ statementOperators, isPlain op = true := by decide

omit hr in
private theorem onlyExpression_phrased {left : Tree} {cur : List Token} (hl : Listed left ts mid)
    (h : onlyExpression left cur = some (t, rest)) : Phrased t ts mid ∧ cur = rest := by
  unfold onlyExpression at h
  match hcs : left.children, h with
  | [e], h =>
    obtain ⟨rfl, rfl⟩ := pure_eq_some.mp h
    exact ⟨hl.single e hcs, rfl⟩
  | [], h => exact (failure_eq_some.mp h).elim
  | _ :: _ :: _, h => exact (failure_eq_some.mp h).elim

private theorem simpleFrom_phrased {after : Context} {left : Tree} (hl : Listed left ts mid)
    (h : simpleFrom rules c after left mid = some (t, rest)) (ha : after.stars = []) :
    Phrased t ts rest := by
  rw [simpleFrom, get_bind] at h
  cases hop : longestSymbol? c.free statementOperators mid with
  | none =>
    rw [hop] at h
    obtain ⟨e, ts₁, hsingle, h⟩ := bind_eq_some.mp h
    obtain ⟨he, rfl⟩ := onlyExpression_phrased hl hsingle
    obtain ⟨rfl, rfl⟩ := pure_eq_some.mp h
    exact he.parsed.phrase (by simp) (by trivial)
  | some op =>
    rw [hop] at h
    have hplain := isPlain_of_mem_statementOperators op (mem_of_longestSymbol hop)
    by_cases hdeclare : op = ":="
    · subst hdeclare
      simp only [bind_eq_some, pure_eq_some] at h
      obtain ⟨operator, ts₁, ho, right, ts₂, hright, rfl, rfl⟩ := h
      exact ((hl.phrased.asRole .left).parsed.cons ((symbol_parsed ho (by decide)).cons
        ((expressionList_phrased hr hright ha).asRole .right).parsed)).phrase (by simp) (by trivial)
    by_cases hsend : op = "<-"
    · subst hsend
      obtain ⟨channel, ts₁, hsingle, h⟩ := bind_eq_some.mp h
      obtain ⟨hchannel, rfl⟩ := onlyExpression_phrased hl hsingle
      simp only [bind_eq_some, pure_eq_some] at h
      obtain ⟨operator, ts₂, ho, value, ts₃, hvalue, rfl, rfl⟩ := h
      exact ((hchannel.asRole .channel).parsed.cons ((symbol_parsed ho (by decide)).cons
        ((expression_phrased hr hvalue ha).asRole .value).parsed)).phrase (by simp) (by trivial)
    by_cases hinc : op = "++"
    · subst hinc
      obtain ⟨e, ts₁, hsingle, h⟩ := bind_eq_some.mp h
      obtain ⟨he, rfl⟩ := onlyExpression_phrased hl hsingle
      simp only [bind_eq_some, pure_eq_some] at h
      obtain ⟨operator, ts₂, ho, rfl, rfl⟩ := h
      exact (he.parsed.cons (symbol_parsed ho (by decide))).phrase (by simp) (by trivial)
    by_cases hdec : op = "--"
    · subst hdec
      obtain ⟨e, ts₁, hsingle, h⟩ := bind_eq_some.mp h
      obtain ⟨he, rfl⟩ := onlyExpression_phrased hl hsingle
      simp only [bind_eq_some, pure_eq_some] at h
      obtain ⟨operator, ts₂, ho, rfl, rfl⟩ := h
      exact (he.parsed.cons (symbol_parsed ho (by decide))).phrase (by simp) (by trivial)
    · simp only [bind_eq_some, pure_eq_some] at h
      obtain ⟨operator, ts₁, ho, right, ts₂, hright, rfl, rfl⟩ := h
      exact ((hl.phrased.asRole .left).parsed.cons
        (((symbol_parsed ho hplain).asRole .operator).cons
          ((expressionList_phrased hr hright ha).asRole .right).parsed)).phrase (by simp)
            (by trivial)

private theorem simpleStatement_phrased (h : simpleStatement rules ts = some (t, rest)) :
    Phrased t ts rest := by
  obtain ⟨left, ts₁, hl, h⟩ := bind_eq_some.mp h
  exact simpleFrom_phrased hr (expressionList_listed hr hl rfl) h rfl

/-! ### Control statements -/

private theorem initializer_parsed {left : Tree} {parts : List Tree} (hl : Listed left ts mid)
    (h : initializer? rules left mid = some (some parts, rest)) : Parsed parts ts rest := by
  unfold initializer? at h
  rcases optional_eq_some.mp h with ⟨parts, heq, hread⟩ | ⟨_, hnone, _⟩
  · obtain rfl := Option.some.inj heq
    simp only [bind_eq_some, pure_eq_some] at hread
    obtain ⟨first, ts₁, hf, stop, ts₂, hs, rfl, rfl⟩ := hread
    exact ((simpleFrom_phrased hr hl hf rfl).asRole .initializer).parsed.cons
      (symbol_parsed hs (by decide))
  · simp at hnone

omit hr in
private theorem initializer_none {left : Tree}
    (h : initializer? rules left ts = some (none, rest)) :
    ts = rest := by
  unfold initializer? at h
  rcases optional_eq_some.mp h with ⟨_, hsome, _⟩ | ⟨_, _, rfl⟩
  · simp at hsome
  · rfl

private theorem ifStatement_phrased {n : Nat} (h : ifStatement rules n ts = some (t, rest)) :
    Phrased t ts rest := by
  induction n generalizing ts t rest with
  | zero => exact (failure_eq_some.mp h).elim
  | succ n ih =>
    have branches {word condition : Tree} {before : List Tree} {mid : List Token}
        (hw : Parsed [word] ts mid) {us : List Token} (hb : Parsed before mid us)
        {vs : List Token} (hc : Phrased condition us vs) (h : (do
          let consequence ← rules .block
          let alternative ←
            if ← looking (atWord false "else") then do
              let otherwise ← keyword false "else"
              let branch ←
                if ← looking (atSymbol true "\x7b") then rules .block else ifStatement rules n
              pure [otherwise, branch.asRole .alternative]
            else pure []
          return .node .ifStatement (word :: before ++ condition.asRole .condition ::
            consequence.asRole .consequence :: alternative) : Reader Tree) vs = some (t, rest)) :
        Phrased t ts rest := by
      obtain ⟨consequence, ts₁, hcons, h⟩ := bind_eq_some.mp h
      have hparts := (hw.append hb).append ((hc.asRole .condition).parsed.cons
        ((hr.block hcons).asRole .consequence).parsed)
      rw [looking_bind] at h
      split at h
      · obtain ⟨otherwise, ts₂, hotherwise, h⟩ := bind_eq_some.mp h
        have hparts := hparts.append (keyword_parsed hotherwise)
        rw [looking_bind] at h
        split at h
        · simp only [bind_eq_some, pure_eq_some] at h
          obtain ⟨branch, ts₃, hbranch, _, _, ⟨rfl, rfl⟩, rfl, rfl⟩ := h
          simpa using (hparts.append ((hr.block hbranch).asRole .alternative).parsed).phrase
            (k := .ifStatement) (by simp) (by trivial)
        · simp only [bind_eq_some, pure_eq_some] at h
          obtain ⟨branch, ts₃, hbranch, _, _, ⟨rfl, rfl⟩, rfl, rfl⟩ := h
          simpa using (hparts.append ((ih hbranch).asRole .alternative).parsed).phrase
            (k := .ifStatement) (by simp) (by trivial)
      · simp only [bind_eq_some, pure_eq_some] at h
        obtain ⟨_, _, ⟨rfl, rfl⟩, rfl, rfl⟩ := h
        simpa using hparts.phrase (k := .ifStatement) (by simp) (by trivial)
    rw [ifStatement] at h
    obtain ⟨word, ts₁, hw, h⟩ := bind_eq_some.mp h
    obtain ⟨left, ts₂, hl, h⟩ := bind_eq_some.mp h
    have hl := expressionList_listed hr hl rfl
    obtain ⟨o, ts₃, hi, h⟩ := bind_eq_some.mp h
    cases o with
    | some before =>
      obtain ⟨condition, ts₄, hc, h⟩ := bind_eq_some.mp h
      exact branches (keyword_parsed hw) (initializer_parsed hr hl hi)
        (expression_phrased hr hc rfl) h
    | none =>
      obtain rfl := initializer_none hi
      obtain ⟨condition, ts₄, hsingle, h⟩ := bind_eq_some.mp h
      obtain ⟨hc, rfl⟩ := onlyExpression_phrased hl hsingle
      exact branches (keyword_parsed hw) .nil hc h

private theorem rangeClause_phrased {bound : List Tree} (hb : Parsed bound ts mid)
    (h : rangeClause rules bound mid = some (t, rest)) : Phrased t ts rest := by
  simp only [rangeClause, bind_eq_some, pure_eq_some] at h
  obtain ⟨word, ts₁, hw, ranged, ts₂, hranged, rfl, rfl⟩ := h
  exact (hb.append ((keyword_parsed hw).cons
    ((expression_phrased hr hranged rfl).asRole .right).parsed)).phrase (by simp) (by trivial)

private theorem forClause_phrased {first : List Tree} (hf : Parsed first ts mid)
    (h : forClause rules first mid = some (t, rest)) : Phrased t ts rest := by
  have update {parts : List Tree} {us : List Token} (hparts : Parsed parts ts us)
      (hne : parts ≠ []) (h : (do
        let update ←
          if ← looking (atSymbol true "\x7b") then pure []
          else do
            let left ← expressionList rules headerContext
            let last ← simpleFrom rules headerContext { header := true } left
            pure [last.asRole .update]
        return .node .forClause (parts ++ update) : Reader Tree) us = some (t, rest)) :
      Phrased t ts rest := by
    rw [looking_bind] at h
    split at h
    · simp only [bind_eq_some, pure_eq_some] at h
      obtain ⟨_, _, ⟨rfl, rfl⟩, rfl, rfl⟩ := h
      exact (hparts.append .nil).phrase (by simp [hne]) (by trivial)
    · simp only [bind_eq_some, pure_eq_some] at h
      obtain ⟨left, ts₁, hl, last, ts₂, hlast, _, _, ⟨rfl, rfl⟩, rfl, rfl⟩ := h
      have hlast := simpleFrom_phrased hr (expressionList_listed hr hl rfl) hlast rfl
      exact (hparts.append (hlast.asRole .update).parsed).phrase (by simp) (by trivial)
  obtain ⟨opening, ts₁, ho, h⟩ := bind_eq_some.mp h
  have hparts := hf.append (symbol_parsed ho (by decide))
  rw [looking_bind] at h
  split at h
  · rw [pure_bind_apply] at h
    obtain ⟨closing, ts₂, hc, h⟩ := bind_eq_some.mp h
    exact update (hparts.append (symbol_parsed hc (by decide))) (by simp) (by simpa using h)
  · obtain ⟨condition, ts₂, hcond, h⟩ := bind_eq_some.mp h
    rw [pure_bind_apply] at h
    obtain ⟨closing, ts₃, hc, h⟩ := bind_eq_some.mp h
    have hcond := ((expression_phrased hr hcond rfl).asRole .condition).parsed
    exact update ((hparts.append hcond).append (symbol_parsed hc (by decide))) (by simp)
      (by simpa using h)

private theorem loopHeader_parsed {parts : List Tree}
    (h : loopHeader rules ts = some (parts, rest)) :
    Parsed parts ts rest := by
  rw [loopHeader, get_bind] at h
  split at h
  · obtain ⟨rfl, rfl⟩ := pure_eq_some.mp h
    exact .nil
  split at h
  · simp only [bind_eq_some, pure_eq_some] at h
    obtain ⟨clause, ts₁, hc, rfl, rfl⟩ := h
    exact (rangeClause_phrased hr .nil hc).parsed
  split at h
  · simp only [bind_eq_some, pure_eq_some] at h
    obtain ⟨clause, ts₁, hc, rfl, rfl⟩ := h
    exact (forClause_phrased hr .nil hc).parsed
  obtain ⟨left, ts₁, hl, h⟩ := bind_eq_some.mp h
  have hl := expressionList_listed hr hl rfl
  rcases orElse_eq_some.mp h with h | ⟨_, h⟩
  · obtain ⟨operator, ts₂, ho, h⟩ := bind_eq_some.mp h
    have ho : Parsed [operator] ts₁ ts₂ := by
      rcases orElse_eq_some.mp ho with ho | ⟨_, ho⟩
      · exact symbol_parsed ho (by decide)
      · exact symbol_parsed ho (by decide)
    simp only [bind_eq_some, pure_eq_some] at h
    obtain ⟨clause, ts₃, hc, rfl, rfl⟩ := h
    exact (rangeClause_phrased hr ((hl.phrased.asRole .left).parsed.cons ho) hc).parsed
  rcases orElse_eq_some.mp h with h | ⟨_, h⟩
  · simp only [bind_eq_some, pure_eq_some] at h
    obtain ⟨first, ts₂, hf, clause, ts₃, hc, rfl, rfl⟩ := h
    have hf := (simpleFrom_phrased hr hl hf rfl).asRole .initializer
    exact (forClause_phrased hr hf.parsed hc).parsed
  · simp only [bind_eq_some, pure_eq_some] at h
    obtain ⟨e, ts₂, hsingle, rfl, rfl⟩ := h
    obtain ⟨he, rfl⟩ := onlyExpression_phrased hl hsingle
    exact he.parsed

private theorem forStatement_phrased (h : forStatement rules ts = some (t, rest)) :
    Phrased t ts rest := by
  simp only [forStatement, bind_eq_some, pure_eq_some] at h
  obtain ⟨word, ts₁, hw, header, ts₂, hh, body, ts₃, hb, rfl, rfl⟩ := h
  exact (((keyword_parsed hw).append (loopHeader_parsed hr hh)).append
    ((hr.block hb).asRole .body).parsed).phrase (by simp) (by trivial)

private theorem statements_parsed {clauses : Bool} {parts : List Tree}
    (h : statements rules clauses ts = some (parts, rest)) : Terminated parts ts rest :=
  terminatedList_parsed h hr.statement

/-- A clause reads its keyword, its parts, its colon and its statements. -/
theorem clause_covered {k : Kind} {w : String} {word colon : Tree} {parts body : List Tree}
    {ts₁ ts₂ ts₃ : List Token} (hw : keyword free w ts = some (word, ts₁))
    (hp : Parsed parts ts₁ ts₂) (hc : symbol true ":" ts₂ = some (colon, ts₃))
    (hb : statements rules true ts₃ = some (body, rest)) (hk : k.isScope = true)
    (hf : ∀ cs, Formed k cs) : Covered [.node k (word :: parts ++ colon :: body)] ts rest := by
  have hhead := ((keyword_parsed hw).append hp).append (symbol_parsed hc (by decide))
  simpa using Terminated.clause _ hhead (by simp) (statements_parsed hr hb) hk hf

private theorem clauses_parsed {k : Kind} {first : Reader (List Tree)} {parts : List Tree}
    (h : clauses rules k first ts = some (parts, rest))
    (hfirst : ∀ {ts parts rest}, first ts = some (parts, rest) → Parsed parts ts rest)
    (hk : k.isScope = true) (hf : ∀ cs, Formed k cs) :
    Parsed parts ts rest := by
  obtain ⟨opening, ts₁, ho, h⟩ := bind_eq_some.mp h
  obtain ⟨cases, ts₂, hc, h⟩ := bind_eq_some.mp h
  simp only [bind_eq_some, pure_eq_some] at h
  obtain ⟨closing, ts₃, hclose, rfl, rfl⟩ := h
  have hcases := gather_covered hc fun us o rest h => by
    rw [looking_bind] at h
    split at h
    · obtain ⟨rfl, rfl⟩ := pure_eq_some.mp h
      exact Parsed.nil.covered
    rw [looking_bind] at h
    split at h
    · simp only [bind_eq_some, pure_eq_some] at h
      obtain ⟨word, us₁, hw, colon, us₂, hcolon, body, us₃, hb, rfl, rfl⟩ := h
      exact clause_covered (k := .defaultCase) hr hw .nil hcolon hb rfl fun _ => trivial
    · simp only [bind_eq_some, pure_eq_some] at h
      obtain ⟨word, us₁, hw, parts, us₂, hp, colon, us₃, hcolon, body, us₄, hb, rfl, rfl⟩ := h
      exact clause_covered hr hw (hfirst hp) hcolon hb hk hf
  exact Covered.enclosed ho hcases hclose (by decide)

private theorem caseValues_parsed {parts : List Tree}
    (h : caseValues rules ts = some (parts, rest)) :
    Parsed parts ts rest := by
  simp only [caseValues, bind_eq_some, pure_eq_some] at h
  obtain ⟨list, ts₁, hl, rfl, rfl⟩ := h
  exact ((expressionList_phrased hr hl rfl).asRole .value).parsed

private theorem caseTypes_parsed {parts : List Tree} (h : caseTypes rules ts = some (parts, rest)) :
    Parsed parts ts rest := by
  obtain ⟨first, ts₁, hf, h⟩ := bind_eq_some.mp h
  obtain ⟨groups, ts₂, hg, h⟩ := bind_eq_some.mp h
  obtain ⟨rfl, rfl⟩ := pure_eq_some.mp h
  exact ((hr.type hf).asRole .type).parsed.cons
    (separated_parsed (f := Tree.asRole .type) hg
      (fun h => ((hr.type h).asRole .type).parsed) (by decide))

private theorem caseCommunication_parsed {parts : List Tree}
    (h : caseCommunication rules ts = some (parts, rest)) : Parsed parts ts rest := by
  obtain ⟨left, ts₁, hl, h⟩ := bind_eq_some.mp h
  have hl := expressionList_listed hr hl rfl
  rw [get_bind] at h
  have whole {t : Tree} {us : List Token} (ht : Phrased t ts us)
      (h : (pure [t.asRole .communication] : Reader (List Tree)) us = some (parts, rest)) :
      Parsed parts ts rest := by
    obtain ⟨rfl, rfl⟩ := pure_eq_some.mp h
    exact (ht.asRole .communication).parsed
  cases hop : longestSymbol? true statementOperators ts₁ with
  | none =>
    rw [hop] at h
    obtain ⟨e, ts₂, hsingle, h⟩ := bind_eq_some.mp h
    obtain ⟨he, rfl⟩ := onlyExpression_phrased hl hsingle
    exact whole ((he.asRole .right).parsed.phrase (by simp) (by trivial)) h
  | some op =>
    rw [hop] at h
    have hplain := isPlain_of_mem_statementOperators op (mem_of_longestSymbol hop)
    by_cases hsend : op = "<-"
    · subst hsend
      obtain ⟨statement, ts₂, hs, h⟩ := bind_eq_some.mp h
      exact whole (simpleFrom_phrased hr hl hs rfl) h
    · simp only [require_bind] at h
      obtain ⟨operator, ts₂, ho, h⟩ := bind_eq_some.mp h.2
      obtain ⟨right, ts₃, hright, h⟩ := bind_eq_some.mp h
      have hparts := (hl.phrased.asRole .left).parsed.cons ((symbol_parsed ho hplain).cons
        ((expression_phrased hr hright rfl).asRole .right).parsed)
      exact whole (hparts.phrase (by simp) (by trivial)) h

private theorem typeSwitch_phrased {word : Tree} {parts : List Tree}
    (hp : Parsed (word :: parts) ts mid)
    (h : typeSwitch rules word parts mid = some (t, rest)) : Phrased t ts rest := by
  simp only [typeSwitch, bind_eq_some, pure_eq_some] at h
  obtain ⟨dot, ts₂, hdot, opening, ts₃, ho, type, ts₄, ht, closing, ts₅, hc, body, ts₆, hb, rfl,
    rfl⟩ := h
  have hmark := (symbol_parsed hdot (by decide)).cons
    (Parsed.enclosed ho (keyword_parsed ht) hc (by decide))
  exact ((hp.append hmark).append (clauses_parsed hr hb (caseTypes_parsed hr) (by decide)
    (fun _ => trivial))).phrase (by simp) (by trivial)

private theorem valueSwitch_phrased {word : Tree} {parts : List Tree}
    (hp : Parsed (word :: parts) ts mid) (h : valueSwitch rules word parts mid = some (t, rest)) :
    Phrased t ts rest := by
  simp only [valueSwitch, bind_eq_some, pure_eq_some] at h
  obtain ⟨body, ts₂, hb, rfl, rfl⟩ := h
  exact (hp.append (clauses_parsed hr hb (caseValues_parsed hr) (by decide)
    (fun _ => trivial))).phrase (by simp) (by trivial)

private theorem switchSubject_phrased {word : Tree} {parts : List Tree}
    (hp : Parsed (word :: parts) ts mid)
    (h : switchSubject rules word parts mid = some (t, rest)) : Phrased t ts rest := by
  rw [switchSubject, looking_bind] at h
  split at h
  · exact valueSwitch_phrased hr hp h
  obtain ⟨left, ts₁, hl, h⟩ := bind_eq_some.mp h
  have hl := expressionList_listed hr hl rfl
  rcases orElse_eq_some.mp h with h | ⟨_, h⟩
  · rcases optional_bind.mp h with ⟨operator, ts₂, ho, h⟩ | ⟨_, h⟩
    · obtain ⟨value, ts₃, hv, h⟩ := bind_eq_some.mp h
      have hbound := (hl.phrased.asRole .alias).parsed.cons
        ((symbol_parsed ho (by decide)).cons ((hr.binary rfl hv).asRole .value).parsed)
      exact typeSwitch_phrased hr (hp.append hbound) h
    · obtain ⟨value, ts₃, hsingle, h⟩ := bind_eq_some.mp h
      obtain ⟨hv, rfl⟩ := onlyExpression_phrased hl hsingle
      exact typeSwitch_phrased hr (hp.append (hv.asRole .value).parsed) h
  · obtain ⟨value, ts₃, hsingle, h⟩ := bind_eq_some.mp h
    obtain ⟨hv, rfl⟩ := onlyExpression_phrased hl hsingle
    exact valueSwitch_phrased hr (hp.append (hv.asRole .value).parsed) h

private theorem switchStatement_phrased (h : switchStatement rules ts = some (t, rest)) :
    Phrased t ts rest := by
  obtain ⟨word, ts₁, hw, h⟩ := bind_eq_some.mp h
  have hw := keyword_parsed hw
  rcases orElse_eq_some.mp h with h | ⟨_, h⟩
  · obtain ⟨left, ts₂, hl, h⟩ := bind_eq_some.mp h
    obtain ⟨o, ts₃, hi, h⟩ := bind_eq_some.mp h
    cases o with
    | some before =>
      have hl := expressionList_listed hr hl rfl
      exact switchSubject_phrased hr (hw.cons (initializer_parsed hr hl hi)) h
    | none => exact (failure_eq_some.mp h).elim
  · exact switchSubject_phrased hr hw h

private theorem selectStatement_phrased (h : selectStatement rules ts = some (t, rest)) :
    Phrased t ts rest := by
  simp only [selectStatement, bind_eq_some, pure_eq_some] at h
  obtain ⟨word, ts₁, hw, body, ts₂, hb, rfl, rfl⟩ := h
  exact ((keyword_parsed hw).cons (clauses_parsed hr hb (caseCommunication_parsed hr) (by decide)
    (fun _ => trivial))).phrase (by simp) (by trivial)

omit hr in
private theorem jumpStatement_phrased {w : String} {k : Kind}
    (h : jumpStatement w k ts = some (t, rest))
    (hf : ∀ cs, Formed k cs) : Phrased t ts rest := by
  simp only [jumpStatement, bind_eq_some, pure_eq_some] at h
  obtain ⟨jump, ts₁, hj, label, ts₂, hl, rfl, rfl⟩ := h
  exact ((keyword_parsed hj).cons
    (Parsed.optional hl fun h => (name_phrased h (by decide)).parsed)).phrase (by simp) (hf _)

private theorem launchStatement_phrased {w : String} {k : Kind}
    (h : launchStatement rules w k ts = some (t, rest))
    (hf : ∀ cs, Formed k cs) : Phrased t ts rest := by
  simp only [launchStatement, bind_eq_some, pure_eq_some] at h
  obtain ⟨launch, ts₁, hl, e, ts₂, he, rfl, rfl⟩ := h
  exact ((keyword_parsed hl).cons (expression_phrased hr he rfl).parsed).phrase (by simp) (hf _)

private theorem returnStatement_phrased (h : returnStatement rules ts = some (t, rest)) :
    Phrased t ts rest := by
  obtain ⟨word, ts₁, hw, h⟩ := bind_eq_some.mp h
  rw [looking_bind] at h
  split at h
  · obtain ⟨rfl, rfl⟩ := pure_eq_some.mp h
    exact (keyword_parsed hw).phrase (by simp) (by trivial)
  · simp only [bind_eq_some, pure_eq_some] at h
    obtain ⟨list, ts₂, hl, rfl, rfl⟩ := h
    exact ((keyword_parsed hw).cons (expressionList_phrased hr hl rfl).parsed).phrase (by simp)
      (by trivial)

private theorem labeledStatement_phrased (h : labeledStatement rules ts = some (t, rest)) :
    Phrased t ts rest := by
  obtain ⟨label, ts₁, hl, h⟩ := bind_eq_some.mp h
  obtain ⟨colon, ts₂, hc, h⟩ := bind_eq_some.mp h
  have hparts := ((name_phrased hl (by decide)).asRole .label).parsed.cons
    (symbol_parsed hc (by decide))
  rw [looking_bind] at h
  split at h
  · obtain ⟨rfl, rfl⟩ := pure_eq_some.mp h
    exact hparts.phrase (by simp) (by trivial)
  · simp only [bind_eq_some, pure_eq_some] at h
    obtain ⟨statement, ts₃, hs, rfl, rfl⟩ := h
    exact (hparts.append (hr.statement hs).parsed).phrase (by simp) (by trivial)

/-- A statement reads what it takes. -/
theorem statement_phrased (h : statement rules ts = some (t, rest)) : Phrased t ts rest := by
  rw [statement, skipNewlines_bind, get_bind] at h
  refine Phrased.skip ?_
  rcases ite_eq_some.mp h with ⟨_, h⟩ | ⟨_, h⟩
  · exact hr.block h
  rcases ite_eq_some.mp h with ⟨_, h⟩ | ⟨_, h⟩
  · simp only [bind_eq_some, pure_eq_some] at h
    obtain ⟨stop, ts₁, hs, rfl, rfl⟩ := h
    exact (symbol_parsed hs (by decide)).phrase (by simp) (by trivial)
  rcases ite_eq_some.mp h with ⟨_, h⟩ | ⟨_, h⟩
  · exact labeledStatement_phrased hr h
  cases hhead : (afterNewlines ts).head? with
  | none =>
    rw [hhead] at h
    exact simpleStatement_phrased hr h
  | some token =>
    obtain ⟨x, w, start, stop⟩ := token
    rw [hhead] at h
    cases x
    case word =>
      rcases ite_eq_some.mp h with ⟨_, h⟩ | ⟨_, h⟩
      · exact declaration_phrased hr h
      rcases ite_eq_some.mp h with ⟨_, h⟩ | ⟨_, h⟩
      · exact returnStatement_phrased hr h
      rcases ite_eq_some.mp h with ⟨_, h⟩ | ⟨_, h⟩
      · exact launchStatement_phrased hr h fun _ => trivial
      rcases ite_eq_some.mp h with ⟨_, h⟩ | ⟨_, h⟩
      · exact launchStatement_phrased hr h fun _ => trivial
      rcases ite_eq_some.mp h with ⟨_, h⟩ | ⟨_, h⟩
      · exact ifStatement_phrased hr h
      rcases ite_eq_some.mp h with ⟨_, h⟩ | ⟨_, h⟩
      · exact forStatement_phrased hr h
      rcases ite_eq_some.mp h with ⟨_, h⟩ | ⟨_, h⟩
      · exact switchStatement_phrased hr h
      rcases ite_eq_some.mp h with ⟨_, h⟩ | ⟨_, h⟩
      · exact selectStatement_phrased hr h
      rcases ite_eq_some.mp h with ⟨_, h⟩ | ⟨_, h⟩
      · simp only [bind_eq_some, pure_eq_some] at h
        obtain ⟨word, ts₁, hw, rfl, rfl⟩ := h
        exact (keyword_parsed hw).phrase (by simp) (by trivial)
      rcases ite_eq_some.mp h with ⟨_, h⟩ | ⟨_, h⟩
      · exact jumpStatement_phrased h fun _ => trivial
      rcases ite_eq_some.mp h with ⟨_, h⟩ | ⟨_, h⟩
      · exact jumpStatement_phrased h fun _ => trivial
      rcases ite_eq_some.mp h with ⟨_, h⟩ | ⟨_, h⟩
      · exact jumpStatement_phrased h fun _ => trivial
      · exact simpleStatement_phrased hr h
    all_goals exact simpleStatement_phrased hr h

/-- A block reads what it takes. -/
theorem block_phrased (h : block rules ts = some (t, rest)) : Phrased t ts rest := by
  simp only [block, bind_eq_some, pure_eq_some] at h
  obtain ⟨opening, ts₁, ho, body, ts₂, hb, closing, ts₃, hc, rfl, rfl⟩ := h
  exact Terminated.phrase [] .nil ho (statements_parsed hr hb) hc (by decide) fun _ => trivial

end GoContracts.Syntax.Grammar

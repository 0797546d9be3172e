import GoContracts.Proofs.Syntax.Grammar.SpecFreeExpressions

/-!
# Import specs in statements

No statement and no declaration but an import declaration holds import specs.
-/

namespace GoContracts.Syntax.Grammar

variable {rules : Rules} {c after : Context} {free : Bool} {t left word : Tree} {parts : List Tree}
  {k : Kind}

/-! ### Declarations -/

private theorem clean_specifications {group : List Tree → List Tree} {spec : Reader Tree}
    (hgroup : ∀ specs, specFree specs → specFree (group specs)) (h : Clean spec) :
    Clean (specifications group spec) :=
  yields_bind fun _ => yields_ite
    (clean_bind clean_symbol fun _ ho => clean_bind (clean_terminatedList h) fun _ hspecs =>
      clean_bind clean_symbol fun _ hc => yields_pure (hgroup _ (by simp [ho, hspecs, hc])))
    (clean_bind h fun _ ht => yields_pure (by simp [ht]))

section

variable (hr : Untouched rules)
include hr

private theorem clean_values : Clean (values rules free) :=
  clean_bind clean_symbol fun _ hequals => clean_bind (clean_expressionList hr specFree_nil)
    fun _ ht => yields_pure (by simp [hequals, ht])

private theorem clean_varSpec : Clean (varSpec rules) :=
  clean_bind (clean_names (by decide)) fun _ hnames => yields_bind fun _ => yields_ite
    (clean_bind (clean_values hr) fun _ hvalues => yields_pure (by simp [hnames, hvalues]))
    (clean_bind hr.type fun _ htype => clean_optional_bind (clean_values hr)
      (fun _ hvalues => yields_pure (by simp [hnames, htype, hvalues]))
      (yields_pure (by simp [hnames, htype])))

private theorem clean_constSpec : Clean (constSpec rules) := by
  refine clean_bind (clean_names (by decide)) fun names hnames => ?_
  have hconstants : specFree (names.map (·.asRole .name)) :=
    specFree_map hnames fun _ h => by simpa using h
  exact clean_optional_bind (yields_orElse (clean_values hr) (yields_bind fun _ => yields_bind
    fun _ => clean_bind hr.type fun _ htype => clean_bind (clean_values hr) fun _ hvalues =>
      yields_pure (by simp [htype, hvalues])))
    (fun _ hrest => yields_pure (by simp [hconstants, hrest])) (yields_pure (by simp [hconstants]))

private theorem clean_typeSpec : Clean (typeSpec rules) := by
  refine clean_bind (clean_name (by decide)) fun declared hdeclared => ?_
  have hrest : ∀ parts : List Tree, specFree parts → Clean (do
      if ← looking (atSymbol true "=") then
        let equals ← symbol true "="
        return Tree.node .typeAlias (parts ++ [equals, (← rules (.type false)).asRole .type])
      else return Tree.node .typeSpec (parts ++ [(← rules (.type false)).asRole .type])) :=
    fun parts hparts => yields_bind fun _ => yields_ite
      (clean_bind clean_symbol fun _ hequals => clean_bind hr.type fun _ htype =>
        yields_pure (by simp [hparts, hequals, htype]))
      (clean_bind hr.type fun _ htype => yields_pure (by simp [hparts, htype]))
  exact yields_orElse (hrest _ (by simp [hdeclared])) (clean_bind (clean_typeParameters hr)
    fun _ hgeneric => hrest _ (by simp [hdeclared, hgeneric]))

private theorem clean_declaration : Clean (declaration rules) :=
  yields_bind fun _ => yields_ite
    (clean_bind clean_keyword fun _ hword => clean_bind (clean_specifications
      (fun _ h => by simp [h]) (clean_varSpec hr)) fun _ hspecs =>
        yields_pure (by simp [hword, hspecs]))
    (yields_ite
      (clean_bind clean_keyword fun _ hword => clean_bind (clean_specifications (fun _ h => h)
        (clean_constSpec hr)) fun _ hspecs => yields_pure (by simp [hword, hspecs]))
      (clean_bind clean_keyword fun _ hword => clean_bind (clean_specifications (fun _ h => h)
        (clean_typeSpec hr)) fun _ hspecs => yields_pure (by simp [hword, hspecs])))

/-! ### Simple statements -/

omit hr in
private theorem clean_onlyExpression (ht : specFree t) : Clean (onlyExpression t) := by
  have hchildren := specFree_children ht
  unfold onlyExpression
  split
  · next e he => exact yields_pure (by simpa [he] using hchildren)
  · exact yields_failure

private theorem clean_simpleFrom (hafter : specFree after.stars) (hleft : specFree left) :
    Clean (simpleFrom rules c after left) := by
  have hsingle := clean_onlyExpression hleft
  refine yields_bind fun ts => ?_
  split
  · exact clean_bind clean_symbol fun _ ho => clean_bind (clean_expressionList hr hafter)
      fun _ hright => yields_pure (by simp [hleft, ho, hright])
  · exact clean_bind hsingle fun _ hchannel => clean_bind clean_symbol fun _ ho =>
      clean_bind (clean_expression hr hafter) fun _ hvalue =>
        yields_pure (by simp [hchannel, ho, hvalue])
  · exact clean_bind hsingle fun _ ht => clean_bind clean_symbol fun _ ho =>
      yields_pure (by simp [ht, ho])
  · exact clean_bind hsingle fun _ ht => clean_bind clean_symbol fun _ ho =>
      yields_pure (by simp [ht, ho])
  · exact clean_bind clean_symbol fun _ ho => clean_bind (clean_expressionList hr hafter)
      fun _ hright => yields_pure (by simp [hleft, ho, hright])
  · exact clean_bind hsingle fun _ ht => yields_pure (by simp [ht])

private theorem clean_simpleStatement : Clean (simpleStatement rules) :=
  clean_bind (clean_expressionList hr specFree_nil) fun _ hleft =>
    clean_simpleFrom hr specFree_nil hleft

/-! ### Control statements -/

private theorem clean_initializer (hleft : specFree left) : Clean (initializer? rules left) :=
  clean_optional (clean_bind (clean_simpleFrom hr specFree_nil hleft) fun _ hfirst =>
    clean_bind clean_symbol fun _ hs => yields_pure (by simp [hfirst, hs]))

private theorem clean_ifStatement (n : Nat) : Clean (ifStatement rules n) := by
  induction n with
  | zero => exact yields_failure
  | succ n ih =>
    refine clean_bind clean_keyword fun _ hword => clean_bind (clean_expressionList hr specFree_nil)
      fun left hleft => clean_bind (clean_initializer hr hleft) fun before hbefore => ?_
    cases before
    case' none =>
      refine clean_bind (clean_onlyExpression hleft) fun _ hcondition =>
        clean_bind (yields_pure (specFree_pair.mpr ⟨specFree_nil, hcondition⟩)) ?_
    case' some before =>
      refine clean_bind (clean_expression hr specFree_nil) fun _ hcondition =>
        clean_bind (yields_pure (specFree_pair.mpr ⟨specFree_some.mp hbefore, hcondition⟩)) ?_
    all_goals
      rintro ⟨before, condition⟩ ⟨hbefore, hcondition⟩
      refine clean_bind hr.block fun _ hconsequence => yields_bind fun _ => yields_ite
        (clean_bind clean_keyword fun _ helse => yields_bind fun _ => yields_ite
          (clean_bind hr.block fun _ hb => clean_bind (yields_pure (by simp [helse, hb])) ?_)
          (clean_bind ih fun _ hb => clean_bind (yields_pure (by simp [helse, hb])) ?_))
        (clean_bind (yields_pure specFree_nil) ?_)
      all_goals
        exact fun _ halternative => yields_pure (specFree_node (by decide) (by
          simpa [hword, hconsequence, halternative] using ⟨hbefore, hcondition⟩))

private theorem clean_rangeClause {bound : List Tree} (hbound : specFree bound) :
    Clean (rangeClause rules bound) :=
  clean_bind clean_keyword fun _ hword => clean_bind (clean_expression hr specFree_nil)
    fun _ hranged => yields_pure (by simp [hbound, hword, hranged])

private theorem clean_forClause {first : List Tree} (hfirst : specFree first) :
    Clean (forClause rules first) := by
  refine clean_bind clean_symbol fun _ ho => yields_bind fun _ => yields_ite
    (clean_bind (yields_pure specFree_nil) ?_)
    (clean_bind (clean_expression hr specFree_nil) fun _ h =>
      clean_bind (yields_pure (by simp [h])) ?_)
  all_goals
    refine fun _ hcondition => clean_bind clean_symbol fun _ hc => yields_bind fun _ => yields_ite
      (clean_bind (yields_pure specFree_nil) ?_)
      (clean_bind (clean_expressionList hr specFree_nil) fun _ hleft => clean_bind
        (clean_simpleFrom hr specFree_nil hleft) fun _ hlast =>
          clean_bind (yields_pure (by simp [hlast])) ?_)
  all_goals exact fun _ hupdate => yields_pure (by simp [hfirst, ho, hcondition, hc, hupdate])

private theorem clean_loopHeader : Clean (loopHeader rules) := by
  refine yields_bind fun _ => yields_ite (yields_pure specFree_nil) (yields_ite
    (clean_bind (clean_rangeClause hr specFree_nil) fun _ h => yields_pure (by simp [h]))
    (yields_ite (clean_bind (clean_forClause hr specFree_nil) fun _ h => yields_pure (by simp [h]))
      ?_))
  refine clean_bind (clean_expressionList hr specFree_nil) fun left hleft =>
    yields_orElse ?ranged (yields_orElse ?counted ?conditional)
  case ranged =>
    exact clean_bind (yields_orElse clean_symbol clean_symbol) fun _ ho => clean_bind
      (clean_rangeClause hr (by simp [hleft, ho])) fun _ h => yields_pure (by simp [h])
  case counted =>
    exact clean_bind (clean_simpleFrom hr specFree_nil hleft) fun _ hfirst => clean_bind
      (clean_forClause hr (by simp [hfirst])) fun _ h => yields_pure (by simp [h])
  case conditional =>
    exact clean_bind (clean_onlyExpression hleft) fun _ h => yields_pure (by simp [h])

private theorem clean_forStatement : Clean (forStatement rules) :=
  clean_bind clean_keyword fun _ hword => clean_bind (clean_loopHeader hr) fun _ hheader =>
    clean_bind hr.block fun _ hbody => yields_pure (by simp [hword, hheader, hbody])

private theorem clean_statements {clauses : Bool} : Clean (statements rules clauses) :=
  clean_terminatedList hr.statement

private theorem clean_clauses (hk : k ≠ .importSpec) {first : Reader (List Tree)}
    (hfirst : Clean first) :
    Clean (clauses rules k first) := by
  refine clean_bind clean_symbol fun _ ho => clean_bind (clean_gather (yields_bind fun _ =>
    yields_ite (yields_pure specFree_none) (yields_bind fun _ => yields_ite
      (clean_bind clean_keyword fun _ hword => clean_bind clean_symbol fun _ hcolon =>
        clean_bind (clean_statements hr) fun _ hbody =>
          yields_pure (by simp [hword, hcolon, hbody]))
      (clean_bind clean_keyword fun _ hword => clean_bind hfirst fun _ hparts =>
        clean_bind clean_symbol fun _ hcolon => clean_bind (clean_statements hr) fun _ hbody =>
          yields_pure (specFree_some.mpr (specFree_node hk
            (by simp [hword, hparts, hcolon, hbody]))))))) fun _ hcases =>
    clean_bind clean_symbol fun _ hc => yields_pure (by simp [ho, hcases, hc])

private theorem clean_caseValues : Clean (caseValues rules) :=
  clean_bind (clean_expressionList hr specFree_nil) fun _ h => yields_pure (by simp [h])

private theorem clean_caseTypes : Clean (caseTypes rules) :=
  clean_bind hr.type fun _ hfirst => clean_bind
    (clean_separated hr.type (f := (·.asRole .type)) fun _ h => by simp [h]) fun _ hmore =>
      yields_pure (by simp [hfirst, hmore])

private theorem clean_caseCommunication : Clean (caseCommunication rules) := by
  refine clean_bind (clean_expressionList hr specFree_nil) fun left hleft =>
    yields_bind fun ts => ?_
  split
  · exact clean_bind (clean_simpleFrom hr specFree_nil hleft) fun _ h =>
      yields_pure (by simp [h])
  · exact yields_bind fun _ => clean_bind clean_symbol fun _ ho => clean_bind
      (clean_expression hr specFree_nil) fun _ hright =>
        clean_bind (yields_pure (by simp [hleft, ho, hright])) fun _ h => yields_pure (by simp [h])
  · exact clean_bind (clean_onlyExpression hleft) fun _ hright =>
      clean_bind (yields_pure (by simp [hright])) fun _ h => yields_pure (by simp [h])

private theorem clean_typeSwitch (hword : specFree word) (hparts : specFree parts) :
    Clean (typeSwitch rules word parts) :=
  clean_bind clean_symbol fun _ hdot => clean_bind clean_symbol fun _ ho =>
    clean_bind clean_keyword fun _ htype => clean_bind clean_symbol fun _ hc =>
      clean_bind (clean_clauses hr (by decide) (clean_caseTypes hr)) fun _ hclauses =>
        yields_pure (by simp [hword, hparts, hdot, ho, htype, hc, hclauses])

private theorem clean_valueSwitch (hword : specFree word) (hparts : specFree parts) :
    Clean (valueSwitch rules word parts) :=
  clean_bind (clean_clauses hr (by decide) (clean_caseValues hr)) fun _ hclauses =>
    yields_pure (by simp [hword, hparts, hclauses])

private theorem clean_switchSubject (hword : specFree word) (hparts : specFree parts) :
    Clean (switchSubject rules word parts) := by
  refine yields_bind fun _ => yields_ite (clean_valueSwitch hr hword hparts)
    (clean_bind (clean_expressionList hr specFree_nil) fun left hleft =>
      yields_orElse ?examined ?valued)
  case examined =>
    exact clean_optional_bind clean_symbol
      (fun _ ho => clean_bind (hr.binary specFree_nil) fun _ hvalue =>
        clean_typeSwitch hr hword (by simp [hparts, hleft, ho, hvalue]))
      (clean_bind (clean_onlyExpression hleft) fun _ hvalue =>
        clean_typeSwitch hr hword (by simp [hparts, hvalue]))
  case valued =>
    exact clean_bind (clean_onlyExpression hleft) fun _ hvalue =>
      clean_valueSwitch hr hword (by simp [hparts, hvalue])

private theorem clean_switchStatement : Clean (switchStatement rules) :=
  clean_bind clean_keyword fun _ hword => yields_orElse
    (clean_bind (clean_expressionList hr specFree_nil) fun _ hleft => clean_bind
      (clean_initializer hr hleft) fun before hbefore => by
        cases before with
        | none => exact yields_failure
        | some before => exact clean_switchSubject hr hword (specFree_some.mp hbefore))
    (clean_switchSubject hr hword specFree_nil)

private theorem clean_selectStatement : Clean (selectStatement rules) :=
  clean_bind clean_keyword fun _ hword => clean_bind
    (clean_clauses hr (by decide) (clean_caseCommunication hr)) fun _ hclauses =>
      yields_pure (by simp [hword, hclauses])

omit hr in
private theorem clean_jumpStatement {w : String} (hk : k ≠ .importSpec) : Clean
    (jumpStatement w k) :=
  clean_bind clean_keyword fun _ hjump => clean_bind (clean_optional (clean_name (by decide)))
    fun _ hlabel => yields_pure (specFree_node hk (by simp [hjump, hlabel]))

private theorem clean_launchStatement {w : String} (hk : k ≠ .importSpec) :
    Clean (launchStatement rules w k) :=
  clean_bind clean_keyword fun _ hlaunch => clean_bind (clean_expression hr specFree_nil)
    fun _ h => yields_pure (specFree_node hk (by simp [hlaunch, h]))

private theorem clean_returnStatement : Clean (returnStatement rules) :=
  clean_bind clean_keyword fun _ hword => yields_bind fun _ => yields_ite
    (yields_pure (by simp [hword]))
    (clean_bind (clean_expressionList hr specFree_nil) fun _ h => yields_pure (by simp [hword, h]))

private theorem clean_labeledStatement : Clean (labeledStatement rules) :=
  clean_bind (clean_name (by decide)) fun _ hlabel => clean_bind clean_symbol fun _ hcolon =>
    yields_bind fun _ => yields_ite (yields_pure (by simp [hlabel, hcolon]))
      (clean_bind hr.statement fun _ h => yields_pure (by simp [hlabel, hcolon, h]))

private theorem clean_statement : Clean (statement rules) := by
  refine yields_bind fun _ => yields_bind fun ts => yields_ite hr.block (yields_ite
    (clean_bind clean_symbol fun _ h => yields_pure (by simp [h]))
    (yields_ite (clean_labeledStatement hr) ?_))
  split
  · exact yields_ite (clean_declaration hr) <| yields_ite (clean_returnStatement hr) <|
      yields_ite (clean_launchStatement hr (by decide)) <|
      yields_ite (clean_launchStatement hr (by decide)) <|
      yields_ite (clean_ifStatement hr _) <| yields_ite (clean_forStatement hr) <|
      yields_ite (clean_switchStatement hr) <| yields_ite (clean_selectStatement hr) <|
      yields_ite (clean_bind clean_keyword fun _ h => yields_pure (by simp [h])) <|
      yields_ite (clean_jumpStatement (by decide)) <|
      yields_ite (clean_jumpStatement (by decide)) <|
      yields_ite (clean_jumpStatement (by decide)) (clean_simpleStatement hr)
  · exact clean_simpleStatement hr

private theorem clean_block : Clean (block rules) :=
  clean_bind clean_symbol fun _ ho => clean_bind (clean_statements hr) fun _ hbody =>
    clean_bind clean_symbol fun _ hc => yields_pure (by simp [ho, hbody, hc])

/-! ### Declarations of a file -/

private theorem clean_functionRest : Clean (functionRest rules) := by
  refine clean_bind (clean_result hr) fun result hresult => yields_bind fun _ => yields_ite
    (clean_bind hr.block fun _ hbody => clean_bind (yields_pure (by simp [hbody])) ?_)
    (clean_bind (yields_pure specFree_nil) ?_)
  all_goals exact fun _ hbody => yields_pure (by simp [hresult, hbody])

private theorem clean_functionDeclaration : Clean (functionDeclaration rules) :=
  clean_bind clean_keyword fun _ hword => clean_bind (clean_name (by decide)) fun _ hname =>
    clean_bind (clean_optional (clean_typeParameters hr)) fun _ hgeneric =>
      clean_bind hr.parameters fun _ hparameters => clean_bind (clean_functionRest hr)
        fun _ hrest => yields_pure (specFree_node (by decide) (by
          simpa [hword, hname, hparameters, hrest] using
            specFree_mapOption hgeneric fun _ h => by simpa using h))

private theorem clean_methodDeclaration : Clean (methodDeclaration rules) :=
  clean_bind clean_keyword fun _ hword => clean_bind hr.parameters fun _ hreceiver =>
    clean_bind (clean_name (by decide)) fun _ hname => clean_bind hr.parameters
      fun _ hparameters => clean_bind (clean_functionRest hr) fun _ hrest =>
        yields_pure (by simp [hword, hreceiver, hname, hparameters, hrest])

end

/-- The rules of every depth make no import specs. -/
theorem untouched_rulesTo (n : Nat) : Untouched (rulesTo n) := by
  induction n with
  | zero =>
    exact {
      binary := fun _ => yields_failure
      operand := fun _ => yields_failure
      type := yields_failure
      parameters := yields_failure
      block := yields_failure
      statement := yields_failure }
  | succ n ih =>
    exact {
      binary := fun hc => clean_binary ih hc
      operand := fun hc => clean_operand ih hc
      type := clean_type ih
      parameters := clean_parameters ih
      block := clean_block ih
      statement := clean_statement ih }

/-- What a file declares or states holds no import specs, or it was read as an import
declaration. -/
theorem topLevel_specFree {n : Nat} {ts rest : List Token}
    (h : topLevel (rulesTo n) ts = some (t, rest)) :
    specFree t ∨ importDeclaration ts = some (t, rest) := by
  have hr := untouched_rulesTo n
  have hclause : Clean packageClause := clean_bind clean_keyword fun _ hword =>
    clean_bind (clean_name (by decide)) fun _ hname => yields_pure (by simp [hword, hname])
  rw [topLevel, get_bind] at h
  rcases ite_eq_some.mp h with ⟨_, h⟩ | ⟨_, h⟩
  · exact .inl (hclause _ _ _ h)
  rcases ite_eq_some.mp h with ⟨_, h⟩ | ⟨_, h⟩
  · exact .inr h
  · exact .inl (yields_ite (c := atWord true "func" ts = true) (yields_orElse
      (clean_functionDeclaration hr) (yields_orElse (clean_methodDeclaration hr) hr.statement))
      hr.statement _ _ _ h)

end GoContracts.Syntax.Grammar

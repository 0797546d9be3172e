import GoContracts.Proofs.Weaving.Injection

/-!
# Guards and reports of placed directives

A directive that is placed at a statement gets the guards that it demands, and one that applies to
nothing is reported once, with the cause.
-/

namespace GoContracts

namespace Reporting

variable {ε α β : Type}

/-- The directives that are reported to be without effect, with the causes. -/
def neglects (reports : List Diagnostic) : List (Anchor × Neglect) :=
  reports.filterMap fun
    | .ignored anchor cause => some (anchor, cause)
    | _ => none

/-- Nothing was neglected without reports. -/
@[simp] theorem neglects_nil : neglects [] = [] := rfl

/-- What was neglected is reported part by part. -/
@[simp] theorem neglects_append (reports more : List Diagnostic) :
    neglects (reports ++ more) = neglects reports ++ neglects more :=
  List.filterMap_append

/-- A computation that reports no directive to be without effect. -/
def Quiet (x : Reporting ε α) : Prop :=
  ∀ before a after, Gives x before a after →
    ∃ reports, after = before ++ reports ∧ neglects reports = []

private theorem quiet_pure (a : α) : Quiet (pure a : Reporting ε α) := by
  intro before a' after h
  obtain ⟨_, rfl⟩ := gives_pure.mp h
  exact ⟨[], by simp⟩

private theorem quiet_throw (e : ε) : Quiet (throw e : Reporting ε α) :=
  fun _ _ _ h => absurd h gives_throw

private theorem quiet_note {d : Diagnostic} (h : neglects [d] = []) : Quiet
    (note d : Reporting ε Unit) :=
  fun _ _ _ hd => ⟨[d], gives_note.mp hd, h⟩

private theorem quiet_bind {x : Reporting ε α} {f : α → Reporting ε β} (hx : Quiet x)
    (hf : ∀ a, Quiet (f a)) : Quiet (x >>= f) := by
  intro before b after h
  obtain ⟨a, mid, ha, hb⟩ := gives_bind.mp h
  obtain ⟨reports, rfl, hreports⟩ := hx before a mid ha
  obtain ⟨more, rfl, hmore⟩ := hf a _ b after hb
  exact ⟨reports ++ more, by rw [List.append_assoc], by rw [neglects_append, hreports, hmore]; rfl⟩

private theorem quiet_mapM {f : α → Reporting ε β} (hf : ∀ a, Quiet (f a)) (as : List α) :
    Quiet (as.mapM f) := by
  induction as with
  | nil =>
    rw [List.mapM_nil]
    exact quiet_pure []
  | cons a as ih =>
    rw [List.mapM_cons]
    exact quiet_bind (hf a) fun b => quiet_bind ih fun bs => quiet_pure _

private theorem quiet_forM {f : α → Reporting ε Unit} (hf : ∀ a, Quiet (f a)) (as : List α) :
    Quiet (as.forM f) := by
  induction as with
  | nil => exact quiet_pure ()
  | cons a as ih => exact quiet_bind (hf a) fun _ => ih

private theorem length_of_mapM {f : α → Reporting ε β} {as : List α} {bs : List β}
    {before after : List Diagnostic} (h : Gives (as.mapM f) before bs after) :
    bs.length = as.length :=
  (forall₂_of_mapM h).length_eq.symm

end Reporting

open Reporting

/-! ### Guards -/

/-- Number of the conditions that a directive sets on the next statement. -/
def Directive.guardCount : Directive → Nat
  | nonZero _ vars => vars.length
  | holds .. => 1
  | noError _ => 0

/-- A `@require` that a comment holds sets at least one condition. -/
theorem Directive.guardCount_pos {comment : String} {directive : Directive}
    (h : parse? comment = some directive) (hkeyword : directive.keyword = .require) :
    0 < directive.guardCount := by
  unfold parse? parseChars? at h
  obtain ⟨⟨keyword, rest⟩, _, h⟩ := Option.bind_eq_some_iff.mp h
  obtain ⟨⟨flags, payload⟩, _, h⟩ := Option.bind_eq_some_iff.mp h
  cases keyword with
  | must =>
    obtain rfl := Option.some.inj h
    simp [Directive.keyword] at hkeyword
  | require =>
    dsimp only at h
    split at h
    · split at h
      · simp at h
      · next hvars =>
        obtain rfl := Option.some.inj h
        rw [guardCount, List.length_map]
        exact List.length_pos_iff.mpr (by simpa using hvars)
    · split at h
      · simp at h
      · obtain rfl := Option.some.inj h
        exact Nat.one_pos

namespace Guard

variable {p : Package} {anchor : Anchor} {scope : Scope}

private theorem quiet_ensureExpression (use : ExpressionUse) (text : String) :
    Quiet (ensureExpression anchor use text) := by
  unfold ensureExpression
  split
  · exact quiet_pure ()
  · exact quiet_throw _

private theorem quiet_returnValues (errorName? : Option String) :
    Quiet (returnValues p anchor scope errorName?) := by
  unfold returnValues
  dsimp only
  split
  · exact quiet_pure _
  · exact quiet_bind (quiet_forM (quiet_ensureExpression .return) _) fun _ => quiet_pure _

private theorem quiet_nonZero (values : List String) (name : String) :
    Quiet (nonZero p anchor scope values name) :=
  quiet_bind (quiet_ensureExpression _ _) fun _ => quiet_pure _

private theorem quiet_holds (values : List String) (condition : String) (message? : Option String) :
    Quiet (holds anchor values condition message?) := by
  unfold holds
  split
  · exact quiet_throw _
  · dsimp only
    split
    · exact quiet_bind (quiet_note rfl) fun _ => quiet_pure _
    · exact quiet_pure _

/-- The values that a guard returns, which are found first. -/
def values (p : Package) (anchor : Anchor) (scope : Scope) (errorName? : Option String) :
    Reporting InvalidExpression (List String) :=
  if anchor.directive.response.returns then returnValues p anchor scope errorName? else pure []

/-- The guard of a requirement, with the values that it returns. -/
theorem precondition_eq : precondition p anchor scope = (do
    let values ← values p anchor scope none
    match anchor.directive with
    | .nonZero _ names => names.mapM (nonZero p anchor scope values)
    | .holds _ condition message? => return [← holds anchor values condition message?]
    | .noError _ => return []) := by
  unfold precondition values
  dsimp only
  split <;> rfl

/-- The guard of an error, with its comment and the values that it returns. -/
theorem errorCheck_eq (name : String) : errorCheck p anchor scope name = (do
    let values ← values p anchor scope (some name)
    let opening := "inco // must" ++ (if anchor.directive.response.logs then " -log" else "") ++
      " violation at " ++ anchor.location ++ ": "
    return { condition := name ++ " != nil"
             action := .ofResponse anchor.directive.response (.withError opening name)
               values }) := by
  unfold errorCheck values
  dsimp only
  split <;> rfl

/-- The guard of a variable tests whether it is zero and does what the directive says. -/
theorem eq_of_nonZero {values : List String} {name : String} {guard : Guard}
    {before after : List Diagnostic}
    (h : Gives (nonZero p anchor scope values name) before guard after) :
    ∃ message, guard =
      { condition := (ZeroCheck.of name (p.variableType? scope name)).condition
        action := .ofResponse anchor.directive.response (.text message) values
        conditionImports := (ZeroCheck.of name
          (p.variableType? scope name)).importPath?.toList } := by
  obtain ⟨_, _, _, h⟩ := gives_bind.mp h
  obtain ⟨rfl, _⟩ := gives_pure.mp h
  exact ⟨_, rfl⟩

/-- The guard of a condition negates it and does what the directive says. -/
theorem eq_of_holds {values : List String} {condition : String} {message? : Option String}
    {guard : Guard} {before after : List Diagnostic}
    (h : Gives (holds anchor values condition message?) before guard after) :
    ∃ message, guard =
      { condition := "!(" ++ condition ++ ")"
        action := .ofResponse anchor.directive.response (.text message) values } := by
  rw [holds] at h
  split at h
  · exact absurd h gives_throw
  · dsimp only at h
    split at h
    · obtain ⟨_, _, _, h⟩ := gives_bind.mp h
      obtain ⟨rfl, _⟩ := gives_pure.mp h
      exact ⟨_, rfl⟩
    · obtain ⟨rfl, _⟩ := gives_pure.mp h
      exact ⟨_, rfl⟩

private theorem quiet_values (errorName? : Option String) :
    Quiet (values p anchor scope errorName?) := by
  unfold values
  split
  · exact quiet_returnValues errorName?
  · exact quiet_pure []

private theorem quiet_precondition : Quiet (precondition p anchor scope) := by
  rw [precondition_eq]
  refine quiet_bind (quiet_values none) fun values => ?_
  split
  · exact quiet_mapM (quiet_nonZero values) _
  · exact quiet_bind (quiet_holds values _ _) fun _ => quiet_pure _
  · exact quiet_pure []

private theorem quiet_errorCheck (name : String) : Quiet (errorCheck p anchor scope name) := by
  rw [errorCheck_eq]
  exact quiet_bind (quiet_values (some name)) fun _ => quiet_pure _

/-- A `@require` has one guard for each variable that it lists, or one for its condition. -/
theorem length_of_precondition {guards : List Guard} {before after : List Diagnostic}
    (h : Gives (precondition p anchor scope) before guards after) :
    guards.length = anchor.directive.guardCount := by
  rw [precondition_eq] at h
  obtain ⟨values, mid, _, h⟩ := gives_bind.mp h
  split at h
  · next names hdirective =>
    rw [hdirective]
    exact length_of_mapM h
  · next hdirective =>
    obtain ⟨guard, _, _, hguard⟩ := gives_bind.mp h
    obtain ⟨rfl, _⟩ := gives_pure.mp hguard
    rw [hdirective]
    rfl
  · next hdirective =>
    obtain ⟨rfl, _⟩ := gives_pure.mp h
    rw [hdirective]
    rfl

end Guard

/-! ### Demands -/

namespace Injection

variable {p : Package} {file : SourceFile} {namings : List (Syntax.Tree × ErrorTarget)}
  {before after : List Diagnostic}

/-- The cause for which a placed directive applies to nothing. -/
def neglect? (placed : Placed) : Option (Anchor × Neglect) :=
  match placed.placement with
  | .ignored cause => some (placed.anchor, cause)
  | _ => none

/-- The guards are the ones that the placed directive demands where it is placed. -/
def Demanded (p : Package) (file : SourceFile) (namings : List (Syntax.Tree × ErrorTarget))
    (placed : Placed) (guards : List Guard) : Prop :=
  match placed.placement with
  | .before statement => ∃ before after,
    Gives (Guard.precondition p placed.anchor (.visibleAt file statement.start)) before guards after
  | .after assignment error => ∃ guard before after, guards = [guard] ∧
    Gives (Guard.errorCheck p placed.anchor (.visibleAt file assignment.start)
      (errorName namings error)) before guard after
  | .ignored _ => guards = []

private theorem demand_spec {placed : Placed} {d : Demand}
    (h : Gives (demand p file namings placed) before d after) :
    d.placed = placed ∧ Demanded p file namings placed d.guards ∧
      ∃ reports, after = before ++ reports ∧ neglects reports = (neglect? placed).toList := by
  obtain ⟨anchor, placement⟩ := placed
  cases placement with
  | before statement =>
    obtain ⟨guards, mid, hguards, h⟩ := gives_bind.mp h
    obtain ⟨rfl, rfl⟩ := gives_pure.mp h
    exact ⟨rfl, ⟨before, mid, hguards⟩, Guard.quiet_precondition before guards mid hguards⟩
  | after assignment error =>
    obtain ⟨guard, mid, hguard, h⟩ := gives_bind.mp h
    obtain ⟨rfl, rfl⟩ := gives_pure.mp h
    exact ⟨rfl, ⟨guard, before, mid, rfl, hguard⟩,
      Guard.quiet_errorCheck _ before guard mid hguard⟩
  | ignored cause =>
    obtain ⟨_, mid, hnote, h⟩ := gives_bind.mp h
    obtain ⟨rfl, rfl⟩ := gives_pure.mp h
    exact ⟨rfl, rfl, [.ignored anchor cause], gives_note.mp hnote, rfl⟩

/-- Every placed directive is demanded, in order, and each of those that apply to nothing is
reported once. -/
theorem demands_spec {placed : List Placed} {demands : List Demand}
    (h : Gives (placed.mapM (demand p file namings)) before demands after) :
    demands.map (·.placed) = placed ∧ (∀ d ∈ demands, Demanded p file namings d.placed d.guards) ∧
      ∃ reports, after = before ++ reports ∧ neglects reports = placed.filterMap neglect? := by
  induction placed generalizing demands before with
  | nil =>
    obtain ⟨rfl, rfl⟩ := gives_mapM_nil.mp h
    exact ⟨rfl, by simp, [], by simp⟩
  | cons x placed ih =>
    obtain ⟨d, demands, mid, rfl, hd, hmore⟩ := gives_mapM_cons.mp h
    obtain ⟨rfl, hguards, reports, rfl, hreports⟩ := demand_spec hd
    obtain ⟨rfl, hall, more, rfl, hneglects⟩ := ih hmore
    refine ⟨rfl, List.forall_mem_cons.mpr ⟨hguards, hall⟩, reports ++ more,
      by rw [List.append_assoc], ?_⟩
    rw [neglects_append, hreports, hneglects, List.filterMap_cons]
    cases neglect? d.placed <;> rfl

end Injection

end GoContracts

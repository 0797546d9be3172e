import GoContracts.Proofs.Typing.Inquiry
import Mathlib.Data.List.Induction

/-!
# Inquiries come to an end

An inquiry evaluates in answers that are given for its questions, and the inquiry into a question
evaluates in the answers of one depth to the answer of the next one. So inquiries run to their end,
with that answer, by induction on the depth that is left.
-/

namespace GoContracts.Typing

open Syntax (Tree)

namespace Inquiry

variable {α β : Type} (answers : (q : Question) → q.Answer)

/-- The result of an inquiry whose questions are answered by a function. -/
def eval : Inquiry α → α
  | done a => a
  | ask q next => (next (answers q)).eval

/-- The result of an inquiry that may have none. -/
def Partial.eval (i : Partial α) : Option α := Inquiry.eval answers i.run

/-- A result needs no answer. -/
@[simp] theorem eval_pure (a : α) : eval answers (pure a) = a := rfl

private theorem eval_andThen (i : Inquiry α) (f : α → Inquiry β) :
    eval answers (i.andThen f) = eval answers (f (eval answers i)) := by
  induction i with
  | done a => rfl
  | ask q next ih => exact ih (answers q)

/-- Two inquiries in a row are answered one after the other. -/
@[simp] theorem eval_bind (i : Inquiry α) (f : α → Inquiry β) :
    eval answers (i >>= f) = eval answers (f (eval answers i)) := eval_andThen answers i f

/-- A function of a result needs no answer. -/
@[simp] theorem eval_map (f : α → β) (i : Inquiry α) :
    eval answers (f <$> i) = f (eval answers i) := eval_andThen answers i _

/-- What is done needs no answer. -/
@[simp] theorem eval_done (a : α) : eval answers (done a) = a := rfl

/-- The inquiry goes on with the answer to its question. -/
@[simp] theorem eval_ask (q : Question) (next : q.Answer → Inquiry α) :
    eval answers (ask q next) = eval answers (next (answers q)) := rfl

/-- Whether all members pass is answered member by member. -/
@[simp] theorem eval_allM (f : α → Inquiry Bool) (l : List α) :
    eval answers (l.allM f) = l.all fun a => eval answers (f a) := by
  induction l with
  | nil => rfl
  | cons a l ih =>
    rw [List.allM, eval_bind, List.all_cons]
    cases eval answers (f a) with
    | false => rfl
    | true => simpa using ih

/-- Whether some member passes is answered member by member. -/
@[simp] theorem eval_anyM (f : α → Inquiry Bool) (l : List α) :
    eval answers (l.anyM f) = l.any fun a => eval answers (f a) := by
  induction l with
  | nil => rfl
  | cons a l ih =>
    rw [List.anyM, eval_bind, List.any_cons]
    cases eval answers (f a) with
    | false => simpa using ih
    | true => rfl

namespace Partial

/-- What is given needs no answer. -/
@[simp] theorem eval_given (value? : Option α) : eval answers (given value?) = value? := rfl

/-- A partial inquiry is answered as an inquiry for a result that may be missing. -/
@[simp] theorem eval_mk (i : Inquiry (Option α)) :
    eval answers (OptionT.mk i) = Inquiry.eval answers i := rfl

/-- The type of one value is what is asked for. -/
@[simp] theorem eval_askedSingle (scope : Scope) (t : Tree) :
    eval answers (askedSingle scope t) = answers (.single scope t) := rfl

/-- A result that is there needs no answer. -/
@[simp] theorem eval_pure (a : α) : eval answers (pure a) = some a := rfl

/-- What is always answered has a result. -/
@[simp] theorem eval_liftM (i : Inquiry α) :
    eval answers (liftM i) = some (Inquiry.eval answers i) := eval_andThen answers i _

/-- The second inquiry is answered if the first has a result. -/
@[simp] theorem eval_bind (i : Partial α) (f : α → Partial β) :
    eval answers (i >>= f) = (eval answers i).bind fun a => eval answers (f a) := by
  refine (eval_andThen answers i.run _).trans ?_
  rw [eval]
  cases Inquiry.eval answers i.run <;> rfl

/-- The second inquiry counts if the first has no result. -/
@[simp] theorem eval_orElse (i j : Partial α) :
    eval answers (i <|> j) = (eval answers i).or (eval answers j) := by
  refine (eval_andThen answers i.run _).trans ?_
  rw [eval]
  cases Inquiry.eval answers i.run <;> rfl

end Partial

/-- The members of a list are answered one by one. -/
@[simp] theorem eval_mapM (f : α → Inquiry β) (l : List α) :
    eval answers (l.mapM f) = l.map fun a => eval answers (f a) := by
  induction l with
  | nil => rfl
  | cons a l ih => simp [List.mapM_cons, ih]

end Inquiry

open Inquiry

/-- The answer to a question at the given depth. -/
def answersAt (p : Package) (n : Nat) : (q : Question) → q.Answer
  | .category scope type => category p n scope type
  | .isComparable scope type => isComparable p n scope type
  | .admitsComparable scope constraint => admitsComparable p n scope constraint
  | .isErrorLike type => isErrorLike p n type
  | .single scope t => (answersTo p n).single? scope t
  | .name scope name => (answersTo p n).name? scope name
  | .results scope call => (answersTo p n).results scope call

private theorem answersAt_zero (p : Package) (q : Question) : answersAt p 0 q = q.fallback := by
  cases q <;> simp only [answersAt, category, isComparable, admitsComparable, isErrorLike] <;> rfl

section

variable (p : Package) (n : Nat)

private theorem depth_answersTo : (answersTo p n).depth = n := by
  cases n <;> rfl

/-! ### Types -/

private theorem eval_categoryInquiry (scope : Scope) (type : TypeExpr) :
    (categoryInquiry p scope type).eval (answersAt p n) = category p (n + 1) scope type := by
  rw [categoryInquiry, category]
  cases type.shape with
  | named qualifier name args =>
    cases qualifier with
    | some qualifier => rfl
    | none =>
      simp only
      cases typeParamConstraint? p scope name with
      | some constraint? => cases constraint? <;> simp [answersAt]
      | none =>
        cases Library.builtinCategory? name with
        | some known => rfl
        | none => cases p.typeDecl? name <;> simp [answersAt]
  | array element => simp [answersAt]
  | struct fields => simp [answersAt]
  | _ => rfl

private theorem eval_comparableInquiry (scope : Scope) (type : TypeExpr) :
    (comparableInquiry p scope type).eval (answersAt p n) = isComparable p (n + 1) scope type := by
  rw [comparableInquiry, isComparable]
  cases type.shape with
  | named qualifier name args =>
    cases qualifier with
    | some qualifier => rfl
    | none =>
      simp only
      cases typeParamConstraint? p scope name with
      | some constraint? => cases constraint? <;> simp [answersAt]
      | none => cases p.typeDecl? name <;> simp [answersAt]
  | array element => simp [answersAt]
  | struct fields => simp [answersAt]
  | _ => rfl

private theorem eval_constraintInquiry (scope : Scope) (constraint : TypeExpr) :
    (constraintInquiry p scope constraint).eval (answersAt p n) =
      admitsComparable p (n + 1) scope constraint := by
  rw [constraintInquiry, admitsComparable]
  cases constraint.shape with
  | named qualifier name args =>
    cases qualifier with
    | some qualifier => rfl
    | none =>
      simp only
      split
      · rfl
      · split
        · rfl
        · cases Library.builtinCategory? name with
          | some known => rfl
          | none => cases p.typeDecl? name <;> simp [answersAt]
  | union terms => cases h : terms.isEmpty <;> simp [answersAt, h]
  | interface methods elements => simp [answersAt]
  | _ => simp [answersAt]

private theorem eval_errorInquiry (type : TypeExpr) :
    (errorInquiry p type).eval (answersAt p n) = isErrorLike p (n + 1) type := by
  rw [errorInquiry, isErrorLike]
  cases type.shape with
  | named qualifier name args =>
    cases qualifier with
    | some qualifier => rfl
    | none =>
      simp only
      split
      · simp_all
      · cases p.typeDecl? name with
        | none => simp_all
        | some declared => cases h : isInterface declared.underlying <;> simp_all [answersAt]
  | pointer target =>
    simp only
    split <;> simp_all [answersAt]
  | _ => rfl

/-- To inquire about a type is to classify it. -/
@[simp] theorem eval_classifying (scope : Scope) (type : TypeExpr) :
    (classifying scope type).eval (answersAt p n) = classified p (answersTo p n) scope type := by
  simp [classifying, classified, classifyAt, answersAt, depth_answersTo]

/-- To inquire about a predeclared name is to classify it. -/
@[simp] theorem eval_classifyingName (scope : Scope) (name : String) :
    (classifyingName scope name).eval (answersAt p n) = basic p (answersTo p n) scope name := by
  simp [classifyingName, basic]

/-- To inquire about types is to classify each of them. -/
@[simp] theorem eval_classifyingAll (scope : Scope) (types : List TypeExpr) :
    (classifyingAll scope types).eval (answersAt p n) =
      types.map fun type => some (classified p (answersTo p n) scope type) := by
  simp [classifyingAll]

/-! ### Names -/

/-- To inquire about values is to give their types. -/
@[simp] theorem eval_valuesInquiry (scope : Scope) (t : Tree) :
    (valuesInquiry scope t).eval (answersAt p n) = valueTypes (answersTo p n) scope t := by
  rw [valuesInquiry, valueTypes]
  generalize (if t.is .expressionList then t.items else [t]) = items
  match items with
  | [] | _ :: _ :: _ => simp [answersAt]
  | [only] => cases h : only.is .callExpression <;> simp [answersAt, h]

/-- To inquire about one of several declared names is to pick its type. -/
@[simp] theorem eval_picking (scope : Scope) (types : List (Option TypeInfo)) (values : Tree)
    (index count : Nat) :
    (picking scope types values index count).eval (answersAt p n) =
      pick p (answersTo p n) scope types values index count := by
  rw [picking, pick]
  split
  · rfl
  · split
    · split <;> simp
    · rfl

/-- To inquire about a range is to give the type of its keys or values. -/
@[simp] theorem eval_rangeInquiry (file : SourceFile) (isKey : Bool) (ranged : Tree) :
    (rangeInquiry p file isKey ranged).eval (answersAt p n) =
      rangeType? p (answersTo p n) file isKey ranged := by
  simp [rangeInquiry, rangeType?, answersAt]

private theorem eval_bindingInquiry (scope : Scope) (binding : Binding) :
    (bindingInquiry p scope binding).eval (answersAt p n) =
      bindingType? p (answersTo p n) scope binding := by
  rw [bindingInquiry, bindingType?]
  cases binding.origin <;> simp

private theorem eval_packageValueInquiry (name : String) :
    (packageValueInquiry p name).eval (answersAt p n) =
      packageValueType? p (answersTo p n) name := by
  simp only [packageValueInquiry, packageValueType?, Partial.eval_bind, Partial.eval_given]
  refine congrArg _ (funext fun value => ?_)
  cases value with
  | declared type => simp
  | inferred number values index count =>
    simp only [Partial.eval_bind, Partial.eval_given, Partial.eval_liftM, eval_valuesInquiry]
    refine congrArg _ (funext fun file => ?_)
    rw [Option.bind_some]
    split
    · exact eval_picking ..
    · split <;> rfl

private theorem eval_nameInquiry (scope : Scope) (name : String) :
    (nameInquiry p scope name).eval (answersAt p n) =
      nameType? p (answersTo p n) scope name := by
  rw [nameInquiry, nameType?]
  cases scope.lookup? name with
  | none => exact eval_packageValueInquiry p n name
  | some binding => exact eval_bindingInquiry p n scope binding

/-! ### Expressions -/

private theorem eval_unaryInquiry (scope : Scope) (t : Tree) :
    (unaryInquiry p scope t).eval (answersAt p n) = unaryType? p (answersTo p n) scope t := by
  simp only [unaryInquiry, unaryType?, Partial.eval_bind, Partial.eval_given]
  refine congrArg _ (funext fun operand => ?_)
  generalize ((t.child? .operator).map scope.file.textOf).getD "" = operator
  split
  · simp
  · simp [answersAt]
  · simp only [Partial.eval_bind, Partial.eval_askedSingle, answersAt]
    refine congrArg _ (funext fun info => ?_)
    cases info.type.shape <;> simp
  · simp only [Partial.eval_bind, Partial.eval_askedSingle, answersAt]
    refine congrArg _ (funext fun info => ?_)
    cases (underlying p info.type).shape <;> simp
  · simp [answersAt]

private theorem eval_binaryInquiry (scope : Scope) (t : Tree) :
    (binaryInquiry scope t).eval (answersAt p n) = binaryType? p (answersTo p n) scope t := by
  rw [binaryInquiry, binaryType?]
  split
  · simp
  · simp only [Partial.eval_bind, Partial.eval_given, Partial.eval_orElse,
      Partial.eval_askedSingle, answersAt]
    refine congrArg _ (funext fun left => ?_)
    cases (answersTo p n).single? scope left <;> rfl

private theorem eval_selectionInquiry (scope : Scope) (t : Tree) :
    (selectionInquiry p scope t).eval (answersAt p n) =
      selectionType? p (answersTo p n) scope t := by
  simp only [selectionInquiry, selectionType?, Partial.eval_bind, Partial.eval_given]
  refine congrArg _ (funext fun operand => congrArg _ (funext fun field => ?_))
  split
  · simp
  · simp only [Partial.eval_bind, Partial.eval_askedSingle, answersAt]
    refine congrArg _ (funext fun info => ?_)
    cases (underlying p info.type.deref).shape <;> simp

private theorem eval_indexInquiry (scope : Scope) (t : Tree) :
    (indexInquiry p scope t).eval (answersAt p n) = indexType? p (answersTo p n) scope t := by
  simp only [indexInquiry, indexType?, Partial.eval_bind, Partial.eval_given,
    Partial.eval_askedSingle, answersAt]
  refine congrArg _ (funext fun operand => congrArg _ (funext fun info => ?_))
  generalize (underlying p info.type.deref).shape = shape
  split <;> simp

private theorem eval_spelledInquiry (scope : Scope) (t : Tree) :
    (spelledInquiry scope t).eval (answersAt p n) =
      spelledType? p (answersTo p n) scope t := by
  cases h : t.child? .type <;> simp [spelledInquiry, spelledType?, h]

private theorem eval_namedResultsInquiry (scope : Scope) (name : String) (args : List Tree) :
    (namedResultsInquiry p scope name args).eval (answersAt p n) =
      namedResults p (answersTo p n) scope name args := by
  unfold namedResultsInquiry namedResults
  split
  · rfl
  · split
    · cases args.head? <;> simp
    · cases args.head? <;> simp
    · simp
    · simp
    · simp
    · cases args.head? <;> simp [answersAt]
    · cases args.head? <;> simp [answersAt]
    · cases args.head? <;> simp [answersAt]
    · simp
    · split
      · simp
      · cases p.func? name <;> simp

private theorem eval_selectedResultsInquiry (scope : Scope) (operand field : Tree) :
    (selectedResultsInquiry p scope operand field).eval (answersAt p n) =
      selectedResults p (answersTo p n) scope operand field := by
  simp only [selectedResultsInquiry, selectedResults]
  split
  · simp
  · cases h : (answersTo p n).single? scope operand with
    | none => simp [answersAt, h]
    | some info =>
      simp only [eval_bind, asked, eval_ask, eval_done, answersAt, h, Option.bind_eq_bind,
        Option.bind_some]
      cases info.type.deref.localName? with
      | none => rfl
      | some receiver =>
        simp only [Option.bind_some]
        cases p.method? receiver (scope.file.textOf field) <;> simp

private theorem eval_resultsInquiry (scope : Scope) (call : Tree) :
    (resultsInquiry p scope call).eval (answersAt p n) =
      callResults p (answersTo p n) scope call := by
  simp only [resultsInquiry, callResults]
  cases call.child? .function with
  | none => rfl
  | some function =>
    simp only
    split
    · exact eval_namedResultsInquiry ..
    · split
      · cases function.child? .operand with
        | none => rfl
        | some operand =>
          cases function.child? .field with
          | none => rfl
          | some field => exact eval_selectedResultsInquiry ..
      · rfl

private theorem eval_callInquiry (scope : Scope) (call : Tree) :
    (callInquiry p scope call).eval (answersAt p n) = callType? p (answersTo p n) scope call := by
  simp only [callInquiry, callType?, Partial.eval_bind, Partial.eval_liftM, eval_resultsInquiry]
  rw [Option.bind_some]
  rcases callResults p (answersTo p n) scope call with _ | ⟨result, _ | ⟨second, rest⟩⟩ <;> rfl

private theorem eval_identifierInquiry (scope : Scope) (name : String) :
    (identifierInquiry scope name).eval (answersAt p n) =
      identifierType? p (answersTo p n) scope name := by
  unfold identifierInquiry identifierType?
  split <;> simp [answersAt]

private theorem eval_singleInquiry (scope : Scope) (t : Tree) :
    (singleInquiry p scope t).eval (answersAt p n) = singleType? p (answersTo p n) scope t := by
  rw [singleInquiry, singleType?]
  cases t.kind? with
  | none => rfl
  | some kind =>
    cases kind with
    | identifier => exact eval_identifierInquiry ..
    | unaryExpression => exact eval_unaryInquiry ..
    | binaryExpression => exact eval_binaryInquiry ..
    | callExpression => exact eval_callInquiry ..
    | selectorExpression => exact eval_selectionInquiry ..
    | indexExpression => exact eval_indexInquiry ..
    | compositeLiteral | typeAssertionExpression | typeConversionExpression =>
      exact eval_spelledInquiry ..
    | parenthesizedExpression | sliceExpression => simp [answersAt]
    | _ => first | rfl | simp

/-- An inquiry in view of the answers of one depth leads to the answer of the next one. -/
theorem eval_inquiry (q : Question) :
    (inquiry p q).eval (answersAt p n) = answersAt p (n + 1) q := by
  cases q with
  | category scope type => exact eval_categoryInquiry p n scope type
  | isComparable scope type => exact eval_comparableInquiry p n scope type
  | admitsComparable scope constraint => exact eval_constraintInquiry p n scope constraint
  | isErrorLike type => exact eval_errorInquiry p n type
  | single scope t => exact eval_singleInquiry p n scope t
  | name scope name => exact eval_nameInquiry p n scope name
  | results scope call => exact eval_resultsInquiry p n scope call

end

/-! ### Running -/

variable {p : Package}

/-- As long as the counter is not beyond the greatest depth, an inquiry runs to its end. -/
theorem exists_runs {depth counter : Nat} (hdepth : counter + depth = maxDepth) {α : Type}
    (i : Inquiry α) :
    ∃ nesting ≤ depth, Runs p i counter (i.eval (answersAt p depth)) counter nesting := by
  induction depth generalizing counter α with
  | zero =>
    induction i with
    | done a => exact ⟨0, Nat.le_refl 0, .done⟩
    | ask q next ih =>
      obtain ⟨nesting, hle, hruns⟩ := ih q.fallback
      refine ⟨nesting, hle, .refused (by omega) ?_⟩
      rwa [eval_ask, answersAt_zero]
  | succ depth ihdepth =>
    induction i with
    | done a => exact ⟨0, Nat.zero_le _, .done⟩
    | ask q next ih =>
      have hbelow : counter + 1 + depth = maxDepth := by omega
      obtain ⟨nesting, hle, hinquiry⟩ := ihdepth hbelow (inquiry p q)
      rw [eval_inquiry] at hinquiry
      obtain ⟨rest, hrest, hruns⟩ := ih (answersAt p (depth + 1) q)
      exact ⟨_, Nat.max_le.mpr ⟨Nat.succ_le_succ hle, hrest⟩, .granted (by omega) hinquiry hruns⟩

/-- An inquiry has no other run. -/
theorem Runs.spec {α : Type} {i : Inquiry α} {counter after nesting : Nat} {a : α}
    (h : Runs p i counter a after nesting) {depth : Nat} (hdepth : counter + depth = maxDepth) :
    a = i.eval (answersAt p depth) ∧ after = counter ∧ nesting ≤ depth := by
  induction h generalizing depth with
  | done => exact ⟨rfl, rfl, Nat.zero_le _⟩
  | refused hlimit _ ih =>
    obtain rfl : depth = 0 := by omega
    rw [eval_ask, answersAt_zero]
    exact ih hdepth
  | granted hlimit _ _ ihinquiry ih =>
    obtain ⟨depth, rfl⟩ : ∃ below, depth = below + 1 := ⟨depth - 1, by omega⟩
    obtain ⟨rfl, -, hnesting⟩ := @ihinquiry depth (by omega)
    obtain ⟨ha, hafter, hrest⟩ := ih hdepth
    rw [eval_ask, ← eval_inquiry]
    exact ⟨ha, hafter, Nat.max_le.mpr ⟨Nat.succ_le_succ hnesting, hrest⟩⟩

/-- A question from outside. -/
inductive Query where
  /-- The type of a name. -/
  | variableType (scope : Scope) (name : String)
  /-- The category of a type. -/
  | classify (scope : Scope) (type : TypeExpr)
  /-- Whether values of a type are errors. -/
  | isErrorLike (type : TypeExpr)
  /-- The types of the values of an expression or a list of expressions. -/
  | expressionTypes (scope : Scope) (t : Tree)

namespace Query

/-- What a query is answered with. -/
abbrev Answer : Query → Type
  | variableType .. => Option TypeInfo
  | classify .. => TypeInfo
  | isErrorLike .. => Bool
  | expressionTypes .. => List (Option TypeInfo)

/-- The inquiry that answers a query. -/
def inquiry : (q : Query) → Inquiry q.Answer
  | variableType scope name => asked (.name scope name)
  | classify scope type => classifying scope type
  | isErrorLike type => asked (.isErrorLike type)
  | expressionTypes scope t => valuesInquiry scope t

/-- The answer to a query. -/
def answer (p : Package) : (q : Query) → q.Answer
  | variableType scope name => p.variableType? scope name
  | classify scope type => p.classify scope type
  | isErrorLike type => p.isErrorLike type
  | expressionTypes scope t => p.expressionTypes scope t

/-- The inquiry of a query gives the answer of the query. -/
theorem eval_inquiry (q : Query) : q.inquiry.eval (answersAt p maxDepth) = q.answer p := by
  cases q with
  | variableType scope name => rfl
  | classify scope type => exact eval_classifying p maxDepth scope type
  | isErrorLike type => rfl
  | expressionTypes scope t => exact eval_valuesInquiry p maxDepth scope t

end Query

/-- The counter after queries that are made one after the other. It starts at zero. -/
inductive Made (p : Package) : List Query → (counter : Nat) → Prop
  | none : Made p [] 0
  | next {earlier : List Query} {q : Query} {a : q.Answer} {counter after nesting : Nat}
    (h : Made p earlier counter) (hruns : Runs p q.inquiry counter a after nesting) :
    Made p (earlier ++ [q]) after

private theorem Made.counter_eq {earlier : List Query} {counter : Nat}
    (h : Made p earlier counter) :
    counter = 0 := by
  induction h with
  | none => rfl
  | next _ hruns ih =>
    subst ih
    exact (hruns.spec (Nat.zero_add maxDepth)).2.1

private theorem Query.exists_runs (q : Query) :
    ∃ nesting ≤ maxDepth, Runs p q.inquiry 0 (q.answer p) 0 nesting := by
  rw [← Query.eval_inquiry]
  exact Typing.exists_runs (Nat.zero_add maxDepth) q.inquiry

private theorem exists_made (earlier : List Query) : ∃ counter, Made p earlier counter := by
  induction earlier using List.reverseRecOn with
  | nil => exact ⟨0, .none⟩
  | append_singleton earlier q ih =>
    obtain ⟨counter, h⟩ := ih
    obtain rfl := h.counter_eq
    obtain ⟨nesting, -, hruns⟩ := q.exists_runs (p := p)
    exact ⟨0, h.next hruns⟩

/-- Whatever a package declares and whatever was asked before, a query comes to an end. Its only
answer is the one in view of all declarations, it never counts more questions than the greatest
depth, and behind it the counter is what it was. -/
theorem query_settled (p : Package) (earlier : List Query) (q : Query) :
    (∃ counter, Made p earlier counter) ∧
      ∀ counter, Made p earlier counter →
        (∃ nesting, Runs p q.inquiry counter (q.answer p) counter nesting) ∧
        ∀ a after nesting, Runs p q.inquiry counter a after nesting →
          a = q.answer p ∧ after = counter ∧ nesting ≤ maxDepth := by
  refine ⟨exists_made earlier, fun counter h => ?_⟩
  obtain rfl := h.counter_eq
  refine ⟨?_, fun a after nesting hruns => ?_⟩
  · obtain ⟨nesting, -, hruns⟩ := q.exists_runs (p := p)
    exact ⟨nesting, hruns⟩
  · obtain ⟨ha, hafter, hnesting⟩ := hruns.spec (Nat.zero_add maxDepth)
    exact ⟨ha.trans q.eval_inquiry, hafter, hnesting⟩

/-- A file with a type and two values that are declared by themselves. -/
def cyclicFile : SourceFile :=
  .parse "/f.go" "package p\n\ntype Loop [1]Loop\n\nvar first = second\n\nvar second = first\n"

private theorem variableType?_cyclic :
    (Package.ofFiles [cyclicFile]).variableType? (.packageLevel cyclicFile) "first" = none := by
  rw [← Option.isNone_iff_eq_none]
  decide +kernel

/-- Queries about a type and values that are declared by themselves. -/
theorem query_settled_cyclic :
    let p := Package.ofFiles [cyclicFile]
    let top := Scope.packageLevel cyclicFile
    Made p [.classify top (.named "Loop")] 0 ∧
      (∃ nesting, Runs p (Query.variableType top "first").inquiry 0 none 0 nesting) ∧
      ∀ a after nesting, Runs p (Query.variableType top "first").inquiry 0 a after nesting →
        a = none ∧ after = 0 ∧ nesting ≤ maxDepth := by
  intro p top
  obtain ⟨⟨counter, hmade⟩, hsettled⟩ :=
    query_settled p [.classify top (.named "Loop")] (.variableType top "first")
  obtain rfl := hmade.counter_eq
  have hanswer : (Query.variableType top "first").answer p = none := variableType?_cyclic
  rw [← hanswer]
  exact ⟨hmade, hsettled 0 hmade⟩

end GoContracts.Typing

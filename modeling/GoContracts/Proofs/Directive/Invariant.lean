import GoContracts.Directive.Parser
import GoContracts.Proofs.Directive.Nesting
import GoContracts.Proofs.Text.Lines
import Mathlib.Data.List.DropRight
import Mathlib.Logic.Basic

/-!
# What a directive holds

Whatever text a comment holds, a directive that is read from it is well-formed: its response is
consistent, it makes exactly one kind of demand, and its parts stand alone, so that splitting one of
them again gives back that part.
-/

namespace GoContracts

open Text (after? isBlank stripWhile Pads Trimmed)

/-! ### Trimmed texts -/

namespace Text

/-- Trimming drops blanks before and behind a text. -/
theorem pads_stripWhile (cs : List Char) : Pads cs (stripWhile isBlank cs) := by
  have hrest : cs.dropWhile isBlank =
      stripWhile isBlank cs ++ ((cs.dropWhile isBlank).reverse.takeWhile isBlank).reverse := by
    rw [stripWhile, dropEndWhile, ← List.reverse_append, List.takeWhile_append_dropWhile,
      List.reverse_reverse]
  refine ⟨cs.takeWhile isBlank, ((cs.dropWhile isBlank).reverse.takeWhile isBlank).reverse, ?_,
    fun c hc => List.mem_takeWhile_imp hc,
    fun c hc => List.mem_takeWhile_imp (List.mem_reverse.mp hc)⟩
  rw [List.append_assoc, ← hrest, List.takeWhile_append_dropWhile]

private theorem trimmed_stripWhile (cs : List Char) : Trimmed (stripWhile isBlank cs) where
  first c hc := by
    have hprefix : stripWhile isBlank cs <+: cs.dropWhile isBlank := List.rdropWhile_prefix ..
    obtain ⟨rest, hrest⟩ := List.head?_eq_some_iff.mp hc
    obtain ⟨more, hmore⟩ := hprefix
    have hfirst := List.head?_dropWhile_not isBlank cs
    rw [← hmore, hrest] at hfirst
    simpa using hfirst
  last c hc := by
    rw [stripWhile, dropEndWhile, List.getLast?_reverse] at hc
    have hlast := List.head?_dropWhile_not isBlank (cs.dropWhile isBlank).reverse
    rw [hc] at hlast
    simpa using hlast

end Text

/-! ### Parts -/

namespace Nesting

variable {s : Nesting} {a b cs : List Char}

/-- What begins a text without a separator has none. -/
theorem Unseparated.left (h : Unseparated s (a ++ b)) : Unseparated s a :=
  fun before after ha => h before (after ++ b) (by rw [ha, List.append_assoc, List.cons_append])

/-- What ends a text without a separator has none where it is reached. -/
theorem Unseparated.right (h : Unseparated s (a ++ b)) : Unseparated (scan s a) b := by
  intro before after hb
  rw [← scan_append]
  exact h (a ++ before) after (by rw [hb, List.append_assoc])

/-- Trimming a text makes no comma separate. -/
theorem Unseparated.strip (h : Unseparated {} cs) : Unseparated {} (stripWhile isBlank cs) := by
  obtain ⟨a, b, hcs, ha, _⟩ := Text.pads_stripWhile cs
  rw [hcs, List.append_assoc] at h
  have hrest := h.right
  rw [scan_blanks rfl ha] at hrest
  exact hrest.left

end Nesting

/-- A part of a list stands alone: it is trimmed and not empty, and splitting it gives it back. -/
theorem topLevelParts_of_mem {text part : List Char} (h : part ∈ topLevelParts text) :
    part ≠ [] ∧ Trimmed part ∧ topLevelParts part = [part] := by
  obtain ⟨hmem, hne⟩ := List.mem_filter.mp h
  obtain ⟨piece, hpiece, rfl⟩ := List.mem_map.mp hmem
  have htrimmed := Text.trimmed_stripWhile piece
  have hpart : stripWhile isBlank piece ≠ [] := by simpa using hne
  have hunseparated : Nesting.Unseparated {} piece :=
    (Nesting.separated_pieces fun _ => rfl).unseparated piece hpiece
  refine ⟨hpart, htrimmed, ?_⟩
  rw [topLevelParts, Nesting.pieces_eq_singleton hunseparated.strip, List.map_singleton,
    htrimmed.stripWhile_eq, List.filter_cons_of_pos (by simpa using hpart), List.filter_nil]

namespace Directive

/-- A text without blanks at its ends that is not empty. -/
def IsWord (s : String) : Prop := s ≠ "" ∧ Text.trim s = s

private theorem isWord_ofList {cs : List Char} (hne : cs ≠ []) (h : Trimmed cs) :
    IsWord (String.ofList cs) := by
  refine ⟨fun hempty => hne (by simpa using congrArg String.toList hempty), ?_⟩
  rw [Text.trim, String.toList_ofList, h.stripWhile_eq]

/-! ### Responses -/

/-- A response that logs or has values returns, and each value stands alone in a list. -/
structure WellFormedResponse (r : Response) : Prop where
  returns_of_logs : r.logs = true → r.returns = true
  returns_of_values : r.values ≠ [] → r.returns = true
  value : ∀ v ∈ r.values, IsWord v ∧ topLevelParts v.toList = [v.toList]

namespace WellFormedResponse

variable {r : Response}

/-- A response that returns needs only its values looked at. -/
theorem of_returns (h : ∀ v ∈ r.values, IsWord v ∧ topLevelParts v.toList = [v.toList])
    (hreturns : r.returns = true) : WellFormedResponse r :=
  ⟨fun _ => hreturns, fun _ => hreturns, h⟩

private theorem values (inner : List Char) :
    ∀ v ∈ (topLevelParts inner).map String.ofList,
      IsWord v ∧ topLevelParts v.toList = [v.toList] := by
  intro v hv
  obtain ⟨part, hpart, rfl⟩ := List.mem_map.mp hv
  obtain ⟨hne, htrimmed, hparts⟩ := topLevelParts_of_mem hpart
  exact ⟨isWord_ofList hne htrimmed, by rw [String.toList_ofList, hparts]⟩

end WellFormedResponse

/-- Each flag keeps the response well-formed, whether or not its list has an end. -/
theorem wellFormed_of_readFlags? {keyword : Keyword} {n : Nat} {flags after : Flags}
    {text rest : List Char} (h : readFlags? keyword n flags text = some (after, rest))
    (hflags : WellFormedResponse flags.response) : WellFormedResponse after.response := by
  induction n generalizing flags text with
  | zero =>
    obtain ⟨rfl, -⟩ := Prod.mk.inj (Option.some.inj h)
    exact hflags
  | succ n ih =>
    have hreturning : WellFormedResponse { flags.response with returns := true } :=
      .of_returns hflags.value rfl
    rw [readFlags?] at h
    dsimp only at h
    split at h
    · split at h
      · cases h
      · exact ih h hflags
    · split at h
      · exact ih h (.of_returns hflags.value rfl)
      · split at h
        · obtain ⟨rfl, -⟩ := Prod.mk.inj (Option.some.inj h)
          exact hflags
        · split at h
          · split at h
            · obtain ⟨rfl, -⟩ := Prod.mk.inj (Option.some.inj h)
              exact hreturning
            · have hvalues := WellFormedResponse.values
              split at h
              · obtain ⟨rfl, -⟩ := Prod.mk.inj (Option.some.inj h)
                exact .of_returns (hvalues _) rfl
              · exact ih h (.of_returns (hvalues _) rfl)
          · split at h
            · exact ih h hreturning
            · obtain ⟨rfl, -⟩ := Prod.mk.inj (Option.some.inj h)
              exact hflags

/-! ### Directives -/

/-- What every directive that is read satisfies. A requirement lists variables or states a
condition, and never both. -/
structure WellFormed (d : Directive) : Prop where
  response : WellFormedResponse d.response
  var : ∀ v ∈ d.vars, IsWord v ∧ ',' ∉ v.toList
  errorCheck : d.keyword = .must →
    d.isNonZero = false ∧ d.vars = [] ∧ d.expr? = none ∧ d.message? = none
  requirement : d.keyword = .require → Xor
    (d.isNonZero = true ∧ d.vars ≠ [] ∧ d.expr? = none ∧ d.message? = none)
    (d.isNonZero = false ∧ d.vars = [] ∧ ∃ condition, d.expr? = some condition ∧ IsWord condition)

variable {text : List Char} {r : Response}

private theorem isWord_of_mem_splitVars {v : List Char} (h : v ∈ splitVars text) :
    IsWord (String.ofList v) ∧ ',' ∉ v := by
  obtain ⟨hmem, hne⟩ := List.mem_filter.mp h
  obtain ⟨piece, hpiece, rfl⟩ := List.mem_map.mp hmem
  refine ⟨isWord_ofList (by simpa using hne) (Text.trimmed_stripWhile piece), fun hcomma => ?_⟩
  obtain ⟨a, b, hcut, _, _⟩ := Text.pads_stripWhile piece
  exact Text.not_mem_of_mem_splitChars hpiece (by rw [hcut]; simp [hcomma])

/-- The condition of a trimmed payload is trimmed, with a message behind it or without. -/
theorem trimmed_splitMessage (h : Trimmed text) : Trimmed (splitMessage text).1 := by
  rw [splitMessage]
  split
  · exact h
  · split
    · exact h
    · exact Text.trimmed_stripWhile _

private theorem wellFormed_nonZero {vars : List (List Char)} (hr : WellFormedResponse r)
    (hne : vars ≠ [])
    (hvars : ∀ v ∈ vars, IsWord (String.ofList v) ∧ ',' ∉ v) :
    WellFormed (.nonZero r (vars.map String.ofList)) where
  response := hr
  var v hv := by
    obtain ⟨chars, hchars, rfl⟩ := List.mem_map.mp hv
    rw [String.toList_ofList]
    exact hvars chars hchars
  errorCheck h := by cases h
  requirement _ := .inl
    ⟨⟨rfl, List.map_eq_nil_iff.not.mpr hne, rfl, rfl⟩, fun h => by cases h.1⟩

private theorem wellFormed_holds {condition : List Char} {message : Option String}
    (hr : WellFormedResponse r) (hne : condition ≠ []) (h : Trimmed condition) :
    WellFormed (.holds r (String.ofList condition) message) where
  response := hr
  var v hv := by cases hv
  errorCheck h := by cases h
  requirement _ := .inr ⟨⟨rfl, rfl, _, rfl, isWord_ofList hne h⟩, fun h => by cases h.1⟩

private theorem wellFormed_noError (hr : WellFormedResponse r) : WellFormed (.noError r) where
  response := hr
  var v hv := by cases hv
  errorCheck _ := ⟨rfl, rfl, rfl, rfl⟩
  requirement h := by cases h

/-- Every directive that a comment holds is well-formed, however the comment is written. -/
theorem wellFormed_of_parse? {comment : String} {d : Directive} (h : parse? comment = some d) :
    d.WellFormed := by
  obtain ⟨⟨keyword, rest⟩, _, h⟩ := Option.bind_eq_some_iff.mp h
  obtain ⟨⟨flags, rest'⟩, hflags, h⟩ := Option.bind_eq_some_iff.mp h
  have hresponse := wellFormed_of_readFlags? hflags ⟨by simp, by simp, by simp⟩
  cases keyword with
  | must =>
    obtain rfl := Option.some.inj h
    exact wellFormed_noError hresponse
  | require =>
    simp only at h
    split at h
    · split at h
      · cases h
      · next hne =>
        obtain rfl := Option.some.inj h
        exact wellFormed_nonZero hresponse (by simpa using hne) fun v => isWord_of_mem_splitVars
    · split at h
      · cases h
      · next hne =>
        obtain rfl := Option.some.inj h
        exact wellFormed_holds hresponse (by simpa using hne)
          (trimmed_splitMessage (Text.trimmed_stripWhile _))

/-- The last of the values closes a bracket that it has not opened. -/
theorem wellFormed_unbalanced : ∃ d,
    parse? "/* @require -log -ret(f(x, y) ,, \"),\", b] , c[ ) z\x7b, \"n\" */" = some d ∧
      d.response.values = ["f(x, y)", "\"),\"", "b] , c["] ∧ d.WellFormed := by
  have h : parse? "/* @require -log -ret(f(x, y) ,, \"),\", b] , c[ ) z\x7b, \"n\" */" = some
      (.holds { returns := true, logs := true, values := ["f(x, y)", "\"),\"", "b] , c["] }
        "z\x7b, \"n\"" none) := by
    decide +kernel
  exact ⟨_, h, rfl, wellFormed_of_parse? h⟩

end Directive

end GoContracts

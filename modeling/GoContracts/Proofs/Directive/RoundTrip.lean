import GoContracts.Proofs.Directive.Written
import GoContracts.Proofs.Text.Lines
import Mathlib.Data.List.DropRight

/-!
# Reading written directives

Reading a comment that spells a directive yields that directive: every reader takes exactly the
piece that was written for it and leaves the rest to the next one.
-/

namespace GoContracts.Directive

open Text (after? after?_append isBlank stripWhile Trimmed)
open Text.Quoted (isBody quote)

/-! ### The comment -/

/-- The delimiters and the blanks inside them are dropped. -/
theorem commentBody_enclose {lead core trail : List Char} (style : CommentStyle)
    (hlead : ∀ c ∈ lead, isBlank c = true) (hcore : Trimmed core) (hne : core ≠ [])
    (htrail : ∀ c ∈ trail, isBlank c = true) :
    commentBody (style.enclose (lead ++ core ++ trail)) = core := by
  have hslashes : Trimmed ['/', '/'] := .of_ends (by decide)
  have hopening : Trimmed ['/', '*'] := .of_ends (by decide)
  have hclosing : Trimmed ['*', '/'] := .of_ends (by decide)
  cases style with
  | line =>
    have hstrip : stripWhile isBlank (['/', '/'] ++ (lead ++ core ++ trail)) =
        ['/', '/'] ++ lead ++ core := by
      have h := (hslashes.append hcore (by simp) hne lead).stripWhile_padded
        (a := []) (by simp) htrail
      simpa using h
    have hinner : stripWhile isBlank (lead ++ core) = core := by
      have h := hcore.stripWhile_padded hlead (b := []) (by simp)
      simpa using h
    rw [CommentStyle.enclose, commentBody, hstrip]
    exact hinner
  | block =>
    have hstrip : stripWhile isBlank (['/', '*'] ++ (lead ++ core ++ trail) ++ ['*', '/']) =
        ['/', '*'] ++ (lead ++ core ++ trail) ++ ['*', '/'] :=
      (hopening.append hclosing (by simp) (by simp) _).stripWhile_eq
    have hinner := hcore.stripWhile_padded hlead htrail
    rw [CommentStyle.enclose, commentBody, hstrip]
    simp only [List.cons_append, List.nil_append, List.reverse_append, List.reverse_cons,
      List.reverse_nil]
    simpa using hinner

/-- The keyword ends at a blank, at a flag or with the text. -/
theorem readKeyword?_append (k : Keyword) {rest : List Char}
    (h : atBoundary rest = true ∨ rest.head? = some '-') :
    readKeyword? (k.text.toList ++ rest) = some (k, rest) := by
  have hkept : (some rest).filter (fun rest => atBoundary rest || rest.head? = some '-') =
      some rest := by
    rw [Option.filter_some, if_pos (by simpa using h)]
  cases k with
  | require =>
    simp only [readKeyword?, after?_append, hkept]
    rfl
  | must =>
    have hother : after? Keyword.require.text.toList
      (Keyword.must.text.toList ++ rest) = none := rfl
    simp only [readKeyword?, hother, after?_append, hkept]
    rfl

/-! ### The flags -/

/-- What is known of the flags after one more of them. -/
def WrittenFlag.apply (flags : Flags) (f : WrittenFlag) : Flags where
  nonZero := flags.nonZero || f.isNonZero
  response :=
    { returns := flags.response.returns || !f.isNonZero
      logs := flags.response.logs || f.isLogs
      values := f.values?.getD flags.response.values }

section Apply

variable (flags : Flags)

private theorem WrittenFlag.apply_nonZero : nonZero.apply flags =
    { flags with nonZero := true } := by
  simp [apply, isNonZero, isLogs, values?]

private theorem WrittenFlag.apply_returns :
    returns.apply flags = { flags with response := { flags.response with returns := true } } := by
  simp [apply, isNonZero, isLogs, values?]

private theorem WrittenFlag.apply_logs : logs.apply flags =
    { flags with response := { flags.response with returns := true, logs := true } } := by
  simp [apply, isNonZero, isLogs, values?]

private theorem WrittenFlag.apply_values (items : List Item) : (values items).apply flags =
    { flags with response :=
        { flags.response with returns := true, values := items.map (String.ofList ·.text) } } := by
  simp [apply, isNonZero, isLogs, values?]

end Apply

private theorem Padded.stripWhile_chars {p : List Char → Prop} (t : Padded p) :
    stripWhile isBlank t.chars = t.text :=
  t.trimmed.stripWhile_padded t.before.blank t.after.blank

private theorem complete_item (t : Item) : Nesting.Complete t.chars :=
  ((Nesting.complete_blanks t.before.blank).append t.fits).append
    (Nesting.complete_blanks t.after.blank)

/-- The items of a list are read back. -/
theorem topLevelParts_items (items : List Item) :
    topLevelParts ([','].intercalate (items.map Padded.chars)) = items.map (·.text) := by
  refine topLevelParts_join ?_ ?_ ?_
  · intro part hpart
    obtain ⟨item, _, rfl⟩ := List.mem_map.mp hpart
    exact (complete_item item).isClosed
  · simp [Padded.stripWhile_chars]
  · intro part hpart
    obtain ⟨item, _, rfl⟩ := List.mem_map.mp hpart
    exact item.ne_nil

/-- The parenthesis of a list ends where the list does. -/
theorem splitParenthesis?_items (items : List Item) (rest : List Char) :
    splitParenthesis? ('(' :: [','].intercalate (items.map Padded.chars) ++ ')' :: rest) =
      some ([','].intercalate (items.map Padded.chars), rest) := by
  have hcomplete : ∀ part ∈ items.map Padded.chars, Nesting.Complete part := by
    intro part hpart
    obtain ⟨item, _, rfl⟩ := List.mem_map.mp hpart
    exact complete_item item
  obtain ⟨hclosed, hopened⟩ := Nesting.closed_join hcomplete
  exact Nesting.splitParenthesis?_enclosed hclosed hopened rest

/-- One flag is read, and what stands behind it is left. -/
theorem readFlags?_flag {keyword : Keyword} {flags : Flags} {n : Nat} {gap rest : List Char}
    (f : WrittenFlag) (hgap : ∀ c ∈ gap, isBlank c = true)
    (hkeyword : keyword = .must → f.isNonZero = false) (hrest : atBoundary rest = true) :
    readFlags? keyword (n + 1) flags (gap ++ f.chars ++ rest) =
      readFlags? keyword n (f.apply flags) rest := by
  have hdrop : (gap ++ f.chars ++ rest).dropWhile isBlank = f.chars ++ rest := by
    rw [List.append_assoc, List.dropWhile_append_of_pos hgap]
    cases f <;> rfl
  have hopen : rest.head? ≠ some '(' := by
    intro hhead
    obtain ⟨more, rfl⟩ := List.head?_eq_some_iff.mp hhead
    exact absurd (show isBlank '(' = true from hrest) (by decide)
  have hword : (some rest).filter atBoundary = some rest := by
    rw [Option.filter_some, if_pos hrest]
  rw [readFlags?, hdrop]
  cases f with
  | nonZero =>
    have hmust : keyword ≠ .must := fun h => absurd (hkeyword h) (by decide)
    rw [WrittenFlag.chars, afterFlag?, after?_append, hword]
    simp only [hmust, if_false, WrittenFlag.apply_nonZero]
  | logs =>
    have hnonZero : afterFlag? ['-', 'n', 'd'] (['-', 'l', 'o', 'g'] ++ rest) = none := rfl
    have hlogs : afterFlag? ['-', 'l', 'o', 'g'] (['-', 'l', 'o', 'g'] ++ rest) = some rest := by
      rw [afterFlag?, after?_append, hword]
    simp only [WrittenFlag.chars, hnonZero, hlogs, WrittenFlag.apply_logs]
  | returns =>
    have hnonZero : afterFlag? ['-', 'n', 'd'] (['-', 'r', 'e', 't'] ++ rest) = none := rfl
    have hlogs : afterFlag? ['-', 'l', 'o', 'g'] (['-', 'r', 'e', 't'] ++ rest) = none := rfl
    simp only [WrittenFlag.chars, hnonZero, hlogs, after?_append, hopen, if_false, hrest, if_true,
      WrittenFlag.apply_returns]
  | values items =>
    have hnonZero : ∀ more, afterFlag? ['-', 'n', 'd'] (['-', 'r', 'e', 't'] ++ more) = none :=
      fun _ => rfl
    have hlogs : ∀ more, afterFlag? ['-', 'l', 'o', 'g'] (['-', 'r', 'e', 't'] ++ more) = none :=
      fun _ => rfl
    have hchars : (WrittenFlag.values items).chars ++ rest = ['-', 'r', 'e', 't'] ++
        ('(' :: [','].intercalate (items.map Padded.chars) ++ ')' :: rest) := by
      simp [WrittenFlag.chars]
    have hhead : ('(' :: [','].intercalate (items.map Padded.chars) ++ ')' :: rest).head? =
        some '(' := rfl
    rw [hchars]
    simp only [hnonZero, hlogs, after?_append, hhead, if_true, splitParenthesis?_items, hopen,
      if_false, topLevelParts_items, List.map_map, WrittenFlag.apply_values]
    rfl

/-- What the flags of a text say all together. -/
def applyAll (flags : Flags) (fs : List (Blanks × WrittenFlag)) : Flags :=
  fs.foldl (fun flags f => f.2.apply flags) flags

/-- All flags are read, and what stands behind them is left but for blanks. -/
theorem readFlags?_flags {keyword : Keyword} {flags : Flags} {n : Nat} {rest : List Char}
    (fs : List (Blanks × WrittenFlag)) (hn : fs.length ≤ n)
    (hspaced : ∀ f ∈ fs.tail, f.1.chars ≠ [])
    (hkeyword : keyword = .must → ∀ f ∈ fs, f.2.isNonZero = false)
    (hboundary : atBoundary rest = true) (hdash : (rest.dropWhile isBlank).head? ≠ some '-') :
    ∃ left, readFlags? keyword n flags (flagsChars fs ++ rest) = some (applyAll flags fs, left) ∧
      stripWhile isBlank left = stripWhile isBlank rest := by
  -- Flags are read one by one; the blanks before what follows them go with the last attempt.
  induction fs generalizing n flags with
  | nil =>
    cases n with
    | zero => exact ⟨rest, rfl, rfl⟩
    | succ n =>
      have hnone : ∀ flag, after? ('-' :: flag) (rest.dropWhile isBlank) = none := by
        intro flag
        cases hd : rest.dropWhile isBlank with
        | nil => rfl
        | cons c cs =>
          rw [hd, List.head?_cons] at hdash
          exact if_neg fun h => hdash (by rw [h])
      refine ⟨rest.dropWhile isBlank, ?_, ?_⟩
      · change readFlags? keyword (n + 1) flags rest = _
        simp only [readFlags?, afterFlag?, hnone, Option.filter_none]
        rfl
      · rw [stripWhile, List.dropWhile_idempotent, ← stripWhile]
  | cons f fs ih =>
    obtain ⟨n, rfl⟩ : ∃ m, n = m + 1 := ⟨n - 1, by simp at hn; omega⟩
    have hfollowed : atBoundary (flagsChars fs ++ rest) = true := by
      cases fs with
      | nil => exact hboundary
      | cons g fs =>
        obtain ⟨c, cs, hc⟩ := List.exists_cons_of_ne_nil (hspaced g (by simp))
        have hblank := g.1.blank c (by simp [hc])
        simp [flagsChars, hc, atBoundary, hblank]
    obtain ⟨left, hread, hleft⟩ := @ih (f.2.apply flags) n (by simpa using hn)
      (fun g hg => hspaced g (List.mem_of_mem_tail hg))
      (fun h g hg => hkeyword h g (List.mem_cons_of_mem _ hg))
    refine ⟨left, ?_, hleft⟩
    have hstep := @readFlags?_flag keyword flags n _ _ f.2 f.1.blank
      (fun h => hkeyword h f (by simp)) hfollowed
    rw [← List.append_assoc] at hstep
    rw [flagsChars, List.flatMap_cons, ← flagsChars, hstep, hread]
    rfl

/-- Each field tells which flags occur. -/
theorem applyAll_eq (flags : Flags) (fs : List (Blanks × WrittenFlag)) :
    applyAll flags fs =
      { nonZero := flags.nonZero || fs.any (·.2.isNonZero)
        response :=
          { returns := flags.response.returns || fs.any (!·.2.isNonZero)
            logs := flags.response.logs || fs.any (·.2.isLogs)
            values := (fs.filterMap (·.2.values?)).getLast?.getD flags.response.values } } := by
  induction fs generalizing flags with
  | nil => simp [applyAll]
  | cons f fs ih =>
    have hstep : applyAll flags (f :: fs) = applyAll (f.2.apply flags) fs := rfl
    have hvalues : ((f :: fs).filterMap (·.2.values?)).getLast?.getD flags.response.values =
        (fs.filterMap (·.2.values?)).getLast?.getD (f.2.values?.getD flags.response.values) := by
      cases hf : f.2.values? with
      | none => simp only [List.filterMap_cons, hf, Option.getD_none]
      | some values =>
        simp only [List.filterMap_cons, hf, List.getLast?_cons, Option.getD_some]
    rw [hstep, ih, hvalues]
    simp only [WrittenFlag.apply, List.any_cons, Bool.or_assoc]

private theorem WrittenFlag.trimmed_chars (f : WrittenFlag) : Trimmed f.chars := by
  have hdash : Trimmed ['-'] := .of_ends (by decide)
  cases f with
  | nonZero => exact .of_ends (by decide)
  | returns => exact .of_ends (by decide)
  | logs => exact .of_ends (by decide)
  | values items =>
    have hclose : Trimmed [')'] := .of_ends (by decide)
    have h := hdash.append hclose (by simp) (by simp)
      (['r', 'e', 't', '('] ++ [','].intercalate (items.map Padded.chars))
    simpa [chars] using h

private theorem WrittenFlag.chars_ne_nil (f : WrittenFlag) : f.chars ≠ [] := by
  cases f <;> simp [chars]

/-- Each flag takes at least one character. -/
theorem length_flagsChars (fs : List (Blanks × WrittenFlag)) :
    fs.length ≤ (flagsChars fs).length := by
  induction fs with
  | nil => exact Nat.zero_le _
  | cons f fs ih =>
    have hpos := List.length_pos_of_ne_nil f.2.chars_ne_nil
    rw [flagsChars, List.flatMap_cons, ← flagsChars, List.length_append, List.length_append,
      List.length_cons]
    omega

/-! ### The demand -/

private theorem Padded.splitVars_intercalate {vars : List (Padded (',' ∉ ·))} (hne : vars ≠ []) :
    splitVars ([','].intercalate (vars.map Padded.chars)) = vars.map (·.text) := by
  have hcomma : ∀ part ∈ vars.map Padded.chars, ',' ∉ part := by
    intro part hpart hmem
    obtain ⟨v, _, rfl⟩ := List.mem_map.mp hpart
    rw [Padded.chars, List.mem_append, List.mem_append] at hmem
    have hblank : isBlank ',' ≠ true := by decide
    rcases hmem with (hmem | hmem) | hmem
    · exact hblank (v.before.blank _ hmem)
    · exact v.fits hmem
    · exact hblank (v.after.blank _ hmem)
  have htexts : (vars.map Padded.chars).map (stripWhile isBlank) = vars.map (·.text) := by
    simp [Padded.stripWhile_chars]
  rw [splitVars, Text.splitChars_eq_splitOn,
    List.splitOn_intercalate ',' hcomma (by simpa using hne), htexts, List.filter_eq_self]
  intro part hpart
  obtain ⟨v, _, rfl⟩ := List.mem_map.mp hpart
  simpa using v.ne_nil

/-- Without a literal at its end the whole payload is the condition. -/
theorem splitMessage_of_not_endsInLiteral {text : List Char} (h : ¬ EndsInLiteral text) :
    splitMessage text = (text, none) := by
  rw [splitMessage]
  cases hsplit : splitLastComma? text with
  | none => rfl
  | some parts =>
    obtain ⟨before, last⟩ := parts
    obtain ⟨htext, hcomma⟩ := Nesting.of_splitLastComma? hsplit
    cases hread : Text.Quoted.unquote? (stripWhile isBlank last) with
    | none => simp only [hread]
    | some message =>
      exact absurd ⟨before, last, htext, hcomma, Text.Quoted.exists_body_of_unquote? hread⟩ h

/-- A message is read back, and what stands before its comma is the condition. -/
theorem splitMessage_explained {condition : Condition}
    (hclosed : Nesting.scan {} condition.text = {}) (message : Message) :
    splitMessage (condition.text ++ message.beforeComma.chars ++
        ',' :: (message.afterComma.chars ++ (quote message.text).toList)) =
      (condition.text, some message.text.toList) := by
  have hscan : Nesting.scan {} (condition.text ++ message.beforeComma.chars) = {} := by
    rw [Nesting.scan_append, hclosed, Nesting.scan_blanks rfl message.beforeComma.blank]
  have hblanks := Nesting.complete_blanks message.afterComma.blank
  have hliteral : Nesting.Unseparated {} (quote message.text).toList := by
    rw [quote, String.toList_ofList]
    exact Nesting.unseparated_literal (Text.Quoted.isBody_encode _)
  have hlast : Nesting.Unseparated {} (message.afterComma.chars ++ (quote message.text).toList) :=
    hblanks.unseparated.append (by rw [hblanks.closed]; exact hliteral)
  have hquote : Trimmed (quote message.text).toList := by
    have hmark : Trimmed ['"'] := .of_ends (by decide)
    simpa [quote] using
      hmark.append hmark (by simp) (by simp) (Text.Quoted.encode message.text.toList)
  have hmessage : stripWhile isBlank (message.afterComma.chars ++ (quote message.text).toList) =
      (quote message.text).toList := by
    simpa using hquote.stripWhile_padded message.afterComma.blank (b := []) (by simp)
  have hcondition : stripWhile isBlank (condition.text ++ message.beforeComma.chars) =
      condition.text := by
    simpa using condition.trimmed.stripWhile_padded (a := []) (by simp) message.beforeComma.blank
  rw [splitMessage, Nesting.splitLastComma?_append (by rw [hscan]; rfl)
    (by rw [hscan]; exact hlast)]
  simp only [hmessage, Text.Quoted.unquote?_quote message.readable, hcondition]

/-- Joined texts begin with the first of them. -/
theorem exists_intercalate_head {p : List Char → Prop} {ts : List (Padded p)} {t : Padded p}
    (h : ts.head? = some t) :
    ∃ rest, [','].intercalate (ts.map Padded.chars) = t.chars ++ rest := by
  obtain ⟨more, rfl⟩ := List.head?_eq_some_iff.mp h
  cases more with
  | nil => exact ⟨[], by simp⟩
  | cons u more =>
    exact ⟨_, by rw [List.map_cons, List.map_cons, List.intercalate_cons_cons, List.append_assoc]⟩

/-- Joined texts end with the last of them. -/
theorem exists_intercalate_getLast {p : List Char → Prop} {ts : List (Padded p)} {t : Padded p}
    (h : ts.getLast? = some t) :
    ∃ front, [','].intercalate (ts.map Padded.chars) = front ++ t.chars := by
  induction ts with
  | nil => exact absurd h (by simp)
  | cons u ts ih =>
    cases ts with
    | nil =>
      obtain rfl : u = t := by simpa using h
      exact ⟨[], by simp⟩
    | cons v ts =>
      obtain ⟨front, hfront⟩ := ih (by simpa [List.getLast?_cons_cons] using h)
      refine ⟨u.chars ++ [','] ++ front, ?_⟩
      rw [List.map_cons, List.map_cons, List.intercalate_cons_cons, ← List.map_cons, hfront,
        ← List.append_assoc]

namespace Demand

/-- What stands behind the flags of a requirement is no flag and has no blanks at its ends. -/
theorem payload (d : Demand) (h : d.keyword = .require) :
    d.chars ≠ [] ∧ Trimmed d.chars ∧ d.chars.head? ≠ some '-' := by
  cases d with
  | nonZero vars =>
    obtain ⟨v, hv⟩ := Option.ne_none_iff_exists'.mp (mt List.head?_eq_none_iff.mp vars.ne_nil)
    obtain ⟨u, hu⟩ := Option.ne_none_iff_exists'.mp (mt List.getLast?_eq_none_iff.mp vars.ne_nil)
    obtain ⟨rest, hrest⟩ := exists_intercalate_head hv
    obtain ⟨front, hfront⟩ := exists_intercalate_getLast hu
    have hhead : (nonZero vars).chars.head? = v.text.head? := by
      rw [chars, hrest, Padded.chars, (vars.first v hv).1, List.nil_append, List.append_assoc,
        List.head?_append_of_ne_nil _ v.ne_nil]
    have hlast : (nonZero vars).chars.getLast? = u.text.getLast? := by
      rw [chars, hfront, Padded.chars, vars.last u hu, List.append_nil, ← List.append_assoc,
        List.getLast?_append_of_ne_nil _ u.ne_nil]
    refine ⟨fun hnil => ?_, ⟨?_, ?_⟩, ?_⟩
    · rw [hnil] at hhead
      exact v.ne_nil (List.head?_eq_none_iff.mp hhead.symm)
    · rw [hhead]
      exact v.trimmed.first
    · rw [hlast]
      exact u.trimmed.last
    · rw [hhead]
      exact (vars.first v hv).2
  | holds condition plain => exact ⟨condition.ne_nil, condition.trimmed, condition.undashed⟩
  | explained condition closed message =>
    have hmark : Trimmed ['"'] := .of_ends (by decide)
    refine ⟨by simp [chars], ?_, ?_⟩
    · have h := condition.trimmed.append hmark condition.ne_nil (by simp)
        (message.beforeComma.chars ++ ',' :: (message.afterComma.chars ++
          '"' :: Text.Quoted.encode message.text.toList))
      simpa [chars, quote] using h
    · rw [chars, List.append_assoc, List.head?_append_of_ne_nil _ condition.ne_nil]
      exact condition.undashed
  | noError => exact absurd h (by decide)

end Demand

/-- A comment is a directive once its keyword and flags are read and what is left is the payload of
a demand. -/
theorem parseChars?_of_reads {comment rest left : List Char} {flags : Flags} (d : Demand)
    (hkeyword : readKeyword? (commentBody comment) = some (d.keyword, rest))
    (hflags : readFlags? d.keyword rest.length {} rest = some (flags, left))
    (hnonZero : flags.nonZero = d.isNonZero) (hpayload : stripWhile isBlank left = d.chars) :
    parseChars? comment = some (d.directive flags.response) := by
  simp only [parseChars?, hkeyword, Option.bind_eq_bind, Option.bind_some, hflags, hpayload]
  cases d with
  | nonZero vars =>
    have hsplit := Padded.splitVars_intercalate vars.ne_nil
    simp [Demand.keyword, hnonZero, Demand.isNonZero, Demand.chars, hsplit, vars.ne_nil,
      Demand.directive]
  | holds condition plain =>
    have hsplit := splitMessage_of_not_endsInLiteral plain
    simp [Demand.keyword, hnonZero, Demand.isNonZero, Demand.chars, hsplit, condition.ne_nil,
      Demand.directive]
  | explained condition closed message =>
    have hsplit := splitMessage_explained closed message
    rw [Demand.chars, hsplit]
    simp [Demand.keyword, hnonZero, Demand.isNonZero, condition.ne_nil, Demand.directive]
  | noError => rfl

/-! ### The whole comment -/

namespace Written

/-- What stands behind the flags, without the blanks that belong to nothing. -/
def rest (w : Written) : List Char :=
  match w.demand.keyword with
  | .require => w.gap.chars ++ w.demand.chars
  | .must => []

/-- The keyword, the flags and the payload, from the first character to the last. -/
def core (w : Written) : List Char :=
  w.demand.keyword.text.toList ++ (flagsChars w.flags ++ w.rest)

private theorem trimmed_keyword (k : Keyword) : Trimmed k.text.toList := by
  cases k <;> exact .of_ends (by decide)

private theorem keyword_ne_nil (k : Keyword) : k.text.toList ≠ [] := by
  cases k <;> decide

private theorem trimmed_core (w : Written) : Trimmed w.core := by
  have hkeyword := trimmed_keyword w.demand.keyword
  cases hk : w.demand.keyword with
  | require =>
    obtain ⟨hne, htrimmed, _⟩ := w.demand.payload hk
    have h := hkeyword.append htrimmed (keyword_ne_nil _) hne (flagsChars w.flags ++ w.gap.chars)
    simpa [core, rest, hk] using h
  | must =>
    rcases List.eq_nil_or_concat w.flags with hflags | ⟨fs, f, hflags⟩
    · simpa [core, rest, hk, hflags, flagsChars] using hkeyword
    · have h := hkeyword.append f.2.trimmed_chars (keyword_ne_nil _) f.2.chars_ne_nil
        (flagsChars fs ++ f.1.chars)
      simpa [core, rest, hk, hflags, flagsChars] using h

/-- The core stands between blanks in the comment. -/
theorem exists_text_eq (w : Written) :
    ∃ trail : List Char, (∀ c ∈ trail, isBlank c = true) ∧
      w.text.toList = w.style.enclose (w.lead.chars ++ w.core ++ trail) := by
  cases hd : w.demand with
  | noError =>
    refine ⟨w.gap.chars ++ w.trail.chars, ?_, by simp [text, core, rest, hd, Demand.keyword,
      Demand.chars]⟩
    intro c hc
    rcases List.mem_append.mp hc with hc | hc
    · exact w.gap.blank c hc
    · exact w.trail.blank c hc
  | nonZero _ | holds _ _ | explained _ _ _ =>
    exact ⟨w.trail.chars, w.trail.blank, by simp [text, core, rest, hd, Demand.keyword]⟩

/-- Behind the flags stand a blank and the payload, or nothing. -/
theorem rest_spec (w : Written) : atBoundary w.rest = true ∧
    (w.rest.dropWhile isBlank).head? ≠ some '-' ∧ stripWhile isBlank w.rest = w.demand.chars := by
  cases hk : w.demand.keyword with
  | require =>
    obtain ⟨_, htrimmed, hdash⟩ := w.demand.payload hk
    obtain ⟨c, gap, hgap⟩ := List.exists_cons_of_ne_nil (w.gap_ne_nil hk)
    have hrest : w.rest = w.gap.chars ++ w.demand.chars := by rw [rest, hk]
    refine ⟨?_, ?_, ?_⟩
    · rw [hrest, hgap]
      exact w.gap.blank c (by simp [hgap])
    · rwa [hrest, List.dropWhile_append_of_pos w.gap.blank, htrimmed.dropWhile_eq]
    · simpa [hrest] using htrimmed.stripWhile_padded w.gap.blank (b := []) (by simp)
  | must =>
    have hdemand : w.demand = .noError := by
      cases hd : w.demand with
      | noError => rfl
      | _ => simp [hd, Demand.keyword] at hk
    have hrest : w.rest = [] := by rw [rest, hk]
    rw [hrest, hdemand]
    exact ⟨rfl, by simp, rfl⟩

/-- The keyword ends where the flags begin or at a blank. -/
theorem boundary_flags (w : Written) : atBoundary (flagsChars w.flags ++ w.rest) = true ∨
    (flagsChars w.flags ++ w.rest).head? = some '-' := by
  cases hf : w.flags with
  | nil => exact .inl w.rest_spec.1
  | cons f fs =>
    cases hgap : f.1.chars with
    | nil =>
      right
      obtain ⟨gap, flag⟩ := f
      cases flag <;> simp_all [flagsChars, WrittenFlag.chars]
    | cons c gap =>
      left
      have hblank := f.1.blank c (by simp [hgap])
      simp [flagsChars, hgap, atBoundary, hblank]

/-- Reading a written directive yields the directive it spells. -/
theorem parse?_text (w : Written) : parse? w.text = some w.directive := by
  obtain ⟨trail, htrail, htext⟩ := w.exists_text_eq
  obtain ⟨hboundary, hdash, hpayload⟩ := w.rest_spec
  have hbody : commentBody w.text.toList = w.core := by
    rw [htext]
    exact commentBody_enclose w.style w.lead.blank w.trimmed_core
      (List.append_ne_nil_of_left_ne_nil (keyword_ne_nil _) _) htrail
  have hkeyword : readKeyword? (commentBody w.text.toList) =
      some (w.demand.keyword, flagsChars w.flags ++ w.rest) := by
    rw [hbody]
    exact readKeyword?_append w.demand.keyword w.boundary_flags
  have hmust : w.demand.keyword = .must → ∀ f ∈ w.flags, f.2.isNonZero = false := by
    intro hk f hf
    have hnone : w.flags.any (·.2.isNonZero) = false := by
      rw [w.nonZero_iff]
      cases hd : w.demand <;> simp_all [Demand.keyword, Demand.isNonZero]
    simpa using List.any_eq_false.mp hnone f hf
  obtain ⟨left, hflags, hleft⟩ := @readFlags?_flags _ {}
    (flagsChars w.flags ++ w.rest).length _ w.flags
    (by rw [List.length_append]; exact Nat.le_add_right_of_le (length_flagsChars _))
    w.spaced hmust hboundary hdash
  have hresponse : applyAll {} w.flags = ⟨w.demand.isNonZero, w.response⟩ := by
    rw [applyAll_eq, ← w.nonZero_iff]
    simp [response]
  rw [hresponse] at hflags
  exact parseChars?_of_reads w.demand hkeyword hflags rfl (hleft.trans hpayload)

/-- One blank. -/
def oneBlank : Blanks := ⟨[' '], List.all_eq_true.mp rfl⟩

/-- No blanks. -/
def noBlanks : Blanks := ⟨[], List.all_eq_true.mp rfl⟩

/-- A requirement with a repeated flag, commas in nested brackets and literals, and a message. -/
def loggedRequirement : Written where
  style := .block
  lead := oneBlank
  flags :=
    [(noBlanks, .values []), (oneBlank, .logs),
      (⟨['\n', '\t'], List.all_eq_true.mp rfl⟩,
        .values
          [⟨noBlanks, "f(a, \"),\")".toList, noBlanks, by decide, .of_ends (by decide), by decide⟩,
            ⟨oneBlank, "nil".toList, oneBlank, by decide, .of_ends (by decide), by decide⟩])]
  gap := oneBlank
  demand :=
    .explained ⟨"g(x, 1) > 0".toList, by decide, .of_ends (by decide), by decide⟩ (by decide)
      ⟨noBlanks, oneBlank, "x, \"y\"\tz", List.all_eq_true.mp (by decide)⟩
  trail := oneBlank
  spaced := by decide
  gap_ne_nil := by decide
  nonZero_iff := by decide

/-- A requirement over two lines that returns two values and logs its message. -/
theorem parse?_loggedRequirement :
    loggedRequirement.text =
        "/* @require-ret() -log\n\t-ret(f(a, \"),\"), nil ) g(x, 1) > 0, \"x, \\\"y\\\"\\tz\" */" ∧
      parse? loggedRequirement.text =
        some (.holds ⟨true, true, ["f(a, \"),\")", "nil"]⟩ "g(x, 1) > 0" (some "x, \"y\"\tz")) :=
  ⟨by decide, parse?_text loggedRequirement⟩

end Written

end GoContracts.Directive

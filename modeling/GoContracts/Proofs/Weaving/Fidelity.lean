import GoContracts.Proofs.LineMarker.Fidelity
import GoContracts.Proofs.Weaving.Injection
import GoContracts.Proofs.Weaving.Splicing
import GoContracts.Weaving.Edit

/-!
# Line numbers of woven files

Each character of an edited text comes from a line of the source or was inserted; what replaces a
text in its place comes from the line of that text. A line of the edited text carries a line of the
source if it holds all that is left of that line in its place and nothing else.

A woven file is read with the numbers that its markers give. They are those of the lines that the
file was woven from exactly if the guards and the lines around them cannot be taken for others.
-/

namespace GoContracts.Edit

/-- A character of an edited text with the number, counted from zero, of the line of the source that
it comes from. -/
abbrev Traced := Char × Option Nat

/-- Characters that come from a line of the source and those after it. -/
def traceLines : Nat → List Char → List Traced
  | _, [] => []
  | row, c :: cs => (c, some row) :: traceLines (if c = '\n' then row + 1 else row) cs

/-- The characters of a replacement. -/
def traceText (source : String) (e : Edit) : List Traced :=
  if e.inPlace then traceLines (Text.rowAt source e.start) e.text.toList
  else e.text.toList.map (·, none)

/-- The characters of the edited text from position `cursor` on, and a newline at the end. -/
def traceFrom (source : String) : Nat → List Edit → List Traced
  | cursor, [] =>
    traceLines (Text.rowAt source cursor)
      ((Text.slice source cursor (Text.size source)).toList ++ ['\n'])
  | cursor, e :: es =>
    if e.start < cursor || Text.size source < e.stop then traceFrom source cursor es
    else
      traceLines (Text.rowAt source cursor) (Text.slice source cursor e.start).toList ++
        traceText source e ++ traceFrom source e.stop es

/-- The characters of the edited text, and a newline at the end. -/
def trace (source : String) (edits : List Edit) : List Traced :=
  traceFrom source 0 (edits.mergeSort ordered)

/-- A line of traced characters. -/
structure TracedLine where
  content : List Traced
  /-- The line of the source that the newline at its end comes from. -/
  newline? : Option Nat
  deriving DecidableEq, Repr

/-- The lines of traced characters. -/
def tracedLines : List Traced → List TracedLine
  | [] => []
  | (c, row?) :: cs =>
    if c = '\n' then ⟨[], row?⟩ :: tracedLines cs
    else match tracedLines cs with
      | [] => [⟨[(c, row?)], none⟩]
      | line :: lines => { line with content := (c, row?) :: line.content } :: lines

/-- The characters of a traced line. -/
def TracedLine.text (line : TracedLine) : List Char := line.content.map (·.1)

/-- The line of the source that a line carries: all its characters come from there, and they are
what the edits in place leave of it. -/
def TracedLine.origin? (reference : List String) (line : TracedLine) : Option Nat := do
  let row ← (line.content.head?.map (·.2)).getD line.newline?
  if line.content.all (·.2 = some row) && reference[row]? = some (String.ofList line.text) then
    return row
  else none

/-- The line of the source that line `g` of the edited text carries, if that was not stripped. -/
def carried? (source : String) (edits : List Edit) (stripped : List Nat) (g : Nat) : Option Nat :=
  let reference := Text.lines (applyInPlace source edits)
  ((tracedLines (trace source edits))[g]?.bind (TracedLine.origin? reference)).filter
    (!stripped.contains ·)

/-! ### Traced text is the edited text -/

private theorem map_traceLines (row : Nat) (cs : List Char) : (traceLines row cs).map
    (·.1) = cs := by
  induction cs generalizing row with
  | nil => rfl
  | cons c cs ih => rw [traceLines, List.map_cons, ih]

private theorem map_traceText (source : String) (e : Edit) :
    (traceText source e).map (·.1) = e.text.toList := by
  unfold traceText
  split
  · exact map_traceLines _ _
  · rw [List.map_map]
    exact List.map_id _

private theorem map_traceFrom (source : String) (cursor : Nat) (es : List Edit) :
    (traceFrom source cursor es).map (·.1) = (splice source cursor es).toList ++ ['\n'] := by
  induction es generalizing cursor with
  | nil => rw [traceFrom, map_traceLines, splice]
  | cons e es ih =>
    rw [traceFrom, splice]
    split
    · exact ih cursor
    · rw [List.map_append, List.map_append, map_traceLines, map_traceText, ih]
      simp

private theorem map_tracedLines {xs : List Traced} {cs : List Char}
    (h : xs.map (·.1) = cs ++ ['\n']) :
    (tracedLines xs).map TracedLine.text = Text.splitChars '\n' cs := by
  induction xs generalizing cs with
  | nil => simp at h
  | cons x xs ih =>
    obtain ⟨c, row?⟩ := x
    cases cs with
    | nil =>
      obtain ⟨rfl, hnil⟩ := List.cons.inj h
      obtain rfl := List.map_eq_nil_iff.mp hnil
      rfl
    | cons d ds =>
      obtain ⟨rfl, hrest⟩ := List.cons.inj h
      have hlines := ih hrest
      rw [tracedLines, Text.splitChars]
      split
      · rw [List.map_cons, hlines]
        rfl
      · rw [← hlines]
        cases hxs : tracedLines xs with
        | nil =>
          rw [hxs] at hlines
          exact absurd hlines.symm (Text.splitChars_ne_nil _ _)
        | cons line lines => rfl

/-- The traced lines are the lines of the edited text. -/
theorem map_tracedLines_trace (source : String) (edits : List Edit) :
    (tracedLines (trace source edits)).map (fun line => String.ofList line.text) =
      Text.lines (applyAll source edits) := by
  have h := map_tracedLines (map_traceFrom source 0 (edits.mergeSort ordered))
  rw [Text.lines, Text.splitAt_eq, applyAll, ← h, List.map_map]
  rfl

/-- A line reads like the line of the source that it carries. -/
theorem reads_of_carried {source line : String} {edits : List Edit} {stripped : List Nat}
    {g r : Nat} (hline : (Text.lines (applyAll source edits))[g]? = some line)
    (h : carried? source edits stripped g = some r) :
    LineMarker.reads (Text.lines (applyInPlace source edits)) line r = true := by
  obtain ⟨horigin, _⟩ := Option.filter_eq_some_iff.mp h
  obtain ⟨traced, htraced, horigin⟩ := Option.bind_eq_some_iff.mp horigin
  rw [← map_tracedLines_trace, List.getElem?_map, htraced, Option.map_some,
    Option.some.injEq] at hline
  obtain ⟨row, _, hrow⟩ := Option.bind_eq_some_iff.mp horigin
  split at hrow
  · next hall =>
    obtain rfl := Option.some.inj hrow
    simp only [Bool.and_eq_true, decide_eq_true_eq] at hall
    rw [LineMarker.reads, hall.2, Option.any_some, hline, LineMarker.corresponds]
    simp
  · simp at hrow

end GoContracts.Edit

/-! ### Markers of a woven file -/

namespace GoContracts.Injection

open LineMarker Reporting

variable {p : Package} {file : SourceFile} {injection : Injection} {before after : List Diagnostic}

/-- The lines of a shadow are those of the generated text with markers, and counting from the
markers gives every line that carries a line of the file its number, with no other line taken for
one, exactly if the texts of the lines are unambiguous. -/
theorem shadow_faithful_iff (h : Gives (file.inject? p) before (some injection) after) :
    ∃ demands, injection = ofDemands file (file.namings p) demands ∧
      let lines := Text.lines injection.generated
      let carried? := Edit.carried? file.text (allEdits file (file.namings p) demands)
        injection.stripped
      ('\n' ∉ file.path.toList → Text.lines (shadow file injection) =
        (entries (matchedIndex? injection.reference injection.stripped lines) lines).map
          (Entry.render file.path)) ∧
      (Faithful injection.reference injection.stripped lines carried? ↔
        Unambiguous injection.reference injection.stripped lines carried?) := by
  obtain ⟨_, demands, _, rfl⟩ := gives_inject?.mp h
  refine ⟨demands, rfl, fun hpath => lines_insertAll hpath _ _ _, ?_⟩
  exact faithful_iff_unambiguous fun g r line hline hr => Edit.reads_of_carried hline hr

/-- A function that ends behind a checked assignment. -/
def closingText : String :=
  "package p\n\nfunc g() error \x7b return nil \x7d\n\n" ++
    "func f() \x7b\n\t// @must\n\terr := g()\n\x7d\n"

/-- The file of `closingText`. -/
def closingBrace : SourceFile := .parse "/f.go" closingText

/-- A guard whose brace is taken for that of the function. -/
theorem shadow_faithful_iff_closingBrace :
    ∃ injection after, Gives (closingBrace.inject? (alone closingBrace)) [] (some injection) after ∧
      ∃ demands, injection = ofDemands closingBrace (closingBrace.namings (alone closingBrace))
          demands ∧
        let lines := Text.lines injection.generated
        let carried? := Edit.carried? closingBrace.text
          (allEdits closingBrace (closingBrace.namings (alone closingBrace)) demands)
          injection.stripped
        ('\n' ∉ closingBrace.path.toList → Text.lines (shadow closingBrace injection) =
          (entries (matchedIndex? injection.reference injection.stripped lines) lines).map
            (Entry.render closingBrace.path)) ∧
        (Faithful injection.reference injection.stripped lines carried? ↔
          Unambiguous injection.reference injection.stripped lines carried?) := by
  have hvalue : (value? (closingBrace.inject? (alone closingBrace)) []).join.isSome = true := by
    decide +kernel
  obtain ⟨injection, hinjection⟩ := Option.isSome_iff_exists.mp hvalue
  obtain ⟨after, hgives⟩ := gives_of_value? (Option.join_eq_some_iff.mp hinjection)
  exact ⟨injection, after, hgives, shadow_faithful_iff hgives⟩

/-- The demands of `closingBrace`. -/
def closingDemands : List Demand := (value? (closingBrace.demands (alone closingBrace)) []).getD []

/-- The brace of the guard is taken for the brace behind it, which is then counted on. -/
theorem closing_brace_misnumbered :
    ¬∀ p path text file before after injection demands, file = SourceFile.parse path text →
      file.hasErrors = false → Gives (file.inject? p) before (some injection) after →
      injection = ofDemands file (file.namings p) demands →
      ∀ g r, Edit.carried? file.text (allEdits file (file.namings p) demands) injection.stripped g =
          some r →
        (numbered 1 (entries (matchedIndex? injection.reference injection.stripped
          (Text.lines injection.generated)) (Text.lines injection.generated)))[g]? =
            some (r + 1) := by
  intro h
  have hfacts : closingBrace.hasErrors = false ∧ closingBrace.anchors.isEmpty = false ∧
      (value? (closingBrace.demands (alone closingBrace)) []).isSome = true ∧
      allEdits closingBrace (closingBrace.namings (alone closingBrace)) closingDemands =
        [.remove 53 63, .insert 74 ("\n\tif err != nil \x7b\n\t\tpanic(\"inco // must violation " ++
          "at /f.go:6: \" + err.Error())\n\t\x7d")] ∧
      closingBrace.anchors.flatMap (strippedLines closingBrace) = [5] := by
    decide +kernel
  obtain ⟨hvalid, hanchors, hvalue, hedits, hstripped⟩ := hfacts
  have htext : closingBrace.text = closingText := SourceFile.text_parse _ _
  obtain ⟨demands, hdemands⟩ := Option.isSome_iff_exists.mp hvalue
  obtain rfl : closingDemands = demands := by rw [closingDemands, hdemands, Option.getD_some]
  obtain ⟨after, hgives⟩ := gives_of_value? hdemands
  have hinject := gives_inject?.mpr ⟨by simpa using hanchors, closingDemands, hgives, rfl⟩
  have hnumber := h _ _ _ closingBrace _ _ _ closingDemands rfl hvalid hinject rfl 9 7
  simp only [ofDemands, hedits, hstripped, htext, Edit.carried?, Edit.trace, Edit.applyInPlace,
    Edit.applyAll, Edit.mergeSort_eq_insertionSort] at hnumber
  exact absurd (hnumber (by decide +kernel)) (by decide +kernel)

end GoContracts.Injection

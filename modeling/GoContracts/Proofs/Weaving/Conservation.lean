import GoContracts.Proofs.Weaving.Neatness

/-!
# What weaving leaves as it is

The tokens of a generated text are those of its file, without the comments of the directives that
are removed and with guards, imports, names and operators in their places, if every guard can be
read on its own and nothing is glued where a comment is removed. A directive is left only if another
one on its line crowds it.
-/

namespace GoContracts

open Syntax (Token Tree Kind Lexeme Seated)
open Syntax.Token (sign signs readAll readFrom Whole Unclosed origin within)
open Text (CharAt Boundary Between isBlank)
open Edit (Legible Neat OnSeams Plain Unglued around)

namespace Injection

variable {p : Package} {file : SourceFile} {demands : List Demand} {reports : List Diagnostic}
  {e : Edit} {anchor : Anchor}

/-! ### All edits -/

/-- A text that can be read on its own and holds no directive. -/
structure Inert (t : String) : Prop extends Legible t where
  silent : ∀ u ∈ readFrom 0 t.toList, u.lexeme = .comment → Directive.parse? u.text = none

instance (t : String) : Decidable (Inert t) :=
  decidable_of_iff (Legible t ∧ ∀ u ∈ readFrom 0 t.toList, u.lexeme = .comment →
      Directive.parse? u.text = none)
    ⟨fun ⟨hlegible, hsilent⟩ => ⟨hlegible, hsilent⟩, fun ⟨hlegible, hsilent⟩ => ⟨hlegible, hsilent⟩⟩

/-- Whether guards and imports can be put in without touching other tokens: the text has no block
comment without an end, guards and imports can be read on their own and hold no directive, no token
is open where imports go, and nothing is glued where a comment is removed. -/
structure Smooth (p : Package) (file : SourceFile) (demands : List Demand) : Prop where
  closed : ¬Unclosed (readAll file.text)
  guards : ∀ insertion ∈ insertions demands, Inert (insertion.edit file).text
  imports : ∀ e ∈ file.importEdit? (imported demands), Inert e.text ∧ OnSeams file.text e
  unglued : Unglued file.text [] 0 (applied file (file.namings p) demands)

/-- Whether a token is not the comment of a directive that one of the edits removes. -/
def stays (file : SourceFile) (es : List Edit) (t : Token) : Bool :=
  !(t.lexeme = .comment &&
    file.anchors.any fun b => b.start = t.start && es.contains (strip file b))

/-- What an edit takes out beside the comments of directives. -/
def takenOut (file : SourceFile) (es : List Edit) (e : Edit) : List (Lexeme × String) :=
  ((within (readAll file.text) e.start e.stop).filter (stays file es)).map sign

/-- What an edit takes out beside the comments of directives, `old`, and what it puts in, `new`. -/
inductive Exchanges (p : Package) (file : SourceFile) (demands : List Demand) (e : Edit)
    (old new : List (Lexeme × String)) : Prop
  /-- A comment leaves the newlines in it; a newline goes with it only if it has its lines to
  itself. -/
  | removal {b : Anchor} (hb : b ∈ file.anchors) (hedit : strip file b = e)
      (hold : ∀ x ∈ old, x.1 = .newline) (hnew : ∀ x ∈ new, x.1 = .newline)
      (halone : old = [] ∨ standsAlone file b = true)
  /-- Guards are put in. -/
  | guards {insertion : Insertion} (hinsertion : insertion ∈ insertions demands)
      (hedit : insertion.edit file = e) (hold : old = [])
  /-- Imports are put in. -/
  | imports (hedit : file.importEdit? (imported demands) = some e) (hold : old = [])
  /-- A blank gets a name. -/
  | naming {naming : Tree × ErrorTarget} (hnaming : naming ∈ file.namings p)
      (hedit : e = .replace naming.1.start naming.1.stop naming.2.errorName)
      (hold : old = [(.word, "_")]) (hnew : new = [(.word, naming.2.errorName)])
  /-- An assignment becomes a declaration. -/
  | promotion {naming : Tree × ErrorTarget} {operator : Tree} (hnaming : naming ∈ file.namings p)
      (hoperator : naming.2.operator? = some operator)
      (hedit : e = .replace operator.start operator.stop ":=")
      (hold : old = [(.symbol '=', "=")]) (hnew : new = [(.symbol ':', ":"), (.symbol '=', "=")])

/-- Each edit removes a directive, inserts guards, renames a blank or adds imports. -/
theorem cases_of_mem_edits (he : e ∈ allEdits file (file.namings p) demands) :
    (∃ b ∈ file.anchors, strip file b = e) ∨
      (∃ insertion ∈ insertions demands, insertion.edit file = e) ∨
      (∃ naming ∈ file.namings p, e ∈ rename naming) ∨
      file.importEdit? (imported demands) = some e := by
  rcases mem_allEdits.mp he with hstrip | he | himport
  · exact .inl hstrip
  · rw [written, guardsBefore_eq, guardsAfter_eq, List.mem_append, List.mem_append] at he
    rcases he with (he | he) | he
    · obtain ⟨insertion, hmem, hedit⟩ := List.mem_map.mp he
      exact .inr (.inl ⟨insertion, List.mem_append_left _ hmem, hedit⟩)
    · exact .inr (.inr (.inl (List.mem_flatMap.mp he)))
    · obtain ⟨insertion, hmem, hedit⟩ := List.mem_map.mp he
      exact .inr (.inl ⟨insertion, List.mem_append_right _ hmem, hedit⟩)
  · exact .inr (.inr (.inr himport))

section

variable (h : file.OnTokens) (hwoven : Woven p file demands reports)
  (hnull : '\x00' ∉ file.text.toList) (hknown : ∀ t ∈ readAll file.text, t.lexeme ≠ .unknown)
include h hwoven

/-- Guards are put in neatly where no token is open. -/
theorem neat_insertion {insertion : Insertion} (hmem : insertion ∈ insertions demands)
    (hlegible : Legible (insertion.edit file).text) : Neat file.text (insertion.edit file) := by
  rcases List.mem_append.mp hmem with hmem | hmem
  · obtain ⟨hbehind, body, hbody, hstatement⟩ := statement_of_before hwoven hmem
    rw [Insertion.edit_of_before hbehind] at hlegible ⊢
    exact neat_insertBefore (h.statement hbody hstatement) hlegible
  · obtain ⟨hbehind, _⟩ := statement_of_behind hwoven hmem
    rw [Insertion.edit_of_behind hbehind] at hlegible ⊢
    exact neat_insertAfter hlegible

include hnull hknown in
/-- Guards are inserted between tokens. -/
theorem onSeams_insertion {insertion : Insertion} (hmem : insertion ∈ insertions demands) :
    OnSeams file.text (insertion.edit file) := by
  rcases List.mem_append.mp hmem with hmem | hmem
  · obtain ⟨hbehind, body, hbody, hstatement⟩ := statement_of_before hwoven hmem
    rw [Insertion.edit_of_before hbehind]
    exact onSeams_insertBefore hknown (h.statement hbody hstatement)
  · obtain ⟨hbehind, _, ⟨body, hbody, hstatement⟩, _⟩ := statement_of_behind hwoven hmem
    rw [Insertion.edit_of_behind hbehind]
    exact onSeams_insertAfter hknown hnull (h.statement hbody hstatement)

variable (hsmooth : Smooth p file demands)
include hsmooth

/-- All edits are neat if a character ends the list of imports. -/
theorem neat_of_mem
    (hlist : ∀ list, file.importList? = some list → Boundary file.text (list.stop - 1))
    (he : e ∈ allEdits file (file.namings p) demands) : Neat file.text e := by
  rcases cases_of_mem_edits he with ⟨b, hb, rfl⟩ | ⟨insertion, hmem, rfl⟩ |
    ⟨naming, hnaming, he⟩ | himport
  · exact neat_strip h hb
  · exact neat_insertion h hwoven hmem (hsmooth.guards insertion hmem).toLegible
  · exact neat_rename h hnaming he
  · exact neat_importEdit hlist himport (hsmooth.imports e himport).1.toLegible

include hnull hknown

/-- All edits begin and end between tokens. -/
theorem onSeams_of_mem (he : e ∈ allEdits file (file.namings p) demands) :
    OnSeams file.text e := by
  rcases cases_of_mem_edits he with ⟨b, hb, rfl⟩ | ⟨insertion, hmem, rfl⟩ |
    ⟨naming, hnaming, he⟩ | himport
  · obtain ⟨u, hu⟩ := exists_holds h hb
    exact hu.removes.onSeams hknown hnull
  · exact onSeams_insertion h hwoven hnull hknown hmem
  · exact onSeams_rename h hnaming hknown he
  · exact (hsmooth.imports e himport).2

end

/-! ### What an edit exchanges -/

section

variable {es : List Edit} {u : Token}

private theorem stays_of_ne (hcomment : u.lexeme ≠ .comment) : stays file es u = true := by
  simp [stays, hcomment]

/-- What is put in takes nothing out. -/
private theorem takenOut_of_empty (hempty : e.stop = e.start) : takenOut file es e = [] := by
  refine List.map_eq_nil_iff.mpr (List.eq_nil_iff_forall_not_mem.mpr fun t ht => ?_)
  obtain ⟨hread, hle, hstop⟩ := Token.mem_within.mp (List.mem_of_mem_filter ht)
  have := (Token.ordered_readAll file.text).1 t hread
  omega

/-- What takes the place of a token takes out just that. -/
private theorem takenOut_token (hu : u ∈ readAll file.text) (hcomment : u.lexeme ≠ .comment)
    (hstart : e.start = u.start) (hstop : e.stop = u.stop) : takenOut file es e = [sign u] := by
  rw [takenOut, hstart, hstop, Token.within_token hu,
    List.filter_cons_of_pos (stays_of_ne hcomment), List.filter_nil, List.map_singleton]

/-- Only the comment of a directive that an edit removes does not stay. -/
private theorem exists_strip_of_stays (h : file.OnTokens) (hu : u ∈ readAll file.text)
    (hstays : stays file es u = false) : ∃ b ∈ file.anchors, Holds file u b ∧
      strip file b ∈ es := by
  rw [stays, Bool.not_eq_false', Bool.and_eq_true, List.any_eq_true] at hstays
  obtain ⟨_, b, hb, hstart⟩ := hstays
  rw [Bool.and_eq_true, decide_eq_true_eq, List.contains_iff_mem] at hstart
  obtain ⟨w, hw⟩ := exists_holds h hb
  obtain rfl : w = u := Token.eq_of_start_eq hw.mem hu (hw.start.symm.trans hstart.1)
  exact ⟨b, hb, hw, hstart.2⟩

/-- The comment of a directive stays exactly if no edit removes it. -/
theorem stays_iff (h : file.OnTokens) (hb : anchor ∈ file.anchors) (hu : Holds file u anchor) :
    stays file es u = true ↔ strip file anchor ∉ es := by
  have hstarts : (file.anchors.map Anchor.start).Nodup :=
    List.pairwise_map.mpr (h.inOrder.pairwise_anchors.imp Nat.ne_of_lt)
  rw [stays, Bool.not_eq_true', ← Bool.not_eq_true, not_iff_not]
  simp only [hu.comment, decide_true, Bool.true_and, List.any_eq_true, Bool.and_eq_true,
    decide_eq_true_eq, List.contains_iff_mem]
  constructor
  · rintro ⟨b, hmem, hstart, hstrip⟩
    exact List.inj_on_of_nodup_map hstarts hmem hb (hstart.trans hu.start.symm) ▸ hstrip
  · exact fun hstrip => ⟨anchor, hb, hu.start, hstrip⟩

/-- With the comment of a directive at most the newline behind it is taken out. -/
private theorem exchanges_strip (h : file.OnTokens)
    (hknown : ∀ t ∈ readAll file.text, t.lexeme ≠ .unknown) (hb : anchor ∈ file.anchors)
    (hmem : strip file anchor ∈ es) :
    Exchanges p file demands (strip file anchor) (takenOut file es (strip file anchor))
      (signs (strip file anchor).text.toList) := by
  obtain ⟨u, hu⟩ := exists_holds h hb
  have hremoves := hu.removes
  have hnewline : ∀ t ∈ (within (readAll file.text) (strip file anchor).start
      (strip file anchor).stop).filter (stays file es), t.lexeme = .newline := by
    intro t ht
    obtain ⟨ht, hstays⟩ := List.mem_filter.mp ht
    refine (hremoves.of_mem_within hknown ht).resolve_left ?_
    rintro rfl
    exact (stays_iff h hb hu).mp hstays hmem
  refine .removal hb rfl ?_ (newline_of_mem_strip file anchor) ?_
  · intro x hx
    obtain ⟨t, ht, rfl⟩ := List.mem_map.mp hx
    exact hnewline t ht
  by_cases halone : standsAlone file anchor = true
  · exact .inr halone
  -- The blanks that go with a comment are on its lines.
  refine .inl (List.map_eq_nil_iff.mpr (List.eq_nil_iff_forall_not_mem.mpr fun t ht => ?_))
  have hnew := hnewline t ht
  obtain ⟨hread, hle, hstop⟩ := Token.mem_within.mp (List.mem_of_mem_filter ht)
  obtain ⟨hat, _⟩ := Token.charAt_newline hread hnew
  have hlt := (Token.ordered_readAll file.text).1 t hread
  have hne : t ≠ u := by
    rintro rfl
    simp [hu.comment] at hnew
  rcases Token.apart_of_ne hread hu.mem hne with hbefore | hbehind
  · exact (hremoves.before _ _ hat hle (by omega)).2 rfl
  · rcases hu.strip_cases with ⟨hstarts, hends, _⟩ | ⟨_, _, _, hend⟩ | ⟨_, _, hend⟩
    · rw [standsAlone, hu.start, hu.stop, hstarts, hends] at halone
      exact halone rfl
    · have hindent := (Text.indentEnd_run (Token.boundaries hu.mem).2).run _ _ hat
        hbehind (by omega)
      exact absurd hindent (by decide)
    · omega

/-- Every edit takes out what it should, and puts in what it should. -/
theorem exchanges_of_mem (h : file.OnTokens) (hwoven : Woven p file demands reports)
    (hknown : ∀ t ∈ readAll file.text, t.lexeme ≠ .unknown)
    (he : e ∈ allEdits file (file.namings p) demands) (hmem : e ∈ es) :
    Exchanges p file demands e (takenOut file es e) (signs e.text.toList) := by
  rcases cases_of_mem_edits he with ⟨b, hb, rfl⟩ | ⟨insertion, hinsertion, rfl⟩ |
    ⟨naming, hnaming, he⟩ | himport
  · exact exchanges_strip h hknown hb hmem
  · refine .guards hinsertion rfl (takenOut_of_empty ?_)
    rcases List.mem_append.mp hinsertion with hbefore | hbehind
    · rw [Insertion.edit_of_before (statement_of_before hwoven hbefore).1]
      exact (spellsGuards_insertBefore _ _ _).1
    · rw [Insertion.edit_of_behind (statement_of_behind hwoven hbehind).1]
      exact (spellsGuards_insertAfter _ _ _).1
  · rw [rename] at he
    rcases List.mem_cons.mp he with rfl | he
    · obtain ⟨u, hu, hword, htext, hstart, hstop⟩ := exists_blank h hnaming
      obtain ⟨_, _, _, _, _, hname⟩ :=
        errorName_of_mem_namings h.inOrder (show (naming.1, naming.2) ∈ _ from hnaming)
      have hidentifier : Text.IsIdentifier naming.2.errorName.toList :=
        hname ▸ (isIdentifier_placeholderName _).1
      refine .naming hnaming rfl ?_ ?_
      · rw [takenOut_token hu (by simp [hword]) hstart hstop, sign, hword, htext]
      · rw [Edit.replace, Token.signs_word hidentifier, String.ofList_toList]
    · obtain ⟨operator, hoperator, rfl⟩ := Option.map_eq_some_iff.mp (Option.mem_toList.mp he)
      obtain ⟨u, hu, hsymbol, htext, hstart, hstop⟩ := exists_operator h hnaming hoperator
      refine .promotion hnaming hoperator rfl ?_ ?_
      · rw [takenOut_token hu (by simp [hsymbol]) hstart hstop, sign, hsymbol, htext]
      · exact (show signs ":=".toList = [(.symbol ':', ":"), (.symbol '=', "=")] by decide +kernel)
  · exact .imports himport (takenOut_of_empty (importEdit?_empty himport).symm)

end

/-! ### Directives that are left -/

/-- Whether a token is the comment of a directive. -/
def IsDirective (t : Token) : Prop := t.lexeme = .comment ∧ (Directive.parse? t.text).isSome = true

section

variable {u : Token}

/-- A directive of a file is one of its text. -/
theorem Holds.isDirective (hb : anchor ∈ file.anchors) (hu : Holds file u anchor) :
    IsDirective u := by
  obtain ⟨c, _, hanchor⟩ := List.mem_filterMap.mp hb
  obtain ⟨directive, hparse, rfl⟩ := Option.map_eq_some_iff.mp hanchor
  have hstart : c.start = u.start := hu.start
  have hstop : c.stop = u.stop := hu.stop
  rw [SourceFile.textOf, hstart, hstop, ← Token.text_eq hu.mem] at hparse
  exact ⟨hu.comment, by rw [hparse]; rfl⟩

/-- A directive of a text that was read as a whole is one of the file. -/
theorem exists_anchor (h : file.OnTokens)
    (hcomments : ∀ u ∈ readAll file.text, u.lexeme = .comment →
      ∃ c ∈ file.comments, c.start = u.start ∧ c.stop = u.stop)
    (hu : u ∈ readAll file.text) (hdirective : IsDirective u) :
    ∃ b ∈ file.anchors, Holds file u b := by
  obtain ⟨hcomment, hparse⟩ := hdirective
  obtain ⟨c, hc, hstart, hstop⟩ := hcomments u hu hcomment
  obtain ⟨directive, hdirective⟩ := Option.isSome_iff_exists.mp hparse
  rw [Token.text_eq hu, ← hstart, ← hstop] at hdirective
  obtain ⟨b, hb⟩ : ∃ b, Anchor.ofComment? file c = some b := by
    rw [Anchor.ofComment?, SourceFile.textOf, hdirective]
    exact ⟨_, rfl⟩
  have hmem : b ∈ file.anchors := List.mem_filterMap.mpr ⟨c, hc, hb⟩
  have hplace : b.start = c.start := by
    obtain ⟨_, _, rfl⟩ := Option.map_eq_some_iff.mp hb
    rfl
  obtain ⟨w, hw⟩ := exists_holds h hmem
  obtain rfl : w = u :=
    Token.eq_of_start_eq hw.mem hu (hw.start.symm.trans (hplace.trans hstart))
  exact ⟨b, hmem, hw⟩

end

/-- What the edits of a file do to its tokens: in the generated text, what they put in stands
between the tokens around them, where the file, without the comments of the directives that are
removed, has what they take out. A directive is removed, and its comment is not there any more,
exactly if no other one crowds it. -/
structure Conserves (p : Package) (file : SourceFile) (demands : List Demand) (es : List Edit)
    (generated : String) : Prop where
  tokens : (readAll generated).map sign =
    around (readAll file.text) (fun e => signs e.text.toList) 0 es
  source : ((readAll file.text).filter (stays file es)).map sign =
    around (readAll file.text) (takenOut file es) 0 es
  exchanges : ∀ e ∈ es, Exchanges p file demands e (takenOut file es e) (signs e.text.toList)
  removed : ∀ b ∈ file.anchors, strip file b ∈ es ↔ ∀ a ∈ file.anchors, ¬Crowds file a b
  left : (∃ t ∈ readAll generated, IsDirective t) ↔
    ∃ a ∈ file.anchors, ∃ b ∈ file.anchors, Crowds file a b
  reread : (∀ a ∈ file.anchors, ∀ b ∈ file.anchors, ¬Crowds file a b) →
    ∀ path, (SourceFile.parse path generated).anchors = []

private theorem isDirective_of_sign {t u : Token} (h : sign t = sign u) (hu : IsDirective u) :
    IsDirective t := by
  obtain ⟨hlexeme, htext⟩ := Prod.mk.inj h
  exact ⟨hlexeme.trans hu.1, htext ▸ hu.2⟩

/-- What is put in holds no directive. -/
private theorem not_isDirective_of_mem {t : Token} {old : List (Lexeme × String)}
    (hsmooth : Smooth p file demands) (he : Exchanges p file demands e old (signs e.text.toList))
    (ht : sign t ∈ signs e.text.toList) : ¬IsDirective t := by
  intro hdirective
  have hcomment := hdirective.1
  have hsilent : ¬Inert e.text := by
    intro hinert
    obtain ⟨u, hu, hsame⟩ := List.mem_map.mp ht
    obtain ⟨hlexeme, hparse⟩ := isDirective_of_sign hsame hdirective
    rw [hinert.silent u hu hlexeme] at hparse
    exact Bool.false_ne_true hparse
  cases he with
  | removal _ _ _ hnew =>
    have := hnew _ ht
    simp [sign, hcomment] at this
  | guards hinsertion hedit => exact hsilent (hedit ▸ hsmooth.guards _ hinsertion)
  | imports hedit => exact hsilent (hsmooth.imports e hedit).1
  | naming _ _ _ hnew => simp [hnew, sign, hcomment] at ht
  | promotion _ _ _ _ hnew => simp [hnew, sign, hcomment] at ht

/-- What is taken out are no comments. -/
private theorem not_comment_of_mem {u : Token} {old new : List (Lexeme × String)}
    (he : Exchanges p file demands e old new) (hu : sign u ∈ old) : u.lexeme ≠ .comment := by
  intro hcomment
  cases he with
  | removal _ _ hold =>
    have := hold _ hu
    simp [sign, hcomment] at this
  | guards _ _ hold => simp [hold] at hu
  | imports _ hold => simp [hold] at hu
  | naming _ _ hold => simp [hold, sign, hcomment] at hu
  | promotion _ _ _ hold => simp [hold, sign, hcomment] at hu

section

variable (h : file.OnTokens) {es : List Edit} {generated : String}
  (hseams : ∀ e ∈ es, OnSeams file.text e)
  (htokens : (readAll generated).map sign =
    around (readAll file.text) (fun e => signs e.text.toList) 0 es)
  (hexchanges : ∀ e ∈ es,
    Exchanges p file demands e (takenOut file es e) (signs e.text.toList))
include h htokens hexchanges

/-- A directive of the generated text is one of the file that no edit removes. -/
private theorem exists_anchor_of_left {t : Token}
    (hside : Edit.SideBySide file.text 0 es) (hsmooth : Smooth p file demands)
    (hcomments : ∀ u ∈ readAll file.text, u.lexeme = .comment →
      ∃ c ∈ file.comments, c.start = u.start ∧ c.stop = u.stop)
    (ht : t ∈ readAll generated) (hdirective : IsDirective t) :
    ∃ b ∈ file.anchors, strip file b ∉ es := by
  have hmem := List.mem_map_of_mem (f := sign) ht
  rw [htokens] at hmem
  rcases Edit.mem_around hside hmem with ⟨u, hu, hsame, _, hmisses⟩ | ⟨e, he, hx⟩
  · obtain ⟨b, hb, hholds⟩ := exists_anchor h hcomments hu (isDirective_of_sign hsame hdirective)
    refine ⟨b, hb, fun hstrip => ?_⟩
    have hlt := (Token.ordered_readAll file.text).1 u hu
    have hfirst := hholds.removes.start_le
    have hlast := hholds.removes.le_stop
    have := hmisses _ hstrip
    omega
  · exact absurd hdirective (not_isDirective_of_mem hsmooth (hexchanges e he) hx)

include hseams

/-- A directive that no edit removes is one of the generated text. -/
private theorem exists_left {b : Anchor} (hb : b ∈ file.anchors) (hstrip : strip file b ∉ es) :
    ∃ t ∈ readAll generated, IsDirective t := by
  obtain ⟨u, hu⟩ := exists_holds h hb
  have hmisses : ∀ e ∈ es, u.stop ≤ e.start ∨ e.stop ≤ u.start := by
    intro e he
    by_contra hreaches
    have hstart := ((hseams e he).start u hu.mem).2
    have hstop := ((hseams e he).stop u hu.mem).2
    have hin : u ∈ within (readAll file.text) e.start e.stop :=
      Token.mem_within.mpr ⟨hu.mem, by omega, by omega⟩
    have htaken : sign u ∈ takenOut file es e :=
      List.mem_map_of_mem (List.mem_filter.mpr ⟨hin, (stays_iff h hb hu).mpr hstrip⟩)
    exact not_comment_of_mem (hexchanges e he) htaken hu.comment
  have hmem := Edit.sign_mem_around (fun e => signs e.text.toList) hu.mem (Nat.zero_le _) hmisses
  rw [← htokens] at hmem
  obtain ⟨t, ht, hsame⟩ := List.mem_map.mp hmem
  exact ⟨t, ht, isDirective_of_sign hsame (hu.isDirective hb)⟩

end

section

variable (h : file.OnTokens) (hwoven : Woven p file demands reports)
  (hnull : '\x00' ∉ file.text.toList) (hknown : ∀ t ∈ readAll file.text, t.lexeme ≠ .unknown)
  (hcomments : ∀ u ∈ readAll file.text, u.lexeme = .comment →
    ∃ c ∈ file.comments, c.start = u.start ∧ c.stop = u.stop)
  (hlist : ∀ list, file.importList? = some list →
    ∃ u ∈ readAll file.text, list.stop - 1 = u.start)
  (hsmooth : Smooth p file demands)
include h hwoven hnull hknown hcomments hlist hsmooth

/-- Edits that can be made smoothly leave the other tokens of a file as they are. -/
theorem conserves_applied : Conserves p file demands (applied file (file.namings p) demands)
    (Edit.splice file.text 0 (applied file (file.namings p) demands)) := by
  have hmem : ∀ e ∈ applied file (file.namings p) demands,
      e ∈ allEdits file (file.namings p) demands := fun e he =>
    List.mem_mergeSort.mp ((Edit.kept_sublist _ _ _).subset he)
  have hclose : ∀ list, file.importList? = some list → Boundary file.text (list.stop - 1) := by
    intro list hsome
    obtain ⟨u, hu, hstart⟩ := hlist list hsome
    exact hstart ▸ (Token.boundaries hu).1
  have hside := sideBySide_of_applied h hwoven hlist
  have hfits := fun e he => fits_of_mem h hwoven hlist (hmem e he)
  have hseams := fun e he => onSeams_of_mem h hwoven hnull hknown hsmooth (hmem e he)
  have hneat := fun e he => neat_of_mem h hwoven hsmooth hclose (hmem e he)
  have hexchanges := fun e he => exchanges_of_mem h hwoven hknown (hmem e he) he
  have hremoved : ∀ b ∈ file.anchors, strip file b ∈ applied file (file.namings p) demands ↔ _ :=
    fun b hb => strip_mem_applied_iff h hwoven hnull hb
  have htokens := Edit.map_sign_readAll hnull hsmooth.closed hknown hside hfits hneat hseams
    hsmooth.unglued
  have hsource := Edit.map_sign_filter (p := stays file (applied file (file.namings p) demands))
    hknown hside hfits hseams ?_
  have hleft : (∃ t ∈ readAll (Edit.splice file.text 0 (applied file (file.namings p) demands)),
      IsDirective t) ↔ ∃ a ∈ file.anchors, ∃ b ∈ file.anchors, Crowds file a b := by
    constructor
    · rintro ⟨t, ht, hdirective⟩
      obtain ⟨b, hb, hstrip⟩ :=
        exists_anchor_of_left h htokens hexchanges hside hsmooth hcomments ht hdirective
      rw [hremoved b hb] at hstrip
      obtain ⟨a, ha, hcrowds⟩ : ∃ a ∈ file.anchors, Crowds file a b := by simpa using hstrip
      exact ⟨a, ha, b, hb, hcrowds⟩
    · rintro ⟨a, ha, b, hb, hcrowds⟩
      exact exists_left h hseams htokens hexchanges hb fun hstrip =>
        (hremoved b hb).mp hstrip a ha hcrowds
  refine ⟨htokens, hsource, hexchanges, hremoved, hleft, fun hfree path => ?_⟩
  · -- a directive that is found again has a comment of the generated text behind it
    refine List.eq_nil_iff_forall_not_mem.mpr fun b hb => ?_
    obtain ⟨t, ht⟩ := exists_holds (SourceFile.onTokens_parse path _) hb
    obtain ⟨a, ha, c, hc, hcrowds⟩ := hleft.mp ⟨t, ht.mem, ht.isDirective hb⟩
    exact hfree a ha c hc hcrowds
  · -- the tokens that do not stay are those that a removal takes out, for `hsource`
    intro t ht hstays
    obtain ⟨b, _, hholds, hstrip⟩ := exists_strip_of_stays h ht hstays
    exact ⟨_, hstrip, hholds.removes.start_le, hholds.removes.le_stop⟩

end

open Reporting (Gives value? gives_of_value? value?_of_gives)

/-- Weaving a file makes edits that leave the other tokens of the file as they are. -/
def Conservative (p : Package) (file : SourceFile) (injection : Injection) : Prop :=
  ∃ demands reports, injection = ofDemands file (file.namings p) demands ∧
    Woven p file demands reports ∧
    injection.generated = Edit.splice file.text 0 (applied file (file.namings p) demands) ∧
    Conserves p file demands (applied file (file.namings p) demands) injection.generated

/-- The other tokens of a file without errors stay as they are, in their order, if guards and
imports can be put in smoothly. No directive is left, unless one crowds another. -/
theorem conservative_of_inject {path text : String} {injection : Injection}
    {before after : List Diagnostic} (hvalid : (SourceFile.read path text).hasErrors = false)
    (hnull : '\x00' ∉ text.toList)
    (hsmooth : ∀ demands, Gives ((SourceFile.read path text).demands p) before demands after →
      Smooth p (SourceFile.read path text) demands)
    (h : Gives ((SourceFile.read path text).inject? p) before (some injection) after) :
    Conservative p (SourceFile.read path text) injection := by
  have hread := SourceFile.read_eq_parse hvalid
  rw [hread] at hvalid hsmooth h ⊢
  obtain ⟨_, demands, hdemands, rfl⟩ := gives_inject?.mp h
  obtain ⟨reports, _, hwoven⟩ := woven_of_demands hdemands
  obtain ⟨hknown, hcomments⟩ := SourceFile.complete_parse hvalid
  have hlist : ∀ list, (SourceFile.parse path text).importList? = some list →
      ∃ u ∈ readAll text, list.stop - 1 = u.start := by
    intro list hsome
    obtain ⟨u, hu, _, hstart⟩ := SourceFile.closing_importList hsome
    exact ⟨u, hu, hstart⟩
  have hgenerated : (ofDemands (.parse path text) (SourceFile.namings p (.parse path text))
      demands).generated = Edit.splice text 0
        (applied (.parse path text) (SourceFile.namings p (.parse path text)) demands) :=
    (Edit.splice_kept _ _ _).symm
  refine ⟨demands, reports, rfl, hwoven, hgenerated, ?_⟩
  rw [hgenerated]
  exact conserves_applied (SourceFile.onTokens_parse path text) hwoven hnull hknown hcomments hlist
    (hsmooth demands hdemands)

private theorem smooth_sharedLines {demands : List Demand} {after : List Diagnostic}
    (h : Gives ((SourceFile.read "/f.go" sharedLines).demands (alone (.read "/f.go" sharedLines)))
      [] demands after) :
    Smooth (alone (.read "/f.go" sharedLines)) (.read "/f.go" sharedLines) demands := by
  have hvalue := value?_of_gives h
  generalize hfile : SourceFile.read "/f.go" sharedLines = file at hvalue ⊢
  have hfacts : ∀ demands ∈ value? (file.demands (alone file)) [],
      ¬Unclosed (readAll file.text) ∧
      (∀ insertion ∈ insertions demands, Inert (insertion.edit file).text) ∧
      (∀ e ∈ file.importEdit? (imported demands), Inert e.text ∧ OnSeams file.text e) ∧
      Unglued file.text [] 0 (Edit.kept file.text 0
        ((allEdits file (file.namings (alone file)) demands).insertionSort
          (Edit.ordered · · = true))) := by
    subst hfile
    decide +kernel
  obtain ⟨hclosed, hguards, himports, hunglued⟩ := hfacts demands hvalue
  rw [← Edit.mergeSort_eq_insertionSort] at hunglued
  exact ⟨hclosed, hguards, himports, hunglued⟩

/-- A file with directives on lines that they share and on lines of their own. -/
theorem conservative_sharedLines : (SourceFile.read "/f.go" sharedLines).hasErrors = false ∧
    '\x00' ∉ sharedLines.toList ∧
    (∀ demands after, Gives ((SourceFile.read "/f.go" sharedLines).demands
        (alone (.read "/f.go" sharedLines))) [] demands after →
      Smooth (alone (.read "/f.go" sharedLines)) (.read "/f.go" sharedLines) demands) ∧
    ∃ injection after, Gives ((SourceFile.read "/f.go" sharedLines).inject?
        (alone (.read "/f.go" sharedLines))) [] (some injection) after ∧
      Conservative (alone (.read "/f.go" sharedLines)) (.read "/f.go" sharedLines) injection := by
  have hvalid : (SourceFile.read "/f.go" sharedLines).hasErrors = false := by decide +kernel
  have hnull : '\x00' ∉ sharedLines.toList := by decide +kernel
  have hvalue : (value? ((SourceFile.read "/f.go" sharedLines).inject?
      (alone (.read "/f.go" sharedLines))) []).join.isSome = true := by
    decide +kernel
  obtain ⟨injection, hinjection⟩ := Option.isSome_iff_exists.mp hvalue
  obtain ⟨after, hgives⟩ := gives_of_value? (Option.join_eq_some_iff.mp hinjection)
  exact ⟨hvalid, hnull, fun demands after h => smooth_sharedLines h, injection, after, hgives,
    conservative_of_inject hvalid hnull (fun demands h => smooth_sharedLines h) hgives⟩

/-- A statement with two directives before it on one line. -/
def sideBySide : String :=
  "package p\n\nfunc f(a, b int) \x7b\n\t/* @require a > 0 */ // @require b > 0\n\tprintln(a)\n\x7d\n"

/-- The demands of `sideBySide`. -/
def sideBySideDemands : List Demand :=
  (value? ((SourceFile.parse "/f.go" sideBySide).demands (alone (.parse "/f.go" sideBySide)))
    []).getD []

/-- The second of two directives on one line is left in the generated text. -/
theorem sideBySide_leaves :
    ¬∀ p path text injection before after, (SourceFile.parse path text).hasErrors = false →
      Gives ((SourceFile.parse path text).inject? p) before (some injection) after →
      (SourceFile.parse path injection.generated).anchors = [] := by
  intro h
  generalize hfile : SourceFile.parse "/f.go" sideBySide = file
  have hfacts : file.hasErrors = false ∧ file.anchors.isEmpty = false ∧
      (value? (file.demands (alone file)) []).isSome = true ∧
      allEdits file (file.namings (alone file)) sideBySideDemands =
        [.replace 31 52 "", .replace 51 69 "", .insert 70
          ("\tif !(a > 0) \x7b\n" ++
            "\t\tpanic(\"inco // require violation: a > 0 at /f.go:4\")\n\t\x7d\n" ++
            "\tif !(b > 0) \x7b\n" ++
            "\t\tpanic(\"inco // require violation: b > 0 at /f.go:4\")\n\t\x7d\n")] := by
    subst hfile
    decide +kernel
  obtain ⟨hvalid, hanchors, hvalue, hedits⟩ := hfacts
  have htext : file.text = sideBySide := hfile ▸ SourceFile.text_parse _ _
  obtain ⟨demands, hdemands⟩ := Option.isSome_iff_exists.mp hvalue
  obtain rfl : sideBySideDemands = demands := by
    rw [sideBySideDemands, hfile, hdemands, Option.getD_some]
  obtain ⟨after, hgives⟩ := gives_of_value? hdemands
  have hinject := gives_inject?.mpr ⟨by simpa using hanchors, sideBySideDemands, hgives, rfl⟩
  subst hfile
  have hnone := h _ _ _ _ _ _ hvalid hinject
  simp only [ofDemands, hedits, htext, Edit.applyAll, Edit.mergeSort_eq_insertionSort] at hnone
  exact absurd (List.isEmpty_iff.mpr hnone) (by decide +kernel)

end Injection

end GoContracts

import GoContracts.Proofs.Weaving.AddedImports
import GoContracts.Proofs.Weaving.Identifiers
import GoContracts.Proofs.Weaving.Seams

/-!
# Neat edits

The edits of a file begin and end where no token is open. A removal takes a comment and newlines;
what other edits put in goes on with no token before it, and with none behind it if it can be read
on its own.
-/

namespace GoContracts

open Syntax (Token Tree Kind Lexeme Seated)
open Syntax.Token (sign signs readAll readFrom Whole Unclosed origin within)
open Text (CharAt Boundary Between isBlank)
open Edit (Legible Neat OnSeams Plain Unglued around)

/-! ### Removals -/

namespace Removes

variable {s : String} {u t : Token} {e : Edit}

/-- What is removed does not begin with a newline. -/
theorem exists_first (h : Removes s u e) : ∃ d, CharAt s e.start d ∧ d ≠ '\n' := by
  have hslash := (Token.charAt_comment h.mem h.comment).1
  rcases Nat.lt_or_eq_of_le h.start_le with hlt | heq
  · have := hslash.boundary.le_size
    obtain ⟨d, hd⟩ := h.boundary.exists_charAt (by omega)
    exact ⟨d, hd, (h.before _ d hd (Nat.le_refl _) hlt).2⟩
  · exact ⟨'/', heq ▸ hslash, by decide⟩

/-- What removes a comment begins behind the byte order mark. -/
theorem origin_le (h : Removes s u e) : origin s ≤ e.start := by
  rcases Nat.eq_zero_or_pos e.start with hzero | hpos
  · rw [origin]
    split_ifs with hmark
    · obtain ⟨rest, hs⟩ := List.head?_eq_some_iff.mp hmark
      have hthree := Token.origin_le_start h.mem
      rw [origin, if_pos hmark] at hthree
      have := (h.before 0 _ ⟨[], rest, hs, rfl⟩ (by omega) (by omega)).1
      exact absurd this (by decide)
    · exact Nat.zero_le _
  · exact Token.origin_le_of_pos h.boundary hpos

section

variable (hknown : ∀ t ∈ readAll s, t.lexeme ≠ .unknown) (hnull : '\x00' ∉ s.toList)
include hknown

/-- The tokens that are removed with a comment are newlines. -/
theorem eq_or_newline (h : Removes s u e) (ht : t ∈ readAll s) (hstop : u.stop ≤ t.start)
    (hlt : t.start < e.stop) : t.lexeme = .newline ∧ t.stop = e.stop := by
  have hnew : t.lexeme = .newline := by
    by_contra hne
    obtain ⟨c, hc, hblank⟩ := Token.charAt_start ht hne (hknown t ht)
    have := (h.behind _ c hc hstop hlt).1
    simp [hblank] at this
  obtain ⟨hc, hend⟩ := Token.charAt_newline ht hnew
  exact ⟨hnew, hend.trans ((h.behind _ _ hc hstop hlt).2 rfl).1⟩

/-- No token is open where a removal ends. -/
theorem whole_stop (h : Removes s u e) : Whole (readAll s) e.stop := by
  intro t ht
  refine ⟨hknown t ht, ?_⟩
  have hle := h.le_stop
  have hpos := (Token.ordered_readAll s).1 u h.mem
  by_cases hne : t = u
  · exact .inl (hne ▸ hle)
  rcases Token.apart_of_ne ht h.mem hne with hbefore | hbehind
  · exact .inl (by omega)
  · by_cases hlt : t.start < e.stop
    · exact .inl (h.eq_or_newline hknown ht hbehind hlt).2.le
    · exact .inr (by omega)

include hnull

/-- No token is open where a removal begins. -/
theorem whole_start (h : Removes s u e) : Whole (readAll s) e.start := by
  intro t ht
  refine ⟨hknown t ht, ?_⟩
  have hle := h.start_le
  have hpos := (Token.ordered_readAll s).1 t ht
  have hposu := (Token.ordered_readAll s).1 u h.mem
  by_cases hne : t = u
  · exact .inr (hne ▸ hle)
  rcases Token.apart_of_ne ht h.mem hne with hbefore | hbehind
  swap
  · exact .inr (by omega)
  by_contra hin
  obtain ⟨hstop, hstart⟩ := not_or.mp hin
  -- The last character of the token would stand among the blanks before the comment.
  have hclear : ∀ last d, CharAt s last d → last + d.utf8Size = t.stop → isBlank d = true := by
    intro last d hlast hend
    have hnext : e.start ≤ last := by
      by_contra hlt
      have := hlast.next_le h.boundary (by omega)
      omega
    have := d.utf8Size_pos
    exact (h.before last d hlast hnext (by omega)).1
  by_cases hnew : t.lexeme = .newline
  · have := (Token.charAt_newline ht hnew).2
    have hone : Char.utf8Size '\n' = 1 := rfl
    omega
  by_cases hcomment : t.lexeme = .comment
  · rcases Injection.comment_last hnull ht hcomment with ⟨hnew | hsize, _⟩ | ⟨last, hlast, hend, _⟩
    · have hslash := (Token.charAt_comment h.mem h.comment).1
      rcases Nat.lt_or_eq_of_le hbefore with hlt | heq
      · exact (h.before _ _ hnew (by omega) hlt).2 rfl
      · exact absurd ((heq ▸ hnew).unique hslash) (by decide)
    · have := Token.stop_le_size h.mem
      omega
    · exact absurd (hclear last _ hlast hend) (by decide)
  · obtain ⟨last, d, hlast, hend, _, hblank⟩ :=
      Token.charAt_last ht ⟨hnew, hcomment, hknown t ht⟩
    simp [hclear last d hlast hend] at hblank

/-- A removal begins and ends where no token is open. -/
theorem onSeams (h : Removes s u e) : OnSeams s e :=
  ⟨h.origin_le, h.whole_start hknown hnull, h.whole_stop hknown⟩

end

/-- A removal holds its comment and newlines. -/
theorem of_mem_within (hknown : ∀ t ∈ readAll s, t.lexeme ≠ .unknown) (h : Removes s u e)
    (ht : t ∈ within (readAll s) e.start e.stop) : t = u ∨ t.lexeme = .newline := by
  obtain ⟨ht, hstart, hstop⟩ := Token.mem_within.mp ht
  have hpos := (Token.ordered_readAll s).1 t ht
  by_cases hne : t = u
  · exact .inl hne
  rcases Token.apart_of_ne ht h.mem hne with hbefore | hbehind
  · right
    by_contra hnew
    obtain ⟨c, hc, hblank⟩ := Token.charAt_start ht hnew (hknown t ht)
    have := (h.before _ c hc hstart (by omega)).1
    simp [hblank] at this
  · exact .inr (h.eq_or_newline hknown ht hbehind (by omega)).1

end Removes

namespace Injection

variable {p : Package} {file : SourceFile} {statement : Tree} {guards : List Guard} {e : Edit}
  {anchor : Anchor}

/-! ### Texts that are put in -/

private theorem lexeme_of_newlines {pos : Nat} {cs : List Char} (h : ∀ c ∈ cs, c = '\n') :
    ∀ t ∈ readFrom pos cs, t.lexeme = .newline := by
  induction cs generalizing pos with
  | nil => simp [Token.readFrom_nil]
  | cons c cs ih =>
    obtain ⟨rfl, hcs⟩ := List.forall_mem_cons.mp h
    rw [Token.readFrom_newline]
    exact List.forall_mem_cons.mpr ⟨rfl, ih hcs⟩

private theorem plain_newline : Plain '\n' := .of_separates (by decide)

/-- What is left of the comment of a directive are newlines. -/
private theorem text_strip (file : SourceFile) (anchor : Anchor) :
    ∀ c ∈ (strip file anchor).text.toList, c = '\n' := by
  intro c hc
  unfold strip at hc
  split at hc
  · simp [Edit.remove] at hc
  · rw [Edit.replace, Text.newlinesOf, String.toList_ofList] at hc
    exact of_decide_eq_true (List.mem_filter.mp hc).2

/-- What is left of a directive is nothing but newlines. -/
theorem newline_of_mem_strip (file : SourceFile) (anchor : Anchor) :
    ∀ x ∈ signs (strip file anchor).text.toList, x.1 = .newline := by
  intro x hx
  obtain ⟨t, ht, rfl⟩ := List.mem_map.mp hx
  exact lexeme_of_newlines (text_strip file anchor) t ht

/-- To remove a directive is neat. -/
theorem neat_strip (h : file.OnTokens) (hanchor : anchor ∈ file.anchors) :
    Neat file.text (strip file anchor) := by
  obtain ⟨u, hu⟩ := exists_holds h hanchor
  obtain ⟨first, hfirst, hne⟩ := hu.removes.exists_first
  have htext := text_strip file anchor
  by_cases hempty : (strip file anchor).text = ""
  · exact .removal hempty hfirst hne
  have hlexeme := @lexeme_of_newlines 0 _ htext
  obtain ⟨c, cs, hcs⟩ := List.exists_cons_of_ne_nil fun hnil =>
    hempty (String.toList_eq_nil_iff.mp hnil)
  refine .insertion (by simp [hcs]) ?_ ?_ (.inr ⟨c, by rw [hcs]; rfl, ?_⟩)
  · refine ⟨fun t ht => ?_, ?_, fun hnull =>
      absurd (htext _ hnull) (by decide), fun t ht hcomment => ?_⟩
    · simp [hlexeme t ht]
    · rintro ⟨t, ht, _, _, hslash, _⟩
      simp [hlexeme t ht] at hslash
    · simp [hlexeme t ht] at hcomment
  · exact fun d hd => htext d (List.mem_of_getLast? hd) ▸ plain_newline
  · obtain rfl := htext c (by simp [hcs])
    exact ⟨plain_newline, .inl rfl⟩

private theorem getLast?_spelledAll (indent : String) (hne : guards ≠ []) :
    (Guard.spelledAll indent guards).toList.getLast? = some '\x7d' := by
  have hone : ∀ guard : Guard, (guard.spelled indent).toList.getLast? = some '\x7d' :=
    fun guard => by
    rw [Guard.spelled, String.toList_append, List.getLast?_append]
    rfl
  induction guards with
  | nil => exact absurd rfl hne
  | cons guard guards ih =>
    cases guards with
    | nil => simpa [Guard.spelledAll] using hone guard
    | cons next guards =>
      rw [Guard.spelledAll, List.map_cons, List.map_cons, String.intercalate_cons_cons,
        String.toList_append, List.getLast?_append, ← List.map_cons]
      rw [Guard.spelledAll] at ih
      rw [ih (List.cons_ne_nil _ _)]
      rfl

/-- Nothing goes on with the last character of guards. -/
private theorem plain_of_spellsGuards {text : String}
    (h : SpellsGuards file statement guards text) :
    ∀ d ∈ text.toList.getLast?, Plain d := by
  obtain ⟨before, after, hblank, rfl⟩ := h
  have hplain : ∀ d ∈ before.toList ++ after.toList, Plain d := fun d hd =>
    .of_separates (by simp [Token.separates, hblank d hd])
  intro d hd
  rw [String.toList_append, List.getLast?_append] at hd
  rcases Option.or_eq_some_iff.mp hd with hd | ⟨_, hd⟩
  · exact hplain d (List.mem_append_right _ (List.mem_of_getLast? hd))
  rw [String.toList_append, List.getLast?_append] at hd
  by_cases hnil : guards = []
  · rw [hnil] at hd
    exact hplain d (List.mem_append_left _
      (List.mem_of_getLast? (by simpa [Guard.spelledAll] using hd)))
  · rw [getLast?_spelledAll _ hnil, Option.some_or] at hd
    exact Option.some.inj hd ▸ .of_separates (by decide)

/-- What stands before the beginning of a line is a newline. -/
private theorem newline_before {s : String} {pos prev : Nat} {c : Char} (h : Boundary s pos)
    (hc : CharAt s prev c) (hnext : prev + c.utf8Size = Text.lineStart s pos) : c = '\n' := by
  rcases Text.lineStart_cases h with hzero | ⟨last, hlast, hend⟩
  · have := c.utf8Size_pos
    omega
  · exact (hc.unique_next hlast (hnext.trans hend.symm)).2

/-- To insert guards before a statement is neat. -/
theorem neat_insertBefore (hseated : Seated (readAll file.text) statement)
    (hlegible : Legible (insertBefore file statement guards).text) :
    Neat file.text (insertBefore file statement guards) := by
  obtain ⟨v, hv, _, hstart⟩ := hseated.start
  have hlast := plain_of_spellsGuards (spellsGuards_insertBefore file statement guards).2
  unfold insertBefore at hlegible hlast ⊢
  dsimp only at hlegible hlast ⊢
  by_cases hstarts : Text.startsLine file.text statement.start = true
  · rw [if_pos hstarts] at hlegible hlast ⊢
    refine .insertion (by simp [Edit.insert]) hlegible hlast (.inl fun pos c hc hnext => ?_)
    rw [Edit.insert, hstart] at hnext
    exact newline_before (Token.boundaries hv).1 hc hnext
  · rw [if_neg hstarts] at hlegible hlast ⊢
    exact .insertion (by simp [Edit.insert]) hlegible hlast
      (.inr ⟨'\n', by simp [Edit.insert], plain_newline, .inl rfl⟩)

/-- To insert guards behind a statement is neat. -/
theorem neat_insertAfter (hlegible : Legible (insertAfter file statement guards).text) :
    Neat file.text (insertAfter file statement guards) := by
  have hlast := plain_of_spellsGuards (spellsGuards_insertAfter file statement guards).2
  have hhead : (insertAfter file statement guards).text.toList.head? = some '\n' := by
    unfold insertAfter
    dsimp only
    split <;> simp [Edit.insert]
  refine .insertion (fun hnil => ?_) hlegible hlast (.inr ⟨'\n', hhead, plain_newline, .inl rfl⟩)
  simp [hnil] at hhead

/-! ### Places -/

section

variable (hknown : ∀ t ∈ readAll file.text, t.lexeme ≠ .unknown)
include hknown

/-- Guards go before the first token of a statement. -/
theorem onSeams_insertBefore (hseated : Seated (readAll file.text) statement) :
    OnSeams file.text (insertBefore file statement guards) := by
  obtain ⟨v, hv, _, hstart⟩ := hseated.start
  unfold insertBefore
  dsimp only
  rw [hstart]
  split
  · next hstarts =>
    have hwhole := Token.whole_lineStart hknown hv hstarts
    exact ⟨Token.origin_le_lineStart hv hstarts, hwhole, hwhole⟩
  · have hwhole := Token.whole_start hknown hv
    exact ⟨Token.origin_le_start hv, hwhole, hwhole⟩

/-- Guards go behind the last token of a statement. -/
theorem onSeams_insertAfter (hnull : '\x00' ∉ file.text.toList)
    (hseated : Seated (readAll file.text) statement) :
    OnSeams file.text (insertAfter file statement guards) := by
  obtain ⟨v, hv, hstop, _⟩ := hseated.stop
  have hpos := (Token.ordered_readAll file.text).1 v hv
  have hboundary := (Token.boundaries hv).2
  unfold insertAfter
  dsimp only
  rw [hstop]
  split
  · next hremark =>
    have hrun := Text.lineEnd_run hboundary
    have hwhole := (endsInRemark hnull hv hremark).whole hknown hv
    have hbehind : 0 < Text.lineEnd file.text v.stop := by
      have := hrun.le
      omega
    exact ⟨Token.origin_le_of_pos hrun.boundary hbehind, hwhole, hwhole⟩
  · have hwhole := Token.whole_stop hknown hv
    have hbehind : 0 < v.stop := by omega
    exact ⟨Token.origin_le_of_pos hboundary hbehind, hwhole, hwhole⟩

end

/-! ### Names and operators -/

section

variable (h : file.OnTokens) {naming : Tree × ErrorTarget} (hnaming : naming ∈ file.namings p)
include h hnaming

/-- A blank that gets a name is a word of its own. -/
theorem exists_blank : ∃ u ∈ readAll file.text, u.lexeme = .word ∧ u.text = "_" ∧
    naming.1.start = u.start ∧ naming.1.stop = u.stop := by
  obtain ⟨hmem, hblank, htext⟩ := isIdentifier_of_mem_namings h hnaming
  obtain ⟨u, hu, hword, hstart, hstop⟩ := exists_word h hmem hblank
  refine ⟨u, hu, hword, ?_, hstart, hstop⟩
  rw [Token.text_eq hu, ← hstart, ← hstop]
  exact htext

/-- An operator that is promoted is a symbol of its own. -/
theorem exists_operator {operator : Tree} (hoperator : naming.2.operator? = some operator) :
    ∃ u ∈ readAll file.text, u.lexeme = .symbol '=' ∧ u.text = "=" ∧
      operator.start = u.start ∧ operator.stop = u.stop := by
  obtain ⟨assignment, hnames⟩ := exists_names h.inOrder (show (naming.1, naming.2) ∈ _ from hnaming)
  obtain ⟨hmark, _⟩ := hnames.operator_marks h hoperator
  obtain ⟨u, hu, _, hstart⟩ := hmark.token
  obtain ⟨a, c, rest, hs, ha, hfront⟩ := Token.exists_front_readAll hu
  obtain rfl : c = '=' := CharAt.unique ⟨a, rest, hs, ha⟩ (hstart ▸ hmark.charAt)
  rw [Token.front?, Token.scan_lone (by simp)] at hfront
  have hu' := Option.some.inj hfront
  refine ⟨u, hu, by rw [← hu'], by rw [← hu']; rfl, hstart, ?_⟩
  rw [hmark.stop, hstart, ← hu']
  rfl

/-- To rename a blank is neat. -/
theorem neat_rename (he : e ∈ rename naming) : Neat file.text e := by
  obtain ⟨assignment, hnames⟩ := exists_names h.inOrder (show (naming.1, naming.2) ∈ _ from hnaming)
  rw [rename] at he
  rcases List.mem_cons.mp he with rfl | he
  · obtain ⟨hmark, _⟩ := hnames.blank_marks h
    obtain ⟨u, hu, hword, _, _, hstop⟩ := exists_blank h hnaming
    obtain ⟨_, _, _, _, _, hname⟩ :=
      errorName_of_mem_namings h.inOrder (show (naming.1, naming.2) ∈ _ from hnaming)
    obtain ⟨rest, htext, hrest⟩ := toList_placeholderName _
    refine .naming (hname ▸ htext) hrest hmark.charAt hmark.stop fun d hd => ?_
    exact Token.isIdentifierPart_behind hu hword (hstop ▸ hd)
  · obtain ⟨operator, hoperator, rfl⟩ := Option.map_eq_some_iff.mp (Option.mem_toList.mp he)
    obtain ⟨hmark, _⟩ := hnames.operator_marks h hoperator
    have hplain : ∀ d ∈ [':', '='], Plain d := by
      intro d hd
      rcases List.mem_pair.mp hd with rfl | rfl
      · exact ⟨by constructor <;> decide, by decide +kernel, by decide, by decide⟩
      · exact ⟨by constructor <;> decide, by decide +kernel, by decide, by decide⟩
    have htext : (Edit.replace operator.start operator.stop ":=").text.toList = [':', '='] := by
      simp [Edit.replace]
    refine .insertion (by simp [htext]) (show Legible ":=" by decide +kernel) (fun d hd => ?_)
      (.inr ⟨':', by simp [htext], hplain _ (by simp), .inr ⟨'=', hmark.charAt, by decide⟩⟩)
    rw [htext] at hd
    exact hplain d (List.mem_of_getLast? hd)

/-- A blank is renamed as a whole. -/
theorem onSeams_rename (hknown : ∀ t ∈ readAll file.text, t.lexeme ≠ .unknown)
    (he : e ∈ rename naming) : OnSeams file.text e := by
  have hseams : ∀ {u : Token}, u ∈ readAll file.text → e.start = u.start → e.stop = u.stop →
      OnSeams file.text e := by
    intro u hu hstart hstop
    exact ⟨hstart ▸ Token.origin_le_start hu, hstart ▸ Token.whole_start hknown hu,
      hstop ▸ Token.whole_stop hknown hu⟩
  rw [rename] at he
  rcases List.mem_cons.mp he with rfl | he
  · obtain ⟨u, hu, _, _, hstart, hstop⟩ := exists_blank h hnaming
    exact hseams hu hstart hstop
  · obtain ⟨operator, hoperator, rfl⟩ := Option.map_eq_some_iff.mp (Option.mem_toList.mp he)
    obtain ⟨u, hu, _, _, hstart, hstop⟩ := exists_operator h hnaming hoperator
    exact hseams hu hstart hstop

end

/-! ### Imports -/

private theorem getLast?_join {paths : List String} {c : Char} {line : String → String}
    (hne : paths ≠ []) (h : ∀ path, (line path).toList.getLast? = some c) :
    (String.join (paths.map line)).toList.getLast? = some c := by
  induction paths with
  | nil => exact absurd rfl hne
  | cons path paths ih =>
    rw [List.map_cons, String.join_cons, String.toList_append, List.getLast?_append, h]
    by_cases hnil : paths = []
    · simp [hnil]
    · rw [ih hnil]
      rfl

private theorem getLast?_importClause (path : String) :
    (SourceFile.importClause path).toList.getLast? = some '"' := by
  rw [SourceFile.importClause, String.toList_append, List.getLast?_append]
  rfl

private theorem getLast?_importLine (path : String) :
    (SourceFile.importLine path).toList.getLast? = some '\n' := by
  rw [SourceFile.importLine, String.toList_append, List.getLast?_append]
  rfl

private theorem plain_of_mem_ends {d : Char} (hd : d ∈ ['"', ')', '\n']) : Plain d := by
  simp only [List.mem_cons, List.not_mem_nil, or_false] at hd
  rcases hd with rfl | rfl | rfl
  · exact ⟨by constructor <;> decide, by decide +kernel, by decide, by decide⟩
  · exact .of_separates (by decide)
  · exact plain_newline

/-- What adds imports ends with one of few characters. -/
private theorem getLast?_addImports {paths : List String} (hne : paths ≠ []) :
    ∃ d ∈ ['"', ')', '\n'], (file.addImports paths).text.toList.getLast? = some d := by
  unfold SourceFile.addImports
  split
  · unfold SourceFile.extendImportList
    dsimp only
    refine ⟨'\n', by simp, ?_⟩
    split
    · exact getLast?_join hne getLast?_importLine
    · rw [Edit.insert, String.toList_append, List.getLast?_append,
        getLast?_join hne getLast?_importLine]
      rfl
  · refine ⟨'"', by simp, getLast?_join hne fun path => ?_⟩
    rw [String.toList_append, List.getLast?_append, getLast?_importClause]
    rfl
  · unfold SourceFile.importBlock
    split
    · exact ⟨'"', by simp, by
        rw [Edit.insert, String.toList_append, List.getLast?_append, getLast?_importClause]
        rfl⟩
    · exact ⟨')', by simp, by
        rw [Edit.insert, String.toList_append, String.toList_append, List.getLast?_append,
          List.getLast?_append]
        rfl⟩

/-- What adds imports goes where a line begins, or begins with a newline. -/
private theorem exists_lineStart_addImports {paths : List String} (hne : paths ≠ [])
    (hlist : ∀ list, file.importList? = some list → Boundary file.text (list.stop - 1)) :
    (∃ pos, Boundary file.text pos ∧ (file.addImports paths).start = Text.lineStart file.text pos) ∨
      (file.addImports paths).text.toList.head? = some '\n' := by
  unfold SourceFile.addImports
  split
  · next list hsome =>
    unfold SourceFile.extendImportList
    dsimp only
    split
    · exact .inl ⟨_, hlist list hsome, rfl⟩
    · exact .inr (by simp [Edit.insert])
  · obtain ⟨path, paths, rfl⟩ := List.exists_cons_of_ne_nil hne
    exact .inr (by simp [Edit.insert])
  · exact .inr (by simp [Edit.insert])

/-- To add imports is neat. -/
theorem neat_importEdit {needed : List String}
    (hlist : ∀ list, file.importList? = some list → Boundary file.text (list.stop - 1))
    (he : file.importEdit? needed = some e) (hlegible : Legible e.text) : Neat file.text e := by
  unfold SourceFile.importEdit? at he
  split at he
  · simp at he
  · next hne =>
    obtain rfl := Option.some.inj he
    obtain ⟨d, hd, hlast⟩ := @getLast?_addImports file _ hne
    have hplain : ∀ c ∈ (file.addImports _).text.toList.getLast?, Plain c := fun c hc =>
      Option.some.inj (hlast.symm.trans hc) ▸ plain_of_mem_ends hd
    refine .insertion (fun hnil => by simp [hnil] at hlast) hlegible hplain ?_
    rcases exists_lineStart_addImports hne hlist with ⟨pos, hpos, hstart⟩ | hhead
    · exact .inl fun prev c hc hnext => newline_before hpos hc (hnext.trans hstart)
    · exact .inr ⟨'\n', hhead, plain_newline, .inl rfl⟩

end Injection

end GoContracts

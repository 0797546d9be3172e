import GoContracts.Proofs.Weaving.ImportTexts
import GoContracts.Proofs.Weaving.Removal

/-!
# Imports that are added

The edit that adds imports puts its text where no token is open: behind the line of a declaration,
or before the parenthesis that closes a list of imports. Reading the result gives the imports of the
file and those that were added.
-/

namespace GoContracts

open Syntax (Token Tree)
open Syntax.Token (readFrom readAll moved Whole)
open Syntax.Grammar (Heads isSolid significant)
open Text (CharAt Boundary Between isBlank)

/-! ### Places -/

namespace EndsInRemark

variable {s : String} {t v : Token}

/-- Behind such a position only a comment stands on the line. -/
theorem comment_of_lt (h : EndsInRemark s v.stop) (hknown : ∀ t ∈ readAll s, t.lexeme ≠ .unknown)
    (hv : v ∈ readAll s) (ht : t ∈ readAll s) (hle : v.stop ≤ t.start)
    (hlt : t.start < Text.lineEnd s v.stop) :
    t.lexeme = .comment ∧ t.stop = Text.lineEnd s v.stop := by
  have hrun := Text.lineEnd_run (Token.boundaries hv).2
  have hnew : t.lexeme ≠ .newline := fun hnew =>
    absurd (hrun.run _ _ (Token.charAt_newline ht hnew).1 hle hlt) (by decide)
  obtain ⟨c, hc, hblank⟩ := Token.charAt_start ht hnew (hknown t ht)
  rcases h with hrest | ⟨r, hr, hcomment, _, hstop, hspace⟩
  · have := hrest _ c hc hle hlt
    simp [hblank] at this
  · by_cases hne : t = r
    · exact hne ▸ ⟨hcomment, hstop⟩
    · rcases Token.apart_of_ne ht hr hne with hbefore | hbehind
      · have := (Token.ordered_readAll s).1 t ht
        have := hspace _ c hc hle (by omega)
        simp [hblank] at this
      · omega

/-- No token is open where such a line ends. -/
theorem whole (h : EndsInRemark s v.stop) (hknown : ∀ t ∈ readAll s, t.lexeme ≠ .unknown)
    (hv : v ∈ readAll s) : Whole (readAll s) (Text.lineEnd s v.stop) := by
  have hle := (Text.lineEnd_run (Token.boundaries hv).2).le
  intro t ht
  refine ⟨hknown t ht, ?_⟩
  by_cases hne : t = v
  · exact .inl (hne ▸ hle)
  rcases Token.apart_of_ne ht hv hne with hbefore | hbehind
  · have := (Token.ordered_readAll s).1 v hv
    exact .inl (by omega)
  · by_cases hlt : t.start < Text.lineEnd s v.stop
    · exact .inl (h.comment_of_lt hknown hv ht hbehind hlt).2.le
    · exact .inr (by omega)

end EndsInRemark

/-- The newline before a place where no token is open is a token. -/
theorem exists_newline_token {s : String} {prev : Nat}
    (hknown : ∀ u ∈ readAll s, u.lexeme ≠ .unknown)
    (hprev : CharAt s prev '\n') (hwhole : Whole (readAll s) (prev + 1)) :
    ∃ t ∈ readAll s, t.lexeme = .newline ∧ t.stop = prev + 1 := by
  obtain ⟨t, ht, _, hle, hlt⟩ := Token.exists_mem_readAll_of_isGap hprev (by decide) (by decide)
  have hstop : t.stop = prev + 1 := by
    have := (hwhole t ht).2
    omega
  refine ⟨t, ht, ?_, hstop⟩
  by_contra hnew
  by_cases hcomment : t.lexeme = .comment
  · rcases (Token.charAt_comment ht hcomment).2 with ⟨hline, _⟩ | ⟨_, last, hlast, hend, _⟩
    · exact hline prev _ hprev hle hlt rfl
    · obtain rfl : last = prev := by omega
      exact absurd (hlast.unique hprev) (by decide)
  · obtain ⟨last, d, hlast, hend, _, hd⟩ := Token.charAt_last ht ⟨hnew, hcomment, hknown t ht⟩
    obtain ⟨_, rfl⟩ := hlast.unique_next hprev (by rw [hend, hstop]; rfl)
    exact absurd hd (by decide)

section

variable {s : String} {u v : Token} {new : List Char}
  (hknown : ∀ u ∈ readAll s, u.lexeme ≠ .unknown)
  (hnull : '\x00' ∉ s.toList) (hu : u ∈ readAll s) (hsymbol : u.lexeme = .symbol ')')
  (hstar : '*' ∉ new)

include hknown hnull hu hsymbol hstar

/-- A text that is put in before a symbol is read before that symbol. -/
theorem readAll_symbol (hpos : 0 < u.start) (hnew : new.head? = some '\n') :
    ∃ x z ts rest, s.toList = x ++ z ∧ Text.byteLength x = u.start ∧ readAll s = ts ++ u :: rest ∧
      readFrom (Text.byteLength x) z = u :: rest ∧
      readAll (String.ofList (x ++ (new ++ z))) = ts ++
        readFrom (Text.byteLength x) (new ++ z) := by
  have hboundary := (Token.boundaries hu).1
  obtain ⟨x, hs, hx⟩ := hboundary.exists_behind
  have hread := Token.readFrom_behind hu
  have hwhole := Token.whole_start hknown hu
  obtain ⟨z, hz⟩ : ∃ z, Text.behind s u.start = ')' :: z := by
    obtain ⟨a, b, hs', ha⟩ := (Token.charAt_symbol hu hsymbol).1
    exact ⟨b, ha ▸ Text.behind_eq hs'⟩
  rw [hz] at hs hread
  rw [← hx] at hread hwhole
  have hne : x ≠ [] := by
    rintro rfl
    rw [Text.byteLength_nil] at hx
    omega
  have hhead : (new ++ ')' :: z).head? = some '\n' := by
    rw [List.head?_append, hnew, Option.some_or]
  obtain ⟨ts, hold, hput, _⟩ := Token.readAll_insert hs hne hnull (.inl hhead)
    (.inr fun c hc => Option.some.inj (hhead.symm.trans hc) ▸ rfl) hstar hwhole
  exact ⟨x, _, ts, _, hs, hx, hold.trans (by rw [hread]), hread, hput⟩

/-- A text that is put in where the line of a symbol begins is read behind the newline before that
line. -/
theorem readAll_lineStart (hstarts : Text.startsLine s u.start = true)
    (hv : v ∈ readAll s) (hsolid : isSolid v = true) (hbefore : v.stop ≤ u.start) :
    ∃ x z ts m rest, s.toList = x ++ z ∧ Text.byteLength x = Text.lineStart s u.start ∧
      m.lexeme = .newline ∧ readAll s = ts ++ m :: u :: rest ∧
      readFrom (Text.byteLength x) z = u :: rest ∧ readAll (String.ofList (x ++ (new ++ z))) =
        ts ++ m :: readFrom (Text.byteLength x) (new ++ z) := by
  have hboundary := (Token.boundaries hu).1
  have hrun := Text.lineStart_run hboundary
  have hblank := (Text.startsLine_iff hboundary).mp hstarts
  have hwhole := Token.whole_lineStart hknown hu hstarts
  -- The token before the symbol stands on an earlier line.
  obtain ⟨prev, hprev, hnext⟩ : ∃ prev, CharAt s prev '\n' ∧ prev + 1 =
    Text.lineStart s u.start := by
    refine (Text.lineStart_cases hboundary).resolve_left fun hzero => ?_
    simp only [isSolid, Bool.and_eq_true, decide_eq_true_eq] at hsolid
    obtain ⟨last, c, hc, hend, _, hnot⟩ := Token.charAt_last hv ⟨hsolid.1, hsolid.2, hknown v hv⟩
    have := c.utf8Size_pos
    have := hblank last c hc (by omega) (by omega)
    simp [hnot] at this
  obtain ⟨t, ht, hbreak, hend⟩ := exists_newline_token hknown hprev (hnext ▸ hwhole)
  obtain ⟨a, z, hs, ha⟩ := hprev
  rw [List.append_cons] at hs
  have hx : Text.byteLength (a ++ ['\n']) = Text.lineStart s u.start := by
    rw [Text.byteLength_append, ha]
    exact hnext
  obtain ⟨g, hg, hz, hlength⟩ : ∃ g, (∀ c ∈ g, isBlank c = true ∧ c ≠ '\n') ∧
      z = g ++ Text.behind s u.start ∧ Text.lineStart s u.start + Text.byteLength g = u.start := by
    obtain ⟨hcut, hlength⟩ := Text.behind_cut hrun.boundary hboundary hrun.le
    rw [← hx, Text.behind_eq hs, hx] at hcut
    refine ⟨_, ?_, hcut, hlength⟩
    rw [Text.forall_mem_slice hrun.boundary hboundary hrun.le
      (P := fun c => isBlank c = true ∧ c ≠ '\n')]
    exact fun pos c hc hle hlt =>
      ⟨hblank pos c hc hle hlt, by simpa using hrun.run pos c hc hle hlt⟩
  obtain ⟨more, hmore⟩ : ∃ more, Text.behind s u.start = ')' :: more := by
    obtain ⟨b, more, hs', hb⟩ := (Token.charAt_symbol hu hsymbol).1
    exact ⟨more, hb ▸ Text.behind_eq hs'⟩
  have hfirst : ∃ d, z.head? = some d ∧ d ≠ '\n' := by
    rw [hz, hmore]
    cases g with
    | nil => exact ⟨_, rfl, by decide⟩
    | cons c g => exact ⟨c, rfl, (hg c (List.mem_cons_self ..)).2⟩
  rw [← hx] at hwhole
  obtain ⟨ts, hold, hput, hbound⟩ := Token.readAll_insert hs (by simp) hnull (.inr hfirst)
    (.inl fun e he => by
      rw [List.getLast?_concat] at he
      exact Option.some.inj he ▸ rfl) hstar hwhole
  have hread : readFrom (Text.byteLength (a ++ ['\n'])) z =
      u :: readFrom u.stop (Text.behind s u.stop) := by
    have hblanks : readFrom (Text.byteLength (a ++ ['\n'])) (g ++ Text.behind s u.start) =
        readFrom (Text.byteLength (a ++ ['\n']) + Text.byteLength g) (Text.behind s u.start) :=
      Token.readFrom_blanks hg fun t ht => hknown t (hold ▸ List.mem_append_right _ (hz ▸ ht))
    rw [hz, hblanks, hx, hlength, Token.readFrom_behind hu]
  -- The newline before the line is the last token before the place.
  obtain ⟨front, rfl⟩ : ∃ front, ts = front ++ [t] := by
    have hordered := Token.ordered_readAll s
    have hpos := hordered.1 t ht
    have hmem : t ∈ ts := by
      rw [hold] at ht
      refine (List.mem_append.mp ht).resolve_right fun hmem => ?_
      have := (Token.bounds_of_mem hmem).1
      omega
    obtain ⟨front, later, rfl⟩ := List.append_of_mem hmem
    cases later with
    | nil => exact ⟨front, rfl⟩
    | cons c later =>
      have := (List.pairwise_cons.mp (hold ▸ hordered).left.right.2).1 c (List.mem_cons_self ..)
      have := hordered.1 c (by simp [hold])
      have := hbound c (by simp)
      omega
  exact ⟨_, z, front, t, _, hs, hx, hbreak, by rw [hold, hread, ← List.append_cons], hread,
    by rw [hput, ← List.append_cons]⟩

end

/-- An insertion puts its text between what stands before and behind its place. -/
theorem Edit.applyAll_insert {s new : String} {x z : List Char} (hs : s.toList = x ++ z) :
    Edit.applyAll s [.insert (Text.byteLength x) new] =
      String.ofList (x ++ (new.toList ++ z)) := by
  have hsize : Text.size s = Text.byteLength x + Text.byteLength z := by
    rw [Text.size_eq, hs, Text.byteLength_append]
  have hbefore := Text.slice_ofList [] x z
  have hbehind := Text.slice_ofList x z []
  rw [List.nil_append, ← hs, String.ofList_toList, Text.byteLength_nil, Nat.zero_add] at hbefore
  rw [List.append_nil, ← hs, String.ofList_toList, ← hsize] at hbehind
  have hfits : ¬(Text.byteLength x < 0 || Text.size s < Text.byteLength x) = true := by
    simp [hsize]
  rw [applyAll, List.mergeSort_singleton, splice, insert, if_neg hfits, splice, hbefore, hbehind]
  simp [String.ofList_append, String.append_assoc]

section

variable {s : String} {v : Token} {new : List Char} (hknown : ∀ u ∈ readAll s, u.lexeme ≠ .unknown)
  (hnull : '\x00' ∉ s.toList)

include hknown hnull

/-- A text that is put in behind the line of a token is read behind that token. -/
theorem significant_lineEnd (hv : v ∈ readAll s) (hsolid : isSolid v = true)
    (hremark : Injection.isRemark (Text.slice s v.stop (Text.lineEnd s v.stop)) = true)
    (hnew : new.head? = some '\n') (hstar : '*' ∉ new) :
    ∃ x z front, s.toList = x ++ z ∧ Text.byteLength x = Text.lineEnd s v.stop ∧
      significant (readAll s) = front ++ v :: significant (readFrom (Text.byteLength x) z) ∧
      significant (readAll (String.ofList (x ++ (new ++ z)))) =
        front ++ v :: significant (readFrom (Text.byteLength x) (new ++ z)) := by
  have hboundary := (Token.boundaries hv).2
  have hends := endsInRemark hnull hv hremark
  obtain ⟨x, z, hs, hx⟩ := (Text.lineEnd_run hboundary).boundary
  have hle := (Text.lineEnd_run hboundary).le
  have hordered := Token.ordered_readAll s
  have hpos := hordered.1 v hv
  have hcomment := fun t ht => hends.comment_of_lt hknown hv (t := t) ht
  have hwhole := hends.whole hknown hv
  rw [← hx] at hwhole hcomment hle
  have hne : x ≠ [] := by
    rintro rfl
    rw [Text.byteLength_nil] at hle
    omega
  have hhead : (new ++ z).head? = some '\n' := by rw [List.head?_append, hnew, Option.some_or]
  obtain ⟨ts, hold, hread, hbound⟩ := Token.readAll_insert hs hne hnull (.inl hhead)
    (.inr fun c hc => Option.some.inj (hhead.symm.trans hc) ▸ rfl) hstar hwhole
  have hbefore : v ∈ ts := by
    rw [hold] at hv
    refine (List.mem_append.mp hv).resolve_right fun hmem => ?_
    have := (Token.bounds_of_mem hmem).1
    omega
  obtain ⟨front, remarks, rfl⟩ := List.append_of_mem hbefore
  -- Only comments stand between the token and the end of its line.
  have hremarks : ∀ c ∈ remarks, c.lexeme = .comment := by
    intro c hc
    have hmem : c ∈ readAll s := by simp [hold, hc]
    have hlater : v.stop ≤ c.start :=
      (List.pairwise_cons.mp (hold ▸ hordered).left.right.2).1 c hc
    have := hordered.1 c hmem
    have := hbound c (by simp [hc])
    exact (hcomment c hmem hlater (by omega)).1
  have hsplit : ∀ rest, significant (front ++ v :: remarks ++ rest) =
      significant front ++ v :: significant rest := by
    intro rest
    rw [List.append_assoc, List.cons_append, Syntax.Grammar.significant_append_solid _ hsolid,
      Syntax.Grammar.significant_comments hremarks]
  exact ⟨x, z, significant front, hs, hx, by rw [hold, hsplit], by rw [hread, hsplit]⟩

end

namespace SourceFile

open Import (Header Item Specs Declares Lines IsPath importsOf)

variable {path text new : String} {ds : List Tree} {d l : Tree} {paths : List String}
  {ts : List Token}

/-- Lines before the parenthesis that closes a list of imports are read. -/
theorem header_lines {before lines rest : List Token} {closing : Token}
    (h : Header (Heads text) ds (significant (readAll text)))
    (hread : readAll text = ts ++ closing :: rest) (hd : d ∈ ds) (hl : l ∈ d.children)
    (hlabel : l.label = .node .importSpecList) (hc : closing.lexeme = .symbol ')')
    (hstop : l.stop = closing.stop) (hbefore : ∃ m : Token, m.lexeme = .newline ∧
      (significant before = significant ts ++ [m] ∨
        significant before = significant ts ∧ (significant ts).getLast? = some m))
    (hlines : Lines paths lines) (n : Nat) : ∃ earlier is later,
      importsOf text ds = earlier ++ is :: later ∧
      Header Item (earlier ++ (is ++ paths.map .plain) :: later)
        (significant (before ++ (lines ++ closing.moved n :: rest.map (moved n)))) := by
  obtain ⟨front, body, closing', rest', earlier, is, later, hts, hc', hstop', hfront, himports,
    hspecs, hput⟩ := h.within hd hl hlabel
  have hsolid : isSolid closing = true := by simp [isSolid, hc]
  have hsub := Syntax.Grammar.significant_sublist (readAll text)
  have hordered := Token.ordered_readAll text
  have hmem : closing ∈ readAll text := by simp [hread]
  have hmem' : closing' ∈ readAll text := hsub.subset (hts ▸ by simp)
  obtain rfl : closing' = closing := by
    by_contra hne
    have := hordered.1 closing hmem
    have := hordered.1 closing' hmem'
    rcases Token.apart_of_ne hmem' hmem hne with hle | hle <;> omega
  have hordered := hordered.sublist hsub
  rw [hread, Syntax.Grammar.significant_append_solid ts hsolid] at hts hordered
  rw [← List.append_assoc] at hts
  obtain ⟨hsplit, rfl⟩ := hordered.append_cons_inj hts
  obtain ⟨own, hown, hlisted, m, hlast, hm⟩ : ∃ own, significant before = front ++ own ∧
      Specs own is ∧ ∃ m, own.getLast? = some m ∧ m.lexeme = .newline := by
    obtain ⟨m, hm, heq | ⟨heq, hlast⟩⟩ := hbefore
    · refine ⟨body ++ [m], by rw [heq, hsplit, List.append_assoc],
        hspecs.trailed (Syntax.allNewlines_singleton hm), m, ?_, hm⟩
      exact List.getLast?_concat
    · rw [hsplit] at heq hlast
      have hne : body ≠ [] := by
        rintro rfl
        rw [List.append_nil] at hlast
        simp [hlast, isSolid, hm] at hfront
      rw [List.getLast?_append_of_ne_nil front hne] at hlast
      exact ⟨body, heq, hspecs, m, hlast, hm⟩
  refine ⟨earlier, is, later, himports, ?_⟩
  have hsolid' : isSolid (closing'.moved n) = true := hsolid
  rw [hlines.significant_append hsolid', Syntax.Grammar.significant_map_moved, hown,
    List.append_assoc, ← List.append_assoc own]
  exact hput (own ++ lines) _ n (hlisted.append_behind hlast hm hlines.specs)

section

variable (hknown : ∀ u ∈ readAll text, u.lexeme ≠ .unknown) (hnull : '\x00' ∉ text.toList)

include hknown hnull

/-- Declarations behind the line of the last item of a header are read. -/
theorem imports_behind (h : Header (Heads text) ds (significant (readAll text)))
    (hlast : ds.getLast? = some d)
    (hremark : Injection.isRemark (Text.slice text d.stop (Text.lineEnd text d.stop)) = true)
    (hnew : new.toList.head? = some '\n') (hstar : '*' ∉ new.toList)
    (hcuts : ∀ pos, ∃ ts, Declares paths ts ∧ Syntax.Token.Cuts pos new.toList ts) :
    (parse path (Edit.applyAll text [.insert (Text.lineEnd text d.stop) new])).imports =
      (importsOf text ds).flatten ++ paths.map .plain := by
  obtain ⟨own, tail, last, hts, htoken, hsolid, hstop, hterminator, hwords, hput⟩ := h.behind hlast
  obtain ⟨a, rfl⟩ := List.getLast?_eq_some_iff.mp htoken
  rw [← List.append_cons] at hts
  have hsub := Syntax.Grammar.significant_sublist (readAll text)
  have hmem : last ∈ readAll text := hsub.subset (hts ▸ by simp)
  rw [hstop] at hremark ⊢
  obtain ⟨x, z, front, hs, hx, hold, hread⟩ :=
    significant_lineEnd hknown hnull hmem hsolid hremark hnew hstar
  obtain ⟨rfl, rfl⟩ := (hts ▸ (Token.ordered_readAll text).sublist hsub).append_cons_inj
    (hts.symm.trans hold)
  obtain ⟨added, hdeclares, hadded⟩ := hcuts (Text.byteLength x)
  have hmoved := Syntax.Grammar.significant_map_moved (Text.byteLength new.toList)
    (readFrom (Text.byteLength x) z)
  obtain ⟨m, body, iss, hbody, hm, hheader, himports⟩ := hdeclares
    ((readFrom (Text.byteLength x) z).map (moved (Text.byteLength new.toList)))
    (by
      rw [hmoved, List.head?_map]
      rintro m hm
      obtain ⟨u, hu, rfl⟩ := Option.map_eq_some_iff.mp hm
      exact hterminator u hu)
    (by
      rw [hmoved]
      exact List.forall_mem_map.mpr hwords)
  rw [hadded z, Token.readFrom_add, hbody, List.append_cons] at hread
  have hwhole := hput m body iss hm hheader
  rw [← hread] at hwhole
  rw [← hx, Edit.applyAll_insert hs, imports_of_header hwhole, List.flatten_append, himports]

/-- Lines at the end of a list of imports are read. -/
theorem imports_within (path : String) (h : Header (Heads text) ds (significant (readAll text)))
    (hd : d ∈ ds)
    (hl : l ∈ d.children) (hlabel : l.label = .node .importSpecList) {file : SourceFile}
    (htext : file.text = text) {list : Tree} (hlist : list.stop = l.stop)
    (hpaths : ∀ path ∈ paths, IsPath path) :
    ∃ before is after, importsOf text ds = before ++ is :: after ∧
      (parse path (Edit.applyAll text [file.extendImportList list paths])).imports =
        before.flatten ++ (is ++ paths.map .plain) ++ after.flatten := by
  obtain ⟨front, body, closing, rest, before, is, after, hts, hc, hstop, hfront, himports, hspecs,
    hput⟩ := h.within hd hl hlabel
  have hsub := Syntax.Grammar.significant_sublist (readAll text)
  have hclosing : closing ∈ readAll text := hsub.subset (hts ▸ by simp)
  have hclose : list.stop - 1 = closing.start := by
    have := (Token.charAt_symbol hclosing hc).2
    have hone : Char.utf8Size ')' = 1 := rfl
    omega
  obtain ⟨v, hv, hsolid⟩ : ∃ v, front.getLast? = some v ∧ isSolid v = true := by
    cases hlast : front.getLast? with
    | none => simp [hlast] at hfront
    | some v => exact ⟨v, rfl, by simpa [hlast] using hfront⟩
  have hbefore : v ∈ readAll text ∧ v.stop ≤ closing.start := by
    have hmem : v ∈ front := List.mem_of_getLast? hv
    have hordered := (Token.ordered_readAll text).sublist hsub
    rw [hts, ← List.append_assoc] at hordered
    exact ⟨hsub.subset (hts ▸ List.mem_append_left _ hmem),
      (List.pairwise_append.mp hordered.2).2.2 v
      (List.mem_append_left _ hmem) closing (List.mem_cons_self ..)⟩
  have hpos := (Token.ordered_readAll text).1 v hbefore.1
  by_cases hstarts : Text.startsLine text closing.start = true
  · have hedit : file.extendImportList list paths = .insert (Text.lineStart text closing.start)
        (String.join (paths.map importLine)) := by
      simp [extendImportList, htext, hclose, hstarts]
    obtain ⟨x, z, ts, m, rest, hs, hx, hm, hold, hbehind, hread⟩ := readAll_lineStart hknown hnull
      hclosing hc (Import.star_notMem_lines hpaths) hstarts hbefore.1 hsolid hbefore.2
    obtain ⟨lines, hlines, hcuts⟩ := Import.exists_lines hpaths (Text.byteLength x)
    rw [List.append_cons] at hold
    obtain ⟨k, hk, hlast⟩ : ∃ k : Token, k.lexeme = .newline ∧
        (significant (ts ++ [m])).getLast? = some k := by
      obtain ⟨k, hk, heq | ⟨heq, hlast⟩⟩ := Syntax.Grammar.significant_concat ts hm
      · exact ⟨k, hk, by rw [heq, List.getLast?_concat]⟩
      · exact ⟨k, hk, heq ▸ hlast⟩
    obtain ⟨earlier, is, later, himports, hheader⟩ := header_lines h hold hd hl hlabel hc hstop
      ⟨k, hk, .inr ⟨rfl, hlast⟩⟩ hlines
        (Text.byteLength (String.join (paths.map importLine)).toList)
    rw [hcuts z, Token.readFrom_add, hbehind, List.append_cons] at hread
    rw [List.map_cons] at hread
    rw [← hread] at hheader
    refine ⟨earlier, is, later, himports, ?_⟩
    rw [hedit, ← hx, Edit.applyAll_insert hs, imports_of_header hheader]
    simp
  · have hedit : file.extendImportList list paths =
        .insert closing.start ("\n" ++ String.join (paths.map importLine)) := by
      simp [extendImportList, htext, hclose, hstarts]
    have hlines : ("\n" ++ String.join (paths.map importLine)).toList =
        ['\n'] ++ (String.join (paths.map importLine)).toList := by simp
    have hstar : '*' ∉ ("\n" ++ String.join (paths.map importLine)).toList := by
      rw [hlines, List.mem_append]
      exact fun hc => hc.elim (by decide) (Import.star_notMem_lines hpaths)
    obtain ⟨x, z, ts, rest, hs, hx, hold, hbehind, hread⟩ := readAll_symbol hknown hnull hclosing hc
      hstar (by omega) (by rw [hlines]; rfl)
    obtain ⟨m, hm, hbreak⟩ := Token.exists_newline (Text.byteLength x)
    obtain ⟨lines, hlisted, hcuts⟩ :=
      Import.exists_lines hpaths (Text.byteLength x + Text.byteLength ['\n'])
    obtain ⟨earlier, is, later, himports, hheader⟩ := header_lines h hold hd hl hlabel hc hstop
      (Syntax.Grammar.significant_concat ts hm) hlisted
        (Text.byteLength ("\n" ++ String.join (paths.map importLine)).toList)
    have hall := hbreak.append hcuts
    rw [← hlines] at hall
    rw [hall z, Token.readFrom_add, hbehind, List.append_assoc, List.singleton_append,
      List.append_cons, List.map_cons] at hread
    rw [← hread] at hheader
    refine ⟨earlier, is, later, himports, ?_⟩
    rw [hedit, ← hx, Edit.applyAll_insert hs, imports_of_header hheader]
    simp

end

/-- Whether only blanks or a line comment stand behind the package clause and behind each import
declaration on their last lines. -/
def EndsLines (file : SourceFile) : Prop :=
  ∀ d ∈ file.tree.items, d.is .packageClause ∨ d.is .importDeclaration →
    Injection.isRemark (Text.slice file.text d.stop (Text.lineEnd file.text d.stop)) = true

private theorem afterPackageClause_eq {file : SourceFile} {clause : Tree} {others : List Tree}
    (hitems : file.tree.items = clause :: others) (hclause : clause.is .packageClause) :
    file.afterPackageClause = Text.lineEnd file.text clause.stop := by
  have hfind : file.tree.namedChildren.find? (·.is .packageClause) = some clause := by
    have hsame : (fun t : Tree => decide ((!t.isComment) = true ∧ t.is .packageClause = true)) =
        (·.is .packageClause) := by
      funext t
      cases his : t.is .packageClause with
      | true =>
        have hlabel : t.label = .node .packageClause := of_decide_eq_true his
        simp [Tree.isComment, Tree.is, hlabel]
      | false => simp
    rw [← hsame, ← List.find?_filter, ← Tree.items, hitems]
    exact List.find?_cons_of_pos (p := fun t : Tree => t.is .packageClause) hclause
  rw [afterPackageClause, hfind]
  rfl

/-- The list that imports are added to was read as a list of imports. -/
theorem exists_importList {file : SourceFile} (hds : List.Forall₂ Syntax.Grammar.IsCommented
    file.importDeclarations ds) {list : Tree} (h : file.importList? = some list) :
    ∃ d ∈ ds, ∃ l ∈ d.children, l.label = .node .importSpecList ∧ list.stop = l.stop := by
  obtain ⟨declaration, hdeclaration, hfind⟩ := List.exists_of_findSome?_eq_some h
  obtain ⟨d, hd, _, _, _, few, hfew, hchildren⟩ :=
    Paired.exists_mem hds hdeclaration
  have hlabel : list.label = .node .importSpecList := of_decide_eq_true
    (List.find?_some (p := fun t : Tree => t.is .importSpecList) hfind)
  have hchild := List.mem_of_mem_filter (List.mem_of_find?_eq_some hfind)
  rw [hchildren] at hchild
  rcases Syntax.Tree.mem_attachAll hchild with hcomment | ⟨l, hl, _, _, hsame, _, hstop, _⟩
  · obtain ⟨start, stop, rfl⟩ := hfew list hcomment
    simp [Tree.leaf, Tree.label] at hlabel
  · exact ⟨d, hd, l, hl, hsame ▸ hlabel, hstop⟩

/-- The edit adds an import of each missing path in one place and keeps the others. -/
theorem imports_importEdit {needed : List String} {e : Edit} (h : (parse path text).IsGo)
    (hlines : (parse path text).EndsLines) (hpaths : ∀ path ∈ needed, IsPath path)
    (hedit : (parse path text).importEdit? needed = some e) :
    ∃ is js, (parse path text).imports = is ++ js ∧
      (parse path (Edit.applyAll text [e])).imports =
        is ++ ((parse path text).missing needed).map .plain ++ js := by
  obtain ⟨clause, imports, others, hitems, hclause, himports, hothers⟩ := h.order
  obtain ⟨ds, hds, hheader⟩ := exists_header h.keyword hitems hclause himports hothers
  have hold : (parse path text).imports = (importsOf text ds).flatten :=
    imports_of_header hheader.items
  have hdeclarations := importDeclarations_eq hitems hclause himports hothers
  have hknown := (complete_parse h.complete).1
  rw [importEdit?_eq] at hedit
  split at hedit
  · simp at hedit
  next hne =>
  obtain rfl := Option.some.inj hedit
  have hmissing : ∀ path' ∈ (parse path text).missing needed, IsPath path' :=
    fun path' hpath' => hpaths path' (mem_missing.mp hpath').1
  generalize (parse path text).missing needed = paths at hne hmissing ⊢
  rw [hold]
  -- Behind the last item declarations are put in.
  have hbehind : ∀ {t : Tree} {new : String}, (clause :: imports).getLast? = some t →
      new.toList.head? = some '\n' → '*' ∉ new.toList →
      (∀ pos, ∃ ts, Declares paths ts ∧ Syntax.Token.Cuts pos new.toList ts) →
      (parse path (Edit.applyAll text [.insert (Text.lineEnd text t.stop) new])).imports =
        (importsOf text ds).flatten ++ paths.map .plain := by
    intro t new ht hnew hstar hcuts
    obtain ⟨d, hd, _, _, hstop, _⟩ := Paired.exists_getLast hds ht
    have hmem := List.mem_of_getLast? ht
    have hkind : t.is .packageClause ∨ t.is .importDeclaration := by
      rcases List.mem_cons.mp hmem with rfl | hmem
      · exact .inl hclause
      · exact .inr (himports t hmem)
    have hremark := hlines t (by rw [hitems, ← List.cons_append]; exact List.mem_append_left _ hmem)
      hkind
    rw [hstop] at hremark ⊢
    exact imports_behind hknown h.null hheader hd hremark hnew hstar hcuts
  unfold addImports
  split
  · next list hlist =>
    obtain ⟨d, ds', _, hds', rfl⟩ := List.forall₂_cons_left_iff.mp hds
    rw [← hdeclarations] at hds'
    obtain ⟨t, ht, l, hl, hlabel, hstop⟩ := exists_importList hds' hlist
    obtain ⟨before, is, after, heq, hnew⟩ := imports_within hknown h.null path hheader
      (List.mem_cons_of_mem d ht) hl hlabel (text_parse path text) hstop hmissing
    refine ⟨before.flatten ++ is, after.flatten, by rw [heq]; simp, ?_⟩
    rw [hnew]
    simp
  · next last hlist hlast =>
    rw [hdeclarations] at hlast
    refine ⟨_, [], (List.append_nil _).symm, ?_⟩
    rw [List.append_nil]
    refine hbehind ?_ ?_ (Import.star_notMem_clauses hmissing) fun pos => ?_
    · rw [List.getLast?_cons, hlast]
      rfl
    · cases paths with
      | nil => exact absurd rfl hne
      | cons path' paths =>
        rw [List.map_cons, String.join_cons]
        simp
    · obtain ⟨ts, hts, hcuts⟩ := Import.exists_clauses hmissing pos
      exact ⟨ts, hts.declares hne, hcuts⟩
  · next hlist hlast =>
    rw [hdeclarations, List.getLast?_eq_none_iff] at hlast
    subst hlast
    refine ⟨_, [], (List.append_nil _).symm, ?_⟩
    rw [List.append_nil, afterPackageClause_eq hitems hclause]
    refine hbehind rfl (by simp) ?_ fun pos => Import.exists_block hmissing pos
    rw [String.toList_append, List.mem_append]
    exact fun hc => hc.elim (by decide) (Import.star_notMem_importBlock hmissing)

end SourceFile

end GoContracts

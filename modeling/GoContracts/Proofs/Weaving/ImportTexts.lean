import GoContracts.Proofs.Syntax.Grammar.FileImports
import GoContracts.Proofs.Weaving.Renames
import GoContracts.Weaving.Imports
import Mathlib.Data.List.Nodup
import Mathlib.Data.List.Perm.Basic

/-!
# Names and texts of added imports

An import that is added takes the name that its path has by itself. It clashes with an import of
another path under that name: the file is asked for the path and the name together.
-/

namespace GoContracts

/-- The import of a path under the name that it has by itself. -/
def Import.plain (path : String) : Import := { path, alias? := none }

namespace SourceFile

variable {file : SourceFile} {needed : List String} {path : String}

/-- The names that imports declare: the local names but `_` and `.`. -/
def declaredNames (imports : List Import) : List String :=
  (imports.map Import.localName).filter fun name => name ≠ "_" && name ≠ "."

/-- The needed paths that the file does not import under their own names. -/
def missing (file : SourceFile) (needed : List String) : List String :=
  (sortedSet needed).filter fun path => !file.importsByName path

/-- A needed path is missing if no import declares the last part of it. -/
theorem mem_missing : path ∈ file.missing needed ↔
    path ∈ needed ∧ ∀ i ∈ file.imports, i.path = path → i.localName ≠ Text.afterLast '/' path := by
  have hset : path ∈ sortedSet needed ↔ path ∈ needed := by
    rw [sortedSet, List.mem_eraseDups, List.mem_mergeSort]
  simp [missing, hset, importsByName]

/-- There is an edit of the imports if a path is missing. -/
theorem importEdit?_eq : file.importEdit? needed =
    if file.missing needed = [] then none else some (file.addImports (file.missing needed)) := by
  unfold importEdit? missing
  split
  · next hnil => rw [if_pos hnil]
  · next hne => rw [if_neg hne]

/-- Whether an import of the file other than that of a missing path has the name of that path. -/
def Taken (file : SourceFile) (needed : List String) : Prop :=
  ∃ path ∈ file.missing needed, ∃ i ∈ file.imports,
    i.localName = Text.afterLast '/' path ∧ i.localName ≠ "_" ∧ i.localName ≠ "."

private theorem mem_declaredNames {imports : List Import} {name : String} :
    name ∈ declaredNames imports ↔
      (∃ i ∈ imports, i.localName = name) ∧ name ≠ "_" ∧ name ≠ "." := by
  simp [declaredNames]

/-- No path is missing twice. -/
theorem nodup_missing : (file.missing needed).Nodup := by
  refine List.Nodup.filter _ ?_
  rw [sortedSet, List.eraseDups]
  exact (Injection.pairwise_eraseDupsBy _ _).imp fun hne heq => by simp [heq] at hne

private theorem declaredNames_append (imports more : List Import) :
    declaredNames (imports ++ more) = declaredNames imports ++ declaredNames more := by
  simp [declaredNames]

private theorem nodup_declaredNames_plain {paths : List String} (h : paths.Nodup)
    (hdistinct : ∀ a ∈ paths, ∀ b ∈ paths, Text.afterLast '/' a = Text.afterLast '/' b → a = b) :
    (declaredNames (paths.map Import.plain)).Nodup := by
  refine List.Nodup.filter _ ?_
  rw [List.map_map]
  exact List.Nodup.map_on hdistinct h

/-- Old imports with different names and one for each missing path have different names, unless an
old one has the name of a missing path. -/
theorem nodup_declaredNames_perm {imports : List Import}
    (hperm : imports.Perm (file.imports ++ (file.missing needed).map Import.plain))
    (hold : (declaredNames file.imports).Nodup)
    (hdistinct : ∀ a ∈ needed, ∀ b ∈ needed, Text.afterLast '/' a = Text.afterLast '/' b → a = b) :
    (declaredNames imports).Nodup ↔ ¬file.Taken needed := by
  have hnames := (hperm.map Import.localName).filter fun name => name ≠ "_" && name ≠ "."
  have hmissing : ∀ a ∈ file.missing needed, ∀ b ∈ file.missing needed,
      Text.afterLast '/' a = Text.afterLast '/' b → a = b := fun a ha b hb =>
    hdistinct a (mem_missing.mp ha).1 b (mem_missing.mp hb).1
  rw [declaredNames, hnames.nodup_iff, ← declaredNames, declaredNames_append, List.nodup_append']
  constructor
  · rintro ⟨_, _, hapart⟩ ⟨path, hpath, i, hi, hname, hblank, hdot⟩
    exact hapart (mem_declaredNames.mpr ⟨⟨i, hi, rfl⟩, hblank, hdot⟩)
      (mem_declaredNames.mpr ⟨⟨.plain path, List.mem_map_of_mem hpath, hname.symm⟩, hblank, hdot⟩)
  · refine fun hfree => ⟨hold, nodup_declaredNames_plain nodup_missing hmissing, ?_⟩
    intro name hmem hmem'
    obtain ⟨⟨i, hi, rfl⟩, hblank, hdot⟩ := mem_declaredNames.mp hmem
    obtain ⟨⟨added, hadded, hname⟩, _⟩ := mem_declaredNames.mp hmem'
    obtain ⟨path, hpath, rfl⟩ := List.mem_map.mp hadded
    exact hfree ⟨path, hpath, i, hi, hname.symm, hblank, hdot⟩

end SourceFile

end GoContracts

/-!
## The texts of added imports

An import that is added is a line of a list or a declaration. Its text is cut into the same tokens
whatever stands behind it, and these spell the imports of the given paths.
-/

namespace GoContracts

open Syntax (Lexeme Token allNewlines_nil allNewlines_singleton)
open Syntax.Token (readFrom scan Foreign IsTerminator)
open Syntax.Grammar (isSolid significant)

namespace Syntax.Token

variable {pos : Nat} {c : Char} {cs a b : List Char} {ts us : List Token} {x : Lexeme}

/-! ### Texts that are cut into tokens -/

/-- Whether a text is cut into the tokens, whatever stands behind it. -/
def Cuts (pos : Nat) (cs : List Char) (ts : List Token) : Prop :=
  ∀ rest, readFrom pos (cs ++ rest) = ts ++ readFrom (pos + Text.byteLength cs) rest

/-- Two texts side by side are cut one after the other. -/
theorem Cuts.append (ha : Cuts pos a ts) (hb : Cuts (pos + Text.byteLength a) b us) :
    Cuts pos (a ++ b) (ts ++ us) := by
  intro rest
  rw [List.append_assoc, ha, hb, List.append_assoc, Text.byteLength_append, Nat.add_assoc]

private theorem cuts_nil (pos : Nat) : Cuts pos [] [] := fun _ => rfl

private theorem cuts_newline (pos : Nat) : Cuts pos ['\n'] [newlineAt pos] := fun rest =>
  readFrom_newline pos rest

/-- A newline is cut into one token. -/
theorem exists_newline (pos : Nat) : ∃ m : Token, m.lexeme = .newline ∧ Cuts pos ['\n'] [m] :=
  ⟨_, rfl, cuts_newline pos⟩

private theorem cuts_gap (h : isGap c = true) (pos : Nat) : Cuts pos [c] [] := by
  intro rest
  have hscan : scan c rest = (none, 0) := by rw [scan, if_pos h]
  rw [List.singleton_append, readFrom_cons, front?, hscan]
  rfl

/-- One token of a text. -/
theorem cuts_token (h : ∀ rest, scan c (cs ++ rest) = (some x, cs.length)) (pos : Nat) :
    Cuts pos (c :: cs) [⟨x, String.ofList (c :: cs), pos, pos + Text.byteLength (c :: cs)⟩] := by
  intro rest
  rw [List.cons_append, readFrom_cons, front?, h]
  simp

private theorem cuts_symbol (hc : c ∈ ['(', ')']) (pos : Nat) :
    ∃ u : Token, u.lexeme = .symbol c ∧ Cuts pos [c] [u] := by
  have hscan : ∀ rest, scan c ([] ++ rest) = (some (.symbol c), ([] : List Char).length) := by
    intro rest
    have hforeign : Foreign c := by
      simp only [List.mem_cons, List.not_mem_nil, or_false] at hc
      rcases hc with rfl | rfl <;> constructor <;> decide
    have hidentifier : Text.isIdentifierStart c = false := by
      simp only [List.mem_cons, List.not_mem_nil, or_false] at hc
      rcases hc with rfl | rfl <;> decide +kernel
    unfold scan scanMark
    rw [number?_eq_none hforeign, hidentifier]
    simp only [List.mem_cons, List.not_mem_nil, or_false] at hc
    rcases hc with rfl | rfl <;> rfl
  exact ⟨_, rfl, cuts_token hscan pos⟩

/-- The keyword of imports with the blank behind it. -/
theorem cuts_import (pos : Nat) : ∃ word : Token, word.IsImport ∧ Cuts pos "import ".toList
    [word] := by
  have hpart : ∀ c ∈ "mport".toList, Text.isIdentifierPart c = true :=
    List.all_eq_true.mp (by decide +kernel)
  have hblank : Text.isIdentifierPart ' ' = false := by decide +kernel
  have hstart : Text.isIdentifierStart 'i' = true := by decide +kernel
  have hscan : ∀ rest, scan 'i' ("mport ".toList ++ rest) = (some .word, 5) := by
    intro rest
    have hrun : ("mport".toList ++ ' ' :: rest).takeWhile Text.isIdentifierPart =
      "mport".toList := by
      rw [List.takeWhile_append_of_pos hpart, List.takeWhile_cons_of_neg (by simp [hblank]),
        List.append_nil]
    rw [scan, if_neg (by decide), if_neg (by decide), if_pos hstart]
    have htext : "mport ".toList ++ rest = "mport".toList ++ ' ' :: rest := rfl
    rw [htext, hrun]
    rfl
  refine ⟨⟨.word, "import", pos, pos + 6⟩, by simp [IsImport, isWord], fun rest => ?_⟩
  have hgap := cuts_gap (c := ' ') rfl (pos + 6) rest
  have hword : readFrom pos ("import ".toList ++ rest) =
      ⟨.word, "import", pos, pos + 6⟩ :: readFrom (pos + 6) (' ' :: rest) := by
    have htext : "import ".toList ++ rest = 'i' :: ("mport ".toList ++ rest) := rfl
    rw [htext, readFrom_cons, front?, hscan]
    rfl
  rw [hword]
  exact congrArg _ hgap

end Syntax.Token

namespace Import

open Syntax.Token (Cuts cuts_nil cuts_newline exists_newline cuts_gap cuts_token cuts_symbol
  cuts_import isNull isHexDigit)

variable {path : String} {paths : List String} {ts tail : List Token} {p m word : Token} {pos : Nat}

/-! ### Paths -/

/-- Whether a text may be an import path: no character of it ends or escapes in a literal, or
belongs to the marks of comments. -/
def IsPath (path : String) : Prop :=
  ∀ c ∈ path.toList, c ∉ ['"', '`', '\\', '*', '\n', '\x00']

/-- The token is a literal that gives the path. -/
structure Quotes (path : String) (p : Token) : Prop where
  lexeme : p.lexeme = .string
  path : SourceFile.unquotePath p.text = path

private theorem Quotes.isSolid (h : Quotes path p) : isSolid p = true := by
  simp [Syntax.Grammar.isSolid, h.lexeme]

private theorem Quotes.spec (h : Quotes path p) : Spec [p] (plain path) := by
  have hspec := Spec.path (.inl h.lexeme : p.IsQuoted)
  rwa [h.path] at hspec

private theorem stringLength?_path {cs : List Char}
    (h : ∀ c ∈ cs, c ∉ ['"', '`', '\\', '*', '\n', '\x00'])
    (rest : List Char) : Syntax.Token.stringLength? 0 (cs ++ '"' :: rest) =
      some (cs.length + 1) := by
  induction cs with
  | nil => rfl
  | cons c cs ih =>
    obtain ⟨hc, hcs⟩ := List.forall_mem_cons.mp h
    simp only [List.mem_cons, List.not_mem_nil, or_false, not_or] at hc
    obtain ⟨hquote, _, hslash, _, hnew, hnull⟩ := hc
    have hstep : ∀ more, Syntax.Token.stringLength? 0 (c :: more) =
        (Syntax.Token.stringLength? 0 more).map (· + 1) := by
      simp [Syntax.Token.stringLength?, hquote, hslash, hnew, isNull, hnull]
    rw [List.cons_append, hstep, ih hcs]
    rfl

private theorem unquotePath_quoted (h : IsPath path) :
    SourceFile.unquotePath (String.ofList ('"' :: (path.toList ++ ['"']))) = path := by
  have hkept : ∀ cs : List Char, (∀ c ∈ cs, c ∈ path.toList) →
      cs.dropWhile (fun c => c = '"' || c = '`') = cs := by
    intro cs hcs
    cases cs with
    | nil => rfl
    | cons c cs =>
      have hc := h c (hcs c (List.mem_cons_self ..))
      simp only [List.mem_cons, List.not_mem_nil, or_false, not_or] at hc
      exact List.dropWhile_cons_of_neg (by simp [hc.1, hc.2.1])
  have hquote : ∀ c ∈ ['"'], (c = '"' || c = '`') = true := by simp
  rw [SourceFile.unquotePath, String.toList_ofList, ← List.singleton_append, ← List.append_assoc,
    Text.stripWhile_append hquote hquote, Text.stripWhile, Text.dropEndWhile,
    hkept _ fun c hc => hc, hkept _ fun c hc => List.mem_reverse.mp hc, List.reverse_reverse,
    String.ofList_toList]

/-- A path between quotation marks is one token. -/
theorem cuts_path (h : IsPath path) (pos : Nat) :
    ∃ p, Quotes path p ∧ Cuts pos ('"' :: (path.toList ++ ['"'])) [p] := by
  have hforeign : Syntax.Token.Foreign '"' := by constructor <;> decide
  have hidentifier : Text.isIdentifierStart '"' = false := by decide +kernel
  have hscan : ∀ rest, scan '"' (path.toList ++ ['"'] ++ rest) =
      (some .string, (path.toList ++ ['"']).length) := by
    intro rest
    rw [List.append_assoc, List.singleton_append]
    unfold scan Syntax.Token.scanMark
    rw [Syntax.Token.number?_eq_none hforeign, hidentifier, stringLength?_path h]
    simp [Syntax.Token.isGap, Syntax.Token.closed]
  refine ⟨_, ⟨?_, ?_⟩, cuts_token hscan pos⟩
  · rfl
  · exact unquotePath_quoted h

/-! ### Lines of a list -/

/-- The tokens are lines of a list of imports, one for each path. -/
inductive Lines : List String → List Token → Prop
  | nil : Lines [] []
  | cons {path : String} {paths : List String} {p m : Token} {ts : List Token} (hp : Quotes path p)
      (hm : m.lexeme = .newline) (more : Lines paths ts) : Lines (path :: paths) (p :: m :: ts)

/-- Lines of a list have a specification for each path. -/
theorem Lines.specs (h : Lines paths ts) : Specs ts (paths.map plain) := by
  induction h with
  | nil => exact .done allNewlines_nil
  | @cons path paths p m ts hp hm _ ih =>
    have hspec : IsSpec [p] (plain path) :=
      ⟨[p], .solid hp.isSolid .nil, hp.spec⟩
    exact .item hspec (.inl hm) ih

/-- All tokens of the lines before a closing one are significant. -/
theorem Lines.significant_append (h : Lines paths ts) {closing : Token}
    (hc : isSolid closing = true)
    (before rest : List Token) : significant (before ++ (ts ++ closing :: rest)) =
      significant before ++ (ts ++ closing :: significant rest) := by
  induction h generalizing before with
  | nil =>
    rw [List.nil_append, List.nil_append]
    exact Syntax.Grammar.significant_append_solid before hc rest
  | @cons path paths p m ts hp hm _ ih =>
    have hone : significant [m] = [m] := by simp [significant, hm]
    have hmore := ih [m]
    rw [hone, List.singleton_append] at hmore
    rw [List.cons_append, Syntax.Grammar.significant_append_solid before hp.isSolid,
      List.cons_append, hmore]
    rfl

/-- The lines of a list are cut into tokens. -/
theorem exists_lines (h : ∀ path ∈ paths, IsPath path) (pos : Nat) :
    ∃ ts, Lines paths ts ∧ Cuts pos (String.join (paths.map SourceFile.importLine)).toList ts := by
  induction paths generalizing pos with
  | nil => exact ⟨[], .nil, cuts_nil pos⟩
  | cons path paths ih =>
    obtain ⟨hpath, hpaths⟩ := List.forall_mem_cons.mp h
    have htext : (String.join ((path :: paths).map SourceFile.importLine)).toList =
        ['\t'] ++ ('"' :: (path.toList ++ ['"'])) ++ ['\n'] ++
          (String.join (paths.map SourceFile.importLine)).toList := by
      rw [List.map_cons, String.join_cons, String.toList_append, SourceFile.importLine]
      simp
    obtain ⟨p, hp, hcuts⟩ := cuts_path hpath (pos + Text.byteLength ['\t'])
    have hline := ((cuts_gap (c := '\t') rfl pos).append hcuts).append (cuts_newline _)
    obtain ⟨ts, hts, hmore⟩ := ih hpaths _
    rw [htext]
    exact ⟨_, .cons hp rfl hts, hline.append hmore⟩

/-! ### Declarations -/

/-- The tokens are declarations of one import each, each behind a newline. -/
inductive Clauses : List String → List Token → Prop
  | nil : Clauses [] []
  | cons {path : String} {paths : List String} {m word p : Token} {ts : List Token}
      (hm : m.lexeme = .newline) (hword : word.IsImport) (hp : Quotes path p)
      (more : Clauses paths ts) : Clauses (path :: paths) (m :: word :: p :: ts)

/-- The tokens declare the imports of the paths behind a terminator, whatever stands behind them. -/
def Declares (paths : List String) (ts : List Token) : Prop :=
  ∀ rest, (∀ m ∈ (significant rest).head?, m.IsTerminator) →
    (∀ u ∈ significant rest, ¬u.IsImport) →
    ∃ m new iss, significant (ts ++ rest) = m :: new ∧ m.IsTerminator ∧ Header Item iss new ∧
      iss.flatten = paths.map plain

/-- An item before tokens without imports is a header. -/
theorem header_single {own tail : List Token} {is : List Import} (h : Item own is)
    (hterminator : ∀ m ∈ tail.head?, m.IsTerminator) (hwords : ∀ u ∈ tail, ¬u.IsImport) :
    Header Item [is] (own ++ tail) := by
  cases tail with
  | nil =>
    rw [List.append_nil]
    exact .last h
  | cons m tail =>
    exact .item h (hterminator m rfl) (.rest fun u hu => hwords u (List.mem_cons_of_mem m hu))

private theorem isSolid_of_isImport (h : word.IsImport) : isSolid word = true := by
  simp only [Token.IsImport, Token.isWord, Bool.and_eq_true, decide_eq_true_eq] at h
  simp [Syntax.Grammar.isSolid, h.1]

private theorem item_clause (hword : word.IsImport) (hp : Quotes path p) :
    Item [word, p] [plain path] :=
  .declaration (.single (.solid (isSolid_of_isImport hword) (.solid hp.isSolid .nil)) hword hp.spec)

private theorem Clauses.significant_append (h : Clauses paths ts) (hne : paths ≠ [])
    (rest : List Token) :
    significant (ts ++ rest) = ts ++ significant rest := by
  induction h with
  | nil => exact absurd rfl hne
  | @cons path paths m word p ts hm hword hp more ih =>
    have hone : significant [m] = [m] := by simp [significant, hm]
    have hmore : significant (ts ++ rest) = ts ++ significant rest := by
      cases more with
      | nil => rfl
      | cons => exact ih (List.cons_ne_nil _ _)
    have hword := Syntax.Grammar.significant_append_solid [m] (isSolid_of_isImport hword)
      (p :: (ts ++ rest))
    rw [hone, Syntax.Grammar.significant_cons_solid hp.isSolid, hmore] at hword
    exact hword

private theorem Clauses.header (h : Clauses paths ts) (hne : paths ≠ [])
    (hterminator : ∀ m ∈ tail.head?, m.IsTerminator) (hwords : ∀ u ∈ tail, ¬u.IsImport) :
    ∃ m new, ts ++ tail = m :: new ∧ m.IsTerminator ∧
      Header Item (paths.map fun path => [plain path]) new := by
  induction h with
  | nil => exact absurd rfl hne
  | @cons path paths m word p ts hm hword hp more ih =>
    refine ⟨m, [word, p] ++ (ts ++ tail), rfl, .inl hm, ?_⟩
    cases more with
    | nil => exact header_single (item_clause hword hp) hterminator hwords
    | cons hm' hword' hp' more' =>
      obtain ⟨m', new, hnew, hm', hheader⟩ := ih (List.cons_ne_nil _ _)
      rw [hnew]
      exact .item (item_clause hword hp) hm' hheader

/-- Declarations of one import each declare all of them. -/
theorem Clauses.declares (h : Clauses paths ts) (hne : paths ≠ []) : Declares paths ts := by
  intro rest hterminator hwords
  obtain ⟨m, new, hnew, hm, hheader⟩ := h.header hne hterminator hwords
  refine ⟨m, new, _, (h.significant_append hne rest).trans hnew, hm, hheader, ?_⟩
  rw [← List.flatMap_def, ← List.map_eq_flatMap]

/-- Declarations of one import each are cut into tokens. -/
theorem exists_clauses (h : ∀ path ∈ paths, IsPath path) (pos : Nat) :
    ∃ ts, Clauses paths ts ∧ Cuts pos
      (String.join (paths.map fun path => "\n" ++ SourceFile.importClause path)).toList ts := by
  induction paths generalizing pos with
  | nil => exact ⟨[], .nil, cuts_nil pos⟩
  | cons path paths ih =>
    obtain ⟨hpath, hpaths⟩ := List.forall_mem_cons.mp h
    have htext : (String.join ((path :: paths).map fun path =>
        "\n" ++ SourceFile.importClause path)).toList =
        ['\n'] ++ "import ".toList ++ ('"' :: (path.toList ++ ['"'])) ++
          (String.join (paths.map fun path => "\n" ++ SourceFile.importClause path)).toList := by
      rw [List.map_cons, String.join_cons, String.toList_append, SourceFile.importClause]
      simp
    obtain ⟨word, hword, hkeyword⟩ := cuts_import (pos + Text.byteLength ['\n'])
    obtain ⟨p, hp, hcuts⟩ := cuts_path hpath _
    have hclause := ((cuts_newline pos).append hkeyword).append hcuts
    obtain ⟨ts, hts, hmore⟩ := ih hpaths _
    rw [htext]
    exact ⟨_, .cons rfl hword hp hts, hclause.append hmore⟩

/-- Behind two newlines only the first one counts. -/
theorem significant_word {m m' : Token} (hm : m.lexeme = .newline) (hm' : m'.lexeme = .newline)
    (hword : word.IsImport) (rest : List Token) :
    significant (m :: m' :: word :: rest) = m :: word :: significant rest := by
  have htwo : significant [m, m'] = [m] := by simp [significant, hm, hm']
  have hsplit := Syntax.Grammar.significant_append_solid [m, m'] (isSolid_of_isImport hword) rest
  rwa [htwo] at hsplit

/-- A declaration of all paths is cut into tokens. -/
theorem exists_block (h : ∀ path ∈ paths, IsPath path) (pos : Nat) :
    ∃ ts, Declares paths ts ∧ Cuts pos ("\n\n" ++ SourceFile.importBlock paths).toList ts := by
  obtain ⟨word, hword, hkeyword⟩ :=
    cuts_import (pos + Text.byteLength ['\n'] + Text.byteLength ['\n'])
  obtain ⟨m₁, hm₁, hfirst⟩ := exists_newline pos
  obtain ⟨m₂, hm₂, hsecond⟩ := exists_newline (pos + Text.byteLength ['\n'])
  have hfront := (hfirst.append hsecond).append hkeyword
  unfold SourceFile.importBlock
  split
  · next path =>
    obtain ⟨p, hp, hcuts⟩ := cuts_path (h path (List.mem_singleton_self path)) _
    have htext : ("\n\n" ++ SourceFile.importClause path).toList =
        ['\n'] ++ ['\n'] ++ "import ".toList ++ ('"' :: (path.toList ++ ['"'])) := by
      rw [SourceFile.importClause]
      simp
    refine ⟨_, fun rest hterminator hwords => ?_, htext ▸ hfront.append hcuts⟩
    refine ⟨_, _, [[plain path]], significant_word hm₁ hm₂ hword (p :: rest), .inl hm₁, ?_, rfl⟩
    rw [Syntax.Grammar.significant_cons_solid hp.isSolid]
    exact header_single (item_clause hword hp) hterminator hwords
  · obtain ⟨opening, ho, hopening⟩ := cuts_symbol (c := '(') (by decide) _
    obtain ⟨m, hm, hbreak⟩ := exists_newline (pos + Text.byteLength
      (['\n'] ++ ['\n'] ++ "import ".toList ++ ['(']))
    obtain ⟨ts, hlines, hcuts⟩ := exists_lines h _
    obtain ⟨closing, hc, hclosing⟩ := cuts_symbol (c := ')') (by decide) _
    have htext : ("\n\n" ++ ("import (\n" ++ String.join (paths.map SourceFile.importLine) ++
        ")")).toList = ['\n'] ++ ['\n'] ++ "import ".toList ++ ['('] ++ ['\n'] ++
          (String.join (paths.map SourceFile.importLine)).toList ++ [')'] := by
      simp
    have hall := (((hfront.append hopening).append hbreak).append hcuts).append hclosing
    refine ⟨_, fun rest hterminator hwords => ?_, htext ▸ hall⟩
    have hopen : isSolid opening = true := by simp [Syntax.Grammar.isSolid, ho]
    have hclosed : isSolid closing = true := by simp [Syntax.Grammar.isSolid, hc]
    have hbody : significant (m :: (ts ++ closing :: rest)) =
        m :: (ts ++ closing :: significant rest) := by
      have hone : significant [m] = [m] := by simp [significant, hm]
      have happend := hlines.significant_append hclosed [m] rest
      rwa [hone] at happend
    have hitem : Item ([word, opening] ++ (m :: ts ++ [closing])) (paths.map plain) :=
      .declaration (.list (.solid (isSolid_of_isImport hword) (.solid hopen .nil)) hword ho
        (hlines.specs.behind (allNewlines_singleton hm)) hc)
    have hwhole := significant_word hm₁ hm₂ hword (opening :: m :: (ts ++ closing :: rest))
    rw [Syntax.Grammar.significant_cons_solid hopen, hbody] at hwhole
    refine ⟨_, _, [paths.map plain], ?_, .inl hm₁, header_single hitem hterminator hwords, by simp⟩
    simpa using hwhole

/-! ### Marks of comments -/

private theorem star_notMem_join {texts : List String} (h : ∀ s ∈ texts, '*' ∉ s.toList) :
    '*' ∉ (String.join texts).toList := by
  induction texts with
  | nil => simp
  | cons s texts ih =>
    obtain ⟨hs, htexts⟩ := List.forall_mem_cons.mp h
    rw [String.join_cons, String.toList_append, List.mem_append]
    exact fun hc => hc.elim hs (ih htexts)

private theorem IsPath.star_notMem (h : IsPath path) : '*' ∉ path.toList := fun hc => by
  have := h _ hc
  simp at this

/-- No line of a list has a star. -/
theorem star_notMem_lines (h : ∀ path ∈ paths, IsPath path) :
    '*' ∉ (String.join (paths.map SourceFile.importLine)).toList := by
  refine star_notMem_join (List.forall_mem_map.mpr fun path hpath => ?_)
  simp [SourceFile.importLine, (h path hpath).star_notMem]

private theorem star_notMem_importClause (h : IsPath path) :
    '*' ∉ (SourceFile.importClause path).toList := by
  simp [SourceFile.importClause, h.star_notMem]

/-- No declaration has a star. -/
theorem star_notMem_clauses (h : ∀ path ∈ paths, IsPath path) :
    '*' ∉ (String.join (paths.map fun path => "\n" ++ SourceFile.importClause path)).toList := by
  refine star_notMem_join (List.forall_mem_map.mpr fun path hpath => ?_)
  simp [star_notMem_importClause (h path hpath)]

/-- No block of imports has a star. -/
theorem star_notMem_importBlock (h : ∀ path ∈ paths, IsPath path) :
    '*' ∉ (SourceFile.importBlock paths).toList := by
  unfold SourceFile.importBlock
  split
  · next path => exact star_notMem_importClause (h path (List.mem_singleton_self path))
  · have hlines := star_notMem_lines h
    rw [String.toList_append, String.toList_append, List.mem_append, List.mem_append]
    rintro ((hc | hc) | hc)
    · exact absurd hc (by decide)
    · exact hlines hc
    · exact absurd hc (by decide)

end Import

end GoContracts

import GoContracts.Package.Basic
import GoContracts.Proofs.TypeExpr.Agreement

/-!
# Declared types

A file that declares a plain type fits the grammar, and the package of the file has the type as the
text reader reads it from its spelling.
-/

namespace GoContracts

open Syntax (Tree)
open Syntax.Token (wordAt newlineAt readAll)
open Syntax.Grammar
open TypeExpr (ofTree)

/-! ### Characters of a spelling -/

private theorem TypeName.notMem_slash (x : TypeName) : '/' ∉ x.chars := x.notMem (by decide +kernel)

mutual

/-- No slash stands in a spelling, and so no comment. -/
theorem PlainType.notMem_slash : ∀ t : PlainType, '/' ∉ t.chars
  | .named x => x.notMem_slash
  | .qualified q x => by simp [PlainType.chars, q.notMem_slash, x.notMem_slash]
  | .pointer t | .slice t | .chan t => by simp [PlainType.chars, PlainType.notMem_slash t]
  | .map k v => by simp [PlainType.chars, PlainType.notMem_slash k, PlainType.notMem_slash v]
  | .func ps r => by
    simp [PlainType.chars, PlainParameters.notMem_slash ps, PlainResult.notMem_slash r]
  | .interface => by simp [PlainType.chars]

/-- No parameter has a slash. -/
theorem PlainParameter.notMem_slash : ∀ p : PlainParameter, '/' ∉ p.chars
  | .unnamed t => PlainType.notMem_slash t
  | .named x t => by simp [PlainParameter.chars, x.notMem_slash, PlainType.notMem_slash t]
  | .shared x => x.notMem_slash
  | .variadic none t => by simp [PlainParameter.chars, PlainType.notMem_slash t]
  | .variadic (some x) t => by
    simp [PlainParameter.chars, x.notMem_slash, PlainType.notMem_slash t]

/-- No parameters have a slash. -/
theorem PlainParameters.notMem_slash : ∀ ps : PlainParameters, '/' ∉ ps.chars
  | .nil => by simp [PlainParameters.chars]
  | .cons p .nil => by
    simp [PlainParameters.chars, PlainParameters.separator, PlainParameter.notMem_slash p]
  | .cons p (.cons q ps) => by
    have h := PlainParameters.notMem_slash (.cons q ps)
    rw [PlainParameters.chars]
    simp [PlainParameters.separator, PlainParameter.notMem_slash p, h]

/-- No result has a slash. -/
theorem PlainResult.notMem_slash : ∀ r : PlainResult, '/' ∉ r.chars
  | .none => by simp [PlainResult.chars]
  | .type t => by simp [PlainResult.chars, PlainType.notMem_slash t]
  | .list ps => by simp [PlainResult.chars, PlainParameters.notMem_slash ps]

end

/-! ### A file with one type -/

/-- The text of a file that declares a type. -/
def declaring (p x : TypeName) (t : PlainType) : List Char :=
  ['p', 'a', 'c', 'k', 'a', 'g', 'e'] ++ ' ' :: (p.chars ++ '\n' :: '\n' ::
    (['t', 'y', 'p', 'e'] ++ ' ' :: (x.chars ++ ' ' :: (t.chars ++ ['\n']))))

variable {p x : TypeName} {t : PlainType}

/-- Where the type stands in the file. -/
def declaredAt (p x : TypeName) : Nat :=
  15 + Text.byteLength p.chars + Text.byteLength x.chars + 1

/-- The tokens of the file. -/
theorem tokens_declaring (p x : TypeName) (t : PlainType) :
    tokensFrom 0 (declaring p x t) = wordAt 0 ['p', 'a', 'c', 'k', 'a', 'g', 'e'] ::
      wordAt 8 p.chars :: newlineAt (8 + Text.byteLength p.chars) ::
      wordAt (10 + Text.byteLength p.chars) ['t', 'y', 'p', 'e'] ::
      wordAt (15 + Text.byteLength p.chars) x.chars ::
      tokensFrom (declaredAt p x) (t.chars ++ ['\n']) := by
  have hblank : ∀ cs, EndsWord (' ' :: cs) := fun cs => endsWord_of_mark (by decide)
  have hline : ∀ cs, EndsWord ('\n' :: cs) := fun cs => endsWord_cons (by decide +kernel)
  have hword : ∀ pos, pos + Text.byteLength ['t', 'y', 'p', 'e'] + 1 = pos + 5 := fun _ => rfl
  have hfive : 10 + Text.byteLength p.chars + 5 = 15 + Text.byteLength p.chars := by omega
  have htype : tokensFrom (8 + Text.byteLength p.chars + 2)
      (['t', 'y', 'p', 'e'] ++ ' ' :: (x.chars ++ ' ' :: (t.chars ++ ['\n']))) =
        wordAt (10 + Text.byteLength p.chars) ['t', 'y', 'p', 'e'] ::
          wordAt (15 + Text.byteLength p.chars) x.chars ::
          tokensFrom (declaredAt p x) (t.chars ++ ['\n']) := by
    rw [show 8 + Text.byteLength p.chars + 2 = 10 + Text.byteLength p.chars by omega,
      tokensFrom_word (by decide +kernel) (hblank _), tokensFrom_blank, hword, hfive,
      tokensFrom_name x (hblank _), tokensFrom_blank, declaredAt]
  have hname : tokensFrom (0 + Text.byteLength ['p', 'a', 'c', 'k', 'a', 'g', 'e'] + 1) =
      tokensFrom 8 := rfl
  rw [declaring, tokensFrom_word (by decide +kernel) (hblank _), tokensFrom_blank, hname,
    tokensFrom_name p (hline _), tokensFrom_lines htype (by simp [wordAt])]

/-- The tree of the package clause. -/
def clauseTree (p : TypeName) : Tree :=
  .node .packageClause [.leaf (.token "package") 0 7,
    .leaf (.node .packageIdentifier) 8 (8 + Text.byteLength p.chars)]

/-- The tree of the declaration, over the tree of the type. -/
def declarationTree (p x : TypeName) (tree : Tree) : Tree :=
  .node .typeDeclaration
    [.leaf (.token "type") (10 + Text.byteLength p.chars) (10 + Text.byteLength p.chars + 4),
      specTree (15 + Text.byteLength p.chars) x.chars tree]

/-- The grammar takes the file for the package clause and the declaration, over a tree of the
type. -/
theorem fileItems_declaring (p x : TypeName) (t : PlainType) {n : Nat}
    (hn : (tokensFrom 0 (declaring p x t)).length ≤ n) :
    ∃ tree, Represents tree t (declaredAt p x) ∧ ∃ items,
      fileItems (rulesTo (n + 2)) (tokensFrom 0 (declaring p x t)) = some (items, []) ∧
        items.filter (·.label ≠ .lineBreak) = [clauseTree p, declarationTree p x tree] := by
  have hline : EndsWord ['\n'] := endsWord_cons (by decide +kernel)
  have hstops : ∀ pos, Stops false (tokensFrom pos ['\n']) := fun pos => by
    rw [tokensFrom_line]
    exact ⟨by simp [visible, newlineAt], by simp [visible, newlineAt]⟩
  rw [tokens_declaring] at hn ⊢
  simp only [List.length_cons] at hn
  obtain ⟨tree, ⟨htype, _⟩, htree⟩ :=
    t.readable n (declaredAt p x) false ['\n'] hline (hstops _) (by omega)
  rw [tokensFrom_line] at htype
  have hclause : ∀ ts, fileItem (rulesTo (n + 2)) (wordAt 0 ['p', 'a', 'c', 'k', 'a', 'g', 'e'] ::
      wordAt 8 p.chars :: newlineAt (8 + Text.byteLength p.chars) :: ts) =
        some (some [clauseTree p, .leaf .lineBreak _ _], ts) := fun ts =>
    fileItem_line (by simp [wordAt]) topLevel_clause
  have hdeclaration : fileItem (rulesTo (n + 2))
      (wordAt (10 + Text.byteLength p.chars) ['t', 'y', 'p', 'e'] ::
        wordAt (15 + Text.byteLength p.chars) x.chars ::
        tokensFrom (declaredAt p x) (t.chars ++ ['\n'])) =
        some (some [declarationTree p x tree, .leaf .lineBreak _ _], []) :=
    fileItem_line (by simp [wordAt]) (topLevel_type htype (t.beginsType hline))
  have hend : fileItem (rulesTo (n + 2)) [] = some (none, []) := rfl
  exact ⟨tree, htree, _, bind_of (gather_go_item (hclause _)
    (gather_go_item hdeclaration (gather_go_none hend))), rfl⟩

/-! ### The package of the file -/

/-- The declaration stands for the type, for whatever file has the text. -/
theorem declaredTypes_declarationTree (file : SourceFile) {tree : Tree}
    (hfile : file.text = String.ofList (declaring p x t))
    (h : Represents tree t (declaredAt p x)) :
    Package.declaredTypes file (declarationTree p x tree) =
      [(String.ofList x.chars, { typeParams := [], underlying := t.expr })] := by
  have htext : Text.Occurs file.text 0 (declaring p x t) := ⟨[], [], by simp [hfile], rfl⟩
  have hbehind := ((htext.right (a := ['p', 'a', 'c', 'k', 'a', 'g', 'e', ' '])).right).right
    (a := ['\n', '\n', 't', 'y', 'p', 'e', ' '])
  have hposition : 0 + Text.byteLength ['p', 'a', 'c', 'k', 'a', 'g', 'e', ' '] +
      Text.byteLength p.chars + Text.byteLength ['\n', '\n', 't', 'y', 'p', 'e', ' '] =
        15 + Text.byteLength p.chars := by
    change 0 + 8 + Text.byteLength p.chars + 7 = _
    omega
  rw [hposition] at hbehind
  have hname : Text.slice file.text (15 + Text.byteLength p.chars)
      (15 + Text.byteLength p.chars + Text.byteLength x.chars) = String.ofList x.chars :=
    hbehind.left.slice_eq
  have htype : ofTree file tree = t.expr :=
    h.expr file (hbehind.right.right (a := [' '])).left
  have hchildren : (specTree (15 + Text.byteLength p.chars) x.chars tree).children =
      [(Tree.leaf (.node .typeIdentifier) (15 + Text.byteLength p.chars)
        (15 + Text.byteLength p.chars + Text.byteLength x.chars)).asRole .name,
        tree.asRole .type] :=
    List.filter_eq_self.mpr (by simp [h.label_ne])
  change List.filterMap _ [specTree (15 + Text.byteLength p.chars) x.chars tree] = _
  have his : (specTree (15 + Text.byteLength p.chars) x.chars tree).is .typeSpec = true := rfl
  simp [his, Tree.child?, hchildren, hname, htype]

private theorem notMem_slash_declaring (p x : TypeName) (t : PlainType) :
    '/' ∉ declaring p x t := by
  simp [declaring, p.notMem_slash, x.notMem_slash, t.notMem_slash]

/-- The tree of the file is the clause and the declaration. -/
theorem parse_declaring (path : String) (p x : TypeName) (t : PlainType) :
    ∃ tree, Represents tree t (declaredAt p x) ∧
      SourceFile.parse path (String.ofList (declaring p x t)) =
        { path, text := String.ofList (declaring p x t)
          tree := .mk (.node .sourceFile) none 0 (Text.size (String.ofList (declaring p x t)))
            [clauseTree p, declarationTree p x tree]
          hasErrors := false } := by
  have hcomments : comments (readAll (String.ofList (declaring p x t))) = [] :=
    comments_readAll (by simpa using notMem_slash_declaring p x t)
  have hread : significant (readAll (String.ofList (declaring p x t))) =
      tokensFrom 0 (declaring p x t) :=
    congrArg significant (Syntax.Token.readAll_of_ne String.toList_ofList (by decide))
  obtain ⟨tree, htree, items, hitems, hfilter⟩ :=
    fileItems_declaring p x t (n := 8 * (tokensFrom 0 (declaring p x t)).length + 14) (by omega)
  refine ⟨tree, htree, ?_⟩
  rw [SourceFile.parse, readSource_items (hread.symm ▸ hitems), hcomments, Tree.attach_nil,
    sourceFile, hfilter]
  rfl

/-- The package of a file that declares a type has the type as its spelling is read. -/
theorem typeDecl?_parse (path : String) (p x : TypeName) (t : PlainType) :
    (SourceFile.parse path (String.ofList (declaring p x t))).hasErrors = false ∧
      (Package.ofFiles [SourceFile.parse path (String.ofList (declaring p x t))]).typeDecl?
          (String.ofList x.chars) =
        some { typeParams := [], underlying := t.expr } := by
  obtain ⟨tree, htree, hparse⟩ := parse_declaring path p x t
  have htypes := declaredTypes_declarationTree
    (SourceFile.parse path (String.ofList (declaring p x t))) rfl htree
  rw [hparse] at htypes ⊢
  refine ⟨rfl, ?_⟩
  change lastValue? _ (Package.declaredTypes _ (declarationTree p x tree)) = _
  rw [htypes]
  simp [lastValue?]

/-! ### The two readers -/

/-- The canonical spelling of a type is read as the type, with the spelling of each part. Wherever
the grammar takes the spelling, what is read from the tree is what is read from the spelling. A file
that declares a type of that spelling fits the grammar, and its package has the type. -/
theorem PlainType.ofTree_eq_ofText (t : PlainType) (h : t.KeysBare) :
    TypeExpr.ofText t.spelling = t.expr ∧
    (∀ (file : SourceFile) (before after : List Char) (free : Bool) (n : Nat),
      file.text = String.ofList (before ++ t.chars ++ after) → EndsWord after →
      Stops free (tokensFrom (Text.byteLength before + Text.byteLength t.chars) after) →
      (tokensFrom (Text.byteLength before) (t.chars ++ after)).length ≤ n →
      ∃ tree, type (rulesTo n) free (tokensFrom (Text.byteLength before) (t.chars ++ after)) =
          some (tree, tokensFrom (Text.byteLength before + Text.byteLength t.chars) after) ∧
        file.textOf tree = t.spelling ∧ ofTree file tree = TypeExpr.ofText t.spelling) ∧
    ∀ (path : String) (p x : TypeName),
      (SourceFile.parse path (String.ofList (declaring p x t))).hasErrors = false ∧
        (Package.ofFiles [SourceFile.parse path (String.ofList (declaring p x t))]).typeDecl?
            (String.ofList x.chars) =
          some { typeParams := [], underlying := TypeExpr.ofText t.spelling } := by
  rw [t.ofText_spelling_iff.mpr h]
  refine ⟨rfl, fun file before after free n hfile hafter hstops hn => ?_, fun path p x =>
    typeDecl?_parse path p x t⟩
  have hoccurs : Text.Occurs file.text (Text.byteLength before) t.chars :=
    ⟨before, after, hfile, rfl⟩
  obtain ⟨tree, ⟨htype, _⟩, htree⟩ := t.readable n _ free after hafter hstops hn
  refine ⟨tree, htype, ?_, htree.expr file hoccurs⟩
  rw [SourceFile.textOf, htree.start, htree.stop, hoccurs.slice_eq, spelling]

/-- A map of functions with shared, variadic and qualified parameter types, as the parameter of a
list and in a file. -/
theorem PlainType.ofTree_eq_ofText_handlers : ∃ t : PlainType,
    t.spelling = "map[string]func(a, b *q.T, c ...[]T) (chan T, bool)" ∧ t.KeysBare ∧
      TypeExpr.ofText "map[string]func(a, b *q.T, c ...[]T) (chan T, bool)" =
        .mk "map[string]func(a, b *q.T, c ...[]T) (chan T, bool)"
          (.map (.mk "string" (.named none "string" []))
            (.mk "func(a, b *q.T, c ...[]T) (chan T, bool)" .func)) ∧
      (tokensFrom 1 (t.chars ++ [')'])).length ≤ 40 ∧
      (∃ tree, type (rulesTo 40) true (tokensFrom 1 (t.chars ++ [')'])) =
          some (tree, tokensFrom (1 + Text.byteLength t.chars) [')']) ∧
        ofTree (SourceFile.parse "f.go" (String.ofList (['('] ++ t.chars ++ [')']))) tree =
          TypeExpr.ofText "map[string]func(a, b *q.T, c ...[]T) (chan T, bool)") ∧
      (Package.ofFiles [SourceFile.parse "f.go"
          "package q\n\ntype x map[string]func(a, b *q.T, c ...[]T) (chan T, bool)\n"]).typeDecl?
            "x" =
          some ⟨[], TypeExpr.ofText "map[string]func(a, b *q.T, c ...[]T) (chan T, bool)"⟩ := by
  let string : TypeName := .of ['s', 't', 'r', 'i', 'n', 'g'] (by decide +kernel)
  let bool : TypeName := .of ['b', 'o', 'o', 'l'] (by decide +kernel)
  let a : TypeName := .of ['a'] (by decide +kernel)
  let b : TypeName := .of ['b'] (by decide +kernel)
  let c : TypeName := .of ['c'] (by decide +kernel)
  let q : TypeName := .of ['q'] (by decide +kernel)
  let x : TypeName := .of ['x'] (by decide +kernel)
  let T : TypeName := .of ['T'] (by decide +kernel)
  let t : PlainType := .map (.named string) (.func
    (.cons (.shared a) (.cons (.named b (.pointer (.qualified q T)))
      (.cons (.variadic (some c) (.slice (.named T))) .nil)))
    (.list (.cons (.unnamed (.chan (.named T))) (.cons (.unnamed (.named bool)) .nil))))
  have hspelling : t.spelling = "map[string]func(a, b *q.T, c ...[]T) (chan T, bool)" := rfl
  have hkeys : t.KeysBare := ⟨by decide +kernel, trivial, trivial⟩
  have hlength : (tokensFrom 1 (t.chars ++ [')'])).length ≤ 40 := by decide +kernel
  have hstops : Stops true (tokensFrom (1 + Text.byteLength t.chars) [')']) := by
    rw [tokensFrom_mark (by decide) (by decide)]
    exact stops_symbolAt (by decide)
  obtain ⟨hexpr, hplace, hdeclared⟩ := PlainType.ofTree_eq_ofText t hkeys
  have htext : ∀ text, (SourceFile.parse "f.go" text).text = text := fun _ => rfl
  have hwithin := hplace (SourceFile.parse "f.go" (String.ofList (['('] ++ t.chars ++ [')'])))
    ['('] [')'] true 40 (htext _) (endsWord_of_mark (by decide)) hstops hlength
  obtain ⟨tree, htype, _, htree⟩ := hwithin
  have hfile : String.ofList (declaring q x t) =
      "package q\n\ntype x map[string]func(a, b *q.T, c ...[]T) (chan T, bool)\n" := rfl
  have hname : String.ofList x.chars = "x" := rfl
  have htype? := (hdeclared "f.go" q x).2
  rw [hfile, hname, hspelling] at htype?
  rw [hspelling] at hexpr
  exact ⟨t, hspelling, hkeys, hexpr, hlength, ⟨tree, htype, hspelling ▸ htree⟩, htype?⟩

end GoContracts

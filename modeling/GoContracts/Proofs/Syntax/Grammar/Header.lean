import GoContracts.Proofs.Syntax.Insertion
import GoContracts.Syntax.SourceFile

/-!
# Headers of files

A file begins with its package clause and its import declarations. Each of them is spelled by tokens
that may have newlines before them, and ends where a terminator stands or the file ends. Import
specs may be put in at the end of a list of them, and declarations at the end of a header.
-/

namespace GoContracts

open Syntax (Lexeme Token AllNewlines allNewlines_nil)
open Syntax.Token (moved)
open Syntax.Grammar (isSolid)

namespace Syntax.Token

/-- Whether the token is a literal that may be an import path. -/
def IsQuoted (u : Token) : Prop := u.lexeme = .string ∨ u.lexeme = .rawString

/-- Whether the token is the keyword of imports. -/
def IsImport (u : Token) : Prop := u.isWord "import" = true

/-- Whether the token ends a declaration or an import spec. -/
def IsTerminator (u : Token) : Prop :=
  u.lexeme = .newline ∨ u.lexeme = .symbol ';' ∨ u.lexeme = .symbol '\x00'

/-- No terminator begins a declaration of imports. -/
theorem IsTerminator.not_isImport {u : Token} (h : u.IsTerminator) : ¬u.IsImport := by
  rcases h with h | h | h <;> simp [IsImport, isWord, h]

end Syntax.Token

namespace Import

/-- The tokens are a path, perhaps with a local name before it. -/
inductive Spec : List Token → Import → Prop
  | path {p : Token} (hp : p.IsQuoted) : Spec [p] ⟨SourceFile.unquotePath p.text, none⟩
  | named {n p : Token} (hn : n.lexeme = .word ∨ n.lexeme = .symbol '.') (hp : p.IsQuoted) :
      Spec [n, p] ⟨SourceFile.unquotePath p.text, some n.text⟩

/-- The tokens are the given ones, with newlines before each of them. -/
inductive Spread : List Token → List Token → Prop
  | nil : Spread [] []
  | cons {newlines own us : List Token} {u : Token} (hn : AllNewlines newlines)
      (hu : isSolid u = true) (more : Spread own us) : Spread (newlines ++ u :: own) (u :: us)

/-- The tokens are an import spec. -/
def IsSpec (own : List Token) (i : Import) : Prop := ∃ us, Spread own us ∧ Spec us i

/-- The tokens are import specs as they stand before the parenthesis that closes a list of them. The
last one needs no terminator. -/
inductive Specs : List Token → List Import → Prop
  | done {newlines : List Token} (hn : AllNewlines newlines) : Specs newlines []
  | last {own : List Token} {i : Import} (h : IsSpec own i) : Specs own [i]
  | item {own ts : List Token} {m : Token} {i : Import} {is : List Import} (h : IsSpec own i)
      (hm : m.IsTerminator) (more : Specs ts is) : Specs (own ++ m :: ts) (i :: is)

/-- The tokens are an import declaration. -/
inductive Declaration : List Token → List Import → Prop
  | single {own us : List Token} {word : Token} {i : Import} (hown : Spread own (word :: us))
      (hword : word.IsImport) (hspec : Spec us i) : Declaration own [i]
  | list {front body : List Token} {word opening closing : Token} {is : List Import}
      (hfront : Spread front [word, opening]) (hword : word.IsImport)
      (ho : opening.lexeme = .symbol '(') (hbody : Specs body is)
      (hc : closing.lexeme = .symbol ')') : Declaration (front ++ (body ++ [closing])) is

/-- The tokens are an item of a header: the package clause or an import declaration. -/
inductive Item : List Token → List Import → Prop
  | clause {own : List Token} {word name : Token} (hown : Spread own [word, name])
      (hword : word.isWord "package" = true) (hname : name.lexeme = .word) : Item own []
  | declaration {own : List Token} {is : List Import} (h : Declaration own is) : Item own is

/-- The tokens begin with the given items, and no word `import` is behind them. The last item needs
no terminator where the tokens end. -/
inductive Header {δ : Type} (P : List Token → δ → Prop) : List δ → List Token → Prop
  | rest {ts : List Token} (h : ∀ u ∈ ts, ¬u.IsImport) : Header P [] ts
  | last {own : List Token} {d : δ} (hd : P own d) : Header P [d] own
  | item {own ts : List Token} {m : Token} {d : δ} {ds : List δ} (hd : P own d)
      (hm : m.IsTerminator) (more : Header P ds ts) : Header P (d :: ds) (own ++ m :: ts)

variable {own own' new ts us : List Token} {m u : Token} {i : Import}
  {is js : List Import} {n : Nat}

/-! ### Newlines -/

/-- A solid token may come first. -/
theorem Spread.solid (hu : isSolid u = true) (h : Spread own us) : Spread (u :: own) (u :: us) :=
  .cons allNewlines_nil hu h

private theorem Spread.behind {newlines : List Token} (hn : AllNewlines newlines)
    (h : Spread own (u :: us)) : Spread (newlines ++ own) (u :: us) := by
  cases h with
  | cons hn' hu more =>
    rw [← List.append_assoc]
    exact .cons (hn.append hn') hu more

/-- The solid tokens are those that are spread. -/
theorem Spread.filter_eq (h : Spread own us) : own.filter isSolid = us := by
  induction h with
  | nil => rfl
  | cons hn hu _ ih =>
    rw [List.filter_append, List.filter_eq_nil_iff.mpr fun v hv => by simp [isSolid, hn v hv],
      List.nil_append, List.filter_cons_of_pos hu, ih]

/-- The last token is that of those that are spread. -/
theorem Spread.getLast? (h : Spread own us) : own.getLast? = us.getLast? := by
  induction h with
  | nil => rfl
  | cons _ _ _ ih => rw [List.getLast?_append, List.getLast?_cons, List.getLast?_cons, ih]; rfl

/-- The last token is solid. -/
theorem Spread.isSolid_of_getLast? (h : Spread own us) (hlast : own.getLast? = some u) :
    isSolid u = true := by
  have hmem : ∀ v ∈ us, isSolid v = true := by
    clear hlast
    induction h with
    | nil => simp
    | cons _ hu _ ih => exact List.forall_mem_cons.mpr ⟨hu, ih⟩
  rw [h.getLast?] at hlast
  exact hmem u (List.mem_of_getLast? hlast)

private theorem Spread.eq_nil (h : Spread own us) (hown : own = []) : us = [] := by
  cases h with
  | nil => rfl
  | cons => simp at hown

/-- A specification has tokens. -/
theorem Spec.ne_nil (h : Spec us i) : us ≠ [] := by
  cases h <;> exact List.cons_ne_nil _ _

/-- Newlines may stand before a specification. -/
theorem IsSpec.behind {newlines : List Token} (hn : AllNewlines newlines) (h : IsSpec own i) :
    IsSpec (newlines ++ own) i := by
  obtain ⟨us, hown, hspec⟩ := h
  obtain ⟨u, us, rfl⟩ := List.exists_cons_of_ne_nil hspec.ne_nil
  exact ⟨_, hown.behind hn, hspec⟩

/-- Newlines may stand before specifications. -/
theorem Specs.behind {newlines : List Token} (hn : AllNewlines newlines) (h : Specs own is) :
    Specs (newlines ++ own) is := by
  cases h with
  | done hn' => exact .done (hn.append hn')
  | last h => exact .last (h.behind hn)
  | item h hm more =>
    rw [← List.append_assoc]
    exact .item (h.behind hn) hm more

/-- Newlines may stand behind specifications. -/
theorem Specs.trailed {newlines : List Token} (h : Specs own is) (hn : AllNewlines newlines) :
    Specs (own ++ newlines) is := by
  induction h with
  | done hn' => exact .done (hn'.append hn)
  | last h =>
    cases newlines with
    | nil =>
      rw [List.append_nil]
      exact .last h
    | cons m newlines =>
      obtain ⟨hm, hmore⟩ := List.forall_mem_cons.mp hn
      exact .item h (.inl hm) (.done hmore)
  | item h hm _ ih =>
    rw [List.append_assoc]
    exact .item h hm ih

/-! ### Putting import specs in -/

private theorem Specs.eq_nil (h : Specs own is) (hown : own = []) : is = [] := by
  cases h with
  | done => rfl
  | last h =>
    obtain ⟨us, hus, hspec⟩ := h
    exact absurd (hus.eq_nil hown) hspec.ne_nil
  | item => simp at hown

/-- Import specs may be put in behind the newline that ends a list. -/
theorem Specs.append_behind (h : Specs own is) (hlast : own.getLast? = some m)
    (hm : m.lexeme = .newline) (hnew : Specs new js) : Specs (own ++ new) (is ++ js) := by
  induction h with
  | done hn => exact hnew.behind hn
  | last h =>
    obtain ⟨us, hus, _⟩ := h
    have hsolid := hus.isSolid_of_getLast? hlast
    simp [isSolid, hm] at hsolid
  | @item own rest m' i is h hm' hrest ih =>
    rw [List.append_assoc, List.cons_append]
    refine .item h hm' ?_
    cases rest with
    | nil =>
      rw [hrest.eq_nil rfl]
      exact hnew
    | cons u us =>
      rw [List.getLast?_append, List.getLast?_cons_cons] at hlast
      refine ih ?_
      cases hus : (u :: us).getLast? with
      | none => simp at hus
      | some last => simpa [hus] using hlast

/-! ### Tokens that stand further behind -/

section Moved

variable (n)

private theorem Spread.moved (h : Spread own us) : Spread (own.map (moved n))
    (us.map (moved n)) := by
  induction h with
  | nil => exact .nil
  | cons hn hu _ ih =>
    rw [List.map_append, List.map_cons, List.map_cons]
    exact .cons (List.forall_mem_map.mpr hn) hu ih

private theorem Spec.moved (h : Spec us i) : Spec (us.map (moved n)) i := by
  cases h with
  | path hp => exact .path (p := .moved n _) hp
  | named hn hp => exact .named (n := .moved n _) (p := .moved n _) hn hp

private theorem IsSpec.moved (h : IsSpec own i) : IsSpec (own.map (moved n)) i := by
  obtain ⟨us, hown, hspec⟩ := h
  exact ⟨_, hown.moved n, hspec.moved n⟩

private theorem Specs.moved (h : Specs own is) : Specs (own.map (moved n)) is := by
  induction h with
  | done hn => exact .done (List.forall_mem_map.mpr hn)
  | last h => exact .last (h.moved n)
  | item h hm _ ih =>
    rw [List.map_append, List.map_cons]
    exact .item (h.moved n) hm ih

private theorem Declaration.moved (h : Declaration own is) : Declaration
    (own.map (moved n)) is := by
  cases h with
  | single hown hword hspec => exact .single (hown.moved n) hword (hspec.moved n)
  | list hfront hword ho hbody hc =>
    rw [List.map_append, List.map_append, List.map_singleton]
    exact .list (hfront.moved n) hword ho (hbody.moved n) hc

private theorem Item.moved (h : Item own is) : Item (own.map (moved n)) is := by
  cases h with
  | clause hown hword hname => exact .clause (hown.moved n) hword hname
  | declaration h => exact .declaration (h.moved n)

/-- A header stays one when its tokens are moved. -/
theorem Header.moved {iss : List (List Import)} (h : Header Item iss ts) :
    Header Item iss (ts.map (moved n)) := by
  induction h with
  | rest h => exact .rest (List.forall_mem_map.mpr h)
  | last hd => exact .last (hd.moved n)
  | item hd hm _ ih =>
    rw [List.map_append, List.map_cons]
    exact .item (hd.moved n) hm ih

end Moved

end Import

end GoContracts

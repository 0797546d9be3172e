import GoContracts.Proofs.Syntax.Insertion

/-!
# Texts side by side

The tokens of two texts that are put side by side are those of both, if no number, word or comment
of the first one goes on in the second one.
-/

namespace GoContracts.Syntax.Token

variable {pos first : Nat} {c : Char} {cs x y z : List Char}

/-- A block comment is begun and has no end, so that its first two characters are symbols. -/
def Unclosed (ts : List Token) : Prop :=
  ∃ t ∈ ts, ∃ u ∈ ts, t.lexeme = .symbol '/' ∧ u.lexeme = .symbol '*' ∧ u.start = t.stop

instance (ts : List Token) : Decidable (Unclosed ts) :=
  inferInstanceAs (Decidable (∃ t ∈ ts, ∃ u ∈ ts, t.lexeme = .symbol '/' ∧
    u.lexeme = .symbol '*' ∧ u.start = t.stop))

/-- Whether no number, word or comment of `x` goes on in `y`, which stands behind it in the place of
`z`: a slash at the end of `x` begins no comment, and what ends with `x` is no line comment unless a
newline follows it. -/
structure Joins (pos : Nat) (x z y : List Char) : Prop extends Parted x z y where
  slash : (∀ d ∈ x.getLast?, d ≠ '/') ∨ ∀ d ∈ y.head?, d ≠ '/' ∧ d ≠ '*'
  line : (∀ d ∈ y.head?, d = '\n') ∨ (∃ d ∈ z.head?, d ≠ '\n') ∨
    ∀ t ∈ readFrom pos (x ++ z), t.lexeme = .comment → t.stop ≠ pos + Text.byteLength x

/-- A star and an equals sign are symbols of one character. -/
theorem scan_lone (hc : c ∈ ['*', '=']) (cs : List Char) : scan c cs = (some (.symbol c), 0) := by
  have hforeign : Foreign c := by
    rcases List.mem_pair.mp hc with rfl | rfl <;> constructor <;> decide
  have hidentifier : Text.isIdentifierStart c = false := by
    rcases List.mem_pair.mp hc with rfl | rfl <;> decide +kernel
  unfold scan scanMark
  rw [number?_eq_none hforeign, hidentifier]
  rcases List.mem_pair.mp hc with rfl | rfl <;> rfl

/-- A comment that is begun and has no end is read as its first two characters. -/
private theorem unclosed_of_blockLength? (h : blockLength? cs = none) :
    Unclosed (readFrom pos ('/' :: '*' :: cs)) := by
  have hslash : scan '/' ('*' :: cs) = (some (.symbol '/'), 0) := by
    rw [scan_slash, commentLength?, h]
    rfl
  have hread : readFrom pos ('/' :: '*' :: cs) =
      ⟨.symbol '/', "/", pos, pos + 1⟩ :: ⟨.symbol '*', "*", pos + 1, pos + 1 + 1⟩ ::
        readFrom (pos + 1 + 1) cs := by
    rw [readFrom_cons, front?, hslash, List.drop_zero, readFrom_cons, front?, scan_lone (by simp)]
    rfl
  rw [hread]
  exact ⟨_, List.mem_cons_self .., _, List.mem_cons_of_mem _ (List.mem_cons_self ..), rfl, rfl, rfl⟩

section

variable (h : Joins pos x z y)
include h

/-- A line comment of a text is the same before what takes the place of the rest. -/
private theorem Joins.lineComment (hnull : '\x00' ∉ x ++ z)
    (hopens : Opens pos x z first '/' ('/' :: cs)) :
    (cs ++ y).takeWhile (fun c => c != '\n' && !isNull c) =
      cs.takeWhile fun c => c != '\n' && !isNull c := by
  have hcomment := commentLength?_of_scan hopens.cut
  simp only [List.cons_append, commentLength?, Option.some.injEq,
    Nat.add_right_cancel_iff] at hcomment
  have hcut : (cs ++ z).takeWhile (fun c => c != '\n' && !isNull c) =
      cs.takeWhile fun c => c != '\n' && !isNull c :=
    takeWhile_cut (hcomment.le.trans (List.takeWhile_sublist _).length_le)
  rw [List.takeWhile_append] at hcut ⊢
  split_ifs at hcut ⊢ with hall
  · have hcs := (List.takeWhile_sublist _).eq_of_length hall
    rcases h.line with hnew | ⟨d, hd, hne⟩ | hends
    · cases y with
      | nil => simp [hcs]
      | cons d y => simp [hcs, hnew d rfl]
    · obtain ⟨rest, rfl⟩ := List.head?_eq_some_iff.mp hd
      have hzero : d ≠ '\x00' := by
        rintro rfl
        exact hnull (by simp)
      have hline : (d != '\n' && !isNull d) = true := by simp [hne, hzero, isNull]
      rw [List.takeWhile_cons, if_pos hline, hcs] at hcut
      simp at hcut
    · -- The comment takes the whole rest of the first text.
      have hscan : scan '/' ('/' :: cs) = (some .comment, ('/' :: cs).length) := by
        rw [scan_slash, commentLength?, hcs]
        rfl
      have hfront := hopens.cut.trans hscan
      obtain ⟨t, ht, hlexeme, _, hstop⟩ :=
        @exists_mem_of_scan first _ _ _ (congrArg Prod.fst hfront)
      rw [hfront, List.take_left, hopens.stop] at hstop
      exact absurd hstop (hends t (hopens.subset ht) hlexeme)
  · rfl

/-- A comment of a text is the same before what takes the place of the rest. -/
private theorem Joins.comment (hnull : '\x00' ∉ x ++ z)
    (hclosed : ¬Unclosed (readFrom pos (x ++ z))) (hopens : Opens pos x z first '/' cs) :
    commentLength? (cs ++ y) = commentLength? cs := by
  match cs with
  | [] =>
    obtain ⟨earlier, rfl⟩ := hopens.suffix
    rcases h.slash with hlast | hhead
    · exact absurd rfl (hlast '/' (by simp))
    · cases y with
      | nil => rfl
      | cons d y =>
        obtain ⟨hslash, hstar⟩ := hhead d rfl
        simp [commentLength?, hslash, hstar]
  | e :: cs =>
    by_cases hline : e = '/'
    · subst hline
      simp only [List.cons_append, commentLength?, h.lineComment hnull hopens]
    by_cases hblock : e = '*'
    · subst hblock
      cases hn : blockLength? cs with
      | some n =>
        have hsame := (steady_blockLength? cs y n (upTo_blockLength?.le cs n hn)).mpr hn
        simp only [List.cons_append, commentLength?, hn, hsame]
      | none =>
        have hcomment := commentLength?_of_scan hopens.cut
        simp only [List.cons_append, commentLength?, hn, Option.map_none,
          Option.map_eq_none_iff] at hcomment
        obtain ⟨t, ht, u, hu, hopen⟩ := @unclosed_of_blockLength? first _ hcomment
        exact absurd ⟨t, hopens.subset ht, u, hopens.subset hu, hopen⟩ hclosed
    · simp [commentLength?, hline, hblock]

/-- Two texts that are put side by side have the tokens of both. -/
theorem Joins.readFrom_append (hnull : '\x00' ∉ x ++ z)
    (hclosed : ¬Unclosed (readFrom pos (x ++ z)))
    (hwhole : Whole (readFrom pos (x ++ z)) (pos + Text.byteLength x)) :
    readFrom pos (x ++ y) = readFrom pos x ++ readFrom (pos + Text.byteLength x) y := by
  refine (readFrom_of_opens (fun first c cs hopens => ?_) hwhole).2
  obtain ⟨earlier, hearlier⟩ := id hopens.suffix
  have hparted : Parted (c :: cs) z y := Parted.right (x := earlier) (hearlier ▸ h.toParted)
  refine scan_join hparted (fun hslash => ?_) hopens.cut hopens.known
  subst hslash
  exact h.comment hnull hclosed hopens

end

/-! ### Tokens without their places -/

/-- What a token is, without its place. -/
def sign (t : Token) : Lexeme × String := (t.lexeme, t.text)

/-- What the tokens of a text are. -/
def signs (cs : List Char) : List (Lexeme × String) := (readFrom 0 cs).map sign

/-- No characters give no signs. -/
@[simp] theorem signs_nil : signs [] = [] := by rw [signs, readFrom_nil, List.map_nil]

/-- What the tokens of a text are does not depend on where it begins. -/
theorem map_sign_readFrom (pos : Nat) (cs : List Char) : (readFrom pos cs).map sign = signs cs := by
  rw [signs, ← Nat.zero_add pos, readFrom_add, List.map_map]
  rfl

end GoContracts.Syntax.Token

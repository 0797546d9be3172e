import GoContracts.Proofs.Syntax.Grammar.File
import GoContracts.Proofs.Syntax.Relexing
import Mathlib.Data.List.Basic

/-!
# Text that is put into a text

The tokens before and behind a place where no token is open stay if another text is put in there;
those behind it stand further behind.
-/

namespace GoContracts.Syntax

/-! ### Tokens that stand further behind -/

namespace Token

variable {pos : Nat} {cs : List Char}

/-- A token that stands further behind. -/
def moved (n : Nat) (t : Token) : Token := { t with start := t.start + n, stop := t.stop + n }

/-- Tokens move with the place from which the text is read. -/
theorem readFrom_add (pos n : Nat) (cs : List Char) :
    readFrom (pos + n) cs = (readFrom pos cs).map (moved n) := by
  induction pos, cs using readFrom_induction with
  | nil pos => simp [readFrom_nil]
  | cons pos c cs ih =>
    rw [readFrom_cons, readFrom_cons, List.map_append, ← ih, Nat.add_right_comm]
    congr 1
    cases hx : (scan c cs).1 with
    | none => simp [front?, hx]
    | some x => simp [front?, hx, moved, Nat.add_right_comm]

end Token

/-- A token stands once among ordered tokens. -/
theorem Ordered.append_cons_inj {a b c d : List Token} {u : Token} (h : Ordered (a ++ u :: b))
    (heq : a ++ u :: b = c ++ u :: d) : a = c ∧ b = d := by
  have hbefore : u ∉ a := fun hu => Nat.lt_irrefl _ (h.start_lt hu (List.mem_cons_self ..))
  have hbehind : u ∉ b := fun hu =>
    Nat.lt_irrefl _ ((List.append_cons a u b ▸ h).start_lt (by simp) hu)
  obtain ⟨hfront, _, hback⟩ := (List.append_cons_inj_of_notMem hbefore hbehind).mp heq
  exact ⟨hfront, hback⟩

/-! ### Significant tokens -/

namespace Grammar

open Token (moved)

variable {a b : List Token} {u : Token}

/-- Behind comments the same tokens are significant. -/
theorem significant_comments (h : ∀ u ∈ a, u.lexeme = .comment) (b : List Token) :
    significant (a ++ b) = significant b := by
  induction a with
  | nil => rfl
  | cons t a ih =>
    obtain ⟨ht, ha⟩ := List.forall_mem_cons.mp h
    rw [List.cons_append, significant, if_pos ht, ih ha]

/-- Tokens in two parts may be looked at part by part, if newlines do not meet. -/
theorem significant_append (a : List Token)
    (hb : ∀ u ∈ (significant b).head?, u.lexeme ≠ .newline) :
    significant (a ++ b) = significant a ++ significant b := by
  induction a with
  | nil => rw [significant, List.nil_append, List.nil_append]
  | cons t a ih =>
    rw [List.cons_append, significant, significant, ih]
    split
    · rfl
    split
    · cases significant a with
      | nil =>
        cases hrest : significant b with
        | nil => rfl
        | cons u more =>
          have hu : u.lexeme ≠ .newline := hb u (by rw [hrest]; rfl)
          simp [hu]
      | cons u more =>
        by_cases hu : u.lexeme = .newline <;> simp [hu]
    · rfl

/-- A solid token is significant. -/
theorem significant_cons_solid (hu : isSolid u = true) (b : List Token) :
    significant (u :: b) = u :: significant b := by
  simp only [isSolid, Bool.and_eq_true, decide_eq_true_eq] at hu
  rw [significant, if_neg hu.2, if_neg hu.1]

/-- A name, literal or symbol parts the tokens on both sides of it. -/
theorem significant_append_solid (a : List Token) (hu : isSolid u = true) (b : List Token) :
    significant (a ++ u :: b) = significant a ++ u :: significant b := by
  have hne : u.lexeme ≠ .newline := by
    simp only [isSolid, Bool.and_eq_true, decide_eq_true_eq] at hu
    exact hu.1
  rw [significant_append a (by rw [significant_cons_solid hu]; simpa using hne),
    significant_cons_solid hu]

/-- A newline at the end is significant, unless one stands there already. -/
theorem significant_concat (a : List Token) (hu : u.lexeme = .newline) :
    ∃ m : Token, m.lexeme = .newline ∧ (significant (a ++ [u]) = significant a ++ [m] ∨
      significant (a ++ [u]) = significant a ∧ (significant a).getLast? = some m) := by
  have hone : significant [u] = [u] := by
    rw [significant, if_neg (by simp [hu]), if_pos hu, significant]
  induction a with
  | nil => exact ⟨u, hu, .inl (by rw [List.nil_append, hone, significant]; rfl)⟩
  | cons t a ih =>
    rw [List.cons_append, significant, significant]
    obtain ⟨m, hm, h | ⟨h, hlast⟩⟩ := ih
    · rw [h]
      split
      · exact ⟨m, hm, .inl rfl⟩
      split
      · next hnew =>
        cases significant a with
        | nil => exact ⟨t, hnew, .inr ⟨by simp [hm], rfl⟩⟩
        | cons v more =>
          refine ⟨m, hm, .inl ?_⟩
          by_cases hv : v.lexeme = .newline <;> simp [hv]
      · exact ⟨m, hm, .inl rfl⟩
    · rw [h]
      split
      · exact ⟨m, hm, .inr ⟨rfl, hlast⟩⟩
      split
      · next hnew =>
        obtain ⟨v, more, hmore⟩ := List.exists_cons_of_ne_nil (l := significant a) fun hnil => by
          simp [hnil] at hlast
        rw [hmore] at hlast ⊢
        by_cases hv : v.lexeme = .newline
        · cases more with
          | nil => exact ⟨t, hnew, .inr ⟨rfl, by simp [hv]⟩⟩
          | cons w ws => exact ⟨m, hm, .inr ⟨rfl, by simpa [hv] using hlast⟩⟩
        · exact ⟨m, hm, .inr ⟨rfl, by simpa [hv, List.getLast?_cons_cons] using hlast⟩⟩
      · exact ⟨m, hm, .inr ⟨rfl, by simp [List.getLast?_cons, hlast]⟩⟩

/-- Tokens stay significant when they are moved. -/
theorem significant_map_moved (n : Nat) (ts : List Token) :
    significant (ts.map (moved n)) = (significant ts).map (moved n) := by
  induction ts with
  | nil => rw [List.map_nil, significant, List.map_nil]
  | cons t ts ih =>
    have hlexeme : ∀ u : Token, (moved n u).lexeme = u.lexeme := fun _ => rfl
    rw [List.map_cons, significant, significant, ih, hlexeme]
    by_cases hc : t.lexeme = .comment
    · rw [if_pos hc, if_pos hc]
    by_cases hn : t.lexeme = .newline
    · rw [if_neg hc, if_neg hc, if_pos hn, if_pos hn]
      cases significant ts with
      | nil => rfl
      | cons u more =>
        by_cases hu : u.lexeme = .newline <;> simp [hlexeme, hu]
    · rw [if_neg hc, if_neg hc, if_neg hn, if_neg hn, List.map_cons]

end Grammar

/-! ### Places between tokens -/

namespace Token

open Text (isBlank Boundary CharAt Between)

variable {s : String} {t u : Token} {x z new : List Char} {pos : Nat}

/-- No token is open where a token begins. -/
theorem whole_start (hknown : ∀ t ∈ readAll s, t.lexeme ≠ .unknown) (hu : u ∈ readAll s) :
    Whole (readAll s) u.start := by
  intro t ht
  refine ⟨hknown t ht, ?_⟩
  by_cases hne : t = u
  · exact .inr (hne ▸ Nat.le_refl _)
  · rcases apart_of_ne ht hu hne with hbefore | hbehind
    · exact .inl hbefore
    · have := (ordered_readAll s).1 u hu
      exact .inr (by omega)

/-- No token is open where a token ends. -/
theorem whole_stop (hknown : ∀ t ∈ readAll s, t.lexeme ≠ .unknown) (hu : u ∈ readAll s) :
    Whole (readAll s) u.stop := by
  intro t ht
  refine ⟨hknown t ht, ?_⟩
  by_cases hne : t = u
  · exact .inl (hne ▸ Nat.le_refl _)
  · rcases apart_of_ne ht hu hne with hbefore | hbehind
    · have := (ordered_readAll s).1 u hu
      exact .inl (by omega)
    · exact .inr hbehind

/-- No token is open where a line begins that only blanks stand on before a token. -/
theorem whole_lineStart (hknown : ∀ t ∈ readAll s, t.lexeme ≠ .unknown) (hu : u ∈ readAll s)
    (hstarts : Text.startsLine s u.start = true) :
      Whole (readAll s) (Text.lineStart s u.start) := by
  have hboundary := (boundaries hu).1
  have hrun := Text.lineStart_run hboundary
  have hblank := (Text.startsLine_iff hboundary).mp hstarts
  intro t ht
  refine ⟨hknown t ht, ?_⟩
  rcases Text.lineStart_cases hboundary with hzero | ⟨prev, hprev, hnext⟩
  · exact .inr (by omega)
  by_contra hin
  obtain ⟨hstop, hstart⟩ := not_or.mp hin
  have hle := hrun.le
  have hne : t ≠ u := by
    rintro rfl
    omega
  have hbefore : t.stop ≤ u.start := by
    rcases apart_of_ne ht hu hne with h | h
    · exact h
    · have := (ordered_readAll s).1 u hu
      omega
  by_cases hnew : t.lexeme = .newline
  · have := (charAt_newline ht hnew).2
    have hone : Char.utf8Size '\n' = 1 := rfl
    omega
  by_cases hcomment : t.lexeme = .comment
  · rcases (charAt_comment ht hcomment).2 with ⟨hline, _⟩ | ⟨_, last, hlast, hend, _⟩
    · exact hline prev _ hprev (by omega) (by omega) rfl
    · exact absurd (hblank last _ hlast (by omega) (by omega)) (by decide)
  · obtain ⟨last, d, hlast, hend, _, hd⟩ := charAt_last ht ⟨hnew, hcomment, hknown t ht⟩
    have hpos := d.utf8Size_pos
    by_cases hlt : last < Text.lineStart s u.start
    · have := hlast.next_le hrun.boundary hlt
      omega
    · have := hblank last d hlast (by omega) (by omega)
      simp [hd] at this

/-- The byte order mark is no part of the text that is read. -/
theorem readAll_of_mark (hs : s.toList = '\ufeff' :: x) : readAll s = readFrom 3 x := by
  rw [readAll, Text.chars_eq]
  split
  · next heq => rw [(List.cons.inj (hs.symm.trans heq)).2]
  · next hne => exact absurd hs (hne x)

/-- A text without a byte order mark is read from its start. -/
theorem readAll_of_ne {c : Char} (hs : s.toList = c :: x) (hc : c ≠ '\ufeff') :
    readAll s = readFrom 0 (c :: x) := by
  rw [readAll, Text.chars_eq]
  rw [hs]
  split
  · next heq => exact absurd (List.cons.inj heq).1 hc
  · rfl

/-- A text may be put in where no token is open, if it parts what stands on both sides of it. -/
theorem readAll_insert (hs : s.toList = x ++ z) (hx : x ≠ []) (hnull : '\x00' ∉ s.toList)
    (hline : (new ++ z).head? = some '\n' ∨ ∃ d, z.head? = some d ∧ d ≠ '\n')
    (hseparate : Separate x (new ++ z)) (hstar : '*' ∉ new)
    (hwhole : Whole (readAll s) (Text.byteLength x)) :
    ∃ ts, readAll s = ts ++ readFrom (Text.byteLength x) z ∧
      readAll (String.ofList (x ++ (new ++ z))) = ts ++ readFrom (Text.byteLength x) (new ++ z) ∧
      ∀ t ∈ ts, t.stop ≤ Text.byteLength x := by
  have hswaps : Swaps x z (new ++ z) := {
    line := hline
    null := hs ▸ hnull
    separate := hseparate
    unclosed := fun hopen => infix_join (fun h => hstar (h.subset (by simp))) hopen fun hlast =>
      absurd (List.mem_of_getLast? hlast) hstar }
  obtain ⟨c, x, rfl⟩ := List.exists_cons_of_ne_nil hx
  have hs' : (String.ofList (c :: x ++ (new ++ z))).toList = c :: (x ++ (new ++ z)) := by simp
  by_cases hc : c = '\ufeff'
  · subst hc
    have hmark : Char.utf8Size '\ufeff' = 3 := rfl
    rw [readAll_of_mark hs, Text.byteLength_cons, hmark] at hwhole
    have hold := readFrom_cut hwhole
    have hnew := readFrom_swap (Swaps.right (x := ['\ufeff']) hswaps) hwhole
    rw [readAll_of_mark hs, readAll_of_mark hs', Text.byteLength_cons, hmark]
    exact ⟨_, hold, hnew, fun t ht => (bounds_of_mem ht).2⟩
  · rw [readAll_of_ne hs hc, ← Nat.zero_add (Text.byteLength _)] at hwhole
    have hold := readFrom_cut (x := c :: x) hwhole
    have hnew := readFrom_swap hswaps hwhole
    rw [Nat.zero_add] at hold hnew
    rw [readAll_of_ne hs hc, readAll_of_ne hs' hc]
    exact ⟨_, hold, hnew, fun t ht => Nat.zero_add (Text.byteLength _) ▸ (bounds_of_mem ht).2⟩

end Token

end GoContracts.Syntax

import GoContracts.Proofs.Syntax.Reading
import GoContracts.Proofs.Syntax.Scanning
import GoContracts.Proofs.Text.Slices

/-!
# The tokens of a text

Tokens stand in order, each where its text does, and what lies between them is blank. The tokens of
a text that goes on behind a newline are the tokens of both parts.
-/

namespace GoContracts.Syntax.Token

variable {pos : Nat} {c : Char} {cs : List Char}

/-- The token at the front of a text, unless a gap stands there. -/
def front? (pos : Nat) (c : Char) (cs : List Char) : Option Token :=
  (scan c cs).1.map fun lexeme =>
    let taken := c :: cs.take (scan c cs).2
    ⟨lexeme, String.ofList taken, pos, pos + Text.byteLength taken⟩

/-- No characters have no tokens. -/
theorem readFrom_nil : readFrom pos [] = [] := by
  rw [readFrom]

/-- The token in front comes before those behind it. -/
theorem readFrom_cons : readFrom pos (c :: cs) = (front? pos c cs).toList ++
    readFrom (pos + Text.byteLength (c :: cs.take (scan c cs).2)) (cs.drop (scan c cs).2) := by
  rw [readFrom]
  cases hx : (scan c cs).1 with
  | none => simp [front?, hx]
  | some x => simp [front?, hx]

/-- What holds of the empty text, and of a text if it holds behind the first token, holds of every
text. -/
theorem readFrom_induction {P : Nat → List Char → Prop} (nil : ∀ pos, P pos [])
    (cons : ∀ pos c cs,
      P (pos + Text.byteLength (c :: cs.take (scan c cs).2)) (cs.drop (scan c cs).2) →
        P pos (c :: cs)) (pos : Nat) (cs : List Char) : P pos cs := by
  induction hn : cs.length using Nat.strong_induction_on generalizing pos cs with
  | _ n ih =>
    cases cs with
    | nil => exact nil pos
    | cons c cs =>
      refine cons pos c cs (ih _ ?_ _ _ rfl)
      rw [List.length_drop, ← hn, List.length_cons]
      omega

/-! ### Where tokens stand -/

private theorem lexeme_number? {x : Lexeme} {n : Nat} (h : number? cs = some (x, n)) :
    x ≠ .newline ∧ ∀ d, x ≠ .symbol d := by
  unfold number? at h
  simp only at h
  split_ifs at h
  all_goals
    obtain ⟨rfl, _⟩ := Prod.mk.inj (Option.some.inj h)
    simp

private theorem lexeme_closed {x : Lexeme} (n? : Option Nat) (hx : x ≠ .newline)
    (hs : ∀ d, x ≠ .symbol d) :
    (closed x n?).1 ≠ .newline ∧ ∀ d, (closed x n?).1 ≠ .symbol d := by
  unfold closed
  cases n? <;> simp [hx, hs]

private theorem lexeme_scanMark (c : Char) (cs : List Char) :
    (scanMark c cs).1 ≠ .newline ∧
      ∀ d, (scanMark c cs).1 = .symbol d → d = c ∧ (scanMark c cs).2 = 0 := by
  have hclosed := fun (x : Lexeme) (n? : Option Nat) (hx : x ≠ .newline ∧ ∀ d, x ≠ .symbol d) =>
    lexeme_closed n? hx.1 hx.2
  unfold scanMark
  split_ifs
  · have := hclosed .string (stringLength? 0 cs) (by simp)
    exact ⟨this.1, fun d hd => absurd hd (this.2 d)⟩
  · have := hclosed .rawString (untilLength? '`' cs) (by simp)
    exact ⟨this.1, fun d hd => absurd hd (this.2 d)⟩
  · have := hclosed .rune (runeLength? cs) (by simp)
    exact ⟨this.1, fun d hd => absurd hd (this.2 d)⟩
  all_goals split <;> simp [eq_comm]

/-- What separates tokens is blank. -/
theorem isBlank_of_isGap (h : isGap c = true) : Text.isBlank c = true := by
  simp only [isGap, Bool.or_eq_true, decide_eq_true_eq] at h
  rcases h with (((h | h) | h) | h) | h <;> subst h <;> decide

/-- What stands at the front of a text: a gap, a newline or another token. A symbol is one
character. -/
theorem scan_cases (c : Char) (cs : List Char) :
    (Text.isBlank c = true ∧ (scan c cs = (none, 0) ∨ scan c cs = (some .newline, 0))) ∨
      ∃ x n, scan c cs = (some x, n) ∧ x ≠ .newline ∧ ∀ d, x = .symbol d → d = c ∧ n = 0 := by
  unfold scan
  split
  · next hgap => exact .inl ⟨isBlank_of_isGap hgap, .inl rfl⟩
  · split
    · next hnew => exact .inl ⟨by rw [hnew]; decide, .inr rfl⟩
    · split
      · exact .inr ⟨_, _, rfl, by simp, by simp⟩
      · split
        · next x n hn =>
          obtain ⟨hx, hs⟩ := lexeme_number? hn
          exact .inr ⟨_, _, rfl, hx, fun d hd => absurd hd (hs d)⟩
        · obtain ⟨hx, hs⟩ := lexeme_scanMark c cs
          exact .inr ⟨_, _, rfl, hx, hs⟩

/-- The characters of the first token or gap, and those behind it. -/
theorem front_append (c : Char) (cs : List Char) :
    c :: cs.take (scan c cs).2 ++ cs.drop (scan c cs).2 = c :: cs := by
  rw [List.cons_append, List.take_append_drop]

/-- A token stands where its text does. -/
theorem mem_readFrom {t : Token} (h : t ∈ readFrom pos cs) :
    ∃ a m b, cs = a ++ m ++ b ∧ m ≠ [] ∧ t.start = pos + Text.byteLength a ∧
      t.stop = t.start + Text.byteLength m ∧ ∀ d, t.lexeme = .symbol d → m = [d] := by
  induction pos, cs using readFrom_induction with
  | nil pos => simp [readFrom_nil] at h
  | cons pos c cs ih =>
    rw [readFrom_cons, List.mem_append] at h
    rcases h with h | h
    · simp only [front?, Option.mem_toList, Option.map_eq_some_iff] at h
      obtain ⟨x, hx, rfl⟩ := h
      refine ⟨[], _, _, (front_append c cs).symm, List.cons_ne_nil _ _, rfl, rfl, fun d hd => ?_⟩
      rcases scan_cases c cs with ⟨_, hscan | hscan⟩ | ⟨y, n, hscan, _, hsymbol⟩
      · simp [hscan] at hx
      · simp only [hscan, Option.some.injEq] at hx
        simp [← hx] at hd
      · simp only [hscan, Option.some.injEq] at hx ⊢
        obtain ⟨rfl, rfl⟩ := hsymbol d (hx.trans hd)
        simp
    · obtain ⟨a, m, b, hcs, hm, hstart, hstop, hsymbol⟩ := ih h
      refine ⟨c :: cs.take (scan c cs).2 ++ a, m, b, ?_, hm, ?_, hstop, hsymbol⟩
      · rw [List.append_assoc, List.append_assoc, ← List.append_assoc a, ← hcs, front_append]
      · rw [hstart, Text.byteLength_append]
        omega

/-- Tokens stand within their text. -/
theorem bounds_of_mem {t : Token} (h : t ∈ readFrom pos cs) :
    pos ≤ t.start ∧ t.stop ≤ pos + Text.byteLength cs := by
  obtain ⟨a, m, b, rfl, _, hstart, hstop, _⟩ := mem_readFrom h
  rw [Text.byteLength_append, Text.byteLength_append]
  omega

private theorem ordered_readFrom (pos : Nat) (cs : List Char) : Ordered (readFrom pos cs) := by
  refine ⟨fun t ht => ?_, ?_⟩
  · obtain ⟨a, m, b, _, hm, _, hstop, _⟩ := mem_readFrom ht
    have := Text.byteLength_pos hm
    omega
  · induction pos, cs using readFrom_induction with
    | nil pos => simp [readFrom_nil]
    | cons pos c cs ih =>
      rw [readFrom_cons, List.pairwise_append]
      refine ⟨?_, ih, fun t ht u hu => ?_⟩
      · cases front? pos c cs <;> simp
      · obtain ⟨a, m, b, _, _, hstart, _, _⟩ := mem_readFrom hu
        simp only [front?, Option.mem_toList, Option.map_eq_some_iff] at ht
        obtain ⟨x, _, rfl⟩ := ht
        simp only [hstart, Nat.le_add_right]

/-- The tokens of a text are in order. -/
theorem ordered_readAll (s : String) : Ordered (readAll s) := by
  rw [readAll, Text.chars_eq]
  split <;> exact ordered_readFrom _ _

/-- Tokens stand within their text. -/
theorem stop_le_size {s : String} {t : Token} (h : t ∈ readAll s) : t.stop ≤ Text.size s := by
  rw [Text.size_eq]
  rw [readAll, Text.chars_eq] at h
  split at h
  · next cs hcs =>
    have := (bounds_of_mem h).2
    have hmark : Char.utf8Size '\ufeff' = 3 := rfl
    rwa [hcs, Text.byteLength_cons, hmark]
  · have := (bounds_of_mem h).2
    rwa [Nat.zero_add] at this

private theorem isGap_of_scan (h : (scan c cs).1 = none) : isGap c = true := by
  unfold scan at h
  split_ifs at h with hgap
  · exact hgap
  · split at h <;> simp at h

/-- A character that is no gap stands in a token, and in that of a newline only if it is blank. -/
theorem exists_mem_of_isGap (pos : Nat) {a b : List Char} (hc : isGap c = false) :
    ∃ t ∈ readFrom pos (a ++ c :: b), (t.lexeme = .newline → Text.isBlank c = true) ∧
      t.start ≤ pos + Text.byteLength a ∧ pos + Text.byteLength a < t.stop := by
  generalize htext : a ++ c :: b = text
  induction pos, text using readFrom_induction generalizing a with
  | nil pos => simp at htext
  | cons pos e cs ih =>
    by_cases hle : Text.byteLength (e :: cs.take (scan e cs).2) ≤ Text.byteLength a
    · obtain ⟨m, rfl, hdrop⟩ := Text.exists_middle ((front_append e cs).trans htext.symm) hle
      obtain ⟨t, ht, hx, hstart, hstop⟩ := ih hdrop.symm
      rw [Text.byteLength_append]
      refine ⟨t, ?_, hx, by omega, by omega⟩
      rw [readFrom_cons, List.mem_append]
      exact .inr ht
    -- The character stands at the front or in a longer token.
    cases hx : (scan e cs).1 with
    | none =>
      rcases scan_cases e cs with ⟨_, hscan | hscan⟩ | ⟨x, n, hscan, _⟩
      · cases a with
        | nil =>
          obtain ⟨rfl, _⟩ := List.cons.inj htext
          simp [isGap_of_scan hx] at hc
        | cons d ds =>
          obtain ⟨rfl, _⟩ := List.cons.inj htext
          simp [hscan] at hle
      · simp [hscan] at hx
      · simp [hscan] at hx
    | some x =>
      refine ⟨⟨x, String.ofList (e :: cs.take (scan e cs).2), pos,
        pos + Text.byteLength (e :: cs.take (scan e cs).2)⟩, ?_, fun hnew => ?_,
        Nat.le_add_right .., Nat.add_lt_add_left (Nat.not_le.mp hle) pos⟩
      · rw [readFrom_cons, front?, hx]
        exact List.mem_append_left _ (List.mem_singleton_self _)
      · rcases scan_cases e cs with ⟨hblank, hscan | hscan⟩ | ⟨y, n, hscan, hne, _⟩
        · simp [hscan] at hx
        · cases a with
          | nil =>
            obtain ⟨rfl, _⟩ := List.cons.inj htext
            exact hblank
          | cons d ds =>
            obtain ⟨rfl, _⟩ := List.cons.inj htext
            simp [hscan] at hle
        · rw [hscan] at hx
          exact absurd ((Option.some.inj hx).trans hnew) hne

/-- A character that is no blank stands in a token. -/
theorem exists_mem_readFrom (pos : Nat) {a b : List Char} (hc : Text.isBlank c = false) :
    ∃ t ∈ readFrom pos (a ++ c :: b), t.lexeme ≠ .newline ∧
      t.start ≤ pos + Text.byteLength a ∧ pos + Text.byteLength a < t.stop := by
  have hgap : isGap c = false := by
    by_contra hgap
    have := isBlank_of_isGap (Bool.not_eq_false _ ▸ hgap)
    simp [hc] at this
  obtain ⟨t, ht, hnew, hspan⟩ := exists_mem_of_isGap pos (a := a) (b := b) hgap
  exact ⟨t, ht, fun hx => by simp [hnew hx] at hc, hspan⟩

/-! ### Tokens of joined texts -/

/-- The token of a newline. -/
def newlineAt (pos : Nat) : Token := ⟨.newline, "\n", pos, pos + 1⟩

/-- A newline is one token. -/
theorem readFrom_newline (pos : Nat) (rest : List Char) :
    readFrom pos ('\n' :: rest) = newlineAt pos :: readFrom (pos + 1) rest := by
  have hscan : scan '\n' rest = (some .newline, 0) := rfl
  rw [readFrom_cons, hscan]
  simp only [front?, hscan, List.take_zero, List.drop_zero]
  rfl

/-- The front of a text that goes on, if this does not change the first token. -/
theorem readFrom_cons_append {rest : List Char} (h : scan c (cs ++ rest) = scan c cs) :
    readFrom pos (c :: cs ++ rest) = (front? pos c cs).toList ++
      readFrom (pos + Text.byteLength (c :: cs.take (scan c cs).2))
        (cs.drop (scan c cs).2 ++ rest) := by
  have hle := scan_le c cs
  have htake : (cs ++ rest).take (scan c cs).2 = cs.take (scan c cs).2 :=
    List.take_append_of_le_length hle
  have hfront : front? pos c (cs ++ rest) = front? pos c cs := by
    simp only [front?, h, htake]
  rw [List.cons_append, readFrom_cons, hfront, h, htake, List.drop_append_of_le_length hle]

/-- The length of a text in two parts: its first token or gap and the rest. -/
theorem byteLength_front (c : Char) (cs : List Char) : Text.byteLength (c :: cs) =
    Text.byteLength (c :: cs.take (scan c cs).2) + Text.byteLength (cs.drop (scan c cs).2) := by
  rw [← Text.byteLength_append, front_append]

/-- Behind a newline a text may be cut, unless a literal or comment is open there. -/
theorem readFrom_append (pos : Nat) (cs rest : List Char)
    (h : ∀ c ∈ cs, c ∈ marks → ∀ mark ∈ marks, mark ∉ rest) :
    readFrom pos (cs ++ '\n' :: rest) = readFrom pos cs ++ newlineAt (pos + Text.byteLength cs) ::
      readFrom (pos + Text.byteLength cs + 1) rest := by
  induction pos, cs using readFrom_induction with
  | nil pos => rw [List.nil_append, readFrom_newline, readFrom_nil]; rfl
  | cons pos c cs ih =>
    have hscan := scan_append cs (h c (List.mem_cons_self ..))
    rw [readFrom_cons_append hscan, readFrom_cons,
      ih fun d hd => h d (List.mem_cons_of_mem c (List.mem_of_mem_drop hd)),
      byteLength_front c cs, List.append_assoc, Nat.add_assoc pos]

/-- The classes of the tokens do not depend on where the text begins. -/
theorem map_lexeme_readFrom (pos pos' : Nat) (cs : List Char) :
    (readFrom pos cs).map (·.lexeme) = (readFrom pos' cs).map (·.lexeme) := by
  induction pos, cs using readFrom_induction generalizing pos' with
  | nil pos => rw [readFrom_nil, readFrom_nil]
  | cons pos c cs ih =>
    rw [readFrom_cons, readFrom_cons, List.map_append, List.map_append, ih]
    congr 1
    cases hx : (scan c cs).1 <;> simp [front?, hx]

end GoContracts.Syntax.Token

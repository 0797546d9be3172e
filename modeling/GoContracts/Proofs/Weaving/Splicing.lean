import GoContracts.Weaving.Edit
import Mathlib.Data.List.Pairwise
import Mathlib.Data.List.Perm.Basic
import Mathlib.Data.List.Sort

/-!
# Edits that take effect

Edits are put in the order of their ranges, and those of one range keep their order. An edit takes
effect if no other edit reaches into its range. Its text then stands between what the edits before
it make of the text up to its range and what those behind it make of the rest.
-/

namespace GoContracts.Edit

/-- The edit that begins first goes first, of two that begin together the one that ends first. -/
theorem ordered_iff {a b : Edit} :
    ordered a b = true ↔ a.start < b.start ∨ a.start = b.start ∧ a.stop ≤ b.stop := by
  simp [ordered]

/-- The order of edits is transitive. -/
theorem ordered_trans (a b c : Edit) (hab : ordered a b = true) (hbc : ordered b c = true) :
    ordered a c = true := by
  rw [ordered_iff] at *
  omega

/-- Any two edits are in order. -/
theorem ordered_total (a b : Edit) : (ordered a b || ordered b a) = true := by
  rw [Bool.or_eq_true, ordered_iff, ordered_iff]
  omega

/-- Each edit goes before the first one that does not belong before it. -/
theorem mergeSort_eq_insertionSort (edits : List Edit) :
    edits.mergeSort ordered = edits.insertionSort (ordered · · = true) := by
  induction edits with
  | nil => rw [List.mergeSort_nil, List.insertionSort_nil]
  | cons e es ih =>
    obtain ⟨before, behind, hsorted, hrest, hbefore⟩ :=
      List.mergeSort_cons ordered_trans ordered_total e es
    rw [List.insertionSort_cons, ← ih, hrest, hsorted]
    have hbehind : ∀ b ∈ behind, ordered e b = true := by
      have hpairs := List.pairwise_mergeSort ordered_trans ordered_total (e :: es)
      rw [hsorted] at hpairs
      exact (List.pairwise_cons.mp (List.pairwise_append.mp hpairs).2.1).1
    clear hsorted hrest ih
    induction before with
    | nil =>
      cases behind with
      | nil => rfl
      | cons b behind =>
        rw [List.nil_append, List.nil_append, List.orderedInsert_cons,
          if_pos (hbehind b (List.mem_cons_self ..))]
    | cons b before ih =>
      have hb : ¬ordered e b = true := by simpa using hbefore b (List.mem_cons_self ..)
      rw [List.cons_append, List.cons_append, List.orderedInsert_cons, if_neg hb,
        ← ih fun c hc => hbefore c (List.mem_cons_of_mem b hc)]

/-! ### Edits that take effect -/

/-- Whether one edit ends before the other begins. -/
def Apart (a b : Edit) : Prop := a.stop ≤ b.start ∨ b.stop ≤ a.start

/-- Two edits are apart from each other. -/
theorem Apart.symm {a b : Edit} (h : Apart a b) : Apart b a := Or.symm h

/-- The text from position `cursor` up to `limit`, with the edits applied that fit. -/
def spliceTo (source : String) (limit : Nat) : Nat → List Edit → String
  | cursor, [] => Text.slice source cursor limit
  | cursor, e :: es =>
    if e.start < cursor || limit < e.stop then spliceTo source limit cursor es
    else Text.slice source cursor e.start ++ e.text ++ spliceTo source limit e.stop es

/-- An edit that no earlier one reaches into is applied. -/
theorem splice_append {source : String} {cursor : Nat} {earlier : List Edit} {e : Edit}
    (later : List Edit) (hcursor : cursor ≤ e.start) (hle : e.start ≤ e.stop)
    (hstop : e.stop ≤ Text.size source) (h : ∀ a ∈ earlier, a.stop ≤ e.start) :
    splice source cursor (earlier ++ e :: later) =
      spliceTo source e.start cursor earlier ++ e.text ++ splice source e.stop later := by
  induction earlier generalizing cursor with
  | nil =>
    have hfits : (decide (e.start < cursor) || decide (Text.size source < e.stop)) = false := by
      simp
      omega
    rw [List.nil_append, splice, hfits]
    rfl
  | cons a earlier ih =>
    obtain ⟨ha, hrest⟩ := List.forall_mem_cons.mp h
    have hlimit : decide (Text.size source < a.stop) = decide (e.start < a.stop) := by
      simp
      omega
    rw [List.cons_append, splice, spliceTo, hlimit]
    split
    · exact ih hcursor hrest
    · rw [ih ha hrest]
      simp only [String.append_assoc]

/-- Wherever the edit stands among the edits in their order, its text takes the place of its range,
between the edited text up to there and the edited rest. -/
def TakesEffect (source : String) (edits : List Edit) (e : Edit) : Prop :=
  ∀ earlier later, edits.mergeSort ordered = earlier ++ e :: later →
    applyAll source edits =
      spliceTo source e.start 0 earlier ++ e.text ++ splice source e.stop later

/-- An edit that is apart from all others takes effect. -/
theorem takesEffect {source : String} {edits : List Edit} {e : Edit} (hle : e.start ≤ e.stop)
    (hstop : e.stop ≤ Text.size source)
    (h : edits.Pairwise fun a b => a = e ∨ b = e → Apart a b) : TakesEffect source edits e := by
  intro earlier later hsorted
  have hpairs : (edits.mergeSort ordered).Pairwise fun a b => a = e ∨ b = e → Apart a b :=
    ((List.mergeSort_perm edits ordered).pairwise_iff fun hab hor => (hab hor.symm).symm).mpr h
  have horder := List.pairwise_mergeSort ordered_trans ordered_total edits
  rw [applyAll]
  rw [hsorted] at hpairs horder ⊢
  refine splice_append later (Nat.zero_le _) hle hstop fun a ha => ?_
  have hapart := (List.pairwise_append.mp hpairs).2.2 a ha e (List.mem_cons_self ..) (.inr rfl)
  have hordered := (List.pairwise_append.mp horder).2.2 a ha e (List.mem_cons_self ..)
  rw [ordered_iff] at hordered
  rcases hapart with hapart | hapart
  · exact hapart
  · omega

/-- The text of an edit that takes effect stands in the edited text. -/
theorem TakesEffect.exists_eq {source : String} {edits : List Edit} {e : Edit}
    (h : TakesEffect source edits e) (he : e ∈ edits) :
    ∃ before after, applyAll source edits = before ++ e.text ++ after := by
  obtain ⟨earlier, later, hsorted⟩ :=
    List.append_of_mem ((List.mergeSort_perm edits ordered).mem_iff.mpr he)
  exact ⟨_, _, h earlier later hsorted⟩

/-! ### The edits that fit -/

/-- The edits that are applied from position `cursor` on. -/
def kept (source : String) : Nat → List Edit → List Edit
  | _, [] => []
  | cursor, e :: es =>
    if e.start < cursor || Text.size source < e.stop then kept source cursor es
    else e :: kept source e.stop es

/-- The edits that fit make the same text. -/
theorem splice_kept (source : String) (cursor : Nat) (es : List Edit) :
    splice source cursor (kept source cursor es) = splice source cursor es := by
  induction es generalizing cursor with
  | nil => rfl
  | cons e es ih =>
    rw [kept, splice]
    split
    · exact ih cursor
    · next hfits => rw [splice, if_neg hfits, ih]

/-- The kept edits are some of the edits. -/
theorem kept_sublist (source : String) (cursor : Nat) (es : List Edit) :
    (kept source cursor es).Sublist es := by
  induction es generalizing cursor with
  | nil => exact .slnil
  | cons e es ih =>
    rw [kept]
    split
    · exact (ih cursor).cons e
    · exact (ih e.stop).cons_cons e

/-- What is applied lies side by side behind the cursor. -/
theorem pairwise_kept {source : String} {cursor : Nat} {es : List Edit}
    (h : ∀ e ∈ es, e.start ≤ e.stop) :
    (∀ e ∈ kept source cursor es, cursor ≤ e.start ∧ e.stop ≤ Text.size source) ∧
      (kept source cursor es).Pairwise fun a b => a.stop ≤ b.start := by
  induction es generalizing cursor with
  | nil => simp [kept]
  | cons e es ih =>
    obtain ⟨he, hrest⟩ := List.forall_mem_cons.mp h
    rw [kept]
    split
    · exact ih hrest
    · next hfits =>
      rw [Bool.or_eq_true, decide_eq_true_eq, decide_eq_true_eq] at hfits
      obtain ⟨hcursor, hpairs⟩ := @ih e.stop hrest
      refine ⟨List.forall_mem_cons.mpr ⟨by omega, fun a ha => ?_⟩,
        List.pairwise_cons.mpr ⟨fun a ha => (hcursor a ha).1, hpairs⟩⟩
      have := hcursor a ha
      omega

/-- An edit that no earlier one reaches into is applied. -/
theorem mem_kept {source : String} {cursor : Nat} {earlier : List Edit} {e : Edit}
    (later : List Edit) (hcursor : cursor ≤ e.start) (hstop : e.stop ≤ Text.size source)
    (h : ∀ a ∈ earlier, a.stop ≤ e.start) : e ∈ kept source cursor (earlier ++ e :: later) := by
  induction earlier generalizing cursor with
  | nil =>
    have hfits : ¬(decide (e.start < cursor) || decide (Text.size source < e.stop)) = true := by
      simp
      omega
    rw [List.nil_append, kept, if_neg hfits]
    exact List.mem_cons_self ..
  | cons a earlier ih =>
    obtain ⟨ha, hrest⟩ := List.forall_mem_cons.mp h
    rw [List.cons_append, kept]
    split
    · exact ih hcursor hrest
    · exact List.mem_cons_of_mem a (ih ha hrest)

end GoContracts.Edit

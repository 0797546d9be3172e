import GoContracts.Proofs.Weaving.WholeLines

/-!
# Edits one at a time

Applying edits from left to right makes the text that replacing one range after the other makes,
from the last range to the first: then no replacement moves a range that is still to be replaced.
The order of the edits is that of their ranges, and matters only among edits of one range.
-/

namespace GoContracts.Edit

open Text (byteLength Boundary)

variable {s text : String} {a m b : List Char} {e : Edit} {es fs edits sorted : List Edit}

/-- The text with the range of one edit replaced. -/
def replaceIn (e : Edit) (text : String) : String :=
  Text.slice text 0 e.start ++ e.text ++ Text.slice text e.stop (Text.size text)

/-- The text with the ranges replaced one at a time, from the last edit to the first. -/
def replaceEach (text : String) (es : List Edit) : String := es.foldr replaceIn text

/-- The slice from the start to the end is the whole text. -/
theorem slice_all (s : String) : Text.slice s 0 (Text.size s) = s := by
  rw [← String.toList_inj, Text.size_eq, slice_prefix (List.append_nil s.toList).symm]

/-- An edit puts its text in place of its range. -/
theorem replaceIn_eq (htext : text.toList = a ++ m ++ b) (hstart : e.start = byteLength a)
    (hstop : e.stop = byteLength a + byteLength m) :
    (replaceIn e text).toList = a ++ e.text.toList ++ b := by
  have hbefore := slice_prefix (htext.trans (List.append_assoc ..))
  have hbehind := slice_middle (s := text) (a := a ++ m) (m := b) (b := [])
    (by rw [htext, List.append_nil])
  rw [← Text.byteLength_append, ← htext, ← Text.size_eq, Text.byteLength_append] at hbehind
  rw [replaceIn, hstart, hstop, String.toList_append, String.toList_append, hbefore, hbehind]

/-- Behind a position the text is as edits from left to right make it, and before it as it was. -/
theorem replaceEach_eq {cursor : Nat} (hside : SideBySide s cursor es)
    (hfits : ∀ e ∈ es, Fits s e) (hcursor : Boundary s cursor) :
    replaceEach s es = Text.slice s 0 cursor ++ splice s cursor es := by
  rw [← String.toList_inj, String.toList_append]
  induction es generalizing cursor with
  | nil =>
    rw [splice, ← Text.slice_append (Text.boundary_zero s) hcursor (Text.boundary_size s)
      (Nat.zero_le _) hcursor.le_size, slice_all]
    rfl
  | cons e es ih =>
    obtain ⟨he, hrest⟩ := List.forall_mem_cons.mp hfits
    obtain ⟨hle, _, hsize⟩ := hside.bounds e (List.mem_cons_self ..)
    obtain ⟨a, m, b, hs, hstart, hstop, _⟩ := he.start.exists_cut he.stop he.le
    have hkeep : ¬(decide (e.start < cursor) || decide (Text.size s < e.stop)) = true := by
      simp
      omega
    -- The replacements behind this one leave its range where it is.
    have hbehind : (replaceEach s es).toList = a ++ m ++ (splice s e.stop es).toList := by
      rw [ih hside.tail hrest he.stop, ← hstop, ← Text.byteLength_append, slice_prefix hs]
    have hbefore : (Text.slice s 0 cursor).toList ++ (Text.slice s cursor e.start).toList = a := by
      rw [← Text.slice_append (Text.boundary_zero s) hcursor he.start (Nat.zero_le _) hle, ← hstart,
        slice_prefix (hs.trans (List.append_assoc ..))]
    calc (replaceIn e (replaceEach s es)).toList
      _ = a ++ e.text.toList ++ (splice s e.stop es).toList :=
        replaceIn_eq hbehind hstart.symm hstop.symm
      _ = (Text.slice s 0 cursor).toList ++ (splice s cursor (e :: es)).toList := by
        rw [splice, if_neg hkeep, String.toList_append, String.toList_append, ← hbefore]
        simp only [List.append_assoc]

/-! ### The order of edits -/

/-- Whether the edit replaces the given range. -/
def hasRange (start stop : Nat) (e : Edit) : Bool := e.start = start && e.stop = stop

/-- Whether the lists have the same edits, with those of each range in the same order. -/
def SameByRange (es fs : List Edit) : Prop :=
  ∀ start stop, es.filter (hasRange start stop) = fs.filter (hasRange start stop)

/-- Whether the second list has the edits of the first one in the order of their ranges, with those
of each range as they stand there. -/
structure StablySorted (edits sorted : List Edit) : Prop where
  pairwise : sorted.Pairwise (ordered · · = true)
  sameByRange : SameByRange sorted edits

private theorem hasRange_iff {start stop : Nat} :
    hasRange start stop e = true ↔ e.start = start ∧ e.stop = stop := by
  simp [hasRange]

private theorem SameByRange.mem (h : SameByRange es fs) (he : e ∈ es) : e ∈ fs := by
  have hmem : e ∈ es.filter (hasRange e.start e.stop) :=
    List.mem_filter.mpr ⟨he, hasRange_iff.mpr ⟨rfl, rfl⟩⟩
  rw [h] at hmem
  exact List.mem_of_mem_filter hmem

private theorem SameByRange.symm (h : SameByRange es fs) : SameByRange fs es :=
  fun start stop => (h start stop).symm

private theorem SameByRange.trans {gs : List Edit} (h : SameByRange es fs)
    (h' : SameByRange fs gs) :
    SameByRange es gs :=
  fun start stop => (h start stop).trans (h' start stop)

/-- The ranges to look at are those of the edits. -/
theorem sameByRange_iff : SameByRange es fs ↔
    ∀ e ∈ es ++ fs, es.filter (hasRange e.start e.stop) = fs.filter (hasRange e.start e.stop) := by
  refine ⟨fun h e _ => h e.start e.stop, fun h start stop => ?_⟩
  by_cases hrange : ∃ e ∈ es ++ fs, hasRange start stop e = true
  · obtain ⟨e, he, hrange⟩ := hrange
    obtain ⟨rfl, rfl⟩ := hasRange_iff.mp hrange
    exact h e he
  · have hnone : (es ++ fs).filter (hasRange start stop) = [] :=
      List.filter_eq_nil_iff.mpr fun e he hrange' => hrange ⟨e, he, hrange'⟩
    rw [List.filter_append, List.append_eq_nil_iff] at hnone
    rw [hnone.1, hnone.2]

instance : Decidable (SameByRange es fs) := decidable_of_iff' _ sameByRange_iff

/-- Lists in the order of the ranges that have the same edits by range are the same. -/
theorem SameByRange.eq (h : SameByRange es fs) (hes : es.Pairwise (ordered · · = true))
    (hfs : fs.Pairwise (ordered · · = true)) : es = fs := by
  induction es generalizing fs with
  | nil =>
    cases fs with
    | nil => rfl
    | cons f fs => exact absurd (h.symm.mem (List.mem_cons_self ..)) List.not_mem_nil
  | cons e es ih =>
    cases fs with
    | nil => exact absurd (h.mem (List.mem_cons_self ..)) List.not_mem_nil
    | cons f fs =>
      obtain ⟨he, hes⟩ := List.pairwise_cons.mp hes
      obtain ⟨hf, hmore⟩ := List.pairwise_cons.mp hfs
      -- Each of the two first edits is at most as far right as the other one.
      have hrange : f.start = e.start ∧ f.stop = e.stop := by
        have hef : f = e ∨ ordered e f = true :=
          (List.mem_cons.mp (h.symm.mem (List.mem_cons_self ..))).imp_right (he f)
        have hfe : e = f ∨ ordered f e = true :=
          (List.mem_cons.mp (h.mem (List.mem_cons_self ..))).imp_right (hf e)
        rw [ordered_iff] at hef hfe
        grind
      have hhead : hasRange e.start e.stop f = true := hasRange_iff.mpr hrange
      have hfirst := h e.start e.stop
      rw [List.filter_cons_of_pos (hasRange_iff.mpr ⟨rfl, rfl⟩),
        List.filter_cons_of_pos hhead] at hfirst
      obtain rfl := (List.cons.inj hfirst).1
      have hrest : SameByRange es fs := by
        intro start stop
        have hsame := h start stop
        rw [List.filter_cons, List.filter_cons] at hsame
        split at hsame
        · exact (List.cons.inj hsame).2
        · exact hsame
      rw [ih hrest hes hmore]

private theorem sameByRange_mergeSort (edits : List Edit) :
    SameByRange (edits.mergeSort ordered) edits := by
  intro start stop
  rw [← mergeSort_filter]
  refine List.mergeSort_of_pairwise (List.pairwise_of_forall_mem_list fun a ha b hb => ?_)
  have ha := hasRange_iff.mp (List.mem_filter.mp ha).2
  have hb := hasRange_iff.mp (List.mem_filter.mp hb).2
  rw [ordered_iff]
  omega

private theorem stablySorted_mergeSort (edits : List Edit) :
    StablySorted edits (edits.mergeSort ordered) :=
  ⟨List.pairwise_mergeSort ordered_trans ordered_total edits, sameByRange_mergeSort edits⟩

/-- There is one stable order. -/
theorem StablySorted.eq (h : StablySorted edits sorted) : sorted = edits.mergeSort ordered :=
  (h.sameByRange.trans (sameByRange_mergeSort edits).symm).eq h.pairwise
    (stablySorted_mergeSort edits).pairwise

/-- Edits that end before the next one begins are all applied. -/
theorem kept_of_isChain {cursor : Nat} (hchain : es.IsChain fun a b => a.stop ≤ b.start)
    (hfirst : ∀ e ∈ es.head?, cursor ≤ e.start) (hsize : ∀ e ∈ es, e.stop ≤ Text.size s) :
    kept s cursor es = es := by
  induction es generalizing cursor with
  | nil => rfl
  | cons e es ih =>
    obtain ⟨he, hrest⟩ := List.forall_mem_cons.mp hsize
    have hfits : ¬(decide (e.start < cursor) || decide (Text.size s < e.stop)) = true := by
      have := hfirst e rfl
      simp
      omega
    rw [kept, if_neg hfits, ih hchain.of_cons (fun f hf => ?_) hrest]
    obtain ⟨more, rfl⟩ := List.head?_eq_some_iff.mp hf
    exact (List.isChain_cons_cons.mp hchain).1

/-- All edits at once are the kept ones one at a time. -/
theorem applyAll_eq (hle : ∀ e ∈ edits, e.start ≤ e.stop)
    (hfits : ∀ e ∈ edits, e.stop ≤ Text.size s → Fits s e) :
    applyAll s edits = replaceEach s (kept s 0 (edits.mergeSort ordered)) := by
  have hside : SideBySide s 0 (kept s 0 (edits.mergeSort ordered)) :=
    sideBySide_kept fun e he => hle e (List.mem_mergeSort.mp he)
  have hkept : ∀ e ∈ kept s 0 (edits.mergeSort ordered), Fits s e := fun e he =>
    hfits e (List.mem_mergeSort.mp ((kept_sublist s 0 _).subset he)) (hside.bounds e he).2.2
  rw [applyAll, ← splice_kept, replaceEach_eq hside hkept (Text.boundary_zero s),
    ← String.toList_inj, String.toList_append, Text.slice_self (Text.boundary_zero s),
    List.nil_append]

/-- Edits from left to right make what their replacements make one at a time, if they cut no
character. The edits that are made are those that neither begin before the end of the last one made
nor end behind the text, in their stable order; they are all edits if these stand side by side. Any
list with the same edits by range makes the same. -/
theorem applyAll_eq_replaceEach (hle : ∀ e ∈ edits, e.start ≤ e.stop)
    (hfits : ∀ e ∈ edits, e.stop ≤ Text.size s → Fits s e) :
    StablySorted edits (edits.mergeSort ordered) ∧
    (∀ sorted, StablySorted edits sorted →
      applyAll s edits = replaceEach s (kept s 0 sorted) ∧
      (sorted.IsChain (fun a b => a.stop ≤ b.start) → (∀ e ∈ edits, e.stop ≤ Text.size s) →
        kept s 0 sorted = sorted)) ∧
    ∀ others, SameByRange others edits → applyAll s others = applyAll s edits := by
  refine ⟨stablySorted_mergeSort edits, fun sorted hsorted => ⟨?_, fun hchain hsize => ?_⟩,
    fun others hothers => ?_⟩
  · rw [hsorted.eq, applyAll_eq hle hfits]
  · exact kept_of_isChain hchain (fun _ _ => Nat.zero_le _) fun e he =>
      hsize e (hsorted.sameByRange.mem he)
  · have hsame : StablySorted edits (others.mergeSort ordered) :=
      ⟨(stablySorted_mergeSort others).pairwise, (sameByRange_mergeSort others).trans hothers⟩
    rw [applyAll, applyAll, hsame.eq]

/-- Two insertions at the end of a replaced range, an edit inside that range and one that reaches
beyond the text. -/
def overlapping : List Edit :=
  [insert 4 "p", replace 2 3 "Y", insert 4 "q", remove 5 9, replace 1 4 "X"]

/-- The edit inside the range and the one beyond the text are left out, and the insertions keep
their order. -/
theorem applyAll_eq_replaceEach_overlapping :
    applyAll "abcdef" overlapping = "aXpqef" ∧
    applyAll "abcdef" [remove 5 9, replace 1 4 "X", insert 4 "p", insert 4 "q", replace 2 3 "Y"] =
      "aXpqef" ∧
    kept "abcdef" 0 [replace 1 4 "X", insert 4 "p"] = [replace 1 4 "X", insert 4 "p"] := by
  have hle : ∀ e ∈ overlapping, e.start ≤ e.stop := by decide
  have hone : Boundary "abcdef" 1 := ⟨"a".toList, "bcdef".toList, rfl, rfl⟩
  have htwo : Boundary "abcdef" 2 := ⟨"ab".toList, "cdef".toList, rfl, rfl⟩
  have hthree : Boundary "abcdef" 3 := ⟨"abc".toList, "def".toList, rfl, rfl⟩
  have hfour : Boundary "abcdef" 4 := ⟨"abcd".toList, "ef".toList, rfl, rfl⟩
  have hreplace : Fits "abcdef" (replace 1 4 "X") := ⟨by decide, hone, hfour⟩
  have hinsert : ∀ text, Fits "abcdef" (insert 4 text) := fun _ => ⟨Nat.le_refl 4, hfour, hfour⟩
  have hfits : ∀ e ∈ overlapping, e.stop ≤ Text.size "abcdef" → Fits "abcdef" e := by
    simp only [overlapping, List.forall_mem_cons, List.not_mem_nil, false_implies, implies_true,
      and_true]
    exact ⟨fun _ => hinsert _, fun _ => ⟨by decide, htwo, hthree⟩, fun _ => hinsert _,
      fun h => absurd h (by decide), fun _ => hreplace⟩
  have hsorted : StablySorted overlapping
      [replace 1 4 "X", replace 2 3 "Y", insert 4 "p", insert 4 "q", remove 5 9] :=
    ⟨by decide, by decide⟩
  obtain ⟨_, happly, hsame⟩ := applyAll_eq_replaceEach hle hfits
  obtain ⟨_, hall, _⟩ := @applyAll_eq_replaceEach "abcdef" [insert 4 "p", replace 1 4 "X"]
    (by decide) (by simpa using ⟨fun _ => hinsert _, fun _ => hreplace⟩)
  have hmade : applyAll "abcdef" overlapping = "aXpqef" := by
    rw [(happly _ hsorted).1]
    decide +kernel
  exact ⟨hmade, (hsame _ (by decide)).trans hmade,
    (hall _ ⟨by decide, by decide⟩).2 (by decide) (by decide)⟩

end GoContracts.Edit

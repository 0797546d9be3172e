import GoContracts.Proofs.Weaving.Interleaving
import GoContracts.Proofs.Weaving.Splicing

/-!
# Edits of whole lines

Edits in place keep their newlines. Of the others each one leaves out whole lines, or puts lines in
where a line begins, or puts them in where a line ends. What such edits make of a text is made line
by line of what those in place make of it.
-/

namespace GoContracts.Edit

open Text (byteLength Boundary)
open Weaves (beginsBehind)

variable {s : String} {a x m b : List Char} {e : Edit} {es : List Edit}

/-- The slice of a middle part is the part. -/
theorem slice_middle (hs : s.toList = a ++ m ++ b) :
    (Text.slice s (byteLength a) (byteLength a + byteLength m)).toList = m := by
  have hslice := Text.slice_ofList a m b
  rw [← hs, String.ofList_toList] at hslice
  rw [hslice, String.toList_ofList]

/-- The slice of a first part is the part. -/
theorem slice_prefix (hs : s.toList = a ++ b) : (Text.slice s 0 (byteLength a)).toList = a := by
  have hslice := slice_middle (s := s) (a := []) (m := a) (b := b) hs
  rwa [Text.byteLength_nil, Nat.zero_add] at hslice

/-- The row behind a first part is the number of its newlines. -/
theorem rowAt_prefix (hs : s.toList = a ++ b) : Text.rowAt s (byteLength a) = a.count '\n' := by
  rw [Text.rowAt, ← Text.toList_slice, slice_prefix hs]

/-- A position cuts a text in one way. -/
theorem cut_unique {a' b' : List Char} (hs : s.toList = a ++ b) (hs' : s.toList = a' ++ b')
    (h : byteLength a' = byteLength a) : a' = a ∧ b' = b := by
  obtain ⟨x, rfl, rfl⟩ := Text.exists_middle (hs'.symm.trans hs) (Nat.le_of_eq h)
  obtain rfl : x = [] := by
    by_contra hne
    have := Text.byteLength_pos hne
    rw [Text.byteLength_append] at h
    omega
  exact ⟨(List.append_nil a').symm, rfl⟩

/-- Edits lie side by side from a position on. -/
structure SideBySide (s : String) (cursor : Nat) (es : List Edit) : Prop where
  bounds : ∀ e ∈ es, cursor ≤ e.start ∧ e.start ≤ e.stop ∧ e.stop ≤ Text.size s
  pairwise : es.Pairwise fun a b => a.stop ≤ b.start

/-- Edits side by side stay so without the first one. -/
theorem SideBySide.tail {cursor : Nat} (h : SideBySide s cursor (e :: es)) :
    SideBySide s e.stop es :=
  have hpairs := List.pairwise_cons.mp h.pairwise
  ⟨fun f hf => ⟨hpairs.1 f hf, (h.bounds f (List.mem_cons_of_mem e hf)).2⟩, hpairs.2⟩

/-- Edits side by side stay so from any position before all of them. -/
theorem SideBySide.mono {cursor next : Nat} (h : SideBySide s cursor es)
    (hnext : ∀ e ∈ es, next ≤ e.start) : SideBySide s next es :=
  ⟨fun e he => ⟨hnext e he, (h.bounds e he).2⟩, h.pairwise⟩

private theorem SideBySide.sublist {cursor : Nat} {few : List Edit} (h : SideBySide s cursor es)
    (hsub : few.Sublist es) : SideBySide s cursor few :=
  ⟨fun e he => h.bounds e (hsub.subset he), h.pairwise.sublist hsub⟩

/-- The edits that are applied lie side by side. -/
theorem sideBySide_kept {cursor : Nat} (h : ∀ e ∈ es, e.start ≤ e.stop) :
    SideBySide s cursor (kept s cursor es) :=
  have ⟨hbounds, hpairs⟩ := pairwise_kept h
  ⟨fun e he => ⟨(hbounds e he).1, h e ((kept_sublist s cursor es).subset he), (hbounds e he).2⟩,
    hpairs⟩

/-- An edit at the cursor is applied. -/
theorem splice_cons (h : SideBySide s e.start (e :: es)) :
    (splice s e.start (e :: es)).toList = e.text.toList ++ (splice s e.stop es).toList := by
  obtain ⟨_, hle, hsize⟩ := h.bounds e (List.mem_cons_self ..)
  have hfits : ¬(decide (e.start < e.start) || decide (Text.size s < e.stop)) = true := by
    simp
    omega
  have hempty : (Text.slice s e.start e.start).toList = [] := by
    rw [Text.toList_slice, Text.part, if_pos (Nat.le_refl _)]
  rw [splice, if_neg hfits, String.toList_append, String.toList_append, hempty, List.nil_append]

/-- What stands before all edits stays. -/
theorem splice_advance (hs : s.toList = a ++ x ++ b)
    (h : SideBySide s (byteLength a + byteLength x) es) (hes : ∀ e ∈ es, Boundary s e.start) :
    (splice s (byteLength a) es).toList =
      x ++ (splice s (byteLength a + byteLength x) es).toList := by
  have hfirst : Boundary s (byteLength a) := ⟨a, x ++ b, by rw [hs, List.append_assoc], rfl⟩
  have hnext : Boundary s (byteLength a + byteLength x) :=
    ⟨a ++ x, b, hs, Text.byteLength_append a x⟩
  cases es with
  | nil =>
    rw [splice, splice, Text.slice_append hfirst hnext (Text.boundary_size s) (Nat.le_add_right _ _)
      hnext.le_size, slice_middle hs]
  | cons e es =>
    obtain ⟨hcursor, hle, hsize⟩ := h.bounds e (List.mem_cons_self ..)
    have hfits : ∀ cursor ≤ e.start,
        ¬(decide (e.start < cursor) || decide (Text.size s < e.stop)) = true := by
      intro cursor hle
      simp
      omega
    rw [splice, splice, if_neg (hfits _ (by omega)), if_neg (hfits _ hcursor)]
    simp only [String.toList_append]
    rw [Text.slice_append hfirst hnext (hes e (List.mem_cons_self ..))
      (Nat.le_add_right _ _) hcursor,
      slice_middle hs]
    simp only [List.append_assoc]

/-- Whether an edit cuts no character of a text. -/
structure Fits (s : String) (e : Edit) : Prop where
  le : e.start ≤ e.stop
  start : Boundary s e.start
  stop : Boundary s e.stop

/-- The text up to the first edit stays. -/
theorem splice_of_le {start stop : Nat} (hside : SideBySide s stop es)
    (hfits : ∀ e ∈ es, Fits s e) (hstart : Boundary s start) (hstop : Boundary s stop)
    (hle : start ≤ stop) :
    splice s start es = Text.slice s start stop ++ splice s stop es := by
  obtain ⟨a, m, b, hs, rfl, rfl, hslice⟩ := hstart.exists_cut hstop hle
  rw [← String.toList_inj, splice_advance hs hside fun e he => (hfits e he).start,
    String.toList_append, hslice, String.toList_ofList]

/-! ### One edit -/

/-- An edit that keeps the lines around it apart: in place, of whole lines, before a line or behind
a line that is not empty. -/
inductive LineWise (s : String) (e : Edit) : Prop
  | inPlace {a m b : List Char} (hs : s.toList = a ++ m ++ b) (hstart : e.start = byteLength a)
      (hstop : e.stop = byteLength a + byteLength m) (hplace : e.inPlace = true)
      (hcount : e.text.toList.count '\n' = m.count '\n') (hfirst : ∃ c, m.head? = some c ∧ c ≠ '\n')
      (hlast : m.getLast? ≠ some '\n')
  | removal {a m b : List Char} (hs : s.toList = a ++ (m ++ ['\n']) ++ b)
      (hstart : e.start = byteLength a) (hstop : e.stop = byteLength a + byteLength (m ++ ['\n']))
      (hplace : e.inPlace = false) (htext : e.text = "") (hline : beginsBehind true a = true)
  | before {a b g : List Char} (hs : s.toList = a ++ b) (hstart : e.start = byteLength a)
      (hstop : e.stop = e.start) (hplace : e.inPlace = false) (htext : e.text.toList = g ++ ['\n'])
      (hfirst : g.head? ≠ some '\n') (hline : beginsBehind true a = true)
  | behind {a b g : List Char} (hs : s.toList = a ++ '\n' :: b) (hstart : e.start = byteLength a)
      (hstop : e.stop = e.start) (hplace : e.inPlace = false) (htext : e.text.toList = '\n' :: g)
      (hline : beginsBehind true a = false)

/-- The lines that an insertion adds: a newline before or behind them parts them from what stands
there. -/
def added (e : Edit) : List String :=
  if e.start < e.stop then []
  else match e.text.toList with
    | '\n' :: lines => Text.lines (String.ofList lines)
    | lines => Text.lines (String.ofList lines.dropLast)

/-- The numbers of the lines that an edit leaves out. -/
def dropped (s : String) (e : Edit) : List Nat :=
  if e.inPlace then []
  else List.range' (Text.rowAt s e.start) (Text.rowAt s e.stop - Text.rowAt s e.start)

namespace LineWise

private theorem boundary (h : LineWise s e) : Boundary s e.start := by
  cases h with
  | inPlace hs hstart => exact ⟨_, _, by rw [hs, List.append_assoc], hstart.symm⟩
  | removal hs hstart => exact ⟨_, _, by rw [hs, List.append_assoc], hstart.symm⟩
  | before hs hstart => exact ⟨_, _, hs, hstart.symm⟩
  | behind hs hstart => exact ⟨_, _, hs, hstart.symm⟩

private theorem added_before {g : List Char} (hstop : e.stop = e.start)
    (htext : e.text.toList = g ++ ['\n']) (hfirst : g.head? ≠ some '\n') :
    e.added = (Text.splitChars '\n' g).map String.ofList := by
  rw [added, if_neg (by omega), htext]
  cases g with
  | nil => rfl
  | cons c g =>
    have hc : c ≠ '\n' := by simpa using hfirst
    split
    · next heq => exact absurd (List.cons.inj heq).1 hc
    · rw [List.dropLast_concat, Text.lines, Text.splitAt_eq, String.toList_ofList]

private theorem added_behind {g : List Char} (hstop : e.stop = e.start)
    (htext : e.text.toList = '\n' :: g) :
    e.added = (Text.splitChars '\n' g).map String.ofList := by
  rw [added, if_neg (by omega), htext]
  show Text.lines (String.ofList g) = _
  rw [Text.lines, Text.splitAt_eq, String.toList_ofList]

private theorem added_of_lt (h : e.start < e.stop) : e.added = [] := if_pos h

/-- An edit in place leaves out no lines. -/
theorem dropped_of_inPlace (h : e.inPlace = true) : e.dropped s = [] := if_pos h

/-- An edit that removes nothing leaves out no lines. -/
theorem dropped_of_eq (h : e.stop = e.start) : e.dropped s = [] := by
  rw [dropped, h, Nat.sub_self, List.range'_zero, ite_self]

/-- An edit that removes whole lines leaves them out. -/
theorem dropped_of_lines (hs : s.toList = a ++ m ++ b) (hstart : e.start = byteLength a)
    (hstop : e.stop = byteLength a + byteLength m) (hplace : e.inPlace = false) :
    e.dropped s = List.range' (a.count '\n') (m.count '\n') := by
  rw [dropped, hplace, if_neg Bool.false_ne_true, hstart, hstop, ← Text.byteLength_append,
    rowAt_prefix (b := m ++ b) (by rw [hs, List.append_assoc]), rowAt_prefix hs, List.count_append,
    Nat.add_sub_cancel_left]

end LineWise

/-! ### All edits -/

/-- At the end of a line that is not empty, edits leave or put a newline. -/
theorem exists_newline (hs : s.toList = a ++ '\n' :: b) (hline : beginsBehind true a = false)
    (h : SideBySide s (byteLength a) es) (hes : ∀ e ∈ es, LineWise s e) :
    ∃ behind, (splice s (byteLength a) es).toList = '\n' :: behind := by
  have hone : byteLength ['\n'] = 1 := rfl
  have hcut : s.toList = a ++ ['\n'] ++ b := by rw [hs, List.append_assoc, List.singleton_append]
  by_cases hlt : ∀ e ∈ es, byteLength a + 1 ≤ e.start
  · rw [← hone] at hlt
    rw [splice_advance hcut (h.mono hlt) fun e he => (hes e he).boundary]
    exact ⟨_, rfl⟩
  -- The first edit stands at the end of the line, so it puts lines behind it.
  obtain ⟨e, he, hat⟩ := by simpa using hlt
  have hat : e.start = byteLength a := by
    have := (h.bounds e he).1
    omega
  cases es with
  | nil => simp at he
  | cons f es =>
    have hf : f.start = byteLength a := by
      have hle := (h.bounds f (List.mem_cons_self ..)).1
      rcases List.mem_cons.mp he with rfl | he
      · exact hat
      · have := (List.pairwise_cons.mp h.pairwise).1 e he
        have := (h.bounds f (List.mem_cons_self ..)).2.1
        omega
    rw [← hf] at h ⊢
    rw [splice_cons h]
    cases hes f (List.mem_cons_self ..) with
    | @inPlace a' m' b' hs' hstart _ _ _ hfirst =>
      rw [List.append_assoc] at hs'
      obtain ⟨rfl, hm⟩ := cut_unique hs hs' (by omega)
      obtain ⟨c, hc, hne⟩ := hfirst
      obtain ⟨m'', rfl⟩ := List.head?_eq_some_iff.mp hc
      exact absurd (List.cons.inj hm).1 hne
    | removal hs' hstart _ _ _ hbegins =>
      rw [List.append_assoc] at hs'
      obtain ⟨rfl, _⟩ := cut_unique hs hs' (by omega)
      exact absurd (hline.symm.trans hbegins) Bool.false_ne_true
    | before hs' hstart _ _ _ _ hbegins =>
      obtain ⟨rfl, _⟩ := cut_unique hs hs' (by omega)
      exact absurd (hline.symm.trans hbegins) Bool.false_ne_true
    | behind _ _ _ _ htext => exact ⟨_, by rw [htext]; rfl⟩

/-- What the edits make of the text behind `a` comes line by line from what those in place make of
it. -/
def ByLines (s : String) (fresh : Bool) (a : List Char) (es : List Edit) : Prop :=
  Weaves fresh (a.count '\n') (splice s (byteLength a) (es.filter (·.inPlace))).toList
    (es.flatMap (dropped s)) ((es.flatMap added).map String.toList)
    (splice s (byteLength a) es).toList

namespace ByLines

variable {fresh : Bool} {g : List Char}

private theorem nil (hs : s.toList = a ++ b) : ByLines s fresh a [] := by
  have hrest : (splice s (byteLength a) []).toList = b := by
    have hslice := slice_middle (s := s) (a := a) (m := b) (b := []) (by rw [hs, List.append_nil])
    rwa [← Text.byteLength_append, ← hs, ← Text.size_eq] at hslice
  have hcopy := (@Weaves.done (beginsBehind fresh b) (a.count '\n' + b.count '\n')).copyAll
  rw [List.append_nil] at hcopy
  rwa [ByLines, List.filter_nil, hrest]

private theorem advance (hs : s.toList = a ++ x ++ b)
    (h : SideBySide s (byteLength a + byteLength x) es) (hes : ∀ e ∈ es, LineWise s e)
    (hlines : ByLines s (beginsBehind fresh x) (a ++ x) es) : ByLines s fresh a es := by
  have hin := fun f (hf : f ∈ es.filter (·.inPlace)) => (hes f (List.mem_of_mem_filter hf)).boundary
  rw [ByLines, Text.byteLength_append, List.count_append] at hlines
  rw [ByLines, splice_advance hs h fun e he => (hes e he).boundary,
    splice_advance hs (h.sublist List.filter_sublist) hin]
  exact hlines.copyAll

variable (h : SideBySide s (byteLength a) (e :: es)) (hstart : e.start = byteLength a)
include h hstart

private theorem cons_inPlace (hstop : e.stop = byteLength a + byteLength m)
    (hplace : e.inPlace = true)
    (hcount : e.text.toList.count '\n' = m.count '\n') (hm : m ≠ [])
    (hlines : ByLines s (beginsBehind fresh e.text.toList) (a ++ m) es) :
    ByLines s fresh a (e :: es) := by
  have hpos := Text.byteLength_pos hm
  rw [ByLines, Text.byteLength_append, List.count_append, ← hcount, ← hstop] at hlines
  rw [← hstart] at h
  rw [ByLines, List.flatMap_cons, List.flatMap_cons, LineWise.dropped_of_inPlace hplace,
    LineWise.added_of_lt (by omega), List.filter_cons_of_pos hplace, ← hstart, splice_cons h,
    splice_cons (by simpa [hplace] using h.sublist (List.filter_sublist (p := (·.inPlace))))]
  exact hlines.copyAll

private theorem cons_removal (hs : s.toList = a ++ (m ++ ['\n']) ++ b)
    (hstop : e.stop = byteLength a + byteLength (m ++ ['\n'])) (hplace : e.inPlace = false)
    (htext : e.text = "") (hes : ∀ e ∈ es, LineWise s e)
    (hlines : ByLines s true (a ++ (m ++ ['\n'])) es) : ByLines s true a (e :: es) := by
  have hlt : e.start < e.stop := by
    have := Text.byteLength_pos (List.concat_ne_nil '\n' m)
    omega
  have htail := h.tail
  have hin := fun f (hf : f ∈ es.filter (·.inPlace)) => (hes f (List.mem_of_mem_filter hf)).boundary
  have hkept := splice_advance hs (hstop ▸ htail.sublist List.filter_sublist) hin
  have hmade := splice_cons (hstart.symm ▸ h)
  rw [htext, hstop, hstart] at hmade
  rw [ByLines, Text.byteLength_append, List.count_append] at hlines
  rw [ByLines, List.flatMap_cons, List.flatMap_cons,
    LineWise.dropped_of_lines hs hstart hstop hplace, LineWise.added_of_lt hlt,
    List.filter_cons_of_neg (by simp [hplace]), hkept, hmade]
  exact hlines.dropAll m

private theorem cons_before (hstop : e.stop = e.start) (hplace : e.inPlace = false)
    (htext : e.text.toList = g ++ ['\n']) (hfirst : g.head? ≠ some '\n')
    (hlines : ByLines s true a es) : ByLines s true a (e :: es) := by
  have hadd := Weaves.addAll g hlines
  rw [← hstart] at h
  rw [ByLines, List.flatMap_cons, List.flatMap_cons, LineWise.dropped_of_eq hstop,
    LineWise.added_before hstop htext hfirst, List.filter_cons_of_neg (by simp [hplace]), ← hstart,
    splice_cons h, htext, hstop, List.map_append, List.map_map, hstart]
  simpa [Function.comp_def] using hadd

private theorem cons_behind (hs : s.toList = a ++ '\n' :: b) (hstop : e.stop = e.start)
    (hplace : e.inPlace = false) (htext : e.text.toList = '\n' :: g)
    (hline : beginsBehind true a = false) (hes : ∀ e ∈ es, LineWise s e)
    (hlines : ByLines s false a es) : ByLines s fresh a (e :: es) := by
  have htail := h.tail
  rw [hstop, hstart] at htail
  obtain ⟨kept, hkept⟩ :=
    exists_newline hs hline (htail.sublist (List.filter_sublist (p := (·.inPlace))))
    fun f hf => hes f (List.mem_of_mem_filter hf)
  obtain ⟨made, hmade⟩ := exists_newline hs hline htail hes
  rw [ByLines, hkept, hmade] at hlines
  have hadd := @Weaves.addBehind fresh _ _ _ _ g _ hlines
  rw [← hstart] at h
  rw [ByLines, List.flatMap_cons, List.flatMap_cons, LineWise.dropped_of_eq hstop,
    LineWise.added_behind hstop htext, List.filter_cons_of_neg (by simp [hplace]), hkept, ← hstart,
    splice_cons h, htext, hstop, List.map_append, List.map_map, hstart, hmade]
  simpa [Function.comp_def] using hadd

end ByLines

/-- Edits that each keep the lines apart keep them apart together. -/
theorem byLines (hs : s.toList = a ++ b) (h : SideBySide s (byteLength a) es)
    (hes : ∀ e ∈ es, LineWise s e) {fresh : Bool}
    (hfresh : beginsBehind true a = true → fresh = true) : ByLines s fresh a es := by
  -- The text up to the cursor is known, and whether a line begins there.
  induction es generalizing a b fresh with
  | nil => exact .nil hs
  | cons e es ih =>
    obtain ⟨he, hrest⟩ := List.forall_mem_cons.mp hes
    obtain ⟨hcursor, _⟩ := h.bounds e (List.mem_cons_self ..)
    obtain ⟨p, q, hpq, hp⟩ := he.boundary
    obtain ⟨x, rfl, _⟩ := Text.exists_middle (hs.symm.trans hpq) (by omega)
    have hnext : SideBySide s (byteLength (a ++ x)) (e :: es) := h.mono fun f hf => by
      rcases List.mem_cons.mp hf with rfl | hf
      · omega
      · have := h.tail.bounds f hf
        have := (h.bounds e (List.mem_cons_self ..)).2.1
        omega
    refine .advance hpq (Text.byteLength_append a x ▸ hnext) hes ?_
    have hfresh : beginsBehind true (a ++ x) = true → beginsBehind fresh x = true := by
      rw [Weaves.beginsBehind_append]
      unfold beginsBehind
      split
      · exact hfresh
      · exact id
    generalize a ++ x = a, beginsBehind fresh x = fresh at *
    have htail := h.tail
    cases he with
    | @inPlace a' m b' hs' hstart hstop hplace hcount hfirst hlast =>
      obtain ⟨rfl, _⟩ := cut_unique hpq (List.append_assoc .. ▸ hs') (by omega)
      have hm : m ≠ [] := by
        rintro rfl
        simp at hfirst
      refine .cons_inPlace hnext hstart hstop hplace hcount hm (ih hs' ?_ hrest fun hbegins => ?_)
      · rwa [Text.byteLength_append, ← hstop]
      · rw [Weaves.beginsBehind_append, Weaves.beginsBehind_of_getLast?_ne hm hlast] at hbegins
        exact absurd hbegins Bool.false_ne_true
    | @removal a' m b' hs' hstart hstop hplace htext hline =>
      obtain ⟨rfl, _⟩ := cut_unique hpq (List.append_assoc .. ▸ hs') (by omega)
      obtain rfl := hfresh hline
      refine .cons_removal hnext hstart hs' hstop hplace htext hrest (ih hs' ?_ hrest fun _ => rfl)
      rwa [Text.byteLength_append, ← hstop]
    | before hs' hstart hstop hplace htext hfirst hline =>
      obtain ⟨rfl, _⟩ := cut_unique hpq hs' (by omega)
      obtain rfl := hfresh hline
      refine .cons_before hnext hstart hstop hplace htext hfirst (ih hs' ?_ hrest fun _ => rfl)
      rwa [hstop, hstart] at htail
    | behind hs' hstart hstop hplace htext hline =>
      obtain ⟨rfl, _⟩ := cut_unique hpq hs' (by omega)
      refine .cons_behind hnext hstart hs' hstop hplace htext hline hrest
        (ih hs' ?_ hrest fun hbegins => ?_)
      · rwa [hstop, hstart] at htail
      · exact absurd (hline.symm.trans hbegins) Bool.false_ne_true

/-! ### Edits in place alone -/

/-- If the other edits end before the ones that are looked for, they do not keep any of these from
being applied. -/
theorem kept_filter {p : Edit → Bool} {cursor less : Nat} (hle : ∀ e ∈ es, e.start ≤ e.stop)
    (hes : es.Pairwise fun a b => p a = false → p b = true → a.stop ≤ b.start)
    (hless : less ≤ cursor) (hcursor : ∀ e ∈ es, p e = true → less ≤ e.start → cursor ≤ e.start) :
    kept s less (es.filter p) = (kept s cursor es).filter p := by
  induction es generalizing cursor less with
  | nil => rfl
  | cons e es ih =>
    obtain ⟨he, hrest⟩ := List.forall_mem_cons.mp hle
    obtain ⟨hfirst, hpairs⟩ := List.pairwise_cons.mp hes
    obtain ⟨hnext, hlater⟩ := List.forall_mem_cons.mp hcursor
    cases hp : p e with
    | true =>
      have hsame : decide (e.start < less) = decide (e.start < cursor) := by
        have := hnext hp
        rw [decide_eq_decide]
        omega
      rw [List.filter_cons_of_pos hp, kept, kept, hsame]
      split
      · exact ih hrest hpairs hless hlater
      · rw [List.filter_cons_of_pos hp, ih hrest hpairs (Nat.le_refl _) fun _ _ _ hle => hle]
    | false =>
      rw [List.filter_cons_of_neg (by simp [hp]), kept]
      split
      · exact ih hrest hpairs hless hlater
      · next hfits =>
        rw [Bool.or_eq_true, decide_eq_true_eq, decide_eq_true_eq] at hfits
        rw [List.filter_cons_of_neg (by simp [hp])]
        exact ih hrest hpairs (by omega) fun f hf hpf _ => hfirst f hf hp hpf

private theorem orderedInsert_of_forall (h : ∀ f ∈ es, ordered e f = true) :
    es.orderedInsert (ordered · · = true) e = e :: es := by
  cases es with
  | nil => rfl
  | cons f es => rw [List.orderedInsert_cons, if_pos (h f (List.mem_cons_self ..))]

private theorem filter_orderedInsert (p : Edit → Bool) (hes : es.Pairwise (ordered · · = true)) :
    (es.orderedInsert (ordered · · = true) e).filter p =
      if p e then (es.filter p).orderedInsert (ordered · · = true) e else es.filter p := by
  induction es with
  | nil => cases hp : p e <;> simp [hp]
  | cons f es ih =>
    obtain ⟨hfirst, hrest⟩ := List.pairwise_cons.mp hes
    by_cases hef : ordered e f = true
    · have hall : ∀ x ∈ f :: es, ordered e x = true := List.forall_mem_cons.mpr
        ⟨hef, fun x hx => ordered_trans e f x hef (hfirst x hx)⟩
      rw [orderedInsert_of_forall hall, List.filter_cons]
      split
      · rw [orderedInsert_of_forall fun x hx => hall x (List.mem_of_mem_filter hx)]
      · rfl
    · rw [List.orderedInsert_cons, if_neg hef, List.filter_cons, List.filter_cons, ih hrest]
      cases hp : p e <;> cases hpf : p f <;> simp [hef]

/-- Edits keep their order if others are left out. -/
theorem mergeSort_filter (p : Edit → Bool) (edits : List Edit) :
    (edits.filter p).mergeSort ordered = (edits.mergeSort ordered).filter p := by
  rw [mergeSort_eq_insertionSort, mergeSort_eq_insertionSort]
  induction edits with
  | nil => rfl
  | cons e es ih =>
    have hsorted : (es.insertionSort (ordered · · = true)).Pairwise (ordered · · = true) := by
      rw [← mergeSort_eq_insertionSort]
      exact List.pairwise_mergeSort ordered_trans ordered_total es
    rw [List.insertionSort_cons, filter_orderedInsert p hsorted, ← ih, List.filter_cons]
    split
    · rw [List.insertionSort_cons]
    · rfl

/-- With the other edits left out the same edits in place are applied. -/
theorem applyInPlace_eq {edits : List Edit} (hle : ∀ e ∈ edits, e.start ≤ e.stop)
    (h : (edits.mergeSort ordered).Pairwise fun a b =>
      a.inPlace = false → b.inPlace = true → a.stop ≤ b.start) :
    applyInPlace s edits =
      splice s 0 ((kept s 0 (edits.mergeSort ordered)).filter (·.inPlace)) := by
  have hmem := fun e (he : e ∈ edits.mergeSort ordered) =>
    hle e ((List.mergeSort_perm edits ordered).mem_iff.mp he)
  rw [applyInPlace, applyAll, mergeSort_filter, ← splice_kept,
    kept_filter hmem h (Nat.le_refl 0) fun _ _ _ hle => hle]

end GoContracts.Edit

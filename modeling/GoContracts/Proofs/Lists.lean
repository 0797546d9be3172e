import Mathlib.Data.List.Forall2
import Mathlib.Data.List.Sort
import Mathlib.Tactic.ByContra
import Mathlib.Tactic.SplitIfs

/-!
# Lists with keys and lists in pairs

Directories and manifests are lists of values with keys, which are kept in ascending order. What is
related item by item to a list has an item for each of its items, and a last one for its last.
-/

namespace GoContracts.Keyed

variable {α : Type} {key other : String} {a b : α} {es fs : List (String × α)}

/-- The value of a key. -/
def value? (es : List (String × α)) (key : String) : Option α :=
  (es.find? (·.1 = key)).map (·.2)

/-- The list with a value for a key, in place of any other. -/
def put (key : String) (a : α) : List (String × α) → List (String × α)
  | [] => [(key, a)]
  | e :: es =>
    if e.1 = key then (key, a) :: es
    else if key < e.1 then (key, a) :: e :: es
    else e :: put key a es

/-- The keys ascend, so that none stands twice. -/
def Ascending (es : List (String × α)) : Prop := es.Pairwise (·.1 < ·.1)

/-- No entry, no value. -/
@[simp] theorem value?_nil : value? ([] : List (String × α)) key = none := rfl

/-- The first entry with the key decides. -/
theorem value?_cons {e : String × α} :
    value? (e :: es) key = if e.1 = key then some e.2 else value? es key := by
  rw [value?, List.find?_cons]
  by_cases h : e.1 = key <;> simp [h, value?]

/-- What is put under a key is found under it, the rest is as before. -/
theorem value?_put :
    value? (put key a es) other = if other = key then some a else value? es other := by
  induction es with
  | nil => simp [put, value?_cons, eq_comm]
  | cons e es ih =>
    rw [put]
    by_cases h : other = key
    · subst h
      rw [if_pos rfl]
      split_ifs with he hlt
      · simp [value?_cons]
      · simp [value?_cons]
      · rw [value?_cons, if_neg he, ih, if_pos rfl]
    · rw [if_neg h]
      split_ifs with he hlt
      · rw [value?_cons, value?_cons, if_neg (Ne.symm h), if_neg (he ▸ Ne.symm h)]
      · rw [value?_cons, if_neg (Ne.symm h)]
      · rw [value?_cons, value?_cons, ih, if_neg h]

private theorem mem_put {e : String × α} (h : e ∈ put key a es) : e = (key, a) ∨ e ∈ es := by
  induction es with
  | nil => simpa [put] using h
  | cons f es ih =>
    rw [put] at h
    split_ifs at h with he hlt
    · exact (List.mem_cons.mp h).imp_right (List.mem_cons_of_mem f)
    · exact List.mem_cons.mp h
    · rcases List.mem_cons.mp h with rfl | h
      · exact .inr (List.mem_cons_self ..)
      · exact (ih h).imp_right (List.mem_cons_of_mem f)

namespace Ascending

/-- No entries ascend. -/
@[simp] theorem nil : Ascending ([] : List (String × α)) := List.Pairwise.nil

/-- Only the keys tell whether they ascend. -/
theorem iff_keys : Ascending es ↔ (es.map (·.1)).Pairwise (· < ·) := List.pairwise_map.symm

/-- Entries that ascend still do so with one more. -/
theorem put (h : Ascending es) : Ascending (put key a es) := by
  induction es with
  | nil => exact List.pairwise_singleton ..
  | cons e es ih =>
    obtain ⟨hlt, hes⟩ := List.pairwise_cons.mp h
    rw [Keyed.put]
    split_ifs with he hkey
    · exact List.pairwise_cons.mpr ⟨fun f hf => he ▸ hlt f hf, hes⟩
    · refine List.pairwise_cons.mpr ⟨fun f hf => ?_, h⟩
      rcases List.mem_cons.mp hf with rfl | hf
      · exact hkey
      · exact String.lt_trans hkey (hlt f hf)
    · refine List.pairwise_cons.mpr ⟨fun f hf => ?_, ih hes⟩
      rcases mem_put hf with rfl | hf
      · by_contra hle
        exact he (String.le_antisymm hkey hle)
      · exact hlt f hf

/-- Entries that ascend are found under their keys. -/
theorem mem_iff (h : Ascending es) : (key, a) ∈ es ↔ value? es key = some a := by
  induction es with
  | nil => simp
  | cons e es ih =>
    obtain ⟨hlt, hes⟩ := List.pairwise_cons.mp h
    rw [value?_cons, List.mem_cons, ih hes]
    by_cases he : e.1 = key
    · subst he
      have hnot : value? es e.1 ≠ some a := fun hsome =>
        String.lt_irrefl _ (hlt (e.1, a) ((ih hes).mpr hsome))
      rw [if_pos rfl]
      refine ⟨fun h => ?_, fun h => .inl (Prod.ext rfl (Option.some.inj h).symm)⟩
      rw [← h.resolve_right hnot]
    · rw [if_neg he]
      refine ⟨fun h => h.resolve_left ?_, .inr⟩
      rintro rfl
      exact he rfl

/-- Lists in the order of their keys are told by the values of the keys. -/
theorem ext (he : Ascending es) (hf : Ascending fs) (h : ∀ key, value? es key = value? fs key) :
    es = fs := by
  have hirrefl : Std.Irrefl fun e f : String × α => e.1 < f.1 := ⟨fun _ => String.lt_irrefl _⟩
  have hanti : Std.Antisymm fun e f : String × α => e.1 < f.1 :=
    ⟨fun _ _ hef hfe => (String.lt_irrefl _ (String.lt_trans hef hfe)).elim⟩
  refine List.Pairwise.eq_of_mem_iff he hf fun ⟨key, a⟩ => ?_
  rw [he.mem_iff, hf.mem_iff, h]

/-- Entries that ascend have one entry for each key that they have. -/
theorem count (h : Ascending es) :
    es.countP (·.1 = key) = if (value? es key).isSome then 1 else 0 := by
  induction es with
  | nil => simp
  | cons e es ih =>
    obtain ⟨hlt, hes⟩ := List.pairwise_cons.mp h
    rw [List.countP_cons, ih hes, value?_cons]
    by_cases he : e.1 = key
    · subst he
      have hnone : value? es e.1 = none := by
        rw [Option.eq_none_iff_forall_not_mem]
        exact fun a ha => String.lt_irrefl _ (hlt (e.1, a) (mem_iff hes |>.mpr ha))
      simp [hnone]
    · simp [he]

end Ascending

end GoContracts.Keyed

/-! ### Pairs -/

namespace GoContracts.Paired

variable {α β : Type} {R : α → β → Prop} {as : List α} {bs : List β} {a : α}

/-- Each member on the left has its mate on the right. -/
theorem exists_mem (h : List.Forall₂ R as bs) (ha : a ∈ as) : ∃ b ∈ bs, R a b := by
  obtain ⟨i, hi, rfl⟩ := List.getElem_of_mem ha
  have hlength := h.length_eq
  exact ⟨_, List.getElem_mem (hlength ▸ hi), h.get hi (hlength ▸ hi)⟩

/-- The last members are mates. -/
theorem exists_getLast (h : List.Forall₂ R as bs) (ha : as.getLast? = some a) :
    ∃ b, bs.getLast? = some b ∧ R a b := by
  rw [← List.head?_reverse] at ha
  obtain ⟨more, hmore⟩ := List.head?_eq_some_iff.mp ha
  have hreverse := List.forall₂_reverse_iff.mpr h
  rw [hmore, List.forall₂_cons_left_iff] at hreverse
  obtain ⟨b, _, hab, _, hb⟩ := hreverse
  exact ⟨b, by rw [← List.head?_reverse, hb]; rfl, hab⟩

end GoContracts.Paired

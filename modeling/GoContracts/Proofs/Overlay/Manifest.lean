import GoContracts.Overlay.Manifest
import GoContracts.Proofs.Lists
import Mathlib.Data.List.Induction

/-!
# What a manifest maps

A manifest is told by the shadows of the files that it maps, as long as its files ascend.
-/

namespace GoContracts.Manifest

variable {m : Manifest} {file shadow other : String} {recorded : List (String × String)}

private theorem insertEntry_eq_put {es : List (String × String)} :
    insertEntry file shadow es = Keyed.put file shadow es := by
  induction es with
  | nil => rfl
  | cons e es ih => rw [insertEntry, Keyed.put, ih]

/-- The shadow of a file is the value under its key. -/
theorem shadow?_eq_value? : m.shadow? file = Keyed.value? m.entries file := rfl

private theorem shadow?_record : (m.record file shadow).shadow? other =
    if other = file then some shadow else m.shadow? other := by
  rw [shadow?, record, insertEntry_eq_put]
  exact Keyed.value?_put

/-- A manifest is empty if it has no shadow for any file. -/
theorem isEmpty_iff : m.isEmpty = true ↔ ∀ file, m.shadow? file = none := by
  rw [isEmpty, List.isEmpty_iff]
  constructor
  · intro h file
    simp [shadow?, h]
  · intro h
    cases hes : m.entries with
    | nil => rfl
    | cons e es => simpa [shadow?, hes] using h e.1

/-- The files that a manifest maps ascend. -/
def Ascending (m : Manifest) : Prop := Keyed.Ascending m.entries

/-- The empty manifest ascends. -/
theorem Ascending.empty : Ascending {} := Keyed.Ascending.nil

/-- A manifest that ascends still does so with one more shadow. -/
theorem Ascending.record (h : m.Ascending) : (m.record file shadow).Ascending := by
  rw [Ascending, Manifest.record, insertEntry_eq_put]
  exact Keyed.Ascending.put h

private theorem Ascending.ext {m' : Manifest} (h : m.Ascending) (h' : m'.Ascending)
    (hsame : ∀ file, m.shadow? file = m'.shadow? file) : m = m' := by
  cases m
  cases m'
  congr
  exact Keyed.Ascending.ext h h' hsame

/-- The manifest with several files mapped, one after another. -/
def recordAll (m : Manifest) (recorded : List (String × String)) : Manifest :=
  recorded.foldl (fun m e => m.record e.1 e.2) m

private theorem recordAll_cons {e : String × String} :
    m.recordAll (e :: recorded) = (m.record e.1 e.2).recordAll recorded := rfl

/-- Shadows are recorded one after the other. -/
theorem recordAll_append {more : List (String × String)} :
    m.recordAll (recorded ++ more) = (m.recordAll recorded).recordAll more := List.foldl_append

/-- A manifest that ascends still does so with more shadows. -/
theorem Ascending.recordAll (h : m.Ascending) : (m.recordAll recorded).Ascending := by
  induction recorded generalizing m with
  | nil => exact h
  | cons e recorded ih => exact ih h.record

/-- What was mapped before counts where nothing has been recorded. -/
theorem shadow?_recordAll : (m.recordAll recorded).shadow? file =
    ((({} : Manifest).recordAll recorded).shadow? file).or (m.shadow? file) := by
  induction recorded generalizing m with
  | nil => simp [recordAll, shadow?]
  | cons e recorded ih =>
    rw [recordAll_cons, recordAll_cons, ih, ih (m := ({} : Manifest).record e.1 e.2),
      Option.or_assoc,
      shadow?_record, shadow?_record]
    congr 1
    split <;> simp [shadow?]

/-- A manifest is empty if it was and nothing is recorded. -/
theorem isEmpty_recordAll : (m.recordAll recorded).isEmpty = true ↔
    m.isEmpty = true ∧ recorded = [] := by
  constructor
  · intro h
    have hnone := isEmpty_iff.mp h
    refine ⟨isEmpty_iff.mpr fun file => ?_, ?_⟩
    · have := hnone file
      rw [shadow?_recordAll, Option.or_eq_none_iff] at this
      exact this.2
    · rcases List.eq_nil_or_concat' recorded with rfl | ⟨init, e, rfl⟩
      · rfl
      · have := hnone e.1
        rw [recordAll_append, recordAll_cons, recordAll, List.foldl_nil, shadow?_record,
          if_pos rfl] at this
        cases this
  · rintro ⟨h, rfl⟩
    exact h

/-- What was mapped before is forgotten where all of it has been recorded anew. -/
theorem recordAll_eq_iff (h : m.Ascending) :
    m.recordAll recorded = ({} : Manifest).recordAll recorded ↔
      ∀ file, (({} : Manifest).recordAll recorded).shadow? file = none → m.shadow? file = none := by
  constructor
  · intro heq file hnone
    have hm : (m.recordAll recorded).shadow? file = _ := shadow?_recordAll
    rwa [heq, hnone, Option.none_or, eq_comm] at hm
  · intro hmapped
    refine Ascending.ext h.recordAll Ascending.empty.recordAll fun file => ?_
    rw [shadow?_recordAll]
    cases hnew : (({} : Manifest).recordAll recorded).shadow? file with
    | none => rw [Option.none_or, hmapped file hnew]
    | some shadow => rw [Option.some_or]

/-- If each file is recorded with one shadow, what has been recorded is what is mapped. -/
theorem shadow?_recordAll_eq_some
    (h : ∀ file a b, (file, a) ∈ recorded → (file, b) ∈ recorded → a = b) :
    (({} : Manifest).recordAll recorded).shadow? file = some shadow ↔
      (file, shadow) ∈ recorded := by
  induction recorded using List.reverseRecOn with
  | nil => simp [recordAll, shadow?]
  | append_singleton init e ih =>
    have hinit := ih fun file a b ha hb =>
      h file a b (List.mem_append_left _ ha) (List.mem_append_left _ hb)
    rw [recordAll_append, recordAll_cons, recordAll, List.foldl_nil, shadow?_record]
    obtain ⟨last, value⟩ := e
    by_cases hfile : file = last
    · subst hfile
      rw [if_pos rfl, Option.some.injEq]
      constructor
      · rintro rfl
        simp
      · intro hmem
        exact h file value shadow (by simp) hmem
    · rw [if_neg hfile, hinit]
      simp [hfile]

/-- There is one empty manifest. -/
theorem eq_empty_iff : m = {} ↔ m.isEmpty = true := by
  cases m
  simp [isEmpty]

end GoContracts.Manifest

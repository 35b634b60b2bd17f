import Mathlib.Data.List.Nodup

/-!
# One element for each key

A pass that keeps the first element of each key keeps every key that occurs,
each once, in the order in which they first occur.
-/

set_option autoImplicit false

namespace Adg.FirstOfEach

variable {α κ : Type*} [DecidableEq κ] (key : α → κ)

/-- The elements whose key has not come before. -/
def firstOfEach : List α → List α
  | [] => []
  | a :: rest => a :: (firstOfEach rest).filter fun b => key b ≠ key a

variable {key}

theorem firstOfEach_sublist (l : List α) : (firstOfEach key l).Sublist l := by
  induction l with
  | nil => exact List.Sublist.refl _
  | cons a rest ih => exact (List.filter_sublist.trans ih).cons_cons a

theorem firstOfEach_apart (l : List α) : ((firstOfEach key l).map key).Nodup := by
  induction l with
  | nil => exact List.nodup_nil
  | cons a rest ih =>
    rw [firstOfEach, List.map_cons, List.nodup_cons]
    constructor
    · intro h
      obtain ⟨b,hb,hkey⟩ := List.mem_map.mp h
      have hne := (List.mem_filter.mp hb).2
      simp [hkey] at hne
    · exact ih.sublist (List.filter_sublist.map _)

/-- Every key that occurs is kept once. -/
theorem firstOfEach_covers {l : List α} {a : α} (ha : a ∈ l) :
    ∃ b ∈ firstOfEach key l, key b = key a := by
  induction l with
  | nil => cases ha
  | cons c rest ih =>
    by_cases hkey : key a = key c
    · exact ⟨c,List.mem_cons_self,hkey.symm⟩
    · have hrest : a ∈ rest := (List.mem_cons.mp ha).resolve_left fun h => hkey (congrArg key h)
      obtain ⟨b,hb,hsame⟩ := ih hrest
      refine ⟨b,List.mem_cons_of_mem _ (List.mem_filter.mpr ⟨hb,?_⟩),hsame⟩
      simpa [hsame] using hkey

end Adg.FirstOfEach

-- SUMMARY: How long ago an item last occurred in a history, and lists kept in that order.
import Mathlib.Data.List.Basic

/-!
# Recency

The age of an item is the number of events since its last occurrence. A list in order of age stays
in order when the item of the next event is put in front.
-/

namespace Library

variable {α ι : Type} [DecidableEq α]

/-- The number of events since the last occurrence of an item; for an item that never occurred,
the length of the history. -/
def age (history : List α) (a : α) : Nat := history.reverse.idxOf a

variable {history : List α} {a b : α}

@[simp] theorem age_concat_self : age (history ++ [a]) a = 0 := by simp [age]

theorem age_concat_ne (h : b ≠ a) : age (history ++ [a]) b = age history b + 1 := by
  simp [age, List.idxOf_cons_ne _ (Ne.symm h)]

/-- Sorting by a function that grows by the same amount everywhere does not change. -/
theorem pairwise_lt_succ {f g : ι → Nat} {l : List ι} (h : l.Pairwise fun i j => f i < f j)
    (hg : ∀ i ∈ l, g i = f i + 1) : l.Pairwise fun i j => g i < g j := by
  apply h.imp_of_mem
  intro i j hi hj hlt
  rw [hg i hi, hg j hj]
  exact Nat.succ_lt_succ hlt

/-- The item of the newest event goes in front of a list in order of age. -/
theorem pairwise_lt_cons {f g : ι → Nat} {l : List ι} {i : ι} (h : l.Pairwise fun i j => f i < f j)
    (hg : ∀ j ∈ l, g j = f j + 1) (hi : g i = 0) : (i :: l).Pairwise fun i j => g i < g j := by
  refine List.pairwise_cons.mpr ⟨?_, pairwise_lt_succ h hg⟩
  intro j hj
  rw [hi, hg j hj]
  exact Nat.succ_pos _

/-- The item of the newest event goes to the end of a list in order of falling age. -/
theorem pairwise_gt_concat {f g : ι → Nat} {l : List ι} {i : ι}
    (h : l.Pairwise fun i j => f j < f i) (hg : ∀ j ∈ l, g j = f j + 1) (hi : g i = 0) :
    (l ++ [i]).Pairwise fun i j => g j < g i := by
  refine List.pairwise_append.mpr ⟨?_, List.pairwise_singleton _ _, ?_⟩
  · apply h.imp_of_mem
    intro j k hj hk hlt
    rw [hg j hj, hg k hk]
    exact Nat.succ_lt_succ hlt
  · intro j hj k hk
    rw [List.mem_singleton.mp hk, hi, hg j hj]
    exact Nat.succ_pos _

end Library

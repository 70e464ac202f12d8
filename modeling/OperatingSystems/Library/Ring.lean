-- SUMMARY: A queue in a circle of slots: what enqueueing and dequeueing do to it.
import Mathlib.Data.Nat.ModEq
import Mathlib.Logic.Function.Basic

/-!
# Ring buffers

A queue of at most `cap` items in slots `0` to `cap - 1`: the first item is at the head, the others
follow in a circle, and the tail is the slot after the last one.
-/

namespace Library

variable {α : Type}

/-- The slots from the head on hold the list. -/
structure Ring (cap head tail : Nat) (slot : Nat → Option α) (l : List α) : Prop where
  head_lt : head < cap
  length_le : l.length ≤ cap
  tail_eq : tail = (head + l.length) % cap
  slots : ∀ j (h : j < l.length), slot ((head + j) % cap) = some l[j]

variable {cap head tail : Nat} {slot : Nat → Option α} {l : List α} {a : α}

namespace Ring

theorem empty (h : 0 < cap) (slot : Nat → Option α) : Ring cap 0 0 slot [] where
  head_lt := h
  length_le := Nat.zero_le _
  tail_eq := by simp
  slots j hj := absurd hj (Nat.not_lt_zero j)

theorem tail_lt (h : Ring cap head tail slot l) : tail < cap := by
  rw [h.tail_eq]
  exact Nat.mod_lt _ (Nat.zero_lt_of_lt h.head_lt)

/-- The slots of different items are different. -/
theorem slot_ne {j k : Nat} (hjk : j < k) (hk : k < cap) : (head + j) % cap ≠ (head + k) % cap := by
  intro heq
  have hmod : j % cap = k % cap := Nat.ModEq.add_left_cancel' head heq
  rw [Nat.mod_eq_of_lt (by omega), Nat.mod_eq_of_lt hk] at hmod
  omega

/-- Enqueue at the tail, if there is room. -/
theorem push (h : Ring cap head tail slot l) (hlt : l.length < cap) :
    Ring cap head ((tail + 1) % cap) (Function.update slot tail (some a)) (l ++ [a]) where
  head_lt := h.head_lt
  length_le := by
    rw [List.length_append, List.length_singleton]
    exact hlt
  tail_eq := by
    rw [h.tail_eq, Nat.mod_add_mod, List.length_append, List.length_singleton, Nat.add_assoc]
  slots j hj := by
    rw [List.length_append, List.length_singleton] at hj
    rcases Nat.lt_or_ge j l.length with hold | hnew
    · have hne : (head + j) % cap ≠ tail := h.tail_eq ▸ slot_ne hold hlt
      rw [Function.update_of_ne hne, h.slots j hold, List.getElem_append_left hold]
    · obtain rfl : j = l.length := by omega
      rw [← h.tail_eq, Function.update_self]
      simp

/-- Dequeue at the head. -/
theorem pop (h : Ring cap head tail slot (a :: l)) :
    slot head = some a ∧ Ring cap ((head + 1) % cap) tail slot l := by
  refine ⟨?_, Nat.mod_lt _ (Nat.zero_lt_of_lt h.head_lt), ?_, ?_, ?_⟩
  · have hfirst := h.slots 0 (by simp)
    rwa [Nat.add_zero, Nat.mod_eq_of_lt h.head_lt] at hfirst
  · have hlen := h.length_le
    rw [List.length_cons] at hlen
    omega
  · rw [h.tail_eq, Nat.mod_add_mod, List.length_cons, Nat.add_right_comm, Nat.add_assoc]
  · intro j hj
    have hnext := h.slots (j + 1) (by simpa using hj)
    rwa [Nat.mod_add_mod, Nat.add_assoc, Nat.add_comm 1 j]

end Ring

end Library

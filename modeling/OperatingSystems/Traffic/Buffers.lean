-- SUMMARY: The buffer of a lane is a queue: what is in it, in which slots, after any interleaving of the threads.
import OperatingSystems.Traffic.Conservation

/-!
# Buffers

`car_arrive` and `car_cross` each test for room or for a car themselves, and the count of the cars
is kept by both. In every state the cars written and not yet read are in the slots from the head
on, and the tail is behind the last of them, also when the buffer has gone all the way round.
-/

namespace Traffic

open Library Library.Threads

variable {schedule : List Car} {cap : Nat} {d e : Direction} {g g' : Intersection}
  {a a' : ArrivePc} {c c' : CrossPc} {s s' : State} {crossed queue rest : List CarPtr}

/-! ## Head and tail -/

/-- The fields of a lane that say where in the buffer its cars are. -/
def Lane.ends (l : Lane) : Nat × Nat × Nat × Nat := (l.head, l.tail, l.inBuf, l.capacity)

/-- The tail is as far behind the head as there are cars. -/
structure Lane.Circular (l : Lane) : Prop where
  head_lt : l.head < l.capacity
  tail_eq : l.tail = (l.head + l.inBuf) % l.capacity

theorem Lane.Circular.congr {l l' : Lane} (h : l.Circular) (hends : l'.ends = l.ends) :
    l'.Circular := by
  simp only [Lane.ends, Prod.mk.injEq] at hends
  obtain ⟨hhead, htail, hinBuf, hcap⟩ := hends
  exact ⟨by rw [hhead, hcap]; exact h.head_lt, by rw [htail, hhead, hinBuf, hcap]; exact h.tail_eq⟩

theorem Lane.Circular.tail_lt {l : Lane} (h : l.Circular) : l.tail < l.capacity := by
  rw [h.tail_eq]
  exact Nat.mod_lt _ (Nat.zero_lt_of_lt h.head_lt)

/-- One more car at the tail. -/
theorem Lane.Circular.write {l l' : Lane} (h : l.Circular)
    (hends : l'.ends = (l.head, (l.tail + 1) % l.capacity, l.inBuf + 1, l.capacity)) :
    l'.Circular := by
  simp only [Lane.ends, Prod.mk.injEq] at hends
  obtain ⟨hhead, htail, hinBuf, hcap⟩ := hends
  refine ⟨by rw [hhead, hcap]; exact h.head_lt, ?_⟩
  rw [htail, hhead, hinBuf, hcap, h.tail_eq, Nat.mod_add_mod, Nat.add_assoc]

/-- One car less at the head. -/
theorem Lane.Circular.read {l l' : Lane} (h : l.Circular) (hne : l.inBuf ≠ 0)
    (hends : l'.ends = ((l.head + 1) % l.capacity, l.tail, l.inBuf - 1, l.capacity)) :
    l'.Circular := by
  simp only [Lane.ends, Prod.mk.injEq] at hends
  obtain ⟨hhead, htail, hinBuf, hcap⟩ := hends
  refine ⟨?_, ?_⟩
  · rw [hhead, hcap]
    exact Nat.mod_lt _ (Nat.zero_lt_of_lt h.head_lt)
  · have hcount : l.head + 1 + (l.inBuf - 1) = l.head + l.inBuf := by omega
    rw [htail, hhead, hinBuf, hcap, h.tail_eq, Nat.mod_add_mod, hcount]

/-! ## Steps -/

/-- Of the cars in the list of a lane, the first `n` have been written to its buffer, and the first
`m` of these have been read. The others written are in the slots from the head on, and those not
written are the list that is left. -/
structure Lane.Queue (schedule : List Car) (d : Direction) (next : CarPtr → Option CarPtr)
    (l : Lane) (m n : Nat) : Prop where
  order : m ≤ n ∧ n ≤ l.inc
  inBuf : l.inBuf = n - m
  room : l.inBuf ≤ l.capacity
  head_lt : l.head < l.capacity
  tail_lt : l.tail < l.capacity
  tail_eq : l.tail = (l.head + l.inBuf) % l.capacity
  slots : ∀ j < l.inBuf, ∃ b car, l.buffer = some b ∧
    b ((l.head + j) % l.capacity) = some car ∧ (laneCars schedule d)[m + j]? = some car
  list : Follows next l.inCars ((laneCars schedule d).drop n)

end Traffic

-- SUMMARY: The second-chance queue, as a machine that takes a sequence of items and names its victims.
import Mathlib.Data.Finset.Card
import Mathlib.Data.List.Induction
import Mathlib.Data.List.Perm.Basic

/-!
# Second chance

A queue of items with a mark each, of a bounded length. An item used again is marked. To make room
the head is popped; if it is marked it loses its mark and goes to the end, else it is the victim.
-/

namespace Library.SecondChance

variable {α : Type}

/-- Pop until an item without a mark comes up. -/
def evict : List (α × Bool) → Option (α × List (α × Bool))
  | [] => none
  | (a, false) :: q => some (a, q)
  | (a, true) :: q => evict (q ++ [(a, false)])
termination_by q => q.countP (·.2)
decreasing_by simp [List.countP_append]

/-- Nothing is lost but the victim. -/
theorem evict_perm {q q' : List (α × Bool)} {v : α} (h : evict q = some (v, q')) :
    (v :: q'.map Prod.fst).Perm (q.map Prod.fst) := by
  induction q using evict.induct with
  | case1 =>
    rw [evict] at h
    cases h
  | case2 a q =>
    rw [evict] at h
    cases h
    exact .refl _
  | case3 a q ih =>
    rw [evict] at h
    apply (ih h).trans
    rw [List.map_append]
    exact List.perm_append_singleton a _

/-- The loop comes to an end at some item, if there is one. -/
theorem exists_evict {q : List (α × Bool)} (hne : q ≠ []) : ∃ v q', evict q = some (v, q') := by
  induction q using evict.induct with
  | case1 => exact absurd rfl hne
  | case2 a q => exact ⟨a, q, evict.eq_2 a q⟩
  | case3 a q ih =>
    rw [evict]
    exact ih (by simp)

/-! ## What was used lately -/

variable {W : Finset α} {q q' : List (α × Bool)} {a p v : α}

/-- Among items used lately, one stays in the queue: a marked item behind it was used lately as
well; and once it has lost its mark, so was every item behind it and every marked one. -/
def Sheltered (W : Finset α) (p : α) (q : List (α × Bool)) : Prop :=
  ∃ front b back, q = front ++ (p, b) :: back ∧ (∀ e ∈ back, e.2 = true → e.1 ∈ W) ∧
    (b = false → (∀ e ∈ back, e.1 ∈ W) ∧ ∀ e ∈ front, e.2 = true → e.1 ∈ W)

namespace Sheltered

theorem mem (h : Sheltered W p q) : p ∈ q.map Prod.fst := by
  obtain ⟨front, b, back, rfl, _⟩ := h
  simp

theorem mono {V : Finset α} (h : Sheltered W p q) (hWV : W ⊆ V) : Sheltered V p q := by
  obtain ⟨front, b, back, rfl, hmarked, hlost⟩ := h
  exact ⟨front, b, back, rfl, fun e he hb => hWV (hmarked e he hb), fun hb =>
    ⟨fun e he => hWV ((hlost hb).1 e he), fun e he hb' => hWV ((hlost hb).2 e he hb')⟩⟩

/-- An item that has just come to the end of the queue. -/
theorem last (W : Finset α) (p : α) (q : List (α × Bool)) : Sheltered W p (q ++ [(p, true)]) :=
  ⟨q, true, [], rfl, fun _ he => absurd he List.not_mem_nil, fun hb => by cases hb⟩

/-- An item used now comes to the end of the queue. -/
theorem append (h : Sheltered W p q) (ha : a ∈ W) : Sheltered W p (q ++ [(a, true)]) := by
  obtain ⟨front, b, back, rfl, hmarked, hlost⟩ := h
  have hback : ∀ e ∈ back ++ [(a, true)], e ∈ back ∨ e.1 ∈ W := by
    intro e he
    rcases List.mem_append.mp he with he | he
    · exact .inl he
    · rw [List.mem_singleton.mp he]
      exact .inr ha
  refine ⟨front, b, back ++ [(a, true)], by simp, ?_, fun hb => ⟨?_, (hlost hb).2⟩⟩
  · exact fun e he hb => (hback e he).elim (fun he => hmarked e he hb) id
  · exact fun e he => (hback e he).elim (fun he => (hlost hb).1 e he) id

/-- A marked item at the head goes to the end. -/
theorem rotate (h : Sheltered W p ((a, true) :: q)) : Sheltered W p (q ++ [(a, false)]) := by
  obtain ⟨front, b, back, heq, hmarked, hlost⟩ := h
  cases front with
  | nil =>
    obtain ⟨hhead, rfl⟩ := List.cons.inj heq
    cases hhead
    exact ⟨q, false, [], rfl, fun _ he => absurd he List.not_mem_nil,
      fun _ => ⟨fun _ he => absurd he List.not_mem_nil, hmarked⟩⟩
  | cons e front =>
    obtain ⟨rfl, rfl⟩ := List.cons.inj heq
    refine ⟨front, b, back ++ [(a, false)], by simp, ?_, fun hb => ⟨?_, ?_⟩⟩
    · intro e he hb
      rcases List.mem_append.mp he with he | he
      · exact hmarked e he hb
      · rw [List.mem_singleton.mp he] at hb
        cases hb
    · intro e he
      rcases List.mem_append.mp he with he | he
      · exact (hlost hb).1 e he
      · rw [List.mem_singleton.mp he]
        exact (hlost hb).2 (a, true) List.mem_cons_self rfl
    · exact fun e he => (hlost hb).2 e (List.mem_cons_of_mem _ he)

/-- Unless all items were used lately, the victim is another item. -/
theorem evict (h : Sheltered W p q) (hp : p ∈ W) (hold : ∃ a ∈ q.map Prod.fst, a ∉ W)
    (hevict : evict q = some (v, q')) : Sheltered W p q' := by
  induction q using SecondChance.evict.induct with
  | case1 =>
    obtain ⟨a, ha, _⟩ := hold
    cases ha
  | case2 a q =>
    rw [SecondChance.evict] at hevict
    cases hevict
    obtain ⟨front, b, back, heq, hmarked, hlost⟩ := h
    cases front with
    | nil =>
      obtain ⟨hhead, rfl⟩ := List.cons.inj heq
      cases hhead
      obtain ⟨a, ha, haW⟩ := hold
      obtain ⟨e, he, rfl⟩ := List.mem_map.mp ha
      rcases List.mem_cons.mp he with rfl | he
      · exact absurd hp haW
      · exact absurd ((hlost rfl).1 e he) haW
    | cons e front =>
      obtain ⟨_, rfl⟩ := List.cons.inj heq
      exact ⟨front, b, back, rfl, hmarked, fun hb =>
        ⟨(hlost hb).1, fun e he => (hlost hb).2 e (List.mem_cons_of_mem _ he)⟩⟩
  | case3 a q ih =>
    rw [SecondChance.evict] at hevict
    refine ih h.rotate ?_ hevict
    obtain ⟨b, hb, hbW⟩ := hold
    refine ⟨b, ?_, hbW⟩
    rw [List.map_append]
    exact (List.perm_append_singleton a _).mem_iff.mpr hb

end Sheltered

/-! ## Uses -/

variable [DecidableEq α]

/-- Mark an item. -/
def mark (a : α) (q : List (α × Bool)) : List (α × Bool) :=
  q.map fun e => if e.1 = a then (a, true) else e

@[simp] theorem map_fst_mark (a : α) (q : List (α × Bool)) :
    (mark a q).map Prod.fst = q.map Prod.fst := by
  rw [mark, List.map_map]
  apply List.map_congr_left
  intro e _
  by_cases he : e.1 = a
  · simp [he]
  · simp [he]

@[simp] theorem length_mark (a : α) (q : List (α × Bool)) : (mark a q).length = q.length :=
  List.length_map _

/-- Use an item, in a queue of at most `m` items: the victims, and the queue afterwards. -/
def use (m : Nat) (q : List (α × Bool)) (a : α) : List α × List (α × Bool) :=
  if a ∈ q.map Prod.fst then ([], mark a q)
  else if q.length < m then ([], q ++ [(a, true)])
  else
    match evict q with
    | none => ([], q)
    | some (v, q) => ([v], q ++ [(a, true)])

theorem use_mem {m : Nat} {q : List (α × Bool)} {a : α} (h : a ∈ q.map Prod.fst) :
    use m q a = ([], mark a q) := if_pos h

theorem use_room {m : Nat} {q : List (α × Bool)} {a : α} (h : a ∉ q.map Prod.fst)
    (hlen : q.length < m) : use m q a = ([], q ++ [(a, true)]) := by
  rw [use, if_neg h, if_pos hlen]

theorem use_full {m : Nat} {q q' : List (α × Bool)} {a v : α} (h : a ∉ q.map Prod.fst)
    (hlen : m ≤ q.length) (hevict : evict q = some (v, q')) :
    use m q a = ([v], q' ++ [(a, true)]) := by
  rw [use, if_neg h, if_neg (Nat.not_lt.mpr hlen), hevict]

/-- Use a sequence of items, from an empty queue on: all victims, and the queue at the end. -/
def run (m : Nat) (as : List α) : List α × List (α × Bool) :=
  as.foldl (fun r a => (r.1 ++ (use m r.2 a).1, (use m r.2 a).2)) ([], [])

theorem run_concat (m : Nat) (as : List α) (a : α) :
    run m (as ++ [a]) = ((run m as).1 ++ (use m (run m as).2 a).1, (use m (run m as).2 a).2) := by
  simp [run]

/-! ## Runs -/

variable {m : Nat} {as bs : List α}

/-- The queue never holds an item twice. -/
theorem run_nodup (m : Nat) (as : List α) : ((run m as).2.map Prod.fst).Nodup := by
  induction as using List.reverseRecOn with
  | nil => exact .nil
  | append_singleton as a ih =>
    rw [run_concat]
    by_cases ha : a ∈ (run m as).2.map Prod.fst
    · rw [use_mem ha, map_fst_mark]
      exact ih
    · rcases Nat.lt_or_ge (run m as).2.length m with hroom | hfull
      · rw [use_room ha hroom, List.map_append]
        exact (List.perm_append_singleton a _).nodup_iff.mpr (List.nodup_cons.mpr ⟨ha, ih⟩)
      · cases hevict : evict (run m as).2 with
        | none => simpa [use, ha, Nat.not_lt.mpr hfull, hevict] using ih
        | some r =>
          obtain ⟨v, q'⟩ := r
          have hperm := evict_perm hevict
          have hq' : a ∉ q'.map Prod.fst :=
            fun hin => ha (hperm.mem_iff.mp (List.mem_cons_of_mem v hin))
          rw [use_full ha hfull hevict, List.map_append]
          exact (List.perm_append_singleton a _).nodup_iff.mpr
            (List.nodup_cons.mpr ⟨hq', (List.nodup_cons.mp (hperm.nodup_iff.mpr ih)).2⟩)

namespace Sheltered

theorem mark (h : Sheltered W p q) (ha : a ∈ W) : Sheltered W p (mark a q) := by
  obtain ⟨front, b, back, rfl, hmarked, hlost⟩ := h
  have hkeep : ∀ l : List (α × Bool), (∀ e ∈ l, e.2 = true → e.1 ∈ W) →
      ∀ e ∈ SecondChance.mark a l, e.2 = true → e.1 ∈ W := by
    intro l hl e he hb
    obtain ⟨e₀, he₀, rfl⟩ := List.mem_map.mp he
    by_cases heq : e₀.1 = a
    · rw [if_pos heq]
      exact ha
    · rw [if_neg heq] at hb ⊢
      exact hl e₀ he₀ hb
  by_cases hp : p = a
  · subst hp
    refine ⟨SecondChance.mark p front, true, SecondChance.mark p back, ?_, hkeep back hmarked, ?_⟩
    · simp [SecondChance.mark]
    · intro hb
      cases hb
  · refine ⟨SecondChance.mark a front, b, SecondChance.mark a back, ?_, hkeep back hmarked, ?_⟩
    · simp [SecondChance.mark, hp]
    · intro hb
      refine ⟨?_, hkeep front (hlost hb).2⟩
      intro e he
      have hfst := List.mem_map_of_mem (f := Prod.fst) he
      rw [map_fst_mark] at hfst
      obtain ⟨e₀, he₀, heq⟩ := List.mem_map.mp hfst
      exact heq ▸ (hlost hb).1 e₀ he₀

/-- The next use, if it makes no more than `m` items. -/
theorem use (h : Sheltered W p q) (hp : p ∈ W) (hnodup : (q.map Prod.fst).Nodup)
    (hcard : (insert a W).card ≤ m) : Sheltered (insert a W) p (use m q a).2 := by
  have h' := h.mono (Finset.subset_insert a W)
  have ha := Finset.mem_insert_self a W
  by_cases hmem : a ∈ q.map Prod.fst
  · rw [use_mem hmem]
    exact h'.mark ha
  · rcases Nat.lt_or_ge q.length m with hroom | hfull
    · rw [use_room hmem hroom]
      exact h'.append ha
    · cases hevict : SecondChance.evict q with
      | none => simpa [SecondChance.use, hmem, Nat.not_lt.mpr hfull, hevict] using h'
      | some r =>
        obtain ⟨v, q'⟩ := r
        -- The queue is full, and the item used now is not in it.
        have hold : ∃ b ∈ q.map Prod.fst, b ∉ insert a W := by
          by_contra hall
          simp only [not_exists, not_and, not_not] at hall
          have hsub : insert a (q.map Prod.fst).toFinset ⊆ insert a W := by
            intro b hb
            rcases Finset.mem_insert.mp hb with rfl | hb
            · exact ha
            · exact hall b (List.mem_toFinset.mp hb)
          have hle := Finset.card_le_card hsub
          rw [Finset.card_insert_of_notMem (by simpa using hmem),
            List.toFinset_card_of_nodup hnodup, List.length_map] at hle
          omega
        rw [use_full hmem hfull hevict]
        exact (h'.evict (Finset.mem_insert_of_mem hp) hold hevict).append ha

end Sheltered

/-- An item that comes in stays while no more than `m` items are used, itself among them. -/
theorem mem_run_of_card_le (ha : a ∉ (run m as).2.map Prod.fst)
    (hcard : (insert a bs.toFinset).card ≤ m) : a ∈ (run m (as ++ a :: bs)).2.map Prod.fst := by
  have hrun : Sheltered (insert a bs.toFinset) a (run m (as ++ a :: bs)).2 := by
    induction bs using List.reverseRecOn with
    | nil =>
      rw [run_concat]
      rcases Nat.lt_or_ge (run m as).2.length m with hroom | hfull
      · rw [use_room ha hroom]
        exact .last _ _ _
      · have hpos : 0 < m := (Finset.card_pos.mpr ⟨a, Finset.mem_insert_self a _⟩).trans_le hcard
        obtain ⟨v, q', hevict⟩ := exists_evict (List.ne_nil_of_length_pos (hpos.trans_le hfull))
        rw [use_full ha hfull hevict]
        exact .last _ _ _
    | append_singleton bs b ih =>
      have hset : insert a (bs ++ [b]).toFinset = insert b (insert a bs.toFinset) := by
        ext c
        simp only [List.toFinset_append, Finset.mem_insert, Finset.mem_union, List.mem_toFinset,
          List.mem_singleton]
        tauto
      have hsplit : as ++ a :: (bs ++ [b]) = as ++ a :: bs ++ [b] := by simp
      rw [hset] at hcard ⊢
      rw [hsplit, run_concat]
      exact (ih ((Finset.card_le_card (Finset.subset_insert _ _)).trans hcard)).use
        (Finset.mem_insert_self _ _) (run_nodup m _) hcard
  exact hrun.mem

end Library.SecondChance

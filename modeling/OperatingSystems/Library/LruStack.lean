-- SUMMARY: Least recently used caches of all sizes are the prefixes of one stack, so that a larger one has no more misses.
import Mathlib.Data.Finset.Card
import Mathlib.Data.List.Induction

/-!
# The stack of least recently used caches

The items of a history in order of their last use form a stack, and a use moves an item to its
front. A cache that replaces the least recently used item holds the items at the front of the
stack, as many as it has room for.
-/

namespace Library.LruStack

variable {α : Type} [DecidableEq α] {history S C : List α} {a b : α} {m n : Nat}

/-! ## Uses -/

/-- A use moves an item to the front. -/
def touch (S : List α) (a : α) : List α := a :: S.erase a

/-- The items of a history, the one used last in front. -/
def stack (history : List α) : List α := history.foldl touch []

/-- A use in a cache for `m` items, which gives up the last one if there is no room. -/
def touchIn (m : Nat) (C : List α) (a : α) : List α := (touch C a).take m

/-- The cache after a history, and the number of uses that missed. -/
def run (m : Nat) (history : List α) : List α × Nat :=
  history.foldl (fun r a => (touchIn m r.1 a, r.2 + if a ∈ r.1 then 0 else 1)) ([], 0)

def cache (m : Nat) (history : List α) : List α := (run m history).1
def misses (m : Nat) (history : List α) : Nat := (run m history).2

@[simp] theorem stack_concat : stack (history ++ [a]) = touch (stack history) a := by
  simp [stack]

@[simp] theorem cache_nil : cache m ([] : List α) = [] := rfl

@[simp] theorem misses_nil : misses m ([] : List α) = 0 := rfl

theorem run_concat : run m (history ++ [a]) = (touchIn m (cache m history) a,
    misses m history + if a ∈ cache m history then 0 else 1) := by
  unfold misses cache run
  rw [List.foldl_append]
  rfl

theorem cache_concat : cache m (history ++ [a]) = touchIn m (cache m history) a :=
  congrArg Prod.fst run_concat

theorem misses_concat : misses m (history ++ [a]) =
    misses m history + if a ∈ cache m history then 0 else 1 :=
  congrArg Prod.snd run_concat

/-- Further uses miss at most once each. -/
theorem misses_append (history more : List α) : misses m history ≤ misses m (history ++ more) ∧
    misses m (history ++ more) ≤ misses m history + more.length := by
  induction more using List.reverseRecOn with
  | nil => simp
  | append_singleton more a ih =>
    rw [← List.append_assoc, misses_concat, List.length_append, List.length_singleton]
    split <;> omega

/-! ### The ways a use can go -/

theorem touchIn_of_mem (ha : a ∈ C) (hC : C.length ≤ m) : touchIn m C a = a :: C.erase a := by
  apply List.take_of_length_le
  rw [touch, List.length_cons, List.length_erase_of_mem ha]
  have hpos := List.length_pos_of_mem ha
  omega

theorem touchIn_of_room (ha : a ∉ C) (hC : C.length < m) : touchIn m C a = a :: C := by
  rw [touchIn, touch, List.erase_of_not_mem ha]
  exact List.take_of_length_le hC

/-- The item that a full cache gives up is the last one. -/
theorem touchIn_of_full (ha : a ∉ C ++ [b]) (hC : (C ++ [b]).length = m) :
    touchIn m (C ++ [b]) a = a :: C := by
  rw [touchIn, touch, List.erase_of_not_mem ha, ← hC, List.length_append, List.length_singleton,
    List.take_succ_cons, List.take_left]

/-- Erasing an item commutes with a map that tells it from the others. -/
theorem map_erase_of_forall {ι : Type} [DecidableEq ι] {g : ι → α} {x : ι} {l : List ι}
    (h : ∀ y ∈ l, g y = g x → y = x) : (l.erase x).map g = (l.map g).erase (g x) := by
  induction l with
  | nil => rfl
  | cons y l ih =>
    by_cases hyx : y = x
    · subst hyx
      rw [List.erase_cons_head, List.map_cons, List.erase_cons_head]
    · have hg : g y ≠ g x := fun heq => hyx (h y List.mem_cons_self heq)
      rw [List.erase_cons_tail (by simpa using hyx), List.map_cons, List.map_cons,
        List.erase_cons_tail (by simpa using hg), ih fun z hz => h z (List.mem_cons_of_mem y hz)]

/-! ## Inclusion -/

/-- The part of the stack behind the cache does not matter for the cache. -/
theorem take_erase_take (S : List α) (m : Nat) (a : α) :
    ((S.take (m + 1)).erase a).take m = (S.erase a).take m := by
  induction S generalizing m with
  | nil => simp
  | cons b S ih =>
    rw [List.take_succ_cons]
    by_cases hb : b = a
    · rw [hb, List.erase_cons_head, List.erase_cons_head, List.take_take, Nat.min_self]
    · rw [List.erase_cons_tail (by simpa using hb), List.erase_cons_tail (by simpa using hb)]
      cases m with
      | zero => rfl
      | succ m => rw [List.take_succ_cons, List.take_succ_cons, ih]

theorem touchIn_take (S : List α) (m : Nat) (a : α) :
    touchIn m (S.take m) a = (touch S a).take m := by
  cases m with
  | zero => rfl
  | succ m => rw [touchIn, touch, touch, List.take_succ_cons, List.take_succ_cons, take_erase_take]

/-- A cache holds the front of the stack. -/
theorem cache_eq_take (m : Nat) (history : List α) : cache m history = (stack history).take m := by
  induction history using List.reverseRecOn with
  | nil => simp [stack]
  | append_singleton history a ih => rw [cache_concat, stack_concat, ih, touchIn_take]

/-- What is in a cache is in every larger one. -/
theorem cache_subset (hmn : m ≤ n) (history : List α) : cache m history ⊆ cache n history := by
  rw [cache_eq_take, cache_eq_take]
  exact List.take_subset_take_left _ hmn

/-- A larger cache has no more misses. -/
theorem misses_le (hmn : m ≤ n) (history : List α) : misses n history ≤ misses m history := by
  induction history using List.reverseRecOn with
  | nil => simp
  | append_singleton history a ih =>
    rw [misses_concat, misses_concat]
    by_cases ha : a ∈ cache m history
    · rw [if_pos ha, if_pos (cache_subset hmn history ha)]
      exact ih
    · rw [if_neg ha]
      split
      · omega
      · omega

/-! ## Distance -/

/-- In the stack an item has in front of it what was used since its last use. -/
theorem stack_split (history : List α) (ha : a ∉ C) : ∃ D rest, stack (history ++ a :: C) = D ++ a :: rest ∧
    D.Nodup ∧ D.toFinset = C.toFinset := by
  induction C using List.reverseRecOn with
  | nil => exact ⟨[], (stack history).erase a, by simp [touch], .nil, rfl⟩
  | append_singleton C b ih =>
    rw [List.mem_append, List.mem_singleton, not_or] at ha
    obtain ⟨D, rest, hstack, hnodup, hset⟩ := ih ha.1
    have hsplit : history ++ a :: (C ++ [b]) = history ++ a :: C ++ [b] := by simp
    rw [hsplit, stack_concat, hstack, touch]
    by_cases hb : b ∈ D
    · refine ⟨b :: D.erase b, rest, by rw [List.erase_append_left _ hb]; rfl, ?_, ?_⟩
      · exact List.nodup_cons.mpr ⟨hnodup.not_mem_erase, hnodup.erase b⟩
      · have hmem : ∀ c, c ∈ C ↔ c ∈ D := fun c => by
          rw [← List.mem_toFinset, ← hset, List.mem_toFinset]
        ext c
        simp only [List.mem_toFinset, List.mem_cons, List.mem_append, List.mem_nil_iff, or_false,
          hnodup.mem_erase_iff, hmem]
        by_cases hc : c = b
        · simp [hc]
        · simp [hc]
    · refine ⟨b :: D, rest.erase b, ?_, List.nodup_cons.mpr ⟨hb, hnodup⟩, ?_⟩
      · rw [List.erase_append_right _ hb, List.erase_cons_tail (by simpa using ha.2)]
        rfl
      · rw [List.toFinset_cons, hset, List.toFinset_append]
        ext c
        simp

/-- What is on the stack has been used. -/
theorem mem_of_mem_stack (ha : a ∈ stack history) : a ∈ history := by
  induction history using List.reverseRecOn with
  | nil => exact ha
  | append_singleton history b ih =>
    rw [stack_concat] at ha
    rcases List.mem_cons.mp ha with rfl | ha
    · simp
    · exact List.mem_append_left _ (ih (List.mem_of_mem_erase ha))

/-- The last use of an item. -/
theorem exists_last_use (ha : a ∈ history) : ∃ before since, history = before ++ a :: since ∧
    a ∉ since := by
  induction history using List.reverseRecOn with
  | nil => cases ha
  | append_singleton history b ih =>
    by_cases hb : b = a
    · exact ⟨history, [], by rw [hb], List.not_mem_nil⟩
    · have ha' : a ∈ history := by simpa [Ne.symm hb] using ha
      obtain ⟨before, since, rfl, hsince⟩ := ih ha'
      exact ⟨before, since ++ [b], by simp, by simp [hsince, Ne.symm hb]⟩

/-- A cache for `m` items holds an item as long as fewer than `m` others are used. -/
theorem mem_cache_since (history : List α) (ha : a ∉ C) :
    a ∈ cache m (history ++ a :: C) ↔ C.toFinset.card < m := by
  obtain ⟨D, rest, hstack, hnodup, hset⟩ := stack_split history ha
  rw [cache_eq_take, hstack, ← hset, List.toFinset_card_of_nodup hnodup]
  constructor
  · intro hmem
    by_contra hle
    rw [List.take_append_of_le_length (Nat.le_of_not_lt hle)] at hmem
    exact ha (List.mem_toFinset.mp (hset ▸ List.mem_toFinset.mpr (List.mem_of_mem_take hmem)))
  · intro hlt
    obtain ⟨n, hn⟩ : ∃ n, m - D.length = n + 1 := ⟨m - D.length - 1, by omega⟩
    rw [List.take_append, hn, List.take_succ_cons]
    exact List.mem_append_right _ List.mem_cons_self

theorem mem_of_mem_cache (ha : a ∈ cache m history) : a ∈ history := by
  rw [cache_eq_take] at ha
  exact mem_of_mem_stack (List.mem_of_mem_take ha)

/-- A cache for `m` items holds an item if it was used, and since then fewer than `m` others. -/
theorem mem_cache_iff : a ∈ cache m history ↔
    ∃ before since, history = before ++ a :: since ∧ a ∉ since ∧ since.toFinset.card < m := by
  constructor
  · intro ha
    obtain ⟨before, since, rfl, hsince⟩ := exists_last_use (mem_of_mem_cache ha)
    exact ⟨before, since, rfl, hsince, (mem_cache_since before hsince).mp ha⟩
  · rintro ⟨before, since, rfl, hsince, hcard⟩
    exact (mem_cache_since before hsince).mpr hcard

/-- An item stays while no more than `m` items are used, itself among them. -/
theorem mem_cache_of_card_le (hcard : (insert a C.toFinset).card ≤ m) :
    a ∈ cache m (history ++ a :: C) := by
  obtain ⟨before, since, hsplit, hsince⟩ := exists_last_use (List.mem_cons_self (a := a) (l := C))
  refine mem_cache_iff.mpr ⟨history ++ before, since, by rw [hsplit, List.append_assoc], hsince, ?_⟩
  have hsub : insert a since.toFinset ⊆ insert a C.toFinset := by
    intro b hb
    have hmem : b ∈ before ++ a :: since := by
      rcases Finset.mem_insert.mp hb with rfl | hb
      · simp
      · simp [List.mem_toFinset.mp hb]
    rw [← hsplit] at hmem
    simpa using hmem
  have hle := Finset.card_le_card hsub
  rw [Finset.card_insert_of_notMem (by simpa using hsince)] at hle
  omega

end Library.LruStack

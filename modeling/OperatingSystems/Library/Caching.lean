-- SUMMARY: Runs of a bounded cache: evicting what is needed last is optimal, and keeping what is newly loaded is competitive.
import Mathlib.Data.Finset.Card
import Mathlib.Data.List.Induction
import Mathlib.Tactic.Ring

/-!
# Caches on demand

A cache loads an item when it is used, and gives one up only when it is full. Two runs over the
same uses are compared by a potential that every use keeps, so nothing is said about how a cache
chooses what it gives up.
-/

namespace Library.Caching

variable {ι α : Type} [DecidableEq α] {h k : Nat} {C C' X : Finset α} {p q v : α}

/-! ## Uses -/

/-- The use of an item, in a cache for `k` items. -/
inductive Use (k : Nat) (C : Finset α) (p : α) : Finset α → Prop
  | hit : p ∈ C → Use k C p C
  | load : p ∉ C → C.card < k → Use k C p (insert p C)
  | evict (v : α) : p ∉ C → v ∈ C → C.card = k → Use k C p (insert p (C.erase v))

namespace Use

theorem mem (hu : Use k C p C') : p ∈ C' := by
  cases hu with
  | hit hp => exact hp
  | load hp hroom => exact Finset.mem_insert_self p C
  | evict v hp hv hfull => exact Finset.mem_insert_self p _

theorem subset (hu : Use k C p C') : C' ⊆ insert p C := by
  cases hu with
  | hit hp => exact Finset.subset_insert p C
  | load hp hroom => exact Finset.Subset.refl _
  | evict v hp hv hfull => exact Finset.insert_subset_insert p (Finset.erase_subset v C)

theorem eq_of_mem (hu : Use k C p C') (hp : p ∈ C) : C' = C := by
  cases hu with
  | hit _ => rfl
  | load hp' _ => exact absurd hp hp'
  | evict v hp' _ _ => exact absurd hp hp'

theorem card_le (hu : Use k C p C') (hC : C.card ≤ k) : C'.card ≤ k := by
  cases hu with
  | hit hp => exact hC
  | load hp hroom => exact (Finset.card_insert_le p C).trans hroom
  | evict v hp hv hfull =>
    have hinsert := Finset.card_insert_le p (C.erase v)
    have herase := Finset.card_erase_add_one hv
    omega

end Use

/-! ## Runs -/

/-- A run of a cache that starts empty: what is in it after each part of a trace, and how often it
has missed by then. -/
structure Run (item : ι → α) (k : Nat) (trace : List ι) where
  cache : List ι → Finset α
  misses : List ι → Nat
  cache_nil : cache [] = ∅
  misses_nil : misses [] = 0
  use : ∀ as a, as ++ [a] <+: trace → Use k (cache as) (item a) (cache (as ++ [a]))
  miss : ∀ as a, as ++ [a] <+: trace →
    misses (as ++ [a]) = misses as + if item a ∈ cache as then 0 else 1

variable {item : ι → α} {trace as future : List ι} {a : ι}

theorem prefix_of_concat (h : as ++ [a] <+: trace) : as <+: trace :=
  (List.prefix_append as [a]).trans h

theorem Run.card_cache_le (r : Run item k trace) (has : as <+: trace) : (r.cache as).card ≤ k := by
  induction as using List.reverseRecOn with
  | nil => simp [r.cache_nil]
  | append_singleton as a ih => exact (r.use as a has).card_le (ih (prefix_of_concat has))

/-! ## Needed last -/

/-- An item that is not used again, or not before any other one of the cache. -/
def NeededLast (future : List α) (C : Finset α) (v : α) : Prop :=
  v ∉ future ∨ ∀ q ∈ C, q ∈ future ∧ future.idxOf q ≤ future.idxOf v

/-- What comes before the item that is needed last takes in the whole cache. -/
theorem NeededLast.mem_take {future : List α} (hlast : NeededLast future C v) {t : Nat}
    (hv : v ∈ future.take t) (hq : q ∈ C) : q ∈ future.take t := by
  rcases hlast with hnever | hbefore
  · exact absurd (List.mem_of_mem_take hv) hnever
  · obtain ⟨hfuture, hle⟩ := hbefore q hq
    rw [List.mem_take_iff_idxOf_lt (List.mem_of_mem_take hv)] at hv
    rw [List.mem_take_iff_idxOf_lt hfuture]
    exact hle.trans_lt hv

/-- The run gives up only what is needed last. -/
def Run.EvictsLast (r : Run item k trace) : Prop :=
  ∀ as a future, trace = as ++ a :: future → ∀ v ∈ r.cache as, v ∉ r.cache (as ++ [a]) →
    NeededLast ((a :: future).map item) (r.cache as) v

/-! ### Counting what comes soon -/

theorem card_inter_insert (hp : p ∈ C) :
    (C ∩ insert p X).card + (if p ∈ X then 1 else 0) = (C ∩ X).card + 1 := by
  rw [Finset.inter_insert_of_mem hp]
  by_cases hX : p ∈ X
  · rw [Finset.insert_eq_self.mpr (Finset.mem_inter.mpr ⟨hp, hX⟩), if_pos hX]
  · rw [Finset.card_insert_of_notMem fun hmem => hX (Finset.mem_inter.mp hmem).2, if_neg hX]

theorem card_insert_inter (hp : p ∉ C) :
    (insert p C ∩ X).card = (C ∩ X).card + if p ∈ X then 1 else 0 := by
  by_cases hX : p ∈ X
  · rw [Finset.insert_inter_of_mem hX, if_pos hX,
      Finset.card_insert_of_notMem fun hmem => hp (Finset.mem_inter.mp hmem).1]
  · rw [Finset.insert_inter_of_notMem hX, if_neg hX, Nat.add_zero]

/-- A cache that has just loaded an item holds at most all that comes soon, up to that item. -/
theorem card_inter_le_of_mem (hp : p ∈ C) (hC : C.card ≤ k) :
    (C ∩ X).card + 1 ≤ k + if p ∈ X then 1 else 0 := by
  by_cases hX : p ∈ X
  · rw [if_pos hX]
    exact Nat.succ_le_succ ((Finset.card_le_card Finset.inter_subset_left).trans hC)
  · have hlt : (C ∩ X).card < C.card :=
      Finset.card_lt_card ⟨Finset.inter_subset_left,
        fun hsub => hX (Finset.mem_inter.mp (hsub hp)).2⟩
    rw [if_neg hX]
    omega

/-- A miss that gives up what is needed last: nothing is lost of what comes soon, unless all of the
cache comes soon. -/
theorem Use.card_inter_of_missed (hu : Use k C p C') (hp : p ∉ C)
    (hlast : ∀ v ∈ C, v ∉ C' → v ∈ X → C ⊆ X) :
    (C' ∩ X).card = (C ∩ X).card + (if p ∈ X then 1 else 0) ∨
      (C' ∩ X).card + 1 = k + if p ∈ X then 1 else 0 := by
  cases hu with
  | hit hp' => exact absurd hp' hp
  | load _ hroom => exact .inl (card_insert_inter hp)
  | evict v _ hv hfull =>
    have hpv : p ∉ C.erase v := fun hmem => hp (Finset.mem_of_mem_erase hmem)
    rw [card_insert_inter hpv, Finset.erase_inter]
    by_cases hX : v ∈ X
    · have hne : v ≠ p := fun heq => hp (heq ▸ hv)
      have hgone : v ∉ insert p (C.erase v) := by simp [hne]
      have hsub := Finset.inter_eq_left.mpr (hlast v hv hgone hX)
      have herase := Finset.card_erase_add_one hv
      rw [hsub]
      omega
    · rw [Finset.erase_eq_of_notMem fun hmem => hX (Finset.mem_inter.mp hmem).2]
      exact .inl rfl

/-- The first cache `A` has missed `n` times and the second one `n'` times, and of what comes soon
it lacks no more than it is ahead. -/
def Ahead (future : List α) (A : Finset α) (n : Nat) (B : Finset α) (n' : Nat) : Prop :=
  ∀ t, n + (B ∩ (future.take t).toFinset).card ≤ n' + (A ∩ (future.take t).toFinset).card

variable {A A' B B' : Finset α} {n n' : Nat} {ρ : List α}

theorem Ahead.le (ha : Ahead ρ A n B n') : n ≤ n' := by
  simpa using ha 0

/-- A use of a cache that may also give up items of its own accord. -/
structure Serves (h : Nat) (B : Finset α) (p : α) (B' : Finset α) : Prop where
  mem : p ∈ B'
  subset : B' ⊆ insert p B
  card_le : B'.card ≤ h

theorem Use.serves (hu : Use h B p B') (hB : B.card ≤ h) : Serves h B p B' :=
  ⟨hu.mem, hu.subset, hu.card_le hB⟩

namespace Serves

theorem card_inter_le_of_mem (hs : Serves h B p B') (hp : p ∈ B) :
    (B' ∩ X).card ≤ (B ∩ X).card := by
  have hsub := hs.subset
  rw [Finset.insert_eq_self.mpr hp] at hsub
  exact Finset.card_le_card (Finset.inter_subset_inter_right hsub)

theorem card_inter_le (hs : Serves h B p B') (hp : p ∉ B) :
    (B' ∩ X).card ≤ (B ∩ X).card + if p ∈ X then 1 else 0 := by
  rw [← card_insert_inter hp]
  exact Finset.card_le_card (Finset.inter_subset_inter_right hs.subset)

end Serves

/-- A use keeps the lead. -/
theorem Ahead.use (ha : Ahead (p :: ρ) A n B n') (hA : Use k A p A') (hB : Serves h B p B')
    (hle : h ≤ k) (hlast : ∀ v ∈ A, v ∉ A' → NeededLast (p :: ρ) A v) :
    Ahead ρ A' (n + if p ∈ A then 0 else 1) B' (n' + if p ∈ B then 0 else 1) := by
  intro t
  have hsoon := ha (t + 1)
  rw [List.take_succ_cons, List.toFinset_cons] at hsoon
  have hfirst := ha 1
  rw [List.take_succ_cons, List.take_zero, List.toFinset_cons, List.toFinset_nil] at hfirst
  have hzero := ha.le
  have hlast' : p ∉ A → ∀ v ∈ A, v ∉ A' → v ∈ (ρ.take t).toFinset → A ⊆ (ρ.take t).toFinset := by
    intro hp v hv hgone hX q hq
    have htake : v ∈ (p :: ρ).take (t + 1) := by
      rw [List.take_succ_cons]
      exact List.mem_cons_of_mem p (List.mem_toFinset.mp hX)
    have hmem := (hlast v hv hgone).mem_take htake hq
    rw [List.take_succ_cons, List.mem_cons] at hmem
    exact List.mem_toFinset.mpr (hmem.resolve_left fun heq => hp (heq ▸ hq))
  generalize (ρ.take t).toFinset = X at hsoon hlast' ⊢
  have hroom := card_inter_le_of_mem (X := X) hB.mem hB.card_le
  by_cases hpA : p ∈ A
  · have hhit := card_inter_insert (X := X) hpA
    rw [hA.eq_of_mem hpA, if_pos hpA]
    by_cases hpB : p ∈ B
    · have hhit' := card_inter_insert (X := X) hpB
      have hkept := hB.card_inter_le_of_mem (X := X) hpB
      rw [if_pos hpB]
      omega
    · have hmissed' := hB.card_inter_le (X := X) hpB
      rw [Finset.inter_insert_of_notMem hpB] at hsoon
      rw [if_neg hpB]
      omega
  · have hmissed := hA.card_inter_of_missed hpA (hlast' hpA)
    rw [Finset.inter_insert_of_notMem hpA] at hsoon hfirst
    rw [if_neg hpA]
    by_cases hpB : p ∈ B
    · have hhit' := card_inter_insert (X := X) hpB
      have hkept := hB.card_inter_le_of_mem (X := X) hpB
      have hlead := card_inter_insert (X := ∅) hpB
      simp only [Finset.inter_empty, Finset.card_empty, Finset.notMem_empty, if_false] at hfirst hlead
      rw [if_pos hpB]
      omega
    · have hmissed' := hB.card_inter_le (X := X) hpB
      rw [Finset.inter_insert_of_notMem hpB] at hsoon
      rw [if_neg hpB]
      omega

/-- A use that only the second cache makes keeps the lead, too. -/
theorem Ahead.skip (ha : Ahead ρ A n B n') (hB : Serves h B p B') :
    Ahead ρ A n B' (n' + if p ∈ B then 0 else 1) := by
  intro t
  have hsoon := ha t
  generalize (ρ.take t).toFinset = X at hsoon ⊢
  by_cases hpB : p ∈ B
  · have hkept := hB.card_inter_le_of_mem (X := X) hpB
    rw [if_pos hpB]
    omega
  · have hmissed := hB.card_inter_le (X := X) hpB
    rw [if_neg hpB]
    split at hmissed <;> omega

theorem Ahead.mono (ha : Ahead ρ A n B n') {m : Nat} (hle : n' ≤ m) : Ahead ρ A n B m := by
  intro t
  have hsoon := ha t
  omega

/-- What a cache for `h` items can do over a trace that loads an item only when it is used. -/
structure Service (item : ι → α) (h : Nat) (trace : List ι) where
  cache : List ι → Finset α
  misses : List ι → Nat
  cache_nil : cache [] = ∅
  serves : ∀ as a, as ++ [a] <+: trace → Serves h (cache as) (item a) (cache (as ++ [a]))
  miss : ∀ as a, as ++ [a] <+: trace →
    misses as + (if item a ∈ cache as then 0 else 1) ≤ misses (as ++ [a])

theorem Service.misses_mono (r : Service item h trace) {more : List ι} (has : as ++ more <+: trace) :
    r.misses as ≤ r.misses (as ++ more) := by
  induction more using List.reverseRecOn with
  | nil => rw [List.append_nil]
  | append_singleton more a ih =>
    rw [← List.append_assoc] at has ⊢
    have hmiss := r.miss (as ++ more) a has
    have hle := ih (prefix_of_concat has)
    omega

/-- A run is one of the things that can be done. -/
def Run.service (r : Run item k trace) : Service item k trace where
  cache := r.cache
  misses := r.misses
  cache_nil := r.cache_nil
  serves as a has := (r.use as a has).serves (r.card_cache_le (prefix_of_concat has))
  miss as a has := le_of_eq (r.miss as a has).symm

@[simp] theorem Run.service_misses (r : Run item k trace) : r.service.misses = r.misses := rfl

/-- No cache that is at most as large misses less often than a run that gives up only what is needed
last. -/
theorem Run.misses_le_service (r : Run item k trace) (r' : Service item h trace) (hle : h ≤ k)
    (hlast : r.EvictsLast) : r.misses trace ≤ r'.misses trace := by
  have hahead : ∀ as future, trace = as ++ future →
      Ahead (future.map item) (r.cache as) (r.misses as) (r'.cache as) (r'.misses as) := by
    intro as
    induction as using List.reverseRecOn with
    | nil =>
      intro future _ t
      rw [r.cache_nil, r'.cache_nil, r.misses_nil]
      simp
    | append_singleton as a ih =>
      intro future htrace
      have htrace' : trace = as ++ a :: future := by rw [htrace, List.append_assoc]; rfl
      have hpre : as ++ [a] <+: trace := ⟨future, htrace.symm⟩
      rw [r.miss as a hpre]
      exact ((ih (a :: future) htrace').use (r.use as a hpre) (r'.serves as a hpre) hle
        (hlast as a future htrace')).mono (r'.miss as a hpre)
  exact (hahead trace [] (List.append_nil trace).symm).le

theorem Run.misses_le_of_evictsLast (r : Run item k trace) (r' : Run item h trace) (hle : h ≤ k)
    (hlast : r.EvictsLast) : r.misses trace ≤ r'.misses trace :=
  r.misses_le_service r'.service hle hlast

/-- Uses that are left out of a trace do not make more misses necessary. -/
theorem Run.misses_le_of_sublist {kept : List ι} (r : Run item k kept) (r' : Service item h trace)
    (hle : h ≤ k) (hlast : r.EvictsLast) (hsub : kept.Sublist trace) :
    r.misses kept ≤ r'.misses trace := by
  have hahead : ∀ {future' future : List ι}, future'.Sublist future → ∀ as' as, kept = as' ++ future' →
      trace = as ++ future →
      Ahead (future'.map item) (r.cache as') (r.misses as') (r'.cache as) (r'.misses as) →
      r.misses kept ≤ r'.misses trace := by
    intro future' future hsub
    induction hsub with
    | slnil =>
      intro as' as hkept htrace ha
      have hmisses : r.misses as' ≤ r'.misses as := ha.le
      rw [List.append_nil] at hkept htrace
      rwa [← hkept, ← htrace] at hmisses
    | @cons future' future a _ ih =>
      intro as' as hkept htrace ha
      have htrace' : trace = as ++ [a] ++ future := by rw [htrace, List.append_assoc]; rfl
      have hpre : as ++ [a] <+: trace := ⟨future, htrace'.symm⟩
      exact ih as' (as ++ [a]) hkept htrace'
        ((ha.skip (r'.serves as a hpre)).mono (r'.miss as a hpre))
    | @cons_cons future' future a _ ih =>
      intro as' as hkept htrace ha
      have hkept' : kept = as' ++ [a] ++ future' := by rw [hkept, List.append_assoc]; rfl
      have htrace' : trace = as ++ [a] ++ future := by rw [htrace, List.append_assoc]; rfl
      have hpre' : as' ++ [a] <+: kept := ⟨future', hkept'.symm⟩
      have hpre : as ++ [a] <+: trace := ⟨future, htrace'.symm⟩
      refine ih (as' ++ [a]) (as ++ [a]) hkept' htrace' ?_
      rw [r.miss as' a hpre']
      exact (ha.use (r.use as' a hpre') (r'.serves as a hpre) hle
        (hlast as' a future' hkept)).mono (r'.miss as a hpre)
  refine hahead hsub [] [] rfl rfl fun t => ?_
  rw [r.cache_nil, r'.cache_nil, r.misses_nil]
  simp

/-! ## Keeping what is new -/

/-- An item that was just loaded stays while no more than `k` items are used, itself among them. -/
def Run.Keeps (r : Run item k trace) : Prop :=
  ∀ as a bs, as ++ a :: bs <+: trace → item a ∉ r.cache as →
    ((a :: bs).map item).toFinset.card ≤ k → item a ∈ r.cache (as ++ a :: bs)

/-- The trace falls into phases of `k` items. In the current one the items `W` are used, of which the
first run has loaded `L`; at its first use the second run held `D`. -/
structure Phase (r : Run item k trace) (r' : Run item h trace) (as : List ι) (phases : Nat)
    (W L D : Finset α) : Prop where
  card_le : W.card ≤ k
  loaded : L ⊆ W
  since : ∀ p ∈ L, ∃ bs a cs, as = bs ++ a :: cs ∧ item a = p ∧ p ∉ r.cache bs ∧
    ((a :: cs).map item).toFinset ⊆ W
  misses : r.misses as ≤ k * phases + L.card
  held : D.card ≤ h
  cache' : r'.cache as ⊆ D ∪ W
  misses' : 1 + (k - h + 1) * phases + (W \ D).card ≤ r'.misses as

namespace Phase

variable {r : Run item k trace} {r' : Run item h trace} {phases : Nat} {W L D : Finset α}

/-- The first use of a trace is a miss of both. -/
theorem first (r : Run item k trace) (r' : Run item h trace) (hk : 1 ≤ k) (ha : [a] <+: trace) :
    Phase r r' [a] 0 {item a} {item a} (r'.cache [a]) where
  card_le := by
    rw [Finset.card_singleton]
    exact hk
  loaded := Finset.Subset.refl _
  since p hp := ⟨[], a, [], rfl, (Finset.mem_singleton.mp hp).symm, by simp [r.cache_nil], by simp⟩
  misses := by
    have hmiss := r.miss [] a ha
    rw [List.nil_append, r.cache_nil, r.misses_nil] at hmiss
    simp [hmiss]
  held := r'.card_cache_le ha
  cache' := Finset.subset_union_left
  misses' := by
    have hmiss := r'.miss [] a ha
    rw [List.nil_append, r'.cache_nil, r'.misses_nil] at hmiss
    have hmem : item a ∈ r'.cache [a] := (r'.use [] a ha).mem
    simp [hmiss, Finset.sdiff_eq_empty_iff_subset.mpr (Finset.singleton_subset_iff.mpr hmem)]

/-- What the second run did not hold when the phase began, it loads. -/
theorem use' (hp : Phase r r' as phases W L D) (ha : as ++ [a] <+: trace) :
    r'.cache (as ++ [a]) ⊆ D ∪ insert (item a) W ∧
      1 + (k - h + 1) * phases + (insert (item a) W \ D).card ≤ r'.misses (as ++ [a]) := by
  have huse := r'.use as a ha
  refine ⟨?_, ?_⟩
  · rw [Finset.union_insert]
    exact huse.subset.trans (Finset.insert_subset_insert _ hp.cache')
  · rw [r'.miss as a ha]
    have hmisses := hp.misses'
    by_cases hin : item a ∈ r'.cache as
    · have hsub : insert (item a) W \ D ⊆ W \ D := by
        intro q hq
        obtain ⟨hq, hqD⟩ := Finset.mem_sdiff.mp hq
        refine Finset.mem_sdiff.mpr ⟨?_, hqD⟩
        rcases Finset.mem_insert.mp hq with rfl | hq
        · exact (Finset.mem_union.mp (hp.cache' hin)).resolve_left hqD
        · exact hq
      have hcard := Finset.card_le_card hsub
      rw [if_pos hin]
      omega
    · have hsub : insert (item a) W \ D ⊆ insert (item a) (W \ D) := by
        intro q hq
        obtain ⟨hq, hqD⟩ := Finset.mem_sdiff.mp hq
        exact Finset.mem_insert.mpr ((Finset.mem_insert.mp hq).imp_right
          fun hq => Finset.mem_sdiff.mpr ⟨hq, hqD⟩)
      have hcard := (Finset.card_le_card hsub).trans (Finset.card_insert_le _ _)
      rw [if_neg hin]
      omega

/-- What the first run loads in a phase, it has not loaded before in this phase. -/
theorem fresh (hp : Phase r r' as phases W L D) (hkeeps : r.Keeps) (has : as <+: trace)
    (hmiss : item a ∉ r.cache as) : item a ∉ L := by
  intro hL
  obtain ⟨bs, b, cs, rfl, hb, hbs, hW⟩ := hp.since _ hL
  exact hmiss (hb ▸ hkeeps bs b cs has (hb ▸ hbs) ((Finset.card_le_card hW).trans hp.card_le))

/-- The items loaded in the phase, with the next one if it is loaded. -/
theorem since_concat (hp : Phase r r' as phases W L D) :
    ∀ p ∈ (if item a ∈ r.cache as then L else insert (item a) L),
      ∃ bs b cs, as ++ [a] = bs ++ b :: cs ∧ item b = p ∧ p ∉ r.cache bs ∧
        ((b :: cs).map item).toFinset ⊆ insert (item a) W := by
  have hold : ∀ p ∈ L, ∃ bs b cs, as ++ [a] = bs ++ b :: cs ∧ item b = p ∧ p ∉ r.cache bs ∧
      ((b :: cs).map item).toFinset ⊆ insert (item a) W := by
    intro p hpL
    obtain ⟨bs, b, cs, rfl, hb, hbs, hW⟩ := hp.since p hpL
    refine ⟨bs, b, cs ++ [a], by simp, hb, hbs, ?_⟩
    intro q hq
    rw [← List.cons_append, List.map_append, List.toFinset_append, Finset.mem_union] at hq
    rcases hq with hq | hq
    · exact Finset.mem_insert_of_mem (hW hq)
    · obtain rfl : q = item a := by simpa using hq
      exact Finset.mem_insert_self _ _
  intro p hpL
  by_cases hin : item a ∈ r.cache as
  · rw [if_pos hin] at hpL
    exact hold p hpL
  · rw [if_neg hin] at hpL
    rcases Finset.mem_insert.mp hpL with rfl | hpL
    · refine ⟨as, a, [], rfl, rfl, hin, ?_⟩
      intro q hq
      obtain rfl : q = item a := by simpa using hq
      exact Finset.mem_insert_self _ _
    · exact hold p hpL

/-- A use within the phase. -/
theorem concat (hp : Phase r r' as phases W L D) (hkeeps : r.Keeps) (ha : as ++ [a] <+: trace)
    (hcard : (insert (item a) W).card ≤ k) :
    Phase r r' (as ++ [a]) phases (insert (item a) W)
      (if item a ∈ r.cache as then L else insert (item a) L) D where
  card_le := hcard
  loaded := by
    split
    · exact hp.loaded.trans (Finset.subset_insert _ _)
    · exact Finset.insert_subset_insert _ hp.loaded
  since := hp.since_concat
  misses := by
    have hmisses := hp.misses
    rw [r.miss as a ha]
    by_cases hin : item a ∈ r.cache as
    · rw [if_pos hin, if_pos hin]
      exact hmisses
    · have hfresh := hp.fresh hkeeps (prefix_of_concat ha) hin
      rw [if_neg hin, if_neg hin, Finset.card_insert_of_notMem hfresh]
      omega
  held := hp.held
  cache' := (hp.use' ha).1
  misses' := (hp.use' ha).2

/-- The use of one item too many begins a new phase. -/
theorem next (hp : Phase r r' as phases W L D) (hle : h ≤ k) (hk : 1 ≤ k)
    (ha : as ++ [a] <+: trace) (hcard : ¬(insert (item a) W).card ≤ k) :
    Phase r r' (as ++ [a]) (phases + 1) {item a}
      (if item a ∈ r.cache as then ∅ else {item a}) (r'.cache (as ++ [a])) where
  card_le := by
    rw [Finset.card_singleton]
    exact hk
  loaded := by
    split
    · exact Finset.empty_subset _
    · exact Finset.Subset.refl _
  since p hpL := by
    by_cases hin : item a ∈ r.cache as
    · rw [if_pos hin] at hpL
      exact absurd hpL (Finset.notMem_empty p)
    · rw [if_neg hin] at hpL
      obtain rfl := Finset.mem_singleton.mp hpL
      exact ⟨as, a, [], rfl, rfl, hin, by simp⟩
  misses := by
    have hmisses := hp.misses
    have hL := (Finset.card_le_card hp.loaded).trans hp.card_le
    rw [r.miss as a ha, Nat.mul_succ]
    split
    · rw [Finset.card_empty]
      omega
    · rw [Finset.card_singleton]
      omega
  held := r'.card_cache_le ha
  cache' := Finset.subset_union_left
  misses' := by
    have hmisses := (hp.use' ha).2
    have hlost := Finset.le_card_sdiff D (insert (item a) W)
    have hheld := hp.held
    have hmem : item a ∈ r'.cache (as ++ [a]) := (r'.use as a ha).mem
    rw [Finset.sdiff_eq_empty_iff_subset.mpr (Finset.singleton_subset_iff.mpr hmem),
      Finset.card_empty, Nat.mul_succ]
    omega

end Phase

/-- The trace up to any point has phases, if it is not empty. -/
theorem Run.exists_phase (r : Run item k trace) (r' : Run item h trace) (hkeeps : r.Keeps)
    (hle : h ≤ k) (hk : 1 ≤ k) (hne : as ≠ []) (has : as <+: trace) :
    ∃ phases W L D, Phase r r' as phases W L D := by
  induction as using List.reverseRecOn with
  | nil => exact absurd rfl hne
  | append_singleton as a ih =>
    rcases List.eq_nil_or_concat' as with rfl | ⟨bs, b, rfl⟩
    · exact ⟨0, _, _, _, Phase.first r r' hk has⟩
    · obtain ⟨phases, W, L, D, hp⟩ := ih (by simp) (prefix_of_concat has)
      by_cases hcard : (insert (item a) W).card ≤ k
      · exact ⟨phases, _, _, _, hp.concat hkeeps has hcard⟩
      · exact ⟨phases + 1, _, _, _, hp.next hle hk has hcard⟩

/-- A cache that keeps what is new misses at most `k / (k - h + 1)` times as often as any cache for
`h` items, but for the first misses. -/
theorem Run.competitive (r : Run item k trace) (r' : Run item h trace) (hkeeps : r.Keeps)
    (hle : h ≤ k) (hk : 1 ≤ k) :
    (k - h + 1) * r.misses trace ≤ k * r'.misses trace + k * (k - h) := by
  by_cases hne : trace = []
  · subst hne
    rw [r.misses_nil]
    exact Nat.zero_le _
  · obtain ⟨phases, W, L, D, hp⟩ := r.exists_phase r' hkeeps hle hk hne List.prefix_rfl
    have hL := (Finset.card_le_card hp.loaded).trans hp.card_le
    have hmisses : r.misses trace ≤ k * (phases + 1) := by
      rw [Nat.mul_succ]
      exact hp.misses.trans (Nat.add_le_add_left hL _)
    have hmisses' : 1 + (k - h + 1) * phases ≤ r'.misses trace :=
      (Nat.le_add_right _ _).trans hp.misses'
    calc (k - h + 1) * r.misses trace ≤ (k - h + 1) * (k * (phases + 1)) :=
          Nat.mul_le_mul_left _ hmisses
      _ = k * (1 + (k - h + 1) * phases) + k * (k - h) := by ring
      _ ≤ k * r'.misses trace + k * (k - h) :=
          Nat.add_le_add_right (Nat.mul_le_mul_left k hmisses') _

end Library.Caching

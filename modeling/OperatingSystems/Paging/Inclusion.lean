-- SUMMARY: The inclusion property of lru: what is in a small memory is in every larger one.
import OperatingSystems.Paging.Counters
import OperatingSystems.Paging.Lru

/-!
# Inclusion

The pages that lru keeps in memory are the first ones of the stack of all pages, as many as there
are frames. So two runs over the same trace need not be compared step by step.
-/

namespace Paging

open Library Library.Run

variable {φ ψ : Type} {s s' : Sim LruNodes φ}

/-- The pages in memory are those of an lru cache, and it has missed as often. -/
structure Caches (m : Nat) (history : List PtePtr) (s : Sim LruNodes φ) : Prop where
  valid : ∀ q, (s.entry q).valid ↔ q ∈ LruStack.cache m history
  misses : s.missCount = LruStack.misses m history

/-- A run keeps the pages of an lru cache in memory. -/
theorem simulate_caches (io : FileOps φ) {m swapsize : Nat} (hm : 2 ≤ m ∧ m ≤ 2 ^ 20)
    (hswap : swapsize < 2 ^ 32) (physmem : Memory) (fd : φ) {trace : List Access}
    (hrange : ∀ b ∈ trace, b.vaddr.toNat < 2 ^ 36) :
    ∃ s, simulate lru io m swapsize physmem fd .zero trace = .ok s ∧
      Caches m (references trace) s := by
  have hruns : ∀ as, as <+: trace → ∃ s, simulate lru io m swapsize physmem fd .zero as = .ok s ∧
      Mapped none s ∧ ∀ q, (s.entry q).valid ↔ q ∈ LruStack.cache m (references as) := by
    intro as has
    have hrun := (simulate_lruOrder io hm hswap physmem fd as).resolve_right ?_
    · obtain ⟨s, hs, hM, _, L, hL, hpages⟩ := hrun
      exact ⟨s, hs, hM, fun q => (hL.mem_pages hM hpages).symm⟩
    · rintro ⟨_, b, hb, hdir⟩
      exact hdir (pgdirIndex_lt (hrange b (has.subset hb)))
  obtain ⟨s, hs, hM, hvalid⟩ := hruns trace List.prefix_rfl
  refine ⟨s, hs, hvalid, ?_⟩
  -- The misses are counted along the run.
  have hinv := simulate_invariant (J := fun as s => as <+: trace →
      s.missCount = LruStack.misses m (references as)) lru_respectful hm.2 hswap ?_ ?_ hs
  · exact hinv.2.2 List.prefix_rfl
  · intro bm _ _ _
    rfl
  · intro as a t t' ht hM hmem hJ hacc hpre
    have has : as <+: trace := (List.prefix_append as [a]).trans hpre
    obtain ⟨_, ht₂, _, hvalid⟩ := hruns as has
    cases ht.symm.trans ht₂
    rw [accessMem_missed lru_respectful hM hacc, references_concat, LruStack.misses_concat,
      hJ has]
    simp only [hvalid]

/-- For every trace and two memory sizes, after each access: the pages in the smaller memory are in
the larger one as well, and the larger memory has missed no more often. The two runs may have
different swap areas, and nothing is assumed of the files. -/
theorem simulate_lru_inclusion (io : FileOps φ) (io' : FileOps ψ) {m n swapsize swapsize' : Nat}
    (hm : 2 ≤ m) (hmn : m ≤ n) (hn : n ≤ 2 ^ 20) (hswap : swapsize < 2 ^ 32)
    (hswap' : swapsize' < 2 ^ 32) (physmem physmem' : Memory) (fd : φ) (fd' : ψ)
    {trace : List Access} (hrange : ∀ b ∈ trace, b.vaddr.toNat < 2 ^ 36) :
    ∃ s s', simulate lru io m swapsize physmem fd .zero trace = .ok s ∧
      simulate lru io' n swapsize' physmem' fd' .zero trace = .ok s' ∧
      (∀ q, (s.entry q).valid → (s'.entry q).valid) ∧ s'.missCount ≤ s.missCount := by
  obtain ⟨s, hs, hcaches⟩ := simulate_caches io ⟨hm, hmn.trans hn⟩ hswap physmem fd hrange
  obtain ⟨s', hs', hcaches'⟩ := simulate_caches io' ⟨hm.trans hmn, hn⟩ hswap' physmem' fd' hrange
  refine ⟨s, s', hs, hs', ?_, ?_⟩
  · intro q hq
    rw [hcaches'.valid]
    exact LruStack.cache_subset hmn _ ((hcaches.valid q).mp hq)
  · rw [hcaches.misses, hcaches'.misses]
    exact LruStack.misses_le hmn _

/-- Two frames against three. -/
theorem simulate_lru_inclusion_two_three :
    ∃ s s', simulate lru regularFile.toFileOps 2 4 (fun _ => 0) .empty .zero
        [⟨'L', 0x1000⟩, ⟨'S', 0x2000⟩, ⟨'L', 0x3000⟩, ⟨'L', 0x1000⟩] = .ok s ∧
      simulate lru regularFile.toFileOps 3 4 (fun _ => 0) .empty .zero
        [⟨'L', 0x1000⟩, ⟨'S', 0x2000⟩, ⟨'L', 0x3000⟩, ⟨'L', 0x1000⟩] = .ok s' ∧
      (∀ q, (s.entry q).valid → (s'.entry q).valid) ∧ s'.missCount ≤ s.missCount :=
  simulate_lru_inclusion regularFile.toFileOps regularFile.toFileOps (by decide) (by decide)
    (by decide) (by decide) (by decide) _ _ _ _ (by decide)

end Paging

-- SUMMARY: With its queues built, opt misses no more often than any policy does in as many frames.
import OperatingSystems.Paging.Demand
import OperatingSystems.Paging.Furthest
import OperatingSystems.Paging.Inclusion

/-!
# Optimality

If no two addresses of a trace share a bucket, every page that `opt_evict` picks is needed last. No
other policy, whatever it knows of the trace, then misses less often.
-/

namespace Paging

open Library Library.Run

variable {σ φ ψ : Type} {s t : Sim σ φ} {q r v : PtePtr} {fns : Functions σ φ} {io : FileOps φ}

/-! ## The choices of a replay -/

variable {m n swapsize swapsize' : Nat} {physmem physmem' : Memory} {fd : φ} {fd' : ψ} {alg : σ}
  {trace as future : List Access} {a : Access} {o : OptGlobals}

/-- Every page that leaves memory in a replay is needed last. -/
theorem opt_evictsLast {io : FileOps φ} {s : Sim OptGlobals φ} (hm : 1 ≤ m ∧ m ≤ 2 ^ 20)
    (hswap : swapsize < 2 ^ 32)
    (haligned : ∀ a ∈ trace, a.vaddr.toNat < 2 ^ 36 ∧ a.vaddr.toNat % 4096 = 0)
    (hbuckets : ∀ a ∈ trace, ∀ b ∈ trace, hashcode a.vaddr = hashcode b.vaddr → a.vaddr = b.vaddr)
    (ho : o.vaddrCounter = 0 ∧ ∀ h, o.Lists h (positions h 0 trace))
    (hrun : simulate opt io m swapsize physmem fd o trace = .ok s) :
    (demand opt_respectful hm.2 hswap hrun).EvictsLast := by
  intro as a future htrace v hv hgone
  obtain ⟨t, t', ht, ht', hacc, hM, hmem⟩ := simulate_step opt_respectful hm.2 hswap hrun
    ⟨future, by rw [htrace, List.append_assoc]; rfl⟩
  change v ∈ readAfter _ _ _ _ _ _ _ _ _ as at hv
  change v ∉ readAfter _ _ _ _ _ _ _ _ _ (as ++ [a]) at hgone
  change Caching.NeededLast (references (a :: future)) (readAfter _ _ _ _ _ _ _ _ _ as) v
  rw [readAfter_of_ok ht] at hv ⊢
  rw [readAfter_of_ok ht'] at hgone
  obtain ⟨_, hfree, f, t₁, hevict, hpage⟩ := accessMem_evicted opt_respectful hM hacc hv hgone
  obtain ⟨_, _, hreads⟩ := of_run ht (opt_runs io hm hswap physmem fd ho as)
  obtain ⟨f', q, t₂, hevict', hq, _, hchoice⟩ := hreads.call hM (hmem ▸ hm.1) hfree
    (pgdirIndex a.vaddr)
  cases hevict.symm.trans hevict'
  cases hpage.symm.trans hq
  -- The address of a frame is the one address of its page in the trace.
  have hone : ∀ i r, t.page i = some r → ∀ c ∈ a :: future,
      pteOf c.vaddr = r ↔ hashcode c.vaddr = hashcode (t.coremap i).vaddr := by
    intro i r hr c hc
    obtain ⟨b, hb, hbr, hbv⟩ := simulate_vaddr opt_respectful hm.2 hswap ht hr
    have hc' : c ∈ trace := htrace ▸ List.mem_append_right _ hc
    have hb' : b ∈ trace := htrace ▸ List.mem_append_left _ hb
    rw [hbv, ← hbr]
    constructor
    · intro hpte
      rw [pteOf_injective (haligned c hc').1 (haligned b hb').1 (haligned c hc').2
        (haligned b hb').2 hpte]
    · intro hhash
      rw [hbuckets c hc' b hb' hhash]
  have hown : ∀ i r, t.page i = some r → ∀ n c, (a :: future)[n]? = some c →
      hashcode c.vaddr = hashcode (t.coremap i).vaddr →
      r ∈ references ((a :: future).take (n + 1)) := by
    intro i r hr n c hc hhash
    have hmem : c ∈ (a :: future).take (n + 1) := by
      rw [List.mem_take_iff_getElem]
      obtain ⟨hn, rfl⟩ := List.getElem?_eq_some_iff.mp hc
      exact ⟨n, by omega, rfl⟩
    rw [← (hone i r hr c (List.mem_of_mem_take hmem)).mpr hhash]
    exact List.mem_map_of_mem hmem
  rcases hchoice (a :: future) htrace with hnil | ⟨k, hk, hall⟩
  · exact .inl (notMem_references (fun c hc => (hone f v hpage c hc).mp) hnil)
  · refine .inr fun r hr => ?_
    obtain ⟨i, hi⟩ := (mem_memory_iff_page hM).mp hr
    obtain ⟨n, hle, hn⟩ := hall i (hM.page_lt hi)
    obtain ⟨hr', hidx⟩ := idxOf_of_head? (fun c hc => (hone i r hi c hc).mp) (hown i r hi) hn
    obtain ⟨_, hidx'⟩ := idxOf_of_head? (fun c hc => (hone f v hpage c hc).mp) (hown f v hpage) hk
    exact ⟨hr', by omega⟩

/-- With queues that list the positions of a trace in which no two pages share a bucket, the replay
goes through, with no more misses and no fewer hits than a run of any other policy over the trace
that ends, in as many frames or fewer. -/
theorem simulate_opt_minimal (io : FileOps φ) {io' : FileOps ψ} (hm : 1 ≤ m ∧ m ≤ 2 ^ 20)
    (hn : n ≤ m) (hswap : swapsize < 2 ^ 32) (hswap' : swapsize' < 2 ^ 32) (physmem : Memory)
    (fd : φ) (haligned : ∀ a ∈ trace, a.vaddr.toNat < 2 ^ 36 ∧ a.vaddr.toNat % 4096 = 0)
    (hbuckets : ∀ a ∈ trace, ∀ b ∈ trace, hashcode a.vaddr = hashcode b.vaddr → a.vaddr = b.vaddr)
    (ho : o.vaddrCounter = 0 ∧ ∀ h, o.Lists h (positions h 0 trace))
    {fns : Functions σ ψ} (hfns : fns.Respectful) {s' : Sim σ ψ}
    (hrun' : simulate fns io' n swapsize' physmem' fd' alg trace = .ok s') :
    ∃ s, simulate opt io m swapsize physmem fd o trace = .ok s ∧
      s.missCount ≤ s'.missCount ∧ s'.hitCount ≤ s.hitCount := by
  obtain ⟨s, hs, _⟩ := ends_of_range (fun a ha => (haligned a ha).1)
    (opt_runs io hm hswap physmem fd ho trace)
  have hle := (demand opt_respectful hm.2 hswap hs).misses_le_of_evictsLast
    (demand hfns (hn.trans hm.2) hswap' hrun') hn
    (opt_evictsLast hm hswap haligned hbuckets ho hs)
  rw [demand_misses, demand_misses] at hle
  obtain ⟨_, _, ⟨⟨href, hhits, _, _⟩, _⟩⟩ := simulate_tallied opt_respectful hm.2 hswap hs
  obtain ⟨_, _, ⟨⟨href', hhits', _, _⟩, _⟩⟩ := simulate_tallied hfns (hn.trans hm.2) hswap' hrun'
  exact ⟨s, hs, hle, by omega⟩

/-- Three pages in two frames, against lru. -/
theorem simulate_opt_minimal_lru : ∃ o s s',
    enqueueAll [⟨'L', 0x0⟩, ⟨'S', 0x1000⟩, ⟨'L', 0x2000⟩, ⟨'L', 0x0⟩] = .ok o ∧
    simulate opt regularFile.toFileOps 2 4 (fun _ => 0) .empty o
      [⟨'L', 0x0⟩, ⟨'S', 0x1000⟩, ⟨'L', 0x2000⟩, ⟨'L', 0x0⟩] = .ok s ∧
    simulate lru regularFile.toFileOps 2 4 (fun _ => 0) .empty .zero
      [⟨'L', 0x0⟩, ⟨'S', 0x1000⟩, ⟨'L', 0x2000⟩, ⟨'L', 0x0⟩] = .ok s' ∧
    s.missCount ≤ s'.missCount ∧ s'.hitCount ≤ s.hitCount := by
  obtain ⟨o, ho, hlists⟩ :=
    enqueueAll_lists [⟨'L', 0x0⟩, ⟨'S', 0x1000⟩, ⟨'L', 0x2000⟩, ⟨'L', 0x0⟩]
  obtain ⟨s', hs', _⟩ := @simulate_caches _ regularFile.toFileOps 2 4 (by decide)
    (by decide) (fun _ => 0) .empty
    [⟨'L', 0x0⟩, ⟨'S', 0x1000⟩, ⟨'L', 0x2000⟩, ⟨'L', 0x0⟩] (by decide)
  obtain ⟨s, hs, hle⟩ := simulate_opt_minimal regularFile.toFileOps (by decide) (le_refl 2)
    (show 4 < 2 ^ 32 by decide) (by decide) (fun _ => 0) .empty (by decide) (by decide) hlists lru_respectful hs'
  exact ⟨o, s, s', ho, hs, hs', hle⟩

end Paging

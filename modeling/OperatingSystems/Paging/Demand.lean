-- SUMMARY: A run of the simulator is a run of a cache on demand: an access is a use of its page, and misses are counted as such.
import OperatingSystems.Library.Caching
import OperatingSystems.Paging.Counters

/-!
# Demand paging

The pages in memory are a cache. Whatever the policy, an access loads its page if it is not there,
and a page leaves only when memory is full. So what is true of every cache on demand is true of
every run that ends.
-/

namespace Paging

open Library Library.Run

variable {σ φ : Type} {s s' t : Sim σ φ} {p q r : PtePtr} {f : Nat} {fns : Functions σ φ}
  {io : FileOps φ} {vaddr : Addr} {type : Char}

/-! ## The pages in memory -/

/-- The pages in memory. -/
def Sim.memory (s : Sim σ φ) : Finset PtePtr :=
  ((List.range s.memsize).filterMap s.page).toFinset

theorem mem_memory_iff_page (h : Mapped none s) : q ∈ s.memory ↔ ∃ i, s.page i = some q := by
  simp only [Sim.memory, List.mem_toFinset, List.mem_filterMap, List.mem_range]
  constructor
  · rintro ⟨i, _, hi⟩
    exact ⟨i, hi⟩
  · rintro ⟨i, hi⟩
    exact ⟨i, h.page_lt hi, hi⟩

theorem mem_memory (h : Mapped none s) : q ∈ s.memory ↔ (s.entry q).valid := by
  rw [mem_memory_iff_page h, h.valid_iff]

/-- There are as many pages in memory as frames in use. -/
theorem card_memory (h : Mapped none s) : s.memory.card = s.framesInUse := by
  have himage : s.memory.image (fun q => (s.entry q).frameNo) =
      (Finset.range s.memsize).filter fun i => (s.coremap i).inUse := by
    ext i
    simp only [Finset.mem_image, Finset.mem_filter, Finset.mem_range, mem_memory h]
    constructor
    · rintro ⟨q, hq, rfl⟩
      have hpage := h.page_frameNo hq
      exact ⟨h.page_lt hpage, (Mapped.inUse_of_page hpage).1⟩
    · rintro ⟨_, hi⟩
      obtain ⟨q, hq⟩ := h.page_of_inUse hi
      exact ⟨q, (h.backed i q (by simp)).mp hq⟩
  rw [Sim.framesInUse, ← himage, Finset.card_image_of_injOn]
  intro q hq r hr hframe
  have hq' := h.page_frameNo ((mem_memory h).mp hq)
  have hr' := h.page_frameNo ((mem_memory h).mp hr)
  simp only at hframe
  rw [hframe] at hq'
  exact Option.some.inj (hq'.symm.trans hr')

/-- A page that comes into a frame takes the place of the one that was there. -/
theorem Arrived.mem_memory (ht : Arrived p f s t) (h : Mapped none s) :
    r ∈ t.memory ↔ r = p ∨ r ∈ s.memory ∧ s.page f ≠ some r := by
  rw [mem_memory_iff_page ht.mapped, mem_memory_iff_page h, ht.page]
  constructor
  · rintro ⟨i, hi⟩
    by_cases hif : i = f
    · subst hif
      rw [Function.update_self] at hi
      exact .inl (Option.some.inj hi).symm
    · rw [Function.update_of_ne hif] at hi
      exact .inr ⟨⟨i, hi⟩, fun hf => hif (h.page_injective hi hf)⟩
  · rintro (rfl | ⟨⟨i, hi⟩, hf⟩)
    · exact ⟨f, Function.update_self ..⟩
    · have hif : i ≠ f := by
        rintro rfl
        exact hf hi
      exact ⟨i, by rw [Function.update_of_ne hif]; exact hi⟩

/-! ## An access -/

/-- Whichever way an access goes, it is a use of its page. -/
theorem Course.use (hc : Course fns io vaddr type s t) (hfns : fns.Respectful) (h : Mapped none s) :
    Caching.Use s.memsize s.memory (pteOf vaddr) t.memory := by
  cases hc with
  | hit hvalid =>
    have hp := (Paging.mem_memory h).mpr hvalid
    have hpage := h.page_frameNo hvalid
    have ht := Arrived.of_hit h hvalid (pgdirIndex vaddr) vaddr type
    have hmem : (touched (pteOf vaddr) vaddr type
        { initSecondLevel (pgdirIndex vaddr) s with
          hitCount := (initSecondLevel (pgdirIndex vaddr) s).hitCount + 1 }).memory = s.memory := by
      ext r
      rw [ht.mem_memory h, hpage]
      by_cases hr : r = pteOf vaddr
      · subst hr
        simp [hp]
      · simp [hr, Ne.symm hr]
    rw [hmem]
    exact .hit hp
  | free f hvalid hfree =>
    obtain ⟨hlt, hunused, _⟩ := findFree_eq_some.mp hfree
    have hp : pteOf vaddr ∉ s.memory := by simp [Paging.mem_memory h, hvalid]
    have hnone : s.page f = none := by simp [Sim.page, hunused]
    have ht := Arrived.of_free h hvalid hfree (pgdirIndex vaddr) (s.entry (pteOf vaddr)).onswap
      vaddr type
    have hmem : (touched (pteOf vaddr) vaddr type (place (s.entry (pteOf vaddr)).onswap (pteOf vaddr)
        f vaddr (record (pteOf vaddr) f (initSecondLevel (pgdirIndex vaddr) s)))).memory =
        insert (pteOf vaddr) s.memory := by
      ext r
      rw [ht.mem_memory h, hnone, Finset.mem_insert]
      simp
    rw [hmem]
    refine .load hp ?_
    have hinUse := ht.framesInUse h
    rw [hunused, if_neg Bool.false_ne_true] at hinUse
    have hle := framesInUse_le (touched (pteOf vaddr) vaddr type
      (place (s.entry (pteOf vaddr)).onswap (pteOf vaddr) f vaddr
        (record (pteOf vaddr) f (initSecondLevel (pgdirIndex vaddr) s))))
    rw [ht.memsize] at hle
    rw [card_memory h]
    omega
  | evict f q off s₁ s₂ u hvalid hfree hevict hpage hout hin =>
    obtain ⟨h₁, hmem, hall, hpages, hentry⟩ := hfns.evict_full h hfree hevict
    obtain ⟨hev, _⟩ := Evicted.of_stages h₁ hall hpage hout hin
    have ht := Arrived.of_evicted h₁ ((hentry _).valid.trans hvalid) hev
      (s.entry (pteOf vaddr)).onswap vaddr type
    have hp : pteOf vaddr ∉ s.memory := by simp [Paging.mem_memory h, hvalid]
    have hq : q ∈ s.memory := (mem_memory_iff_page h).mpr ⟨f, hpages ▸ hpage⟩
    have hset : (touched (pteOf vaddr) vaddr type (place (s.entry (pteOf vaddr)).onswap (pteOf vaddr)
        f vaddr (record (pteOf vaddr) f u))).memory =
        insert (pteOf vaddr) (s.memory.erase q) := by
      ext r
      rw [ht.mem_memory h₁, hpage, Finset.mem_insert, Finset.mem_erase, mem_memory_iff_page h₁,
        hpages, ← mem_memory_iff_page h]
      simp [and_comm, eq_comm]
    rw [hset]
    refine .evict q hp hq ?_
    rw [card_memory h]
    exact framesInUse_full (findFree_eq_none.mp hfree)

theorem PolicyStep.memory (h : PolicyStep s s') : s'.memory = s.memory := by
  rw [Sim.memory, Sim.memory, h.memsize, h.page]

theorem accessMem_use {a : Access} (hfns : fns.Respectful) (h : Mapped none s)
    (hacc : accessMem fns io a s = .ok s') :
    Caching.Use s.memsize s.memory (pteOf a.vaddr) s'.memory := by
  obtain ⟨t, u, stderr, hc, href, rfl⟩ := accessMem_course hfns h hacc
  have hmem : ({ u with physmem := stored a u, stderr := stderr } : Sim σ φ).memory = t.memory :=
    (hfns.ref _ _ _ href).memory
  rw [hmem]
  exact hc.use hfns h

/-- A page that an access takes out of memory is the choice of `evict_fcn`. -/
theorem accessMem_evicted {a : Access} (hfns : fns.Respectful) (h : Mapped none s)
    (hacc : accessMem fns io a s = .ok s') (hq : q ∈ s.memory) (hgone : q ∉ s'.memory) :
    pteOf a.vaddr ∉ s.memory ∧ findFree s = none ∧ ∃ f s₁, fns.evict (initSecondLevel (pgdirIndex a.vaddr) s) = .ok (f, s₁) ∧
      s.page f = some q := by
  obtain ⟨t, u, stderr, hc, href, rfl⟩ := accessMem_course hfns h hacc
  have hmem : ({ u with physmem := stored a u, stderr := stderr } : Sim σ φ).memory = t.memory :=
    (hfns.ref _ _ _ href).memory
  rw [hmem] at hgone
  cases hc with
  | hit hvalid =>
    have ht := Arrived.of_hit h hvalid (pgdirIndex a.vaddr) a.vaddr a.type
    rw [ht.mem_memory h, h.page_frameNo hvalid] at hgone
    refine absurd (Decidable.em (q = pteOf a.vaddr)) fun hem => hgone (hem.imp_right fun hne => ?_)
    exact ⟨hq, fun heq => hne (Option.some.inj heq).symm⟩
  | free f hvalid hfree =>
    have ht := Arrived.of_free h hvalid hfree (pgdirIndex a.vaddr)
      (s.entry (pteOf a.vaddr)).onswap a.vaddr a.type
    have hnone : s.page f = none := by simp [Sim.page, (findFree_eq_some.mp hfree).2.1]
    rw [ht.mem_memory h, hnone] at hgone
    exact absurd (.inr ⟨hq, fun heq => by cases heq⟩) hgone
  | evict f r off s₁ s₂ u hvalid hfree hevict hpage hout hin =>
    obtain ⟨h₁, _, hall, hpages, hentry⟩ := hfns.evict_full h hfree hevict
    obtain ⟨hev, _⟩ := Evicted.of_stages h₁ hall hpage hout hin
    have ht := Arrived.of_evicted h₁ ((hentry _).valid.trans hvalid) hev
      (s.entry (pteOf a.vaddr)).onswap a.vaddr a.type
    refine ⟨by simp [Paging.mem_memory h, hvalid], hfree, f, s₁, hevict, ?_⟩
    rw [ht.mem_memory h₁, mem_memory_iff_page h₁, hpages, ← mem_memory_iff_page h] at hgone
    by_contra hne
    exact hgone (.inr ⟨hq, hne⟩)

/-! ## Runs -/

variable {m swapsize : Nat} {physmem : Memory} {fd : φ} {alg : σ} {trace as : List Access}

/-- The accesses of a run that ends go through one by one. -/
theorem simulate_step {a : Access} (hfns : fns.Respectful) (hm : m ≤ 2 ^ 20)
    (hswap : swapsize < 2 ^ 32) (hrun : simulate fns io m swapsize physmem fd alg trace = .ok s)
    (has : as ++ [a] <+: trace) : ∃ t t', simulate fns io m swapsize physmem fd alg as = .ok t ∧
      simulate fns io m swapsize physmem fd alg (as ++ [a]) = .ok t' ∧
      accessMem fns io a t = .ok t' ∧ Mapped none t ∧ t.memsize = m := by
  obtain ⟨t', ht'⟩ := simulate_prefix hrun has
  have hstep := ht'
  rw [simulate_concat] at hstep
  obtain ⟨t, ht, hacc⟩ := bind_eq_ok.mp hstep
  exact ⟨t, t', ht, ht', hacc, simulate_mapped hfns hm hswap ht⟩

/-- A reading of the state that a run has come to. -/
def readAfter {β : Type} (fns : Functions σ φ) (io : FileOps φ) (m swapsize : Nat)
    (physmem : Memory) (fd : φ) (alg : σ) (read : Sim σ φ → β) (default : β) (as : List Access) : β :=
  match simulate fns io m swapsize physmem fd alg as with
  | .ok s => read s
  | .error _ => default

theorem readAfter_of_ok {β : Type} {read : Sim σ φ → β} {default : β}
    (hs : simulate fns io m swapsize physmem fd alg as = .ok s) :
    readAfter fns io m swapsize physmem fd alg read default as = read s := by
  rw [readAfter, hs]

/-- The run of the simulator, as a run of a cache. -/
def demand (hfns : fns.Respectful) (hm : m ≤ 2 ^ 20) (hswap : swapsize < 2 ^ 32)
    (hrun : simulate fns io m swapsize physmem fd alg trace = .ok s) :
    Caching.Run (fun a : Access => pteOf a.vaddr) m trace where
  cache := readAfter fns io m swapsize physmem fd alg Sim.memory ∅
  misses := readAfter fns io m swapsize physmem fd alg Sim.missCount 0
  cache_nil := by
    obtain ⟨bm, _, _, hs, _⟩ := simulate_nil hfns io hm hswap physmem fd alg
    rw [readAfter_of_ok hs, (hfns.init _).memory, Sim.memory]
    simp [Sim.page, Sim.zero, Frame.zero]
  misses_nil := by
    obtain ⟨bm, _, _, hs, _⟩ := simulate_nil hfns io hm hswap physmem fd alg
    rw [readAfter_of_ok hs]
    exact (hfns.init _).missCount
  use as a has := by
    obtain ⟨t, t', ht, ht', hacc, hM, hmem⟩ := simulate_step hfns hm hswap hrun has
    rw [readAfter_of_ok ht, readAfter_of_ok ht', ← hmem]
    exact accessMem_use hfns hM hacc
  miss as a has := by
    obtain ⟨t, t', ht, ht', hacc, hM, _⟩ := simulate_step hfns hm hswap hrun has
    rw [readAfter_of_ok ht, readAfter_of_ok ht, readAfter_of_ok ht', accessMem_missed hfns hM hacc]
    simp only [mem_memory hM]

@[simp] theorem demand_misses (hfns : fns.Respectful) (hm : m ≤ 2 ^ 20) (hswap : swapsize < 2 ^ 32)
    (hrun : simulate fns io m swapsize physmem fd alg trace = .ok s) :
    (demand hfns hm hswap hrun).misses trace = s.missCount := readAfter_of_ok hrun

end Paging

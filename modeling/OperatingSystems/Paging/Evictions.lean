-- SUMMARY: Calls of evict_fcn are safe under every replacement algorithm, except for lru with a single frame.
import OperatingSystems.Paging.Clock
import OperatingSystems.Paging.Course
import OperatingSystems.Paging.Fifo
import OperatingSystems.Paging.Lru
import OperatingSystems.Paging.Rand
import OperatingSystems.Paging.Transparency

/-!
# Safe evictions

`evict_fcn` is called in full memory only. There the algorithms return a frame that is in use, with
one exception: `lru_evict` follows the link of the bottom frame upwards, and with a single frame
there is no frame above it.
-/

namespace Paging

open Library Library.Run

variable {σ φ : Type} {s s' t : Sim σ φ} {p q : PtePtr} {f : Nat}

/-! ## The property -/

/-- `evict_fcn` returns from a call in this state, with the index of a frame in use. -/
def SafeEvict (fns : Functions σ φ) (m : Nat) (t : Sim σ φ) : Prop :=
  ∃ f t', fns.evict t = .ok (f, t') ∧ f < m ∧ (t.coremap f).inUse

/-- The run gets to each of its accesses, and where an access calls `evict_fcn`, the call is
safe. -/
def EvictsSafely (fns : Functions σ φ) (io : FileOps φ) (m swapsize : Nat) (physmem : Memory)
    (fd : φ) (alg : σ) (trace : List Access) : Prop :=
  ∀ as a, as ++ [a] <+: trace → ∃ s, simulate fns io m swapsize physmem fd alg as = .ok s ∧
    ∀ t, evictCall a.vaddr s = some t → SafeEvict fns m t

/-- Where `evict_fcn` is called all frames are in use. -/
theorem inUse_of_evictCall {vaddr : Addr} (h : evictCall vaddr s = some t) (hf : f < s.memsize) :
    (t.coremap f).inUse := by
  obtain ⟨⟨_, _, hfree⟩, rfl⟩ := evictCall_eq_some.mp h
  rw [Sim.coremap_initSecondLevel]
  exact findFree_eq_none.mp hfree f hf

/-! ## lru with a single frame -/

section

variable {fns : Functions LruNodes φ} {s t : Sim LruNodes φ} {L : List Nat} {as : List Access}
  {a : Access} {io : FileOps φ}

/-- With a single frame there is no parent to make the bottom of the list. -/
theorem LruOrder.evict_single {history : List PtePtr} (h : LruOrder history s L)
    (hM : Mapped none s) (hmem : s.memsize = 1) (hfull : (s.coremap 0).inUse) :
    lruEvict s = .error .nullPointer := by
  have hL : L = [0] := by
    apply List.perm_singleton.mp
    rw [List.perm_ext_iff_of_nodup h.list.nodup (List.nodup_singleton 0)]
    intro i
    rw [h.mem, List.mem_singleton]
    constructor
    · intro hi
      obtain ⟨q, hq⟩ := Option.isSome_iff_exists.mp hi
      have hlt := hM.page_lt hq
      omega
    · rintro rfl
      exact (hM.inUse_iff 0).mp hfull
  subst hL
  have hbottom : s.alg.bottomNode = some 0 := h.list.bottom
  have habove : s.above 0 = none := h.list.links.1
  simp only [lruEvict, hbottom, habove]

/-- A run of lru over a single frame in which no page has been evicted. -/
structure LruSingle (as : List Access) (s : Sim LruNodes φ) : Prop where
  mapped : Mapped none s
  memsize : s.memsize = 1
  order : ∃ L, LruOrder (references as) s L
  valid : ∀ q, (s.entry q).valid ↔ q ∈ pages as

/-- Nothing is evicted as long as there is one page. -/
theorem LruSingle.evictCall_iff (h : LruSingle as s) (hdir : pgdirIndex a.vaddr < PTRS_PER_PGDIR) :
    evictCall a.vaddr s = none ↔ (pages (as ++ [a])).card ≤ 1 := by
  -- Two pages in memory would share the frame.
  have hsingle : ∀ q r, (s.entry q).valid → (s.entry r).valid → q = r := by
    intro q r hq hr
    have hq' := h.mapped.page_frameNo hq
    have hr' := h.mapped.page_frameNo hr
    have hqlt := h.mapped.frameNo_lt hq
    have hrlt := h.mapped.frameNo_lt hr
    have hframe : (s.entry q).frameNo = (s.entry r).frameNo := by
      rw [h.memsize] at hqlt hrlt
      omega
    rw [hframe] at hq'
    exact Option.some.inj (hq'.symm.trans hr')
  rw [pages_concat]
  constructor
  · intro hnone
    rw [Finset.card_le_one]
    cases hvalid : (s.entry (pteOf a.vaddr)).valid with
    | true =>
      rw [Finset.insert_eq_of_mem ((h.valid _).mp hvalid)]
      exact fun q hq r hr => hsingle q r ((h.valid q).mpr hq) ((h.valid r).mpr hr)
    | false =>
      cases hfree : findFree s with
      | none =>
        rw [evictCall, if_pos ⟨hdir, hvalid, hfree⟩] at hnone
        cases hnone
      | some f =>
        obtain ⟨hlt, hunused, _⟩ := findFree_eq_some.mp hfree
        have hempty : pages as = ∅ := by
          rw [Finset.eq_empty_iff_forall_notMem]
          intro q hq
          have hv := (h.valid q).mpr hq
          have hframe : (s.entry q).frameNo = f := by
            have hqlt := h.mapped.frameNo_lt hv
            rw [h.memsize] at hqlt hlt
            omega
          have hpage := h.mapped.page_frameNo hv
          rw [hframe] at hpage
          rw [(Mapped.inUse_of_page hpage).1] at hunused
          cases hunused
        rw [hempty]
        simp
  · intro hcard
    by_contra hsome
    obtain ⟨t, ht⟩ := Option.ne_none_iff_exists'.mp hsome
    obtain ⟨⟨_, hvalid, hfree⟩, _⟩ := evictCall_eq_some.mp ht
    obtain ⟨q, hq⟩ := h.mapped.page_of_inUse
      (findFree_eq_none.mp hfree 0 (by rw [h.memsize]; exact Nat.one_pos))
    have hqv := ((h.mapped.backed 0 q (by simp)).mp hq).1
    have heq := Finset.card_le_one.mp hcard (pteOf a.vaddr) (Finset.mem_insert_self _ _) q
      (Finset.mem_insert_of_mem ((h.valid q).mp hqv))
    rw [heq, hqv] at hvalid
    cases hvalid

/-- An access that does not evict. -/
theorem LruSingle.access (h : LruSingle as s) (hdir : pgdirIndex a.vaddr < PTRS_PER_PGDIR)
    (hnone : evictCall a.vaddr s = none) (io : FileOps φ) :
    ∃ s', accessMem lru io a s = .ok s' ∧ LruSingle (as ++ [a]) s' := by
  obtain ⟨L, hL⟩ := h.order
  have hvalid : ∀ f t s', Arrived (pteOf a.vaddr) f s t →
      (s.page f = none ∨ s.page f = some (pteOf a.vaddr)) → PolicyStep t s' →
      ∀ q, (s'.entry q).valid ↔ q ∈ pages (as ++ [a]) := by
    intro f t s' ht hpage hstep q
    rw [(hstep.entry q).valid, ht.valid_iff h.mapped hpage, h.valid, pages_concat,
      Finset.mem_insert]
  have hcases : AccessCases lru io a.vaddr (fun s' =>
      (∃ L, LruOrder (references (as ++ [a])) s' L) ∧
        ∀ q, (s'.entry q).valid ↔ q ∈ pages (as ++ [a])) s := by
    rw [references_concat]
    refine ⟨?_, ?_, ?_⟩
    · intro hv t ht _
      obtain ⟨s', href, hs'⟩ := hL.ref ht
      exact ⟨s', href, ⟨_, hs'⟩,
        hvalid _ t s' ht (.inr (h.mapped.page_frameNo hv)) (lruRef_policyStep href)⟩
    · intro hv f t hfree ht _
      obtain ⟨s', href, hs'⟩ := hL.ref ht
      have hunused : s.page f = none := by simp [Sim.page, (findFree_eq_some.mp hfree).2.1]
      exact ⟨s', href, ⟨_, hs'⟩, hvalid _ t s' ht (.inl hunused) (lruRef_policyStep href)⟩
    · intro hv hfree
      rw [evictCall, if_pos ⟨hdir, hv, hfree⟩] at hnone
      cases hnone
  have hrun := hcases.accessMem lru_respectful h.mapped hdir ?_
  · obtain ⟨s', hacc, hmem, hmap, horder, hpages⟩ := hrun
    exact ⟨s', hacc, hmap, hmem.trans h.memsize, horder, hpages⟩
  · rintro s' physmem stderr ⟨⟨L, hJ⟩, hp⟩
    exact ⟨⟨L, hJ.store physmem stderr⟩, hp⟩

/-- With a single frame lru is safe as long as nothing has to be evicted. -/
theorem evictsSafely_lru_single (io : FileOps φ) {swapsize : Nat} (hswap : swapsize < 2 ^ 32)
    (physmem : Memory) (fd : φ) {trace : List Access}
    (hrange : ∀ b ∈ trace, b.vaddr.toNat < 2 ^ 36) :
    EvictsSafely lru io 1 swapsize physmem fd .zero trace ↔ (pages trace).card ≤ 1 := by
  rw [← pages_card_le_iff]
  have hdir : ∀ {as a}, as ++ [a] <+: trace → pgdirIndex a.vaddr < PTRS_PER_PGDIR :=
    fun h => pgdirIndex_lt (hrange _ (h.subset (by simp)))
  refine forall_steps_iff (K := fun as => ∃ s,
    simulate lru io 1 swapsize physmem fd .zero as = .ok s ∧ LruSingle as s) ?_ ?_ ?_
  · obtain ⟨bm, _, _, hs, hmap, hmem⟩ :=
      simulate_nil (m := 1) lru_respectful io (by norm_num) hswap physmem fd .zero
    refine ⟨_, hs, hmap, hmem, ⟨[], lruOrder_zero⟩, ?_⟩
    intro q
    exact iff_of_false (by rw [hmap.valid_iff]; simp [Sim.page, Sim.zero, Frame.zero, lru])
      (by simp [pages])
  · rintro as a ha ⟨s, hs, h⟩
    rw [← h.evictCall_iff (hdir ha)]
    constructor
    · rintro ⟨_, hs₂, hsafe⟩
      cases hs.symm.trans hs₂
      by_contra hsome
      obtain ⟨t, ht⟩ := Option.ne_none_iff_exists'.mp hsome
      obtain ⟨f, t', hevict, _⟩ := hsafe t ht
      obtain ⟨L, hL⟩ := h.order
      have hfull := inUse_of_evictCall (f := 0) ht (by rw [h.memsize]; exact Nat.one_pos)
      obtain ⟨_, rfl⟩ := evictCall_eq_some.mp ht
      have hnull := (hL.initSecondLevel (pgdirIndex a.vaddr)).evict_single
        (mapped_initSecondLevel h.mapped _) (by rw [Sim.memsize_initSecondLevel, h.memsize]) hfull
      change lruEvict _ = _ at hevict
      rw [hnull] at hevict
      cases hevict
    · intro hnone
      refine ⟨s, hs, ?_⟩
      intro t ht
      rw [hnone] at ht
      cases ht
  · rintro as a ha ⟨s, hs, h⟩ hcard
    obtain ⟨s', hacc, h'⟩ := h.access (hdir ha) ((h.evictCall_iff (hdir ha)).mpr hcard) io
    refine ⟨s', ?_, h'⟩
    rw [simulate_concat, hs, ok_bind, hacc]

end

/-! ## All algorithms -/

/-- A policy that answers its calls with frames answers them with frames in use. -/
theorem Functions.Answers.safe {fns : Functions σ φ} {io : FileOps φ} {m swapsize : Nat}
    {physmem : Memory} {fd : φ} {alg : σ} {trace : List Access}
    (hfns : fns.Answers io m swapsize physmem fd alg trace) (hm : m ≤ 2 ^ 20)
    (hswap : swapsize < 2 ^ 32) (hrange : ∀ b ∈ trace, b.vaddr.toNat < 2 ^ 36) :
    EvictsSafely fns io m swapsize physmem fd alg trace := by
  intro as a ha
  have has : as <+: trace := (List.prefix_append as [a]).trans ha
  obtain ⟨s, hs⟩ := simulate_ok (hfns.of_prefix has) hm hswap fun b hb => hrange b (has.subset hb)
  obtain ⟨_, hmem⟩ := simulate_mapped hfns.toRespectful hm hswap hs
  refine ⟨s, hs, fun t ht => ?_⟩
  have htmem : t.memsize = s.memsize := by
    obtain ⟨_, rfl⟩ := evictCall_eq_some.mp ht
    exact Sim.memsize_initSecondLevel _
  obtain ⟨f, t', hevict, hlt⟩ := (hfns.answers as a ha s hs).evict t ht
  exact ⟨f, t', hevict, by omega, inUse_of_evictCall ht (by omega)⟩

/-- Evictions are safe in every run of the algorithms: of fifo, clock and rand whatever the memory
size, the loop of clock taking at most one round more than there are frames; of lru if and only if
there are two frames, or one frame that is never asked for. -/
theorem evictsSafely (io : FileOps φ) {m swapsize : Nat} (hm : 1 ≤ m ∧ m ≤ 2 ^ 20)
    (hswap : swapsize < 2 ^ 32) (physmem : Memory) (fd : φ) {trace : List Access}
    (hrange : ∀ b ∈ trace, b.vaddr.toNat < 2 ^ 36) :
    (EvictsSafely lru io m swapsize physmem fd .zero trace ↔ 2 ≤ m ∨ (pages trace).card ≤ 1) ∧
    EvictsSafely fifo io m swapsize physmem fd .zero trace ∧
    (∀ fuel, m < fuel → EvictsSafely (clock fuel) io m swapsize physmem fd .zero trace) ∧
    ∀ random, EvictsSafely rand io m swapsize physmem fd random trace := by
  refine ⟨?_, ?_, fun fuel hfuel => ?_, fun random => ?_⟩
  · rcases Nat.lt_or_ge 1 m with htwo | hone
    · exact iff_of_true ((lru_answers io ⟨htwo, hm.2⟩ hswap physmem fd hrange).safe hm.2 hswap
        hrange) (.inl htwo)
    · obtain rfl : m = 1 := by omega
      rw [evictsSafely_lru_single io hswap physmem fd hrange]
      simp
  · exact (fifo_answers io hm hswap physmem fd hrange).safe hm.2 hswap hrange
  · exact (clock_answers io hm hswap hfuel physmem fd hrange).safe hm.2 hswap hrange
  · exact (rand_chooses.answers io hm hswap physmem fd random trace).safe hm.2 hswap hrange

/-- Three pages through two frames. -/
theorem evictsSafely_two :
    (EvictsSafely lru regularFile.toFileOps 2 4 (fun _ => 0) .empty .zero
      [⟨'S', 0x1000⟩, ⟨'L', 0x2000⟩, ⟨'L', 0x3000⟩] ↔
        2 ≤ 2 ∨ (pages [⟨'S', 0x1000⟩, ⟨'L', 0x2000⟩, ⟨'L', 0x3000⟩]).card ≤ 1) ∧
    EvictsSafely fifo regularFile.toFileOps 2 4 (fun _ => 0) .empty .zero
      [⟨'S', 0x1000⟩, ⟨'L', 0x2000⟩, ⟨'L', 0x3000⟩] ∧
    (∀ fuel, 2 < fuel → EvictsSafely (clock fuel) regularFile.toFileOps 2 4 (fun _ => 0) .empty .zero
      [⟨'S', 0x1000⟩, ⟨'L', 0x2000⟩, ⟨'L', 0x3000⟩]) ∧
    ∀ random, EvictsSafely rand regularFile.toFileOps 2 4 (fun _ => 0) .empty random
      [⟨'S', 0x1000⟩, ⟨'L', 0x2000⟩, ⟨'L', 0x3000⟩] :=
  evictsSafely regularFile.toFileOps (by decide) (by decide) _ _ (by decide)

/-- With a single frame, the second page that lru has to make room for makes it follow a null
pointer. -/
theorem lruEvict_single_frame :
    ∃ s t, simulate lru regularFile.toFileOps 1 4 (fun _ => 0) .empty .zero [⟨'L', 0x1000⟩] = .ok s ∧
      evictCall 0x2000 s = some t ∧ lruEvict t = .error .nullPointer := by
  have hrun : ∃ s, simulate lru regularFile.toFileOps 1 4 (fun _ => 0) .empty .zero
      [⟨'L', 0x1000⟩] = .ok s ∧ (evictCall 0x2000 s).map lruEvict = some (.error .nullPointer) :=
    ⟨_, rfl, rfl⟩
  obtain ⟨s, hs, hmap⟩ := hrun
  obtain ⟨t, ht, herror⟩ := Option.map_eq_some_iff.mp hmap
  exact ⟨s, t, hs, ht, herror⟩

end Paging

-- SUMMARY: When frame numbers and frame addresses fit into 32 bits: memory may be too large for the numbers in its page table.
import OperatingSystems.Paging.Clock
import OperatingSystems.Paging.Course
import OperatingSystems.Paging.Fifo
import OperatingSystems.Paging.Furthest
import OperatingSystems.Paging.Lru
import OperatingSystems.Paging.Rand
import OperatingSystems.Paging.Transparency

/-!
# Frame numbers

A frame number is shifted into the high 20 bits of an entry, and the size of memory and the place of
a frame in it are products modulo 2^32. `main` checks none of this against `memsize`. Frames are
handed out in order while there are free ones, so what counts is how many are ever in use.
-/

namespace Paging

open Library Library.Run

variable {σ φ : Type} {s s' t u : Sim σ φ} {p q : PtePtr} {f i m : Nat} {fns : Functions σ φ}
  {alg : σ} {io : FileOps φ} {as : List Access} {a : Access}

/-! ## Algorithms that are never asked to evict -/

/-- What is enough for `ref_fcn` to return. It speaks of the algorithm's own data and of the links
between frames only, and `init_fcn` and `ref_fcn` see to it. -/
structure Functions.Sustains (fns : Functions σ φ) (alg : σ) (K : Sim σ φ → Prop) : Prop where
  init : ∀ m bm physmem fd, K (fns.init (.zero m bm physmem fd alg))
  ref : ∀ p s, K s → ∃ s', fns.ref p s = .ok s' ∧ K s'
  congr : ∀ s t, K s → t.above = s.above → t.below = s.below → t.alg = s.alg → K t

/-- As long as nothing is evicted `ref_fcn` returns from every call, whatever page it is for. -/
structure Functions.Serves (fns : Functions σ φ) (alg : σ) : Prop extends fns.Respectful where
  answers : ∃ K, fns.Sustains alg K

theorem Functions.Respectful.serves (hfns : fns.Respectful)
    (href : ∀ p s, ∃ s', fns.ref p s = .ok s') (alg : σ) : fns.Serves alg where
  toRespectful := hfns
  answers := by
    refine ⟨fun _ => True, fun _ _ _ _ => trivial, fun p s _ => ?_, fun _ _ _ _ _ _ => trivial⟩
    obtain ⟨s', hs'⟩ := href p s
    exact ⟨s', hs', trivial⟩

theorem rand_serves (random : Random) : (rand : Functions Random φ).Serves random :=
  rand_chooses.toRespectful.serves rand_chooses.answers_ref random

theorem clock_serves (fuel : Nat) (hand : ClockHand) :
    (clock fuel : Functions ClockHand φ).Serves hand :=
  clock_respectful.serves (fun _ s => ⟨s, rfl⟩) hand

theorem opt_serves (o : OptGlobals) : (opt : Functions OptGlobals φ).Serves o :=
  opt_respectful.serves (fun _ _ => ⟨_, rfl⟩) o

theorem fifo_serves (ends : FifoEnds) : (fifo : Functions FifoEnds φ).Serves ends := by
  refine fifo_respectful.serves (fun p s => ?_) ends
  change ∃ s', fifoRef p s = .ok s'
  unfold fifoRef
  simp only
  split
  · exact ⟨_, rfl⟩
  · split
    · exact ⟨_, rfl⟩
    · split <;> exact ⟨_, rfl⟩

/-- The asserts of `lru_ref` hold of its list. -/
theorem lru_serves : (lru : Functions LruNodes φ).Serves .zero where
  toRespectful := lru_respectful
  answers := by
    refine ⟨fun s => ∃ L, LruList s L ∧ s.alg.topNode = LruList.topOf L, ?_, ?_, ?_⟩
    · intro m bm physmem fd
      have hzero : LruOrder [] (lru.init (.zero m bm physmem fd .zero)) [] := lruOrder_zero
      exact ⟨[], hzero.list, hzero.top⟩
    · rintro p s ⟨L, hlist, htop⟩
      obtain ⟨s', href, hlist', htop'⟩ := hlist.ref (p := p) htop rfl
      exact ⟨s', href, _, hlist', htop'⟩
    · rintro s t ⟨L, hlist, htop⟩ habove hbelow halg
      exact ⟨L, hlist.congr habove hbelow halg, halg ▸ htop⟩

/-! ## What is to fit -/

/-- The frame number that an access reads back from the entry of its page is the one that
`allocate_frame` returned for the page, and the bytes of the frame are inside `physmem`. -/
def FrameFits (fns : Functions σ φ) (io : FileOps φ) (a : Access) (s : Sim σ φ) : Prop :=
  ((s.entry (pteOf a.vaddr)).valid →
    s.page (s.entry (pteOf a.vaddr)).frameNo = some (pteOf a.vaddr) ∧
      physAddr (s.entry (pteOf a.vaddr)).frameNo + SIMPAGESIZE ≤ s.physSize) ∧
  ((s.entry (pteOf a.vaddr)).valid = false → ∀ f s₁,
    allocateFrame fns io (pteOf a.vaddr) (initSecondLevel (pgdirIndex a.vaddr) s) = .ok (f, s₁) →
      ((s₁.entry (pteOf a.vaddr)).place f).frameNo = f ∧ physAddr f + SIMPAGESIZE ≤ s.physSize)

/-- `allocate_frame` returns no frame past the coremap. -/
theorem allocateFrame_lt {s₁ : Sim σ φ} (hfns : fns.Respectful)
    (halloc : allocateFrame fns io p s = .ok (f, s₁)) : f < s.memsize := by
  cases hfree : findFree s with
  | some i =>
    rw [allocateFrame_free _ _ _ hfree] at halloc
    cases halloc
    exact (findFree_eq_some.mp hfree).1
  | none =>
    simp only [allocateFrame, hfree] at halloc
    obtain ⟨⟨f', s₂⟩, hevict, hrest⟩ := bind_eq_ok.mp halloc
    obtain ⟨_, hneed, hrest⟩ := bind_eq_ok.mp hrest
    obtain ⟨_, _, hrest⟩ := bind_eq_ok.mp hrest
    obtain ⟨_, _, hrest⟩ := bind_eq_ok.mp hrest
    cases hrest
    rw [← (hfns.evict _ _ _ hevict).memsize]
    exact of_need hneed

/-- With at most 2^20 frames everything fits. -/
theorem Mapped.frameFits (hM : Mapped none s) (hfns : fns.Respectful) (io : FileOps φ)
    (a : Access) : FrameFits fns io a s := by
  refine ⟨fun hvalid => ⟨hM.page_frameNo hvalid, hM.physSize_le (hM.frameNo_lt hvalid)⟩, ?_⟩
  intro _ f s₁ halloc
  have hlt := allocateFrame_lt hfns halloc
  rw [Sim.memsize_initSecondLevel] at hlt
  exact ⟨PgtblEntry.frameNo_place (hlt.trans_le hM.memsize_le), hM.physSize_le hlt⟩

/-! ## Memory that is filled -/

/-- The state as if there were as many frames as there are frame numbers. -/
def Sim.within (s : Sim σ φ) : Sim σ φ := { s with memsize := 2 ^ 20 }

theorem initSecondLevel_within (idx : Nat) :
    initSecondLevel idx s.within = (initSecondLevel idx s).within := by
  simp only [initSecondLevel, Sim.within]
  split <;> rfl

theorem load_within {onswap : Bool} {vaddr : Addr} {type : Char} :
    touched p vaddr type (place onswap p f vaddr (record p f s.within)) =
      (touched p vaddr type (place onswap p f vaddr (record p f s))).within := by
  cases onswap <;> rfl

/-- As long as nothing has been evicted, each page accessed so far is in a frame, and the frames in
use are the first ones. -/
structure Filling (m : Nat) (as : List Access) (s : Sim σ φ) : Prop where
  memsize : s.memsize = m
  mapped : Mapped none s.within
  inUse : ∀ i, (s.page i).isSome ↔ i < (pages as).card
  valid : ∀ q, (s.entry q).valid ↔ q ∈ pages as
  onswap : ∀ q, (s.entry q).onswap = false

namespace Filling

theorem policyStep (h : Filling m as s) (hstep : PolicyStep s s') : Filling m as s' where
  memsize := hstep.memsize.trans h.memsize
  mapped := by
    have hstep' : PolicyStep s.within s'.within := { hstep with memsize := rfl }
    exact hstep'.mapped h.mapped
  inUse i := by
    rw [hstep.page]
    exact h.inUse i
  valid q := by
    rw [(hstep.entry q).valid]
    exact h.valid q
  onswap q := (hstep.entry q).onswap.trans (h.onswap q)

theorem store (h : Filling m as s) (physmem : Memory) (stderr : List String) :
    Filling m as { s with physmem := physmem, stderr := stderr } where
  memsize := h.memsize
  mapped := h.mapped.store physmem stderr
  inUse := h.inUse
  valid := h.valid
  onswap := h.onswap

theorem arrive (h : Filling m as s) (ht : Arrived (pteOf a.vaddr) f s.within t.within)
    (hmem : t.memsize = m) (hf : s.page f = none ∨ s.page f = some (pteOf a.vaddr))
    (hcount : ∀ i, i = f ∨ i < (pages as).card ↔ i < (pages (as ++ [a])).card)
    (honswap : ∀ q, (t.entry q).onswap = false) : Filling m (as ++ [a]) t where
  memsize := hmem
  mapped := ht.mapped
  inUse i := by
    rw [← hcount, ← h.inUse]
    exact ht.inUse_iff i
  valid q := by
    rw [pages_concat, Finset.mem_insert, ← h.valid]
    exact ht.valid_iff h.mapped hf
  onswap := honswap

/-- The next page takes the first frame that is not in use. -/
theorem findFree_eq (h : Filling m as s) (hcard : (pages as).card < m) (idx : Nat) :
    findFree (initSecondLevel idx s) = some (pages as).card := by
  have hinUse : ∀ i, (s.coremap i).inUse ↔ i < (pages as).card := fun i =>
    (h.mapped.inUse_iff i).trans (h.inUse i)
  rw [findFree_eq_some, Sim.memsize_initSecondLevel, Sim.coremap_initSecondLevel]
  refine ⟨h.memsize ▸ hcard, ?_, fun i hi => (hinUse i).mpr hi⟩
  rw [← Bool.not_eq_true, hinUse]
  exact Nat.lt_irrefl _

theorem not_valid (h : Filling m as s) (hp : p ∉ pages as) : (s.entry p).valid = false := by
  rw [← Bool.not_eq_true, h.valid]
  exact hp

/-- What is in use is inside `physmem`. -/
theorem physSize_le (h : Filling m as s) (hcard : (pages as).card ≤ m % 2 ^ 28)
    (hf : s.page f = some p) : physAddr f + SIMPAGESIZE ≤ s.physSize := by
  have hlt := (h.inUse f).mp (Option.isSome_iff_exists.mpr ⟨_, hf⟩)
  rw [Sim.physSize, h.memsize, physAddr, SIMPAGESIZE]
  omega

/-- A new page fits if there are frame numbers and whole frames for one more. -/
theorem frameFits_new_iff (h : Filling m as s) (hm : 2 ^ 20 < m)
    (hcard : (pages as).card ≤ 2 ^ 20 ∧ (pages as).card ≤ m % 2 ^ 28)
    (hmem : pteOf a.vaddr ∉ pages as) :
    FrameFits fns io a s ↔
      (pages as).card + 1 ≤ 2 ^ 20 ∧ (pages as).card + 1 ≤ m % 2 ^ 28 := by
  have hvalid := h.not_valid hmem
  have halloc := allocateFrame_free fns io (pteOf a.vaddr)
    (h.findFree_eq (hcard.1.trans_lt hm) (pgdirIndex a.vaddr))
  have hfits : FrameFits fns io a s ↔
      (PgtblEntry.fresh.place (pages as).card).frameNo = (pages as).card ∧
        physAddr (pages as).card + SIMPAGESIZE ≤ s.physSize := by
    constructor
    · exact fun hf => hf.2 hvalid _ _ halloc
    · refine fun hf => ⟨fun hyes => ?_, fun _ f s₁ halloc' => ?_⟩
      · rw [hvalid] at hyes
        cases hyes
      · cases halloc.symm.trans halloc'
        exact hf
  rw [hfits, Sim.physSize, h.memsize, physAddr, SIMPAGESIZE]
  constructor
  · rintro ⟨hread, hbytes⟩
    have hlt := (PgtblEntry.fresh.place (pages as).card).frameNo_lt
    omega
  · intro hbounds
    exact ⟨PgtblEntry.frameNo_place (by omega), by omega⟩

/-- The next access fits if and only if the pages after it are as many as there are frame numbers
and whole frames in `physmem`. -/
theorem frameFits_iff (h : Filling m as s) (hm : 2 ^ 20 < m)
    (hcard : (pages as).card ≤ 2 ^ 20 ∧ (pages as).card ≤ m % 2 ^ 28) :
    FrameFits fns io a s ↔
      (pages (as ++ [a])).card ≤ 2 ^ 20 ∧ (pages (as ++ [a])).card ≤ m % 2 ^ 28 := by
  by_cases hmem : pteOf a.vaddr ∈ pages as
  · have hvalid := (h.valid _).mpr hmem
    have hpage := h.mapped.page_frameNo hvalid
    rw [pages_concat_of_mem hmem]
    refine iff_of_true ⟨fun _ => ⟨hpage, h.physSize_le hcard.2 hpage⟩, fun hno => ?_⟩ hcard
    rw [hvalid] at hno
    cases hno
  · rw [card_pages_concat hmem]
    exact h.frameFits_new_iff hm hcard hmem

/-- A page that is in memory already. -/
theorem hit (h : Filling m as s) (hm : 2 ^ 20 < m) (hdir : pgdirIndex a.vaddr < PTRS_PER_PGDIR)
    (hmem : pteOf a.vaddr ∈ pages as) :
    ∃ f t, findPhyspage fns io a.vaddr a.type s = callRef fns (pteOf a.vaddr) t ∧
      Arrived (pteOf a.vaddr) f s.within t.within ∧ Filling m (as ++ [a]) t := by
  have hvalid := (h.valid _).mpr hmem
  have hpage := h.mapped.page_frameNo hvalid
  have hused := (h.inUse _).mp (Option.isSome_iff_exists.mpr ⟨_, hpage⟩)
  have ht := Arrived.of_hit h.mapped hvalid (pgdirIndex a.vaddr) a.vaddr a.type
  rw [initSecondLevel_within] at ht
  refine ⟨_, touched (pteOf a.vaddr) a.vaddr a.type { initSecondLevel (pgdirIndex a.vaddr) s with
    hitCount := (initSecondLevel (pgdirIndex a.vaddr) s).hitCount + 1 }, ?_, ht, ?_⟩
  · refine findPhyspage_eq hdir (resolve_hit (by simpa using hvalid) (by simpa using h.onswap _)) ?_
    exact PgtblEntry.frameNo_lt.trans (by simpa [h.memsize] using hm)
  · refine h.arrive ht ((Sim.memsize_initSecondLevel _).trans h.memsize) (.inr hpage) ?_ ?_
    · intro i
      rw [pages_concat_of_mem hmem]
      constructor
      · rintro (rfl | hi)
        · exact hused
        · exact hi
      · exact .inr
    · intro q
      rw [entry_hit]
      by_cases hq : q = pteOf a.vaddr
      · rw [if_pos hq, PgtblEntry.onswap_mark, h.onswap]
      · rw [if_neg hq, h.onswap]

/-- A page that takes a free frame, whose number and bytes fit. -/
theorem free (h : Filling m as s) (hm : 2 ^ 20 < m) (hdir : pgdirIndex a.vaddr < PTRS_PER_PGDIR)
    (hmem : pteOf a.vaddr ∉ pages as) (hcard : (pages as).card < 2 ^ 20)
    (hsize : (pages as).card < m % 2 ^ 28) :
    ∃ f t, findPhyspage fns io a.vaddr a.type s = callRef fns (pteOf a.vaddr) t ∧
      Arrived (pteOf a.vaddr) f s.within t.within ∧ Filling m (as ++ [a]) t := by
  have hvalid := h.not_valid hmem
  have hfree := h.findFree_eq (hcard.trans hm) (pgdirIndex a.vaddr)
  obtain ⟨_, hunused, hbefore⟩ := findFree_eq_some.mp hfree
  rw [Sim.coremap_initSecondLevel] at hunused hbefore
  have hfree' : findFree s.within = some (pages as).card :=
    findFree_eq_some.mpr ⟨hcard, hunused, hbefore⟩
  have hmemsize : (record (pteOf a.vaddr) (pages as).card
      (initSecondLevel (pgdirIndex a.vaddr) s)).memsize = m :=
    (Sim.memsize_initSecondLevel _).trans h.memsize
  have hbytes : physAddr (pages as).card + SIMPAGESIZE ≤
      (record (pteOf a.vaddr) (pages as).card (initSecondLevel (pgdirIndex a.vaddr) s)).physSize := by
    rw [Sim.physSize, hmemsize, physAddr, SIMPAGESIZE]
    omega
  have hresolve := resolve_miss a.vaddr (by simpa using hvalid)
    (allocateFrame_free fns io (pteOf a.vaddr) hfree) hbytes
  rw [Sim.entry_initSecondLevel] at hresolve
  have ht := Arrived.of_free h.mapped hvalid hfree' (pgdirIndex a.vaddr)
    (s.entry (pteOf a.vaddr)).onswap a.vaddr a.type
  rw [initSecondLevel_within, load_within] at ht
  refine ⟨_, _, findPhyspage_eq hdir hresolve ?_, ht, h.arrive ht ?_ (.inl ?_) ?_ ?_⟩
  · rw [memsize_place, hmemsize]
    exact PgtblEntry.frameNo_lt.trans hm
  · exact memsize_place.trans hmemsize
  · simp [Sim.page, hunused]
  · intro i
    rw [card_pages_concat hmem]
    omega
  · intro q
    rw [entry_load, Sim.entry_initSecondLevel, Sim.entry_initSecondLevel]
    by_cases hq : q = pteOf a.vaddr
    · rw [if_pos hq, PgtblEntry.onswap_mark, h.onswap]
      simp
    · rw [if_neg hq, h.onswap]

/-- An access that fits returns without an eviction. -/
theorem access {K : Sim σ φ → Prop} (h : Filling m as s) (hfns : fns.Respectful)
    (hK : fns.Sustains alg K) (hs : K s) (hm : 2 ^ 20 < m)
    (hdir : pgdirIndex a.vaddr < PTRS_PER_PGDIR)
    (hcard : (pages (as ++ [a])).card ≤ 2 ^ 20 ∧ (pages (as ++ [a])).card ≤ m % 2 ^ 28) :
    ∃ s', accessMem fns io a s = .ok s' ∧ Filling m (as ++ [a]) s' ∧ K s' := by
  have hfind : ∃ f t, findPhyspage fns io a.vaddr a.type s = callRef fns (pteOf a.vaddr) t ∧
      Arrived (pteOf a.vaddr) f s.within t.within ∧ Filling m (as ++ [a]) t := by
    by_cases hmem : pteOf a.vaddr ∈ pages as
    · exact h.hit hm hdir hmem
    · rw [card_pages_concat hmem] at hcard
      exact h.free hm hdir hmem (by omega) (by omega)
  obtain ⟨f, t, hfind, ht, hfill⟩ := hfind
  obtain ⟨s', href, hs'⟩ := hK.ref (pteOf a.vaddr) t (hK.congr s t hs ht.above ht.below ht.alg)
  have hstep := hfns.ref _ _ _ href
  have hfill' := hfill.policyStep hstep
  rw [callRef, href, ok_bind] at hfind
  have hpage : s'.page (s'.entry (pteOf a.vaddr)).frameNo = some (pteOf a.vaddr) := by
    refine hfill'.mapped.page_frameNo ((hfill'.valid _).mpr ?_)
    rw [pages_concat]
    exact Finset.mem_insert_self _ _
  obtain ⟨stderr, hacc⟩ := accessMem_of_findPhyspage hfind (hfill'.physSize_le hcard.2 hpage)
  exact ⟨_, hacc, hfill'.store _ stderr, hK.congr s' _ hs' rfl rfl rfl⟩

/-- Before the trace. -/
theorem zero {bm : Bitmap} (hbm : bm.WellFormed) (physmem : Memory) (fd : φ) (alg : σ) :
    Filling m [] (Sim.zero m bm physmem fd alg) where
  memsize := rfl
  mapped := mapped_zero le_rfl hbm
  inUse i := by simp [pages, Sim.page, Sim.zero, Frame.zero]
  valid q := by
    change PgtblEntry.fresh.valid ↔ _
    simp [pages]
  onswap q := by
    change PgtblEntry.fresh.onswap = _
    simp

theorem simulate_nil {K : Sim σ φ → Prop} {swapsize : Nat} (hfns : fns.Respectful)
    (hK : fns.Sustains alg K) (io : FileOps φ) (hswap : swapsize < 2 ^ 32) (physmem : Memory)
    (fd : φ) :
    ∃ s, simulate fns io m swapsize physmem fd alg [] = .ok s ∧ Filling m [] s ∧ K s := by
  obtain ⟨bm, hbm, hwf, _, _⟩ := Bitmap.bitmapCreate_spec hswap
  refine ⟨_, ?_, (zero hwf physmem fd alg).policyStep (hfns.init _), hK.init ..⟩
  simp only [simulate, start, hbm, ok_bind, exec_nil]

end Filling

/-! ## Runs -/

/-- Frame numbers and frame addresses fit in a run if and only if the pages that are ever in memory
at once are no more than there are frame numbers, and than the frames whose bytes `malloc` was
asked for. -/
theorem simulate_frameFits_iff (hfns : fns.Serves alg) (io : FileOps φ) {swapsize : Nat}
    (hswap : swapsize < 2 ^ 32) (physmem : Memory) (fd : φ) {trace : List Access}
    (hrange : ∀ b ∈ trace, b.vaddr.toNat < 2 ^ 36) :
    (∀ as a, as ++ [a] <+: trace → ∀ s,
      simulate fns io m swapsize physmem fd alg as = .ok s → FrameFits fns io a s) ↔
    min m (pages trace).card ≤ min (2 ^ 20) (m % 2 ^ 28) := by
  by_cases hm : m ≤ 2 ^ 20
  · refine iff_of_true ?_ (by omega)
    intro as a _ s hs
    exact (simulate_mapped hfns.toRespectful hm hswap hs).1.frameFits hfns.toRespectful io a
  · have hbounds : min m (pages trace).card ≤ min (2 ^ 20) (m % 2 ^ 28) ↔
        ∀ as a, as ++ [a] <+: trace →
          (pages (as ++ [a])).card ≤ 2 ^ 20 ∧ (pages (as ++ [a])).card ≤ m % 2 ^ 28 := by
      simp only [← le_min_iff]
      rw [pages_card_le_iff]
      omega
    rw [hbounds]
    obtain ⟨K, hK⟩ := hfns.answers
    refine forall_steps_iff (K := fun as => ∃ s, simulate fns io m swapsize physmem fd alg as = .ok s ∧
      Filling m as s ∧ K s ∧ (pages as).card ≤ 2 ^ 20 ∧ (pages as).card ≤ m % 2 ^ 28) ?_ ?_ ?_
    · obtain ⟨s, hs, hfill, hKs⟩ :=
        Filling.simulate_nil hfns.toRespectful hK io hswap physmem fd
      exact ⟨s, hs, hfill, hKs, by simp [pages]⟩
    · rintro as a ha ⟨s, hs, hfill, -, hcard⟩
      have hiff : FrameFits fns io a s ↔ _ := hfill.frameFits_iff (by omega) hcard
      rw [← hiff, hs]
      simp
    · rintro as a ha ⟨s, hs, hfill, hKs, -⟩ hcard
      obtain ⟨s', hacc, hfill', hKs'⟩ := hfill.access hfns.toRespectful hK hKs (by omega)
        (pgdirIndex_lt (hrange a (ha.subset (by simp)))) hcard
      refine ⟨s', ?_, hfill', hKs', hcard⟩
      rw [simulate_concat, hs, ok_bind, hacc]

/-- Two pages in a memory of three frames. -/
theorem simulate_frameFits_three :
    (∀ as a, as ++ [a] <+: [⟨'S', 0x1000⟩, ⟨'L', 0x2000⟩] → ∀ s,
      simulate lru regularFile.toFileOps 3 4 (fun _ => 0) .empty .zero as = .ok s →
        FrameFits lru regularFile.toFileOps a s) ↔
    min 3 (pages [⟨'S', 0x1000⟩, ⟨'L', 0x2000⟩]).card ≤ min (2 ^ 20) (3 % 2 ^ 28) :=
  simulate_frameFits_iff lru_serves regularFile.toFileOps (by decide) _ _ (by decide)

/-- With 2^28 + 1 frames `physmem` has the bytes of one frame, and the second page is put behind
them. -/
theorem not_frameFits_second :
    ¬∀ as a, as ++ [a] <+: [⟨'L', 0x0⟩, ⟨'L', 0x1000⟩] → ∀ s,
      simulate lru regularFile.toFileOps (2 ^ 28 + 1) 4 (fun _ => 0) .empty .zero as = .ok s →
        FrameFits lru regularFile.toFileOps a s := by
  intro hfits
  have hserves : (lru : Functions LruNodes OpenFile).Serves .zero := lru_serves
  obtain ⟨K, hK⟩ := hserves.answers
  have hrun : ∃ s, simulate lru regularFile.toFileOps (2 ^ 28 + 1) 4 (fun _ => 0) .empty .zero
      [⟨'L', 0x0⟩] = .ok s ∧ Filling (2 ^ 28 + 1) [⟨'L', 0x0⟩] s := by
    obtain ⟨s, hs, hfill, hKs⟩ := Filling.simulate_nil (m := 2 ^ 28 + 1) hserves.toRespectful hK
      regularFile.toFileOps (show 4 < 2 ^ 32 by decide) (fun _ => 0) .empty
    obtain ⟨s', hacc, hfill', -⟩ := hfill.access (a := ⟨'L', 0x0⟩) hserves.toRespectful hK hKs
      (by decide) (by decide) (by decide)
    refine ⟨s', ?_, hfill'⟩
    rw [← List.nil_append [_], simulate_concat, hs, ok_bind, hacc]
  obtain ⟨s, hs, hfill⟩ := hrun
  have hcard := (hfill.frameFits_iff (by decide) (by decide)).mp
    (hfits [⟨'L', 0x0⟩] ⟨'L', 0x1000⟩ List.prefix_rfl s hs)
  exact absurd hcard.2 (by decide)

end Paging

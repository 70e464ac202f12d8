-- SUMMARY: Page table and coremap stay consistent under every replacement algorithm, the swap map as long as pages are written out.
import Mathlib.Data.Finset.Prod
import OperatingSystems.Paging.Course
import OperatingSystems.Paging.Rand
import OperatingSystems.Paging.SwapFile

/-!
# Consistency

As long as the pages evicted can be written to the swap file, the pages that have a slot in it have
one each, and the bits of the swap map say which slots are taken. The number of pages bounds the
slots that can be taken, so that the offset of a slot never leaves the range of an `int`. The bit of
a slot that could not be written stays set, and no page has the slot any more.
-/

namespace Paging

open Library Library.Run

variable {σ φ : Type} {s s' t : Sim σ φ} {p q : PtePtr} {f i n swapsize : Nat}
  {S : Finset PtePtr} {io : FileOps φ} {fns : Functions σ φ} {vaddr : Addr} {type : Char}

/-! ## Slots -/

/-- The slots of the swap file, `S` being the pages that have been in memory. -/
structure Slotted (swapsize : Nat) (S : Finset PtePtr) (s : Sim σ φ) : Prop where
  nbits : s.swapmap.nbits = swapsize
  resident : ∀ i q, s.page i = some q → q ∈ S
  owner : ∀ q, (s.entry q).swapOff ≠ INVALID_SWAP → q ∈ S
  slot : ∀ q, (s.entry q).swapOff ≠ INVALID_SWAP → ∃ k < swapsize, (s.entry q).swapOff = k * 16
  distinct : ∀ q r, (s.entry q).swapOff ≠ INVALID_SWAP →
    (s.entry q).swapOff = (s.entry r).swapOff → q = r
  bits : ∀ k < swapsize, s.swapmap.isset k ↔ ∃ q, (s.entry q).swapOff = k * 16

theorem slot_ne_invalid (k : Nat) : (k * 16 : Int) ≠ INVALID_SWAP := by
  unfold INVALID_SWAP
  omega

namespace Slotted

/-- While a page of `S` has no slot, fewer slots are taken than `S` has pages. -/
theorem lt_card (h : Slotted swapsize S s) (hq : q ∈ S)
    (hnone : (s.entry q).swapOff = INVALID_SWAP) (hn : n ≤ swapsize)
    (hset : ∀ j < n, s.swapmap.isset j) : n < S.card := by
  have howner : ∀ j : Nat, ∃ r, j < n → (s.entry r).swapOff = j * 16 := by
    intro j
    by_cases hj : j < n
    · obtain ⟨r, hr⟩ := (h.bits j (by omega)).mp (hset j hj)
      exact ⟨r, fun _ => hr⟩
    · exact ⟨q, fun hj' => absurd hj' hj⟩
  -- The first `n` slots have different owners, and the page without a slot is none of them.
  choose owner howner using howner
  have hmaps : Set.MapsTo owner (Finset.range n) (S.erase q) := by
    intro j hj
    have hr := howner j (by simpa using hj)
    have hne : (s.entry (owner j)).swapOff ≠ INVALID_SWAP := hr ▸ slot_ne_invalid j
    refine Finset.mem_coe.mpr (Finset.mem_erase.mpr ⟨?_, h.owner _ hne⟩)
    intro heq
    rw [heq] at hne
    exact hne hnone
  have hinj : Set.InjOn owner (Finset.range n) := by
    intro j hj k hk heq
    have hjr := howner j (by simpa using hj)
    have hkr := howner k (by simpa using hk)
    rw [heq, hkr] at hjr
    omega
  have hcard := Finset.card_le_card_of_injOn owner hmaps hinj
  rw [Finset.card_range] at hcard
  exact lt_of_le_of_lt hcard (Finset.card_erase_lt_of_mem hq)

theorem mono (h : Slotted swapsize S s) {S' : Finset PtePtr} (hS : S ⊆ S') :
    Slotted swapsize S' s :=
  { h with
    resident := fun i q hq => hS (h.resident i q hq)
    owner := fun q hq => hS (h.owner q hq) }

/-- Only the pages in memory, the offsets and the map matter. -/
theorem congr (h : Slotted swapsize S s) (hpage : ∀ i q, t.page i = some q → q ∈ S)
    (hkeep : KeepsSlots s t) : Slotted swapsize S t where
  nbits := hkeep.1 ▸ h.nbits
  resident := hpage
  owner q := by rw [hkeep.2]; exact h.owner q
  slot q := by rw [hkeep.2]; exact h.slot q
  distinct q r := by rw [hkeep.2, hkeep.2]; exact h.distinct q r
  bits k hk := by
    rw [hkeep.1]
    simp only [hkeep.2]
    exact h.bits k hk

/-- A page gets the slot that has been taken for it. -/
theorem take {k : Nat} (h : Slotted swapsize S s) (hpage : ∀ i q, t.page i = some q → q ∈ S)
    (hq : q ∈ S) (hnone : (s.entry q).swapOff = INVALID_SWAP) (hk : k < swapsize)
    (hcap : k < 32 * s.swapmap.v.length) (hclear : s.swapmap.isset k = false)
    (hmap : t.swapmap = s.swapmap.take k)
    (hoff : ∀ r, (t.entry r).swapOff = if r = q then (k * 16 : Int) else (s.entry r).swapOff) :
    Slotted swapsize S t := by
  have hfree : ∀ r, (s.entry r).swapOff ≠ k * 16 := by
    intro r hr
    rw [(h.bits k hk).mpr ⟨r, hr⟩] at hclear
    cases hclear
  -- The bit was clear, so no other page has the slot.
  refine ⟨?_, hpage, ?_, ?_, ?_, ?_⟩
  · rw [hmap]
    exact h.nbits
  · intro r hr
    rw [hoff] at hr
    by_cases hrq : r = q
    · rw [hrq]
      exact hq
    · rw [if_neg hrq] at hr
      exact h.owner r hr
  · intro r hr
    rw [hoff] at hr ⊢
    by_cases hrq : r = q
    · rw [if_pos hrq]
      exact ⟨k, hk, rfl⟩
    · rw [if_neg hrq] at hr ⊢
      exact h.slot r hr
  · intro r r' hr heq
    rw [hoff, hoff] at heq
    rw [hoff] at hr
    by_cases hrq : r = q
    · by_cases hrq' : r' = q
      · rw [hrq, hrq']
      · rw [if_pos hrq, if_neg hrq'] at heq
        exact absurd heq.symm (hfree r')
    · by_cases hrq' : r' = q
      · rw [if_neg hrq, if_pos hrq'] at heq
        exact absurd heq (hfree r)
      · rw [if_neg hrq, if_neg hrq'] at heq
        rw [if_neg hrq] at hr
        exact h.distinct r r' hr heq
  · intro j hj
    rw [hmap, Bitmap.isset_take hcap, Bool.or_eq_true, decide_eq_true_iff, h.bits j hj]
    constructor
    · rintro (⟨r, hr⟩ | rfl)
      · refine ⟨r, ?_⟩
        have hrq : r ≠ q := by
          rintro rfl
          exact slot_ne_invalid j (hr.symm.trans hnone)
        rw [hoff, if_neg hrq, hr]
      · exact ⟨q, by rw [hoff, if_pos rfl]⟩
    · rintro ⟨r, hr⟩
      rw [hoff] at hr
      by_cases hrq : r = q
      · rw [if_pos hrq] at hr
        exact .inr (by omega)
      · rw [if_neg hrq] at hr
        exact .inl ⟨r, hr⟩

/-- An eviction gives the page evicted a slot if it needs one, there is one, and it can be written. -/
theorem pagesOut (h : Slotted swapsize S s) (hpage : ∀ i q, t.page i = some q → q ∈ S)
    (hcard : S.card ≤ 2 ^ 24) (hout : PagesOut io f s t)
    (hwritten : ∀ q off, s.page f = some q → slotFor s.swapmap (s.entry q).swapOff = some off →
      s.stores io f off) : Slotted swapsize S t := by
  obtain ⟨q, off, hq, hpo, hoff⟩ := hout
  have hwritten := hwritten q
  generalize hold : (s.entry q).swapOff = old at hpo hwritten
  generalize hbm : t.swapmap = bm at hpo
  have hsame : off = old → bm = s.swapmap → Slotted swapsize S t := by
    rintro rfl rfl
    refine h.congr hpage ⟨hbm, fun r => ?_⟩
    rw [hoff]
    by_cases hr : r = q
    · rw [if_pos hr, hr, hold]
    · rw [if_neg hr]
  cases hpo with
  | kept _ _ => exact hsame rfl rfl
  | dropped hslot hno =>
    rw [hwritten old hq (if_neg hslot)] at hno
    cases hno
  | taken k hnone _ hk hcap hclear hlow _ =>
    rw [h.nbits] at hk
    have hlt := h.lt_card (h.resident f q hq) (hold.trans hnone) hk.le hlow
    -- All lower slots are taken, each by a page of `S`: the offset fits an `int`.
    have hslot : slotOffset k = k * 16 := slotOffset_of_lt (by omega)
    exact h.take hpage (h.resident f q hq) (hold.trans hnone) hk hcap hclear hbm (hslot ▸ hoff)
  | leaked k _ hslot _ _ _ hno =>
    rw [hwritten _ hq hslot] at hno
    cases hno
  | full hnone _ _ => exact hsame hnone.symm rfl

/-- An eviction that cannot write its page leaves a bit set for a slot that no page has. -/
theorem leaks {off : Int} (h : Slotted swapsize S s) (hout : PagesOut io f s t)
    (hq : s.page f = some q) (hslot : slotFor s.swapmap (s.entry q).swapOff = some off)
    (hno : s.stores io f off = false) :
    ∃ k < swapsize, t.swapmap.isset k ∧ ∀ r, (t.entry r).swapOff ≠ k * 16 := by
  obtain ⟨q', off', hq', hpo, hoff⟩ := hout
  cases hq.symm.trans hq'
  generalize hold : (s.entry q).swapOff = old at hpo hslot
  generalize hbm : t.swapmap = bm at hpo
  cases hpo with
  | kept hsome hst =>
    have heq : off' = off := Option.some.inj ((if_neg hsome).symm.trans hslot)
    rw [← heq, hst] at hno
    cases hno
  | dropped hsome _ =>
    obtain ⟨k, hk, hkoff⟩ := h.slot q (hold ▸ hsome)
    refine ⟨k, hk, (h.bits k hk).mpr ⟨q, hkoff⟩, fun r hr => ?_⟩
    rw [hoff] at hr
    by_cases hrq : r = q
    · rw [if_pos hrq] at hr
      exact slot_ne_invalid k hr.symm
    · rw [if_neg hrq] at hr
      have hne : (s.entry r).swapOff ≠ INVALID_SWAP := hr ▸ slot_ne_invalid k
      exact hrq (h.distinct r q hne (hr.trans hkoff.symm))
  | taken k _ hslot' _ _ _ _ hst =>
    have heq : slotOffset k = off := Option.some.inj (hslot'.symm.trans hslot)
    rw [← heq, hst] at hno
    cases hno
  | leaked k _ _ hk hcap hclear _ =>
    rw [h.nbits] at hk
    refine ⟨k, hk, by simp [Bitmap.isset_take hcap], fun r hr => ?_⟩
    rw [hoff] at hr
    by_cases hrq : r = q
    · rw [if_pos hrq] at hr
      exact slot_ne_invalid k hr.symm
    · rw [if_neg hrq] at hr
      rw [(h.bits k hk).mpr ⟨r, hr⟩] at hclear
      cases hclear
  | full _ hnone _ =>
    rw [hnone] at hslot
    cases hslot

/-- The page accessed joins the pages in memory. -/
theorem resident_arrived {u : Sim σ φ} (h : Slotted swapsize S s) (hp : p ∈ S)
    (ht : Arrived p f u t) (hpages : u.page = s.page) : ∀ i q, t.page i = some q → q ∈ S := by
  intro i q hq
  rw [ht.page, hpages] at hq
  by_cases hi : i = f
  · subst hi
    rw [Function.update_self] at hq
    exact Option.some.inj hq ▸ hp
  · rw [Function.update_of_ne hi] at hq
    exact h.resident i q hq

theorem policyStep (h : Slotted swapsize S s) (hstep : PolicyStep s s') : Slotted swapsize S s' :=
  h.congr (by rw [hstep.page]; exact h.resident) ⟨hstep.swapmap, fun q => (hstep.entry q).swapOff⟩

/-- Before the trace, no page has been in memory and no slot is taken. -/
theorem zero {m : Nat} {bm : Bitmap} {physmem : Memory} {fd : φ} {alg : σ}
    (hn : bm.nbits = swapsize) (hclear : ∀ k < swapsize, bm.isset k = false) :
    Slotted swapsize S (Sim.zero m bm physmem fd alg) where
  nbits := hn
  resident i q hq := by
    simp [Sim.page, Sim.zero, Frame.zero] at hq
  owner q hq := absurd rfl hq
  slot q hq := absurd rfl hq
  distinct q r hq := absurd rfl hq
  bits k hk := by
    rw [show (Sim.zero m bm physmem fd alg).swapmap = bm from rfl, hclear k hk]
    constructor
    · intro h
      cases h
    · rintro ⟨q, hq⟩
      exact absurd hq.symm (slot_ne_invalid k)

end Slotted

theorem slotted_initSecondLevel (h : Slotted swapsize S s) (idx : Nat) :
    Slotted swapsize S (initSecondLevel idx s) :=
  h.congr (by simpa [Sim.page] using h.resident) ⟨by simp, by simp⟩

/-! ## Policies that may choose any frame -/

/-- The entries that the page directory reaches. It is irreducible so that nothing ever lists them. -/
@[irreducible] def directory : Finset PtePtr :=
  (Finset.range PTRS_PER_PGDIR ×ˢ Finset.range PTRS_PER_PGTBL).image fun x => ⟨x.1, x.2⟩

theorem card_directory : directory.card ≤ 2 ^ 24 := by
  unfold directory
  apply Finset.card_image_le.trans
  rw [Finset.card_product, Finset.card_range, Finset.card_range]
  simp [PTRS_PER_PGDIR, PTRS_PER_PGTBL]

theorem mem_directory_iff : p ∈ directory ↔ p.dir < PTRS_PER_PGDIR ∧ p.idx < PTRS_PER_PGTBL := by
  unfold directory
  simp only [Finset.mem_image, Finset.mem_product, Finset.mem_range, Prod.exists]
  constructor
  · rintro ⟨dir, idx, hlt, rfl⟩
    exact hlt
  · intro hlt
    exact ⟨p.dir, p.idx, hlt, rfl⟩

theorem mem_directory {vaddr : Addr} (h : pgdirIndex vaddr < PTRS_PER_PGDIR) :
    pteOf vaddr ∈ directory :=
  mem_directory_iff.mpr ⟨h, pgtblIndex_lt vaddr⟩

/-- The page that an access evicts can be written to its slot, or finds none. -/
def WrittenOut (fns : Functions σ φ) (io : FileOps φ) (vaddr : Addr) (s : Sim σ φ) : Prop :=
  ∀ t f s₁ q off, evictCall vaddr s = some t → fns.evict t = .ok (f, s₁) →
    s₁.page f = some q → slotFor s₁.swapmap (s₁.entry q).swapOff = some off → s₁.stores io f off

/-- A file that stores bytes takes every page. -/
theorem Slotted.writtenOut (h : Slotted swapsize S s) (hfns : fns.Respectful) (file : ByteFile φ)
    (hM : Mapped none s) (hcard : S.card ≤ 2 ^ 24) (vaddr : Addr) :
    WrittenOut fns file.toFileOps vaddr s := by
  intro t f s₁ q off hcall hevict hq hslot
  obtain ⟨⟨_, hvalid, hfree⟩, rfl⟩ := evictCall_eq_some.mp hcall
  have h₁ := (slotted_initSecondLevel h (pgdirIndex vaddr)).policyStep (hfns.evict _ _ _ hevict)
  obtain ⟨hM₁, _⟩ := hfns.evict_full hM hfree hevict
  refine file.stores s₁ f ?_
  by_cases hnone : (s₁.entry q).swapOff = INVALID_SWAP
  · rw [slotFor, if_pos hnone] at hslot
    rcases Bitmap.bitmapAlloc_spec hM₁.swapmap with ⟨hfull, _⟩ | ⟨k, hsome, hk, _, _, hlow⟩
    · rw [hfull] at hslot
      cases hslot
    · rw [hsome] at hslot
      rw [h₁.nbits] at hk
      have hlt := h₁.lt_card (h₁.resident f q hq) hnone hk.le hlow
      rw [← Option.some.inj hslot, slotOffset_of_lt (by omega)]
      omega
  · obtain ⟨k, _, hk⟩ := h₁.slot q hnone
    cases (if_neg hnone).symm.trans hslot
    omega

/-- The slots along an access: none changes hands, or a page is evicted. -/
theorem Course.slots {t : Sim σ φ} (hc : Course fns io vaddr type s t) (hfns : fns.Respectful)
    (h : Mapped none s) (hdir : pgdirIndex vaddr < PTRS_PER_PGDIR) :
    evictCall vaddr s = none ∧ KeepsSlots s t ∨
    ∃ f s₁, evictCall vaddr s = some (initSecondLevel (pgdirIndex vaddr) s) ∧
      fns.evict (initSecondLevel (pgdirIndex vaddr) s) = .ok (f, s₁) ∧ Mapped none s₁ ∧
      s₁.page = s.page ∧ PagesOut io f s₁ t := by
  cases hc with
  | hit hvalid =>
    refine .inl ⟨by simp [evictCall, hvalid], Sim.swapmap_initSecondLevel _, fun q => ?_⟩
    rw [entry_hit]
    by_cases hq : q = pteOf vaddr
    · rw [if_pos hq, PgtblEntry.swapOff_mark, hq]
    · rw [if_neg hq]
  | free f hvalid hfree =>
    have hkeep := keepsSlots_load (initSecondLevel (pgdirIndex vaddr) s) (pteOf vaddr) f
      (s.entry (pteOf vaddr)).onswap vaddr type
    refine .inl ⟨by simp [evictCall, hfree], hkeep.1.trans (Sim.swapmap_initSecondLevel _), fun q => ?_⟩
    rw [hkeep.2, Sim.entry_initSecondLevel]
  | evict f q off s₁ s₂ u hvalid hfree hevict hpage hout hin =>
    obtain ⟨h₁, _, hall, hpages, _⟩ := hfns.evict_full h hfree hevict
    obtain ⟨hev, _⟩ := Evicted.of_stages h₁ hall hpage hout hin
    exact .inr ⟨f, s₁, evictCall_eq_some.mpr ⟨⟨hdir, hvalid, hfree⟩, rfl⟩, hevict, h₁, hpages,
      hev.pagesOut (keepsSlots_load ..)⟩

/-- An access keeps the slots in order if and only if the page that it evicts is written out. -/
theorem Course.slotted {t : Sim σ φ} (hc : Course fns io vaddr type s t) (hfns : fns.Respectful)
    (hM : Mapped none s) (h : Slotted swapsize S s) (hdir : pgdirIndex vaddr < PTRS_PER_PGDIR)
    (hcard : S.card ≤ 2 ^ 24) (hp : pteOf vaddr ∈ S) :
    (WrittenOut fns io vaddr s → Slotted swapsize S t) ∧
    (¬WrittenOut fns io vaddr s →
      ∃ k < swapsize, t.swapmap.isset k ∧ ∀ r, (t.entry r).swapOff ≠ k * 16) := by
  obtain ⟨f, u, ht, _, _, hpages⟩ := hc.arrived hfns hM
  have hresident := h.resident_arrived hp ht hpages
  rcases hc.slots hfns hM hdir with ⟨hnone, hkeep⟩ | ⟨f, s₁, hcall, hevict, hM₁, hpages₁, hout⟩
  · refine ⟨fun _ => h.congr hresident hkeep, fun hno => absurd ?_ hno⟩
    intro t f s₁ q off hcall
    rw [hnone] at hcall
    cases hcall
  · have h₁ := (slotted_initSecondLevel h (pgdirIndex vaddr)).policyStep (hfns.evict _ _ _ hevict)
    refine ⟨fun hwritten => h₁.pagesOut hresident hcard hout fun q off hq hslot =>
      hwritten _ f s₁ q off hcall hevict hq hslot, fun hno => ?_⟩
    simp only [WrittenOut, not_forall] at hno
    obtain ⟨t', f', s₁', q, off, hcall', hevict', hq, hslot, hstores⟩ := hno
    cases hcall.symm.trans hcall'
    cases hevict.symm.trans hevict'
    exact h₁.leaks hout hq hslot (Bool.eq_false_of_not_eq_true hstores)

/-! ## Consistency -/

/-- Page table and coremap: a frame in use belongs to exactly the valid entry that names it, no
entry is both valid and on swap, and a page is on swap only if memory is full. -/
structure Consistent (s : Sim σ φ) : Prop where
  owner : ∀ i q, (s.coremap i).inUse ∧ (s.coremap i).pte = some q ↔
    (s.entry q).valid ∧ (s.entry q).frameNo = i
  distinct : ∀ q r, (s.entry q).valid → (s.entry r).valid →
    (s.entry q).frameNo = (s.entry r).frameNo → q = r
  exclusive : ∀ q, ¬((s.entry q).valid ∧ (s.entry q).onswap)
  full : ∀ q, (s.entry q).onswap → ∀ i < s.memsize, (s.coremap i).inUse

/-- Page table and swap map: the pages with a slot have one each, and the bits of the map are those
of their slots. -/
structure SwapConsistent (swapsize : Nat) (s : Sim σ φ) : Prop where
  slot : ∀ q, (s.entry q).swapOff ≠ INVALID_SWAP → ∃ k < swapsize, (s.entry q).swapOff = 16 * k
  distinct : ∀ q r, (s.entry q).swapOff ≠ INVALID_SWAP →
    (s.entry q).swapOff = (s.entry r).swapOff → q = r
  bits : ∀ k < swapsize, s.swapmap.isset k ↔ ∃ q, (s.entry q).swapOff = 16 * k

theorem Mapped.consistent (h : Mapped none s) : Consistent s where
  owner i q := by
    rw [← h.backed i q (by simp)]
    constructor
    · rintro ⟨hu, hpte⟩
      simp [Sim.page, hu, hpte]
    · exact Mapped.inUse_of_page
  distinct q r hq hr heq := by
    have hpage := h.page_frameNo hq
    rw [heq, h.page_frameNo hr] at hpage
    exact (Option.some.inj hpage).symm
  exclusive q := by
    rintro ⟨hv, ho⟩
    rw [h.exclusive q hv] at ho
    cases ho
  full q hq i hi := h.full q hq i hi (by simp)

theorem Slotted.swapConsistent (h : Slotted swapsize S s) : SwapConsistent swapsize s where
  slot q hq := by simpa only [mul_comm] using h.slot q hq
  distinct := h.distinct
  bits k hk := by simpa only [mul_comm] using h.bits k hk

/-- One access: page table and coremap stay consistent whatever the file does, and the slots stay in
order if the page evicted is written out. Otherwise the swap map is not consistent any more. -/
theorem findPhyspage_slotted {a : Access} (hfns : fns.Respectful) (hans : Answered fns io a s)
    (hM : Mapped none s) (h : Slotted swapsize S s) (hv : a.vaddr.toNat < 2 ^ 36)
    (hcard : S.card ≤ 2 ^ 24) (hp : pteOf a.vaddr ∈ S) :
    ∃ s', findPhyspage fns io a.vaddr a.type s =
        .ok (physAddr (s'.entry (pteOf a.vaddr)).frameNo, s') ∧
      (s'.entry (pteOf a.vaddr)).valid ∧ s'.memsize = s.memsize ∧ Mapped none s' ∧
      (WrittenOut fns io a.vaddr s → Slotted swapsize S s') ∧
      (SwapConsistent swapsize s' → WrittenOut fns io a.vaddr s) := by
  obtain ⟨t, s', hc, href, hfind, hvalid, hmem, hM'⟩ :=
    hans.findPhyspage hfns hM (pgdirIndex_lt hv)
  have hstep := hfns.ref _ _ _ href
  obtain ⟨hkeeps, hleaks⟩ := hc.slotted hfns hM h (pgdirIndex_lt hv) hcard hp
  refine ⟨s', hfind, hvalid, hmem, hM', fun hwritten => (hkeeps hwritten).policyStep hstep, ?_⟩
  intro hswap
  by_contra hno
  obtain ⟨k, hk, hset, hfree⟩ := hleaks hno
  rw [← hstep.swapmap] at hset
  obtain ⟨q, hq⟩ := (hswap.bits k hk).mp hset
  exact hfree q ((hstep.entry q).swapOff.symm.trans (hq.trans (mul_comm ..)))

theorem accessMem_slotted {a : Access} (hfns : fns.Respectful) (hans : Answered fns io a s)
    (hM : Mapped none s) (h : Slotted swapsize S s) (hv : a.vaddr.toNat < 2 ^ 36)
    (hcard : S.card ≤ 2 ^ 24) (hp : pteOf a.vaddr ∈ S) (hwritten : WrittenOut fns io a.vaddr s) :
    ∃ s', accessMem fns io a s = .ok s' ∧ Mapped none s' ∧ Slotted swapsize S s' := by
  obtain ⟨s', hfind, hvalid, _, hM', hslots, _⟩ :=
    findPhyspage_slotted hfns hans hM h hv hcard hp
  obtain ⟨stderr, hacc⟩ :=
    accessMem_of_findPhyspage hfind (hM'.physSize_le (hM'.frameNo_lt hvalid))
  exact ⟨_, hacc, hM'.store _ stderr, (hslots hwritten).congr (hslots hwritten).resident
    ⟨rfl, fun _ => rfl⟩⟩

section

variable {m : Nat} {physmem : Memory} {fd : φ} {alg : σ} {trace : List Access}

/-- After every `find_physpage` of a run, whatever the file does and whichever frames the
replacement algorithm picks, page table and coremap are consistent. No assertion fails on the
way. -/
theorem findPhyspage_consistent {a : Access}
    (hfns : fns.Answers io m swapsize physmem fd alg (trace ++ [a])) (hm : 1 ≤ m ∧ m ≤ 2 ^ 20)
    (hswap : swapsize < 2 ^ 32) (hrange : ∀ b ∈ trace ++ [a], b.vaddr.toNat < 2 ^ 36) :
    ∃ s ptr s', simulate fns io m swapsize physmem fd alg trace = .ok s ∧
      findPhyspage fns io a.vaddr a.type s = .ok (ptr, s') ∧ Consistent s' := by
  obtain ⟨s, hs⟩ := simulate_ok hfns.before hm.2 hswap fun b hb => hrange b (by simp [hb])
  obtain ⟨hM, _⟩ := simulate_mapped hfns.toRespectful hm.2 hswap hs
  obtain ⟨_, s', _, _, hfind, _, _, hM'⟩ := (hfns.last hs).findPhyspage hfns.toRespectful hM
    (pgdirIndex_lt (hrange a (by simp)))
  exact ⟨s, _, s', hs, hfind, hM'.consistent⟩

/-- A run begins with the slots in order. -/
theorem slotted_start (hfns : fns.Respectful) (io : FileOps φ) (hm : m ≤ 2 ^ 20)
    (hswap : swapsize < 2 ^ 32) (physmem : Memory) (fd : φ) (alg : σ) :
    ∃ s, simulate fns io m swapsize physmem fd alg [] = .ok s ∧ Mapped none s ∧
      Slotted swapsize S s := by
  obtain ⟨bm, hnbits, hclear, hs, hM, _⟩ := simulate_nil hfns io hm hswap physmem fd alg
  exact ⟨_, hs, hM, (Slotted.zero hnbits hclear).policyStep (hfns.init _)⟩

/-- After every `find_physpage` of a run page table, coremap and swap map are consistent, if and only
if no `lseek` and no `write` for a page evicted fails in the run. -/
theorem findPhyspage_consistent_iff (hfns : fns.Answers io m swapsize physmem fd alg trace)
    (hm : 1 ≤ m ∧ m ≤ 2 ^ 20) (hswap : swapsize < 2 ^ 32)
    (hrange : ∀ b ∈ trace, b.vaddr.toNat < 2 ^ 36) :
    (∀ as a, as ++ [a] <+: trace → ∃ s ptr s',
      simulate fns io m swapsize physmem fd alg as = .ok s ∧
      findPhyspage fns io a.vaddr a.type s = .ok (ptr, s') ∧
      Consistent s' ∧ SwapConsistent swapsize s') ↔
    ∀ as a, as ++ [a] <+: trace → ∃ s,
      simulate fns io m swapsize physmem fd alg as = .ok s ∧ WrittenOut fns io a.vaddr s := by
  have hmem : ∀ {as a}, as ++ [a] <+: trace → a.vaddr.toNat < 2 ^ 36 :=
    fun h => hrange _ (h.subset (by simp))
  refine forall_steps_iff (K := fun as => ∃ s, simulate fns io m swapsize physmem fd alg as = .ok s ∧
    Mapped none s ∧ Slotted swapsize directory s) ?_ ?_ ?_
  · exact slotted_start hfns.toRespectful io hm.2 hswap physmem fd alg
  · rintro as a ha ⟨s, hs, hM, hslots⟩
    obtain ⟨s', hfind, _, _, hM', hslots', hwritten⟩ := findPhyspage_slotted hfns.toRespectful
      (hfns.answers as a ha s hs) hM hslots (hmem ha) card_directory
      (mem_directory (pgdirIndex_lt (hmem ha)))
    constructor
    · rintro ⟨s₂, _, s₂', hs₂, hfind₂, _, hswap⟩
      cases hs.symm.trans hs₂
      cases hfind.symm.trans hfind₂
      exact ⟨s, hs, hwritten hswap⟩
    · rintro ⟨s₂, hs₂, hw⟩
      cases hs.symm.trans hs₂
      exact ⟨s, _, s', hs, hfind, hM'.consistent, (hslots' hw).swapConsistent⟩
  · rintro as a ha ⟨s, hs, hM, hslots⟩ ⟨s₂, hs₂, hw⟩
    cases hs.symm.trans hs₂
    obtain ⟨s', hacc, hM', hslots'⟩ := accessMem_slotted hfns.toRespectful
      (hfns.answers as a ha s hs) hM hslots (hmem ha) card_directory
      (mem_directory (pgdirIndex_lt (hmem ha))) hw
    exact ⟨s', by rw [simulate_concat, hs, ok_bind, hacc], hM', hslots'⟩

/-- Three pages through one frame, with random replacement and a slot for one of them. -/
theorem findPhyspage_consistent_iff_rand :
    (∀ as a, as ++ [a] <+: [⟨'S', 0x1000⟩, ⟨'L', 0x2000⟩, ⟨'L', 0x1000⟩] → ∃ s ptr s',
      simulate rand regularFile.toFileOps 1 1 (fun _ => 0) .empty ⟨fun n => n, 0⟩ as = .ok s ∧
      findPhyspage rand regularFile.toFileOps a.vaddr a.type s = .ok (ptr, s') ∧
      Consistent s' ∧ SwapConsistent 1 s') ↔
    ∀ as a, as ++ [a] <+: [⟨'S', 0x1000⟩, ⟨'L', 0x2000⟩, ⟨'L', 0x1000⟩] → ∃ s,
      simulate rand regularFile.toFileOps 1 1 (fun _ => 0) .empty ⟨fun n => n, 0⟩ as = .ok s ∧
      WrittenOut rand regularFile.toFileOps a.vaddr s :=
  findPhyspage_consistent_iff (rand_chooses.answers _ (by decide) (by decide) _ _ _ _) (by decide)
    (by decide) (by decide)

/-- A swap file on a full disk: `write` fails. -/
def fullDisk : FileOps OpenFile :=
  { regularFile.toFileOps with write := fun fd _ => (none, fd) }

/-- The page that the second access evicts gets a slot and is not written there. The bit stays set,
and no page has the slot. -/
theorem findPhyspage_leaks_slot :
    ∃ s ptr s', simulate rand fullDisk 1 1 (fun _ => 0) .empty ⟨fun n => n, 0⟩ [⟨'S', 0x1000⟩] =
        .ok s ∧
      findPhyspage rand fullDisk 0x2000 'S' s = .ok (ptr, s') ∧ ¬SwapConsistent 1 s' := by
  have hfns : (rand : Functions Random OpenFile).Answers fullDisk 1 1 (fun _ => 0) .empty
      ⟨fun n => n, 0⟩ [⟨'S', 0x1000⟩, ⟨'S', 0x2000⟩] :=
    rand_chooses.answers _ (by decide) (by decide) _ _ _ _
  obtain ⟨s₀, hs₀, hM₀, hslots₀⟩ := slotted_start (S := directory) hfns.toRespectful fullDisk
    (show 1 ≤ 2 ^ 20 by decide) (show 1 < 2 ^ 32 by decide) (fun _ => 0) .empty ⟨fun n => n, 0⟩
  have hfirst : (simulate rand fullDisk 1 1 (fun _ => 0) .empty ⟨fun n => n, 0⟩ [] >>= fun s =>
      .ok (evictCall 0x1000 s).isSome) = .ok false := by decide +kernel
  have hsecond : (simulate rand fullDisk 1 1 (fun _ => 0) .empty ⟨fun n => n, 0⟩ [⟨'S', 0x1000⟩] >>=
      fun s => rand.evict (initSecondLevel (pgdirIndex 0x2000) s) >>= fun r =>
      .ok ((evictCall 0x2000 s).isSome, r.2.page r.1, slotFor r.2.swapmap (r.2.entry ⟨0, 1⟩).swapOff,
        r.2.stores fullDisk r.1 0)) = .ok (true, some ⟨0, 1⟩, some 0, false) := by decide +kernel
  rw [hs₀] at hfirst
  have hwritten : WrittenOut rand fullDisk 0x1000 s₀ := by
    intro t f s₁ q off hcall
    rw [ok_bind, hcall] at hfirst
    cases hfirst
  have hv : (0x1000 : Addr).toNat < 2 ^ 36 ∧ (0x2000 : Addr).toNat < 2 ^ 36 := by decide
  obtain ⟨s, hacc, hM, hslots⟩ := accessMem_slotted (a := ⟨'S', 0x1000⟩) hfns.toRespectful
    (hfns.answers [] ⟨'S', 0x1000⟩ ⟨_, rfl⟩ _ hs₀) hM₀ hslots₀ hv.1 card_directory
    (mem_directory (pgdirIndex_lt hv.1)) hwritten
  have hs : simulate rand fullDisk 1 1 (fun _ => 0) .empty ⟨fun n => n, 0⟩ [⟨'S', 0x1000⟩] = .ok s := by
    rw [← List.nil_append [_], simulate_concat, hs₀, ok_bind, hacc]
  obtain ⟨s', hfind, _, _, _, _, hconsistent⟩ := findPhyspage_slotted (a := ⟨'S', 0x2000⟩)
    hfns.toRespectful (hfns.answers [⟨'S', 0x1000⟩] ⟨'S', 0x2000⟩ ⟨_, rfl⟩ s hs) hM hslots hv.2
    card_directory (mem_directory (pgdirIndex_lt hv.2))
  refine ⟨s, _, s', hs, hfind, fun hswap => ?_⟩
  rw [hs, ok_bind] at hsecond
  obtain ⟨⟨f, s₁⟩, hevict, heq⟩ := bind_eq_ok.mp hsecond
  obtain ⟨hcall, hpage, hslot, hno⟩ : (evictCall 0x2000 s).isSome = true ∧
      s₁.page f = some ⟨0, 1⟩ ∧ slotFor s₁.swapmap (s₁.entry ⟨0, 1⟩).swapOff = some 0 ∧
      s₁.stores fullDisk f 0 = false := by
    simpa using heq
  obtain ⟨t, ht⟩ := Option.isSome_iff_exists.mp hcall
  obtain ⟨_, rfl⟩ := evictCall_eq_some.mp ht
  have hstores := hconsistent hswap _ f s₁ ⟨0, 1⟩ 0 ht hevict hpage hslot
  rw [hno] at hstores
  cases hstores

end

end Paging

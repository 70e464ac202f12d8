-- SUMMARY: Paging is transparent: the simulator refines a flat memory, as long as the swap map has its words.
import OperatingSystems.Paging.Contents
import OperatingSystems.Paging.Course

/-!
# Transparency

With a slot for each page, a file that stores bytes and any replacement algorithm, an access gives
the frame of its page with the page's own bytes in it. The slots are there only if the number of
words of the swap map did not wrap to zero.
-/

namespace Paging

open Library Library.Run

variable {σ φ : Type} {s s' t u : Sim σ φ} {p q : PtePtr} {f k n swapsize : Nat}
  {S : Finset PtePtr} {file : ByteFile φ} {M : FlatMemory} {fns : Functions σ φ} {vaddr : Addr}
  {type : Char}

/-! ## One access -/

theorem physmem_place {onswap : Bool} :
    (place onswap p f vaddr s).physmem = if onswap then s.physmem else
      (s.physmem.store (physAddr f) zeroPage).store (physAddr f + 4) (leBytes 8 vaddr.toNat) := by
  cases onswap <;> rfl

namespace Retains

/-- A page in memory is touched in its place. -/
theorem hit (h : Retains file M s) (hmap : Mapped none s) (hvalid : (s.entry p).valid) {hits : Nat}
    {idx : Nat} :
    Retains file (Function.update M p (some ((M p).getD 0)))
      (touched p vaddr type { initSecondLevel idx s with hitCount := hits }) := by
  obtain ⟨n, hn⟩ := h.mem_of_valid hvalid
  have hmem : (touched p vaddr type { initSecondLevel idx s with hitCount := hits }).physmem =
      s.physmem := Sim.physmem_initSecondLevel idx
  rw [hn]
  refine h.land (f := (s.entry p).frameNo) ?_ ?_ ?_ ?_ ?_ ?_
  · intro r hr
    rw [entry_hit, if_neg hr]
  · rw [entry_hit, if_pos rfl, PgtblEntry.valid_mark]
  · rw [entry_hit, if_pos rfl, PgtblEntry.frameNo_mark]
  · intro r _ _
    rw [hmem]
  · rw [hmem]
    exact h.load_of_valid hmap hvalid hn
  · exact Sim.swapfd_initSecondLevel idx

/-- A page moves into a frame: filled by `init_frame` on the first touch, else with the bytes that
are in the frame already. -/
theorem load (h : Retains file M u) (hmap : Mapped (some f) u) (hf : f < u.memsize) {onswap : Bool}
    (haddr : addrOf p = vaddr.toNat)
    (hbytes : if onswap then u.physmem.load (physAddr f) SIMPAGESIZE = pageImage (addrOf p) n
      else n = 0) :
    Retains file (Function.update M p (some n))
      (touched p vaddr type (place onswap p f vaddr (record p f u))) := by
  have hmem : (touched p vaddr type (place onswap p f vaddr (record p f u))).physmem =
      if onswap then u.physmem else
        (u.physmem.store (physAddr f) zeroPage).store (physAddr f + 4) (leBytes 8 vaddr.toNat) :=
    physmem_place
  refine h.land (f := f) ?_ ?_ ?_ ?_ ?_ ?_
  · intro r hr
    rw [entry_load, if_neg hr]
  · rw [entry_load, if_pos rfl, PgtblEntry.valid_mark]
  · rw [entry_load, if_pos rfl, PgtblEntry.frameNo_mark]
    have hf20 : f < 2 ^ 20 := lt_of_lt_of_le hf hmap.memsize_le
    cases onswap <;> simp [PgtblEntry.frameNo_place hf20]
  · intro r _ hv
    rw [hmem]
    cases onswap with
    | true => rfl
    | false => exact hmap.load_initFrame_vacant hf hv vaddr.toNat
  · rw [hmem]
    cases onswap with
    | true => exact hbytes
    | false =>
      simp only [Bool.false_eq_true, if_false] at hbytes ⊢
      rw [load_initFrame, hbytes, haddr]
  · exact swapfd_place

/-- `swap_pageout` keeps the victim, or finds no slot for it. -/
theorem pageout (h : Retains file M s) (hslots : Slotted swapsize S s) (hmap : Mapped none s)
    (hpage : s.page f = some q) (hall : ∀ i < s.memsize, (s.coremap i).inUse)
    (hcard : S.card ≤ 2 ^ 24) {off : Int}
    (hout : swapPageout file.toFileOps f (toInt (s.entry q).swapOff) s = .ok (off, t)) :
    Mapped (some f) (markSwapped q off t) ∧ f < (markSwapped q off t).memsize ∧
      (∀ r, r ≠ q → (markSwapped q off t).entry r = s.entry r) ∧
      (Retains file M (markSwapped q off t) ∧ (markSwapped q off t).stderr = s.stderr ∨
        (s.entry q).swapOff = INVALID_SWAP ∧ (∀ k < 32 * s.swapmap.v.length, s.swapmap.isset k) ∧
          Retains file (Function.update M q none) (markSwapped q off t)) := by
  have hvalid := ((hmap.backed f q (by simp)).mp hpage).1
  rcases swapPageout_cases file hmap hslots hpage hcard with
    ⟨k, bm, fd, hout', hbm, htoInt, hsize, hbytes, hslot⟩ | ⟨hoff, hfull, stderr, hout'⟩
  · cases hout.symm.trans hout'
    refine ⟨hmap.evict hpage hall hbm htoInt fd s.stderr, ?_, ?_, ?_⟩
    · rw [memsize_markSwapped]
      exact hmap.page_lt hpage
    · intro r hr
      rw [entry_markSwapped, if_neg hr]
      rfl
    · exact .inl ⟨h.evict hmap hpage bm hsize hbytes hslot,
        stderr_markSwapped _ (slot_ne_invalid k)⟩
  · cases hout.symm.trans hout'
    refine ⟨hmap.evict hpage hall hmap.swapmap toInt_invalid s.swapfd stderr, ?_, ?_, ?_⟩
    · rw [memsize_markSwapped]
      exact hmap.page_lt hpage
    · intro r hr
      rw [entry_markSwapped, if_neg hr]
      rfl
    · exact .inr ⟨hoff, hfull, h.lose hvalid stderr⟩

/-- `swap_pagein` brings in the bytes of the page that moves in, if it has a slot. -/
theorem fetch (h : Retains file M u) (hmap : Mapped (some f) u) (hf : f < u.memsize)
    (hvalid : (u.entry p).valid = false) :
    ∃ physmem fd, fetchPage file.toFileOps f p u =
        .ok { u with physmem := physmem, swapfd := fd } ∧
      Retains file M { u with physmem := physmem, swapfd := fd } ∧
      file.size fd = file.size u.swapfd ∧ file.bytes fd = file.bytes u.swapfd ∧
      (∀ r, (u.entry r).valid → physmem.load (physAddr (u.entry r).frameNo) SIMPAGESIZE =
        u.physmem.load (physAddr (u.entry r).frameNo) SIMPAGESIZE) ∧
      ((u.entry p).swapOff ≠ INVALID_SWAP → ∃ n, M p = some n ∧
        physmem.load (physAddr f) SIMPAGESIZE = pageImage (addrOf p) n) := by
  by_cases hslot : (u.entry p).swapOff = INVALID_SWAP
  · exact ⟨u.physmem, u.swapfd, fetchPage_none _ hslot, h, rfl, rfl, fun _ _ => rfl,
      fun hne => absurd hslot hne⟩
  · cases hM : M p with
    | none => exact absurd (h.absent p hM).2 hslot
    | some n =>
      cases h.held p n hM with
      | inMemory hv _ =>
        rw [hvalid] at hv
        cases hv
      | onSwap k hswap hoff hsz hload =>
        obtain ⟨fd, hin, hsize, hbytes⟩ :=
          fetchPage_file file (hmap.physSize_le hf) hoff (hmap.swapOff p) hsz
        have hlen : ((file.bytes u.swapfd).load (k * 16) SIMPAGESIZE).length = SIMPAGESIZE :=
          Memory.length_load
        exact ⟨_, fd, hin, h.fill hmap hf hlen hsize hbytes, hsize, hbytes,
          fun r hr => hmap.load_store_vacant hf hr hlen,
          fun _ => ⟨n, rfl, (Memory.load_store_eq hlen).trans hload⟩⟩

/-- The page that moves into a frame after an eviction has its bytes there, unless it is on swap
without a slot. -/
theorem arrive (h : Retains file M s) (hmap : Mapped (some f) s) (hf : f < s.memsize)
    (hvalid : (s.entry p).valid = false)
    (hfound : ¬s.lost p)
    (haddr : addrOf p = vaddr.toNat) (hin : fetchPage file.toFileOps f p s = .ok u) (type : Char) :
    Retains file (Function.update M p (some ((M p).getD 0)))
      (touched p vaddr type (place (s.entry p).onswap p f vaddr (record p f u))) ∧
      u.stderr = s.stderr := by
  obtain ⟨physmem, fd, hin', h', _, _, _, hbytes⟩ := h.fetch hmap hf hvalid
  cases hin.symm.trans hin'
  refine ⟨h'.load (hmap.congr rfl rfl (fun _ => ⟨rfl, rfl⟩) rfl) hf haddr ?_, rfl⟩
  cases hswap : (s.entry p).onswap with
  | true =>
    obtain ⟨n, hn, hload⟩ := hbytes fun hoff => hfound ⟨hswap, hoff⟩
    rw [hn]
    exact hload
  | false =>
    rw [h.eq_none hvalid hswap]
    rfl

end Retains

/-- Where an access goes, the page accessed has its bytes in its frame afterwards, unless it was on
swap without a slot. A page that is evicted is kept, or is lost because no slot was left for it. -/
theorem Course.retains (hc : Course fns file.toFileOps vaddr type s t) (hfns : fns.Respectful)
    (hslots : Slotted swapsize S s) (hmap : Mapped none s) (h : Retains file M s)
    (hcard : S.card ≤ 2 ^ 24) (haddr : addrOf (pteOf vaddr) = vaddr.toNat)
    (hfound : ¬s.lost (pteOf vaddr)) :
    Retains file (Function.update M (pteOf vaddr) (some ((M (pteOf vaddr)).getD 0))) t ∧
      t.stderr = s.stderr ∨
    (s.entry (pteOf vaddr)).valid = false ∧ findFree s = none ∧
      ∃ q, q ≠ pteOf vaddr ∧ (s.entry q).valid ∧ q ∈ S ∧ (s.entry q).swapOff = INVALID_SWAP ∧
      (∀ k < 32 * s.swapmap.v.length, s.swapmap.isset k) ∧
      Retains file (Function.update (Function.update M q none) (pteOf vaddr)
        (some ((M (pteOf vaddr)).getD 0))) t := by
  have h₀ : Retains file M (initSecondLevel (pgdirIndex vaddr) s) :=
    h.congr (fun q => by rw [Sim.entry_initSecondLevel]; exact .refl _)
      (Sim.physmem_initSecondLevel _) (Sim.swapfd_initSecondLevel _)
  have hmap₀ := mapped_initSecondLevel hmap (pgdirIndex vaddr)
  cases hc with
  | hit hvalid => exact .inl ⟨h.hit hmap hvalid, Sim.stderr_initSecondLevel _⟩
  | free f hvalid hfree =>
    obtain ⟨hlt, hunused, _⟩ := findFree_eq_some.mp hfree
    -- A page on swap would mean that all frames are in use.
    have hswap : (s.entry (pteOf vaddr)).onswap = false := by
      cases hon : (s.entry (pteOf vaddr)).onswap with
      | false => rfl
      | true =>
        rw [hmap.full _ hon f hlt (by simp)] at hunused
        cases hunused
    rw [hswap, h.eq_none hvalid hswap]
    refine .inl ⟨h₀.load (hmap₀.vacate (by rw [Sim.coremap_initSecondLevel]; exact hunused))
      (by rw [Sim.memsize_initSecondLevel]; exact hlt) haddr rfl, ?_⟩
    exact stderr_place.trans (Sim.stderr_initSecondLevel _)
  | evict f q off s₁ s₂ u hvalid hfree hevict hpage hout hin =>
    obtain ⟨hmap₁, hmem₁, hall, _, hentry⟩ := hfns.evict_full hmap hfree hevict
    have hstep := hfns.evict _ _ _ hevict
    have hslots₁ := (slotted_initSecondLevel hslots (pgdirIndex vaddr)).policyStep hstep
    have h₁ := h₀.policyStep hstep
    obtain ⟨hq, _⟩ := (hmap₁.backed f q (by simp)).mp hpage
    have hpq := hmap₁.ne_of_page hpage ((hentry _).valid.trans hvalid)
    obtain ⟨hmap₂, hlt, hothers, hkept⟩ := h₁.pageout hslots₁ hmap₁ hpage hall hcard hout
    obtain ⟨hvalid₂, hfound₂, honswap⟩ := absent_congr (hothers _ hpq) (hentry _) hvalid hfound
    rw [← honswap]
    rcases hkept with ⟨h₂, hstderr⟩ | ⟨hoff, hfull, h₂⟩
    · obtain ⟨harrive, hstderr'⟩ := h₂.arrive hmap₂ hlt hvalid₂ hfound₂ haddr hin type
      exact .inl ⟨harrive, stderr_place.trans (hstderr'.trans (hstderr.trans
        (hstep.stderr.trans (Sim.stderr_initSecondLevel _))))⟩
    · obtain ⟨harrive, _⟩ := h₂.arrive hmap₂ hlt hvalid₂ hfound₂ haddr hin type
      rw [Function.update_of_ne hpq] at harrive
      rw [hstep.swapmap, Sim.swapmap_initSecondLevel] at hfull
      exact .inr ⟨hvalid, hfree, q, hpq.symm, (hentry q).valid ▸ hq,
        hslots₁.resident f q hpage, (hentry q).swapOff ▸ hoff, hfull, harrive⟩

/-- With a slot for each page nothing is lost, and nothing is printed. -/
theorem Course.refines (hc : Course fns file.toFileOps vaddr type s t) (hfns : fns.Respectful)
    (hslots : Slotted swapsize S s) (hmap : Mapped none s) (h : Refines file M s)
    (hcard : S.card ≤ swapsize) (hcard' : S.card ≤ 2 ^ 24)
    (hwords : findFree s = none → (s.entry (pteOf vaddr)).valid = false → swapsize + 31 < 2 ^ 32)
    (haddr : addrOf (pteOf vaddr) = vaddr.toNat) :
    Refines file (Function.update M (pteOf vaddr) (some ((M (pteOf vaddr)).getD 0))) t := by
  rcases hc.retains hfns hslots hmap h.retains hcard' haddr (h.not_lost hmap _) with
    ⟨hretains, hstderr⟩ | ⟨hvalid, hfree, q, _, _, hq, hoff, hfull, _⟩
  · refine h.of_retains hretains ?_ hstderr
    intro r hr
    have hrp : r ≠ pteOf vaddr := by
      rintro rfl
      rw [Function.update_self] at hr
      cases hr
    rw [Function.update_of_ne hrp] at hr
    have hknown := (hc.flags_ne hfns hmap hrp).1
    simp only [Sim.known, (h.untouched r hr).1, (h.untouched r hr).2.1, Bool.or_false,
      Bool.or_eq_false_iff] at hknown
    exact hknown.2
  · -- All slots would be taken, by fewer pages than there are slots.
    have hwords' := hmap.swapmap.nbits_le (by rw [hslots.nbits]; exact hwords hfree hvalid)
    rw [hslots.nbits] at hwords'
    have hlt := hslots.lt_card hq hoff (le_refl swapsize) (fun j hj => hfull j (by omega))
    omega

/-- One access: `find_physpage` returns the frame of the page, and all pages keep their bytes. -/
theorem findPhyspage_refines {a : Access} (hfns : fns.Respectful)
    (hans : Answered fns file.toFileOps a s) (hslots : Slotted swapsize S s)
    (hmap : Mapped none s) (h : Refines file M s)
    (hv : a.vaddr.toNat < 2 ^ 36) (halign : a.vaddr.toNat % 4096 = 0) (hp : pteOf a.vaddr ∈ S)
    (hcard : S.card ≤ swapsize) (hcard' : S.card ≤ 2 ^ 24)
    (hwords : findFree s = none → (s.entry (pteOf a.vaddr)).valid = false →
      swapsize + 31 < 2 ^ 32) :
    ∃ s', findPhyspage fns file.toFileOps a.vaddr a.type s =
        .ok (physAddr (s'.entry (pteOf a.vaddr)).frameNo, s') ∧
      (s'.entry (pteOf a.vaddr)).valid ∧ s'.memsize = s.memsize ∧ Mapped none s' ∧
      Slotted swapsize S s' ∧
      Refines file
        (Function.update M (pteOf a.vaddr) (some ((M (pteOf a.vaddr)).getD 0))) s' := by
  obtain ⟨s', hfind, hvalid', hmem', hmap', hslots', _⟩ :=
    findPhyspage_slotted hfns hans hmap hslots hv hcard' hp
  obtain ⟨t, hc, href, _⟩ := course_of_findPhyspage hfns hmap hfind
  exact ⟨s', hfind, hvalid', hmem', hmap',
    hslots' (hslots.writtenOut hfns file hmap hcard' a.vaddr),
    (hc.refines hfns hslots hmap h hcard hcard' hwords
      (addrOf_pteOf hv halign)).policyStep (hfns.ref _ _ _ href)⟩

/-- The next version counter is stored in the frame of the page. -/
theorem Retains.write (h : Retains file M s) (hmap : Mapped none s) (hvalid : (s.entry p).valid)
    (hn : M p = some n) :
    Retains file (Function.update M p (some (n + 1))) { s with
      physmem := s.physmem.store (physAddr (s.entry p).frameNo) (leBytes 4 (n % 2 ^ 32 + 1)) } := by
  have hload := h.load_of_valid hmap hvalid hn
  refine h.land (fun _ _ => rfl) hvalid rfl ?_ (load_store_version hload) rfl
  intro r hr hv
  exact hmap.load_store_frame hvalid hv hr (by simp [SIMPAGESIZE])

/-- An access of flat memory: the page is there from its first access on, and a write counts. -/
def FlatMemory.access (a : Access) (M : FlatMemory) : FlatMemory :=
  Function.update M (pteOf a.vaddr)
    (some (if isWrite a.type then (M (pteOf a.vaddr)).getD 0 + 1 else (M (pteOf a.vaddr)).getD 0))

/-- `access_mem` does to the pages what an access of flat memory does. -/
theorem Retains.access {a : Access} (h : Retains file
      (Function.update M (pteOf a.vaddr) (some ((M (pteOf a.vaddr)).getD 0))) s)
    (hmap : Mapped none s) (hvalid : (s.entry (pteOf a.vaddr)).valid) (stderr : List String) :
    Retains file (M.access a) { s with physmem := stored a s, stderr := stderr } := by
  have hversion := version_of_load (h.load_of_valid hmap hvalid (Function.update_self ..))
  unfold FlatMemory.access stored
  cases isWrite a.type with
  | false => exact h.congr (fun _ => .refl _) rfl rfl
  | true =>
    have hwrite := h.write hmap hvalid (Function.update_self ..)
    rw [Function.update_idem] at hwrite
    simp only [if_true, hversion]
    exact hwrite.congr (fun _ => .refl _) rfl rfl

/-- With the right address in the frame, nothing is printed. -/
theorem accessMem_refines {a : Access} (hmap : Mapped none s')
    (hvalid : (s'.entry (pteOf a.vaddr)).valid)
    (hfind : findPhyspage fns file.toFileOps a.vaddr a.type s =
      .ok (physAddr (s'.entry (pteOf a.vaddr)).frameNo, s'))
    (h : Refines file
      (Function.update M (pteOf a.vaddr) (some ((M (pteOf a.vaddr)).getD 0))) s')
    (hv : a.vaddr.toNat < 2 ^ 36) (halign : a.vaddr.toNat % 4096 = 0) :
    s'.checkaddr (physAddr (s'.entry (pteOf a.vaddr)).frameNo) = a.vaddr.toNat ∧
      s'.version (physAddr (s'.entry (pteOf a.vaddr)).frameNo) =
        (M (pteOf a.vaddr)).getD 0 % 2 ^ 32 ∧
      ∃ physmem, accessMem fns file.toFileOps a s = .ok { s' with physmem := physmem } ∧
        Refines file (M.access a) { s' with physmem := physmem } := by
  have hload := h.retains.load_of_valid hmap hvalid (Function.update_self ..)
  rw [addrOf_pteOf hv halign] at hload
  have hcheck := checkaddr_of_load hload (by omega)
  refine ⟨hcheck, version_of_load hload, stored a s', ?_, ?_⟩
  · have hneed := need_of (e := .outOfBounds) (hmap.physSize_le (hmap.frameNo_lt hvalid))
    simp only [accessMem, hfind, ok_bind, hneed, hcheck, ne_eq, not_true_eq_false, if_false, stored]
    cases isWrite a.type with
    | false => rfl
    | true => rfl
  · refine h.of_retains (h.retains.access hmap hvalid s'.stderr) ?_ rfl
    intro r hr
    have hrp : r ≠ pteOf a.vaddr := by
      rintro rfl
      rw [FlatMemory.access, Function.update_self] at hr
      cases hr
    rw [FlatMemory.access, Function.update_of_ne hrp] at hr
    exact (h.untouched r (by rw [Function.update_of_ne hrp]; exact hr)).2.1

/-! ## Runs -/

/-- The pages that a trace accesses. -/
def pages (trace : List Access) : Finset PtePtr := (trace.map fun a => pteOf a.vaddr).toFinset

/-- How often a trace writes to the page of an address. -/
def writes (trace : List Access) (vaddr : Addr) : Nat :=
  trace.countP fun b => isWrite b.type && pteOf b.vaddr = pteOf vaddr

/-- Flat memory after a trace. -/
def flat (trace : List Access) : FlatMemory := trace.foldl (fun M a => M.access a) fun _ => none

theorem pages_concat (trace : List Access) (a : Access) :
    pages (trace ++ [a]) = insert (pteOf a.vaddr) (pages trace) := by
  ext q
  simp [pages]

theorem pages_concat_of_mem {trace : List Access} {a : Access} (h : pteOf a.vaddr ∈ pages trace) :
    pages (trace ++ [a]) = pages trace := by
  rw [pages_concat, Finset.insert_eq_of_mem h]

theorem card_pages_concat {trace : List Access} {a : Access} (h : pteOf a.vaddr ∉ pages trace) :
    (pages (trace ++ [a])).card = (pages trace).card + 1 := by
  rw [pages_concat, Finset.card_insert_of_notMem h]

theorem pages_mono {as trace : List Access} (h : as <+: trace) : pages as ⊆ pages trace := by
  intro q hq
  obtain ⟨a, ha, rfl⟩ := List.mem_map.mp (List.mem_toFinset.mp hq)
  exact List.mem_toFinset.mpr (List.mem_map.mpr ⟨a, h.subset ha, rfl⟩)

theorem card_pages_le (trace : List Access) (a : Access) :
    (pages trace).card ≤ (pages (trace ++ [a])).card :=
  Finset.card_le_card (pages_mono (List.prefix_append trace [a]))

theorem pages_card_le_iff {trace : List Access} {n : Nat} :
    (∀ as a, as ++ [a] <+: trace → (pages (as ++ [a])).card ≤ n) ↔ (pages trace).card ≤ n := by
  constructor
  · intro h
    rcases List.eq_nil_or_concat' trace with rfl | ⟨as, a, rfl⟩
    · exact Nat.zero_le _
    · exact h as a List.prefix_rfl
  · intro h as a ha
    exact (Finset.card_le_card (pages_mono ha)).trans h

theorem pages_subset_directory {trace : List Access}
    (h : ∀ a ∈ trace, a.vaddr.toNat < 2 ^ 36) : pages trace ⊆ directory := by
  intro q hq
  obtain ⟨a, ha, rfl⟩ := List.mem_map.mp (List.mem_toFinset.mp hq)
  exact mem_directory (pgdirIndex_lt (h a ha))

theorem flat_concat (trace : List Access) (a : Access) :
    flat (trace ++ [a]) = (flat trace).access a := by simp [flat]

/-- The version counters of flat memory count the writes. -/
theorem flat_getD (trace : List Access) (vaddr : Addr) :
    (flat trace (pteOf vaddr)).getD 0 = writes trace vaddr := by
  induction trace using List.reverseRecOn with
  | nil => rfl
  | append_singleton trace a ih =>
    have hwrites : writes (trace ++ [a]) vaddr = writes trace vaddr +
        if isWrite a.type && pteOf a.vaddr = pteOf vaddr then 1 else 0 := by
      simp [writes, List.countP_append, List.countP_singleton]
    rw [flat_concat, hwrites, FlatMemory.access]
    by_cases hp : pteOf a.vaddr = pteOf vaddr
    · rw [hp, Function.update_self, ih]
      cases isWrite a.type <;> simp
    · rw [Function.update_of_ne (Ne.symm hp), ih]
      simp [hp]

/-- When memory is full and the page is not in it, there are more pages than frames. -/
theorem memsize_lt_card (hmap : Mapped none s) (hslots : Slotted swapsize S s) (hp : p ∈ S)
    (hfull : findFree s = none) (hvalid : (s.entry p).valid = false) : s.memsize < S.card := by
  have hpage : ∀ i : Nat, ∃ q, i < s.memsize → s.page i = some q := by
    intro i
    by_cases hi : i < s.memsize
    · obtain ⟨q, hq⟩ := hmap.page_of_inUse (findFree_eq_none.mp hfull i hi)
      exact ⟨q, fun _ => hq⟩
    · exact ⟨p, fun hi' => absurd hi' hi⟩
  choose page hpage using hpage
  have hmaps : Set.MapsTo page (Finset.range s.memsize) (S.erase p) := by
    intro i hi
    have hq := hpage i (by simpa using hi)
    refine Finset.mem_coe.mpr (Finset.mem_erase.mpr ⟨?_, hslots.resident i _ hq⟩)
    intro heq
    have hv := ((hmap.backed i _ (by simp)).mp hq).1
    rw [heq, hvalid] at hv
    cases hv
  have hinj : Set.InjOn page (Finset.range s.memsize) := by
    intro i hi j hj heq
    have hqi := hpage i (by simpa using hi)
    rw [heq] at hqi
    exact hmap.page_injective hqi (hpage j (by simpa using hj))
  have hcard := Finset.card_le_card_of_injOn page hmaps hinj
  rw [Finset.card_range] at hcard
  exact lt_of_le_of_lt hcard (Finset.card_erase_lt_of_mem hp)

/-- The step of a run: `find_physpage` finds the page with the bytes of flat memory. -/
theorem findPhyspage_run {trace : List Access} {a : Access} (hfns : fns.Respectful)
    (hans : Answered fns file.toFileOps a s) (hmap : Mapped none s)
    (hslots : Slotted swapsize (pages trace) s) (h : Refines file (flat trace) s)
    (hrange : ∀ b ∈ trace ++ [a], b.vaddr.toNat < 2 ^ 36)
    (halign : a.vaddr.toNat % 4096 = 0) (hslot : (pages (trace ++ [a])).card ≤ swapsize)
    (hwords : swapsize + 31 < 2 ^ 32 ∨ (pages (trace ++ [a])).card ≤ s.memsize) :
    ∃ s', findPhyspage fns file.toFileOps a.vaddr a.type s =
        .ok (physAddr (s'.entry (pteOf a.vaddr)).frameNo, s') ∧
      (s'.entry (pteOf a.vaddr)).valid ∧ s'.memsize = s.memsize ∧ Mapped none s' ∧
      Slotted swapsize (pages (trace ++ [a])) s' ∧
      Refines file (Function.update (flat trace) (pteOf a.vaddr)
        (some ((flat trace (pteOf a.vaddr)).getD 0))) s' := by
  have hp : pteOf a.vaddr ∈ pages (trace ++ [a]) := by
    rw [pages_concat]
    exact Finset.mem_insert_self _ _
  have hslots' : Slotted swapsize (pages (trace ++ [a])) s := by
    apply hslots.mono
    rw [pages_concat]
    exact Finset.subset_insert _ _
  refine findPhyspage_refines hfns hans hslots' hmap h (hrange a (by simp)) halign hp hslot
    ((Finset.card_le_card (pages_subset_directory hrange)).trans card_directory) ?_
  intro hfull hvalid
  have hlt := memsize_lt_card hmap hslots' hp hfull hvalid
  omega

/-- A run keeps the pages of flat memory. -/
theorem simulate_refines {m : Nat} {physmem : Memory} {fd : φ} {alg : σ} {trace : List Access}
    (hfns : fns.Answers file.toFileOps m swapsize physmem fd alg trace) (hm : m ≤ 2 ^ 20)
    (hswap : swapsize < 2 ^ 32) (hrange : ∀ b ∈ trace, b.vaddr.toNat < 2 ^ 36)
    (halign : ∀ b ∈ trace, b.vaddr.toNat % 4096 = 0) (hslot : (pages trace).card ≤ swapsize)
    (hwords : swapsize + 31 < 2 ^ 32 ∨ (pages trace).card ≤ m) :
    ∃ s, simulate fns file.toFileOps m swapsize physmem fd alg trace = .ok s ∧ s.memsize = m ∧
      Mapped none s ∧ Slotted swapsize (pages trace) s ∧ Refines file (flat trace) s := by
  induction trace using List.reverseRecOn with
  | nil =>
    obtain ⟨bm, hnbits, hclear, hs, hmap, hmem⟩ :=
      simulate_nil hfns.toRespectful file.toFileOps hm hswap physmem fd alg
    have hinit := hfns.init (.zero m bm physmem fd alg)
    refine ⟨_, hs, hmem, hmap, (Slotted.zero hnbits hclear).policyStep hinit,
      Refines.policyStep ⟨?_, ?_, rfl⟩ hinit⟩
    · intro q n hq
      cases hq
    · intro q _
      exact ⟨PgtblEntry.fresh_valid, PgtblEntry.fresh_onswap, rfl⟩
  | append_singleton trace a ih =>
    have hcard := card_pages_le trace a
    obtain ⟨s, hs, hmem, hmap, hslots, href⟩ := ih hfns.before
      (fun b hb => hrange b (by simp [hb])) (fun b hb => halign b (by simp [hb])) (by omega)
      (by omega)
    obtain ⟨s', hfind, hvalid, hmem', hmap', hslots', href'⟩ := findPhyspage_run
      hfns.toRespectful (hfns.last hs) hmap hslots href hrange (halign a (by simp)) hslot
      (by rw [hmem]; exact hwords)
    obtain ⟨_, _, physmem', hacc, href''⟩ := accessMem_refines hmap' hvalid hfind href'
      (hrange a (by simp)) (halign a (by simp))
    refine ⟨{ s' with physmem := physmem' }, ?_, hmem'.trans hmem, hmap'.store physmem' s'.stderr,
      hslots'.congr hslots'.resident ⟨rfl, fun _ => rfl⟩, flat_concat trace a ▸ href''⟩
    rw [simulate_concat, hs, ok_bind]
    exact hacc

/-- Paging is transparent in every run in which the swap map has its words, or no page ever has to
leave memory: each access is given the start of a frame with the page's own address, and with its
number of earlier writes as the version, and `access_mem` prints nothing. -/
theorem accessMem_transparent (file : ByteFile φ) {m : Nat} {physmem : Memory} {fd : φ} {alg : σ}
    {trace : List Access} {a : Access}
    (hfns : fns.Answers file.toFileOps m swapsize physmem fd alg (trace ++ [a]))
    (hm : 1 ≤ m ∧ m ≤ 2 ^ 20) (hswap : swapsize < 2 ^ 32) (hrange : ∀ b ∈ trace ++ [a], b.vaddr.toNat < 2 ^ 36)
    (halign : ∀ b ∈ trace ++ [a], b.vaddr.toNat % 4096 = 0)
    (hslot : (pages (trace ++ [a])).card ≤ swapsize)
    (hwords : swapsize + 31 < 2 ^ 32 ∨ (pages (trace ++ [a])).card ≤ m) :
    ∃ s s' f, simulate fns file.toFileOps m swapsize physmem fd alg trace = .ok s ∧
      findPhyspage fns file.toFileOps a.vaddr a.type s = .ok (f * SIMPAGESIZE, s') ∧ f < m ∧
      s'.checkaddr (f * SIMPAGESIZE) = a.vaddr.toNat ∧
      s'.version (f * SIMPAGESIZE) = writes trace a.vaddr % 2 ^ 32 ∧
      ∃ s'', accessMem fns file.toFileOps a s = .ok s'' ∧ s''.stderr = [] := by
  have hcard := card_pages_le trace a
  obtain ⟨s, hs, hmem, hmap, hslots, href⟩ := simulate_refines hfns.before hm.2 hswap
    (fun b hb => hrange b (by simp [hb])) (fun b hb => halign b (by simp [hb])) (by omega) (by omega)
  obtain ⟨s', hfind, hvalid, hmem', hmap', _, href'⟩ := findPhyspage_run hfns.toRespectful
    (hfns.last hs) hmap hslots href hrange (halign a (by simp)) hslot (by rw [hmem]; exact hwords)
  obtain ⟨hcheck, hversion, physmem', hacc, href''⟩ := accessMem_refines hmap' hvalid hfind href'
    (hrange a (by simp)) (halign a (by simp))
  rw [flat_getD] at hversion
  have hf : (s'.entry (pteOf a.vaddr)).frameNo < m := by
    rw [← hmem, ← hmem']
    exact hmap'.frameNo_lt hvalid
  have hptr : physAddr (s'.entry (pteOf a.vaddr)).frameNo =
      (s'.entry (pteOf a.vaddr)).frameNo * SIMPAGESIZE := by
    simp only [physAddr, SIMPAGESIZE]
    omega
  rw [hptr] at hfind hcheck hversion
  exact ⟨s, s', _, hs, hfind, hf, hcheck, hversion, _, hacc, href''.stderr⟩

/-- A page that leaves the only frame and comes back. -/
theorem accessMem_transparent_rand :
    ∃ s s' f, simulate rand regularFile.toFileOps 1 2 (fun _ => 0) .empty ⟨fun n => n, 0⟩
        [⟨'S', 0x1000⟩, ⟨'L', 0x2000⟩] = .ok s ∧
      findPhyspage rand regularFile.toFileOps 0x1000 'L' s = .ok (f * SIMPAGESIZE, s') ∧ f < 1 ∧
      s'.checkaddr (f * SIMPAGESIZE) = 0x1000 ∧
      s'.version (f * SIMPAGESIZE) = writes [⟨'S', 0x1000⟩, ⟨'L', 0x2000⟩] 0x1000 % 2 ^ 32 ∧
      ∃ s'', accessMem rand regularFile.toFileOps ⟨'L', 0x1000⟩ s = .ok s'' ∧ s''.stderr = [] :=
  accessMem_transparent (a := ⟨'L', 0x1000⟩) regularFile
    (rand_chooses.answers _ (by decide) (by decide) _ _ _ _) (by decide) (by decide) (by decide)
    (by decide) (by decide) (.inl (by decide))

/-- With 2^32 - 1 slots the count of words wraps to zero, no page can be swapped out, and the page
that comes back to the only frame finds the bytes of the page before it. -/
theorem accessMem_without_words :
    (pages [⟨'S', 0x1000⟩, ⟨'L', 0x2000⟩, ⟨'L', 0x1000⟩]).card ≤ 2 ^ 32 - 1 ∧
    ∃ s ptr s', simulate rand regularFile.toFileOps 1 (2 ^ 32 - 1) (fun _ => 0) .empty
        ⟨fun n => n, 0⟩ [⟨'S', 0x1000⟩, ⟨'L', 0x2000⟩] = .ok s ∧
      findPhyspage rand regularFile.toFileOps 0x1000 'L' s = .ok (ptr, s') ∧
      s'.checkaddr ptr = 0x2000 ∧ s'.version ptr = 0 := by
  refine ⟨by decide, ?_⟩
  have hrun : (simulate rand regularFile.toFileOps 1 (2 ^ 32 - 1) (fun _ => 0) .empty
      ⟨fun n => n, 0⟩ [⟨'S', 0x1000⟩, ⟨'L', 0x2000⟩] >>= fun s =>
      findPhyspage rand regularFile.toFileOps 0x1000 'L' s >>= fun r =>
      .ok (r.2.checkaddr r.1, r.2.version r.1)) = .ok (0x2000, 0) := by decide +kernel
  obtain ⟨s, hs, hrest⟩ := bind_eq_ok.mp hrun
  obtain ⟨⟨ptr, s'⟩, hfind, heq⟩ := bind_eq_ok.mp hrest
  obtain ⟨hcheck, hversion⟩ := Prod.mk.inj (Except.ok.inj heq)
  exact ⟨s, ptr, s', hs, hfind, hcheck, hversion⟩

end Paging

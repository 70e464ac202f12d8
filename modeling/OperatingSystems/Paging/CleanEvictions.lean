-- SUMMARY: A page that is evicted clean has the bytes of its frame in its slot already.
import OperatingSystems.Paging.Counters
import OperatingSystems.Paging.Overflow

/-!
# Clean evictions

The dirty bit is set by the first touch and by writes, and is cleared when a page comes back from
swap. So a page in memory that is not dirty is as it is in its slot, as long as no lost page has
been accessed.
-/

namespace Paging

open Library Library.Run

variable {σ φ : Type} {s s' t u : Sim σ φ} {p q r : PtePtr} {f k n swapsize : Nat}
  {S : Finset PtePtr} {file : ByteFile φ} {M : FlatMemory} {fns : Functions σ φ} {vaddr : Addr}
  {type : Char} {a : Access}

/-! ## Copies -/

/-- The page has a slot, and the slot has the bytes of its frame. -/
def Copied (file : ByteFile φ) (s : Sim σ φ) (q : PtePtr) : Prop :=
  ∃ k : Nat, (s.entry q).swapOff = k * 16 ∧ k * 16 + SIMPAGESIZE ≤ file.size s.swapfd ∧
    (file.bytes s.swapfd).load (k * 16) SIMPAGESIZE =
      s.physmem.load (physAddr (s.entry q).frameNo) SIMPAGESIZE

/-- The pages in memory that are not dirty are copies of their slots. -/
def CleanCopied (file : ByteFile φ) (s : Sim σ φ) : Prop :=
  ∀ q, (s.entry q).valid → (s.entry q).dirty = false → Copied file s q

theorem Copied.congr (h : Copied file s q) (hoff : (t.entry q).swapOff = (s.entry q).swapOff)
    (hload : t.physmem.load (physAddr (t.entry q).frameNo) SIMPAGESIZE =
      s.physmem.load (physAddr (s.entry q).frameNo) SIMPAGESIZE)
    (hsize : file.size s.swapfd ≤ file.size t.swapfd)
    (hbytes : ∀ k : Nat, (s.entry q).swapOff = k * 16 →
      (file.bytes t.swapfd).load (k * 16) SIMPAGESIZE =
        (file.bytes s.swapfd).load (k * 16) SIMPAGESIZE) : Copied file t q := by
  obtain ⟨k, hk, hsz, hcopy⟩ := h
  exact ⟨k, hoff.trans hk, hsz.trans hsize, by rw [hbytes k hk, hcopy, hload]⟩

namespace CleanCopied

theorem congr (h : CleanCopied file s) (hentry : ∀ q, (s.entry q).SameButRef (t.entry q))
    (hmem : t.physmem = s.physmem) (hfd : t.swapfd = s.swapfd) : CleanCopied file t := by
  intro q hvalid hclean
  rw [(hentry q).valid] at hvalid
  rw [(hentry q).dirty] at hclean
  exact (h q hvalid hclean).congr (hentry q).swapOff (by rw [(hentry q).frameNo, hmem])
    (by rw [hfd]) (fun _ _ => by rw [hfd])

theorem policyStep (h : CleanCopied file s) (hstep : PolicyStep s s') : CleanCopied file s' :=
  h.congr hstep.entry hstep.physmem hstep.swapfd

/-- An eviction writes to one slot at most, and that is the victim's. -/
theorem evict (h : CleanCopied file s) (hvalid : (s.entry q).valid) {off : Int} {bm : Bitmap}
    {fd : φ} {stderr : List String} (hsize : file.size s.swapfd ≤ file.size fd)
    (hbytes : ∀ r, r ≠ q → ∀ k : Nat, (s.entry r).swapOff = k * 16 →
      (file.bytes fd).load (k * 16) SIMPAGESIZE =
        (file.bytes s.swapfd).load (k * 16) SIMPAGESIZE) :
    CleanCopied file
      (markSwapped q off { s with swapmap := bm, swapfd := fd, stderr := stderr }) := by
  intro r hr hclean
  have hentry : (markSwapped q off { s with swapmap := bm, swapfd := fd, stderr := stderr }).entry r =
      if r = q then (s.entry q).swapOut off else s.entry r := entry_markSwapped off
  by_cases hrq : r = q
  · rw [hentry, if_pos hrq, PgtblEntry.valid_swapOut, hvalid] at hr
    cases hr
  · rw [if_neg hrq] at hentry
    rw [hentry] at hr hclean
    exact (h r hr hclean).congr (by rw [hentry]) (by rw [hentry, physmem_markSwapped])
      (by rw [swapfd_markSwapped]; exact hsize)
      (fun k hk => by rw [swapfd_markSwapped]; exact hbytes r hrq k hk)

/-- A page in memory is touched in its place. -/
theorem hit (h : CleanCopied file s) (hvalid : (s.entry p).valid) {idx hits : Nat} :
    CleanCopied file (touched p vaddr type { initSecondLevel idx s with hitCount := hits }) := by
  have hfd : (touched p vaddr type { initSecondLevel idx s with hitCount := hits }).swapfd =
      s.swapfd := Sim.swapfd_initSecondLevel idx
  have hmem : (touched p vaddr type { initSecondLevel idx s with hitCount := hits }).physmem =
      s.physmem := Sim.physmem_initSecondLevel idx
  intro q hq hclean
  rw [entry_hit] at hq hclean
  by_cases hqp : q = p
  · subst hqp
    rw [if_pos rfl, PgtblEntry.dirty_mark, Bool.or_eq_false_iff] at hclean
    exact (h q hvalid hclean.1).congr (by rw [entry_hit, if_pos rfl, PgtblEntry.swapOff_mark])
      (by rw [entry_hit, if_pos rfl, PgtblEntry.frameNo_mark, hmem]) (by rw [hfd])
      (fun _ _ => by rw [hfd])
  · rw [if_neg hqp] at hq hclean
    exact (h q hq hclean).congr (by rw [entry_hit, if_neg hqp])
      (by rw [entry_hit, if_neg hqp, hmem]) (by rw [hfd]) (fun _ _ => by rw [hfd])

/-- A page moves into a frame: it is dirty if it is new, and else the frame was filled from its
slot. -/
theorem load (h : CleanCopied file u) (hmap : Mapped (some f) u) (hf : f < u.memsize)
    {onswap : Bool} (hcopy : onswap → ∃ k : Nat, (u.entry p).swapOff = k * 16 ∧
      k * 16 + SIMPAGESIZE ≤ file.size u.swapfd ∧ (file.bytes u.swapfd).load (k * 16) SIMPAGESIZE =
        u.physmem.load (physAddr f) SIMPAGESIZE) :
    CleanCopied file (touched p vaddr type (place onswap p f vaddr (record p f u))) := by
  have hfd : (touched p vaddr type (place onswap p f vaddr (record p f u))).swapfd = u.swapfd :=
    swapfd_place
  have hmem : (touched p vaddr type (place onswap p f vaddr (record p f u))).physmem =
      if onswap then u.physmem else
        (u.physmem.store (physAddr f) zeroPage).store (physAddr f + 4) (leBytes 8 vaddr.toNat) :=
    physmem_place
  intro q hq hclean
  rw [entry_load] at hq hclean
  by_cases hqp : q = p
  · subst hqp
    cases onswap with
    | false => simp at hclean
    | true =>
      obtain ⟨k, hk, hsz, hbytes⟩ := hcopy rfl
      refine ⟨k, ?_, by rw [hfd]; exact hsz, ?_⟩
      · rw [entry_load, if_pos rfl, PgtblEntry.swapOff_mark]
        exact hk
      · rw [entry_load, if_pos rfl, PgtblEntry.frameNo_mark, hmem, hfd]
        simp only [if_true]
        rw [PgtblEntry.frameNo_place (lt_of_lt_of_le hf hmap.memsize_le)]
        exact hbytes
  · rw [if_neg hqp] at hq hclean
    refine (h q hq hclean).congr (by rw [entry_load, if_neg hqp]) ?_ (by rw [hfd])
      (fun _ _ => by rw [hfd])
    rw [entry_load, if_neg hqp, hmem]
    cases onswap with
    | true => rfl
    | false => exact hmap.load_initFrame_vacant hf hq vaddr.toNat

/-- `swap_pageout` writes to no slot but the victim's. -/
theorem pageout (h : CleanCopied file s) (hslots : Slotted swapsize S s) (hmap : Mapped none s)
    (hpage : s.page f = some q) (hcard : S.card ≤ 2 ^ 24) {off : Int}
    (hout : swapPageout file.toFileOps f (toInt (s.entry q).swapOff) s = .ok (off, t)) :
    CleanCopied file (markSwapped q off t) := by
  have hvalid := ((hmap.backed f q (by simp)).mp hpage).1
  rcases swapPageout_cases file hmap hslots hpage hcard with
    ⟨k, bm, fd, hout', _, _, hsize, hbytes, hslot⟩ | ⟨_, _, stderr, hout'⟩
  · cases hout.symm.trans hout'
    refine h.evict hvalid (hsize ▸ le_max_left _ _) ?_
    intro r hr j hj
    have hne : j ≠ k := by
      rintro rfl
      exact hslot r hr hj
    rw [hbytes, load_slot_store hne Memory.length_load]
  · cases hout.symm.trans hout'
    exact h.evict hvalid le_rfl (fun _ _ _ _ => rfl)

/-- `swap_pagein` fills the frame of no page. -/
theorem arrive (h : CleanCopied file s) (hM : Retains file M s) (hmap : Mapped (some f) s)
    (hf : f < s.memsize) (hvalid : (s.entry p).valid = false) (hfound : ¬s.lost p)
    (hin : fetchPage file.toFileOps f p s = .ok u) :
    CleanCopied file (touched p vaddr type (place (s.entry p).onswap p f vaddr (record p f u))) := by
  obtain ⟨physmem, fd, hin', hM', hsize, hbytes, hframes, hload⟩ := hM.fetch hmap hf hvalid
  cases hin.symm.trans hin'
  have hclean : CleanCopied file { s with physmem := physmem, swapfd := fd } := by
    intro q hq hclean
    exact (h q hq hclean).congr rfl (hframes q hq) hsize.ge (fun _ _ => by rw [hbytes])
  refine hclean.load (hmap.congr rfl rfl (fun _ => ⟨rfl, rfl⟩) rfl) hf ?_
  intro hswap
  obtain ⟨n, hn, hfilled⟩ := hload fun hoff => hfound ⟨hswap, hoff⟩
  cases hM'.held p n hn with
  | inMemory hv _ =>
    change (s.entry p).valid = true at hv
    rw [hvalid] at hv
    cases hv
  | onSwap k _ hoff hsz hslot => exact ⟨k, hoff, hsz, hslot.trans hfilled.symm⟩

/-- A write makes its page dirty, so that it does not matter what is in the slot. -/
theorem access (h : CleanCopied file s) (hmap : Mapped none s)
    (hvalid : (s.entry (pteOf a.vaddr)).valid)
    (hdirty : isWrite a.type → (s.entry (pteOf a.vaddr)).dirty) (stderr : List String) :
    CleanCopied file { s with physmem := stored a s, stderr := stderr } := by
  unfold stored
  cases hw : isWrite a.type with
  | false => exact h
  | true =>
    intro q hq hclean
    have hne : q ≠ pteOf a.vaddr := by
      rintro rfl
      change (s.entry (pteOf a.vaddr)).dirty = false at hclean
      rw [hdirty hw] at hclean
      cases hclean
    exact (h q hq hclean).congr rfl (hmap.load_store_frame hvalid hq hne (by simp [SIMPAGESIZE]))
      le_rfl (fun _ _ => rfl)

end CleanCopied

/-- An access to a page that is not lost keeps the clean pages as they are in their slots. -/
theorem Course.cleanCopied (hc : Course fns file.toFileOps vaddr type s t)
    (hfns : fns.Respectful) (hslots : Slotted swapsize S s) (hmap : Mapped none s)
    (hM : Retains file M s) (h : CleanCopied file s) (hcard : S.card ≤ 2 ^ 24)
    (hfound : ¬s.lost (pteOf vaddr)) : CleanCopied file t := by
  have hquiet : ∀ q, (s.entry q).SameButRef
      ((initSecondLevel (pgdirIndex vaddr) s).entry q) := by
    intro q
    rw [Sim.entry_initSecondLevel]
    exact .refl _
  have h₀ := h.congr hquiet (Sim.physmem_initSecondLevel _) (Sim.swapfd_initSecondLevel _)
  have hmap₀ := mapped_initSecondLevel hmap (pgdirIndex vaddr)
  cases hc with
  | hit hvalid => exact h.hit hvalid
  | free f hvalid hfree =>
    obtain ⟨hlt, hunused, _⟩ := findFree_eq_some.mp hfree
    refine h₀.load (hmap₀.vacate (by rw [Sim.coremap_initSecondLevel]; exact hunused))
      (by rw [Sim.memsize_initSecondLevel]; exact hlt) ?_
    intro hon
    rw [hmap.full _ hon f hlt (by simp)] at hunused
    cases hunused
  | evict f q off s₁ s₂ u hvalid hfree hevict hpage hout hin =>
    obtain ⟨hmap₁, hmem₁, hall, _, hentry⟩ := hfns.evict_full hmap hfree hevict
    have hstep := hfns.evict _ _ _ hevict
    have hslots₁ := (slotted_initSecondLevel hslots (pgdirIndex vaddr)).policyStep hstep
    have hM₁ := (hM.congr hquiet (Sim.physmem_initSecondLevel _)
      (Sim.swapfd_initSecondLevel _)).policyStep hstep
    have h₂ := (h₀.policyStep hstep).pageout hslots₁ hmap₁ hpage hcard hout
    obtain ⟨hmap₂, hlt, hothers, hkept⟩ := hM₁.pageout hslots₁ hmap₁ hpage hall hcard hout
    have hpq := hmap₁.ne_of_page hpage ((hentry _).valid.trans hvalid)
    obtain ⟨hvalid₂, hfound₂, honswap⟩ := absent_congr (hothers _ hpq) (hentry _) hvalid hfound
    rw [← honswap]
    rcases hkept with ⟨hM₂, _⟩ | ⟨_, _, hM₂⟩
    · exact h₂.arrive hM₂ hmap₂ hlt hvalid₂ hfound₂ hin
    · exact h₂.arrive hM₂ hmap₂ hlt hvalid₂ hfound₂ hin

/-! ## Runs -/

theorem CleanCopied.accessMem (h : CleanCopied file s) (hfns : fns.Respectful)
    (hslots : Slotted swapsize S s) (hmap : Mapped none s) (hM : Retains file M s)
    (hcard : S.card ≤ 2 ^ 24) (hfound : ¬s.lost (pteOf a.vaddr))
    (hacc : accessMem fns file.toFileOps a s = .ok s') : CleanCopied file s' := by
  obtain ⟨t, u, stderr, hc, href, rfl⟩ := accessMem_course hfns hmap hacc
  obtain ⟨f, s₁, ht, _⟩ := hc.arrived hfns hmap
  have hstep := hfns.ref _ _ _ href
  refine ((hc.cleanCopied hfns hslots hmap hM h hcard hfound).policyStep hstep).access
    (hstep.mapped ht.mapped) ?_ ?_ stderr
  · rw [(hstep.entry _).valid]
    exact ((ht.mapped.backed f _ (by simp)).mp ht.page_self).1
  · intro hw
    rw [(hstep.entry _).dirty, hc.flags_self.2, hw, Bool.true_or]

/-- A run in which no lost page is accessed keeps the clean pages as they are in their slots. -/
theorem simulate_cleanCopied {m : Nat} {physmem : Memory} {fd : φ} {alg : σ}
    {trace : List Access} (hfns : fns.Answers file.toFileOps m swapsize physmem fd alg trace)
    (hm : m ≤ 2 ^ 20) (hswap : swapsize < 2 ^ 32) (hrange : ∀ b ∈ trace, b.vaddr.toNat < 2 ^ 36) (halign : ∀ b ∈ trace, b.vaddr.toNat % 4096 = 0)
    (hfound : ∀ as a s, as ++ [a] <+: trace →
      simulate fns file.toFileOps m swapsize physmem fd alg as = .ok s → ¬s.lost (pteOf a.vaddr))
    (hrun : simulate fns file.toFileOps m swapsize physmem fd alg trace = .ok s) :
    Slotted swapsize directory s ∧ Keeps file trace s ∧ CleanCopied file s := by
  have hinv := simulate_invariant (J := fun as s => as <+: trace →
      Slotted swapsize directory s ∧ Keeps file as s ∧ CleanCopied file s)
    hfns.toRespectful hm hswap ?_ ?_ hrun
  · exact hinv.2.2 List.prefix_rfl
  · intro bm hnbits hclear _
    have hinit := hfns.init (.zero m bm physmem fd alg)
    refine ⟨(Slotted.zero hnbits hclear).policyStep hinit, keeps_zero hfns.toRespectful,
      CleanCopied.policyStep ?_ hinit⟩
    intro q hq
    change PgtblEntry.fresh.valid = true at hq
    rw [PgtblEntry.fresh_valid] at hq
    cases hq
  · intro as a s s' hs hmap _ hJ hacc hpre
    have ha : a ∈ trace := hpre.subset (by simp)
    obtain ⟨hslots, hkeeps, hclean⟩ := hJ ((List.prefix_append as [a]).trans hpre)
    have hlost := hfound as a s hpre hs
    obtain ⟨_, _, s'', _, hacc', _, hslots', _, hkeeps'⟩ := hkeeps.access hfns.toRespectful
      (hfns.answers as a hpre s hs) hslots hmap (hrange a ha) (halign a ha)
    cases hacc.symm.trans hacc'
    obtain ⟨M, hM, _⟩ := hkeeps
    exact ⟨hslots', hkeeps' hlost,
      hclean.accessMem hfns.toRespectful hslots hmap hM card_directory hlost hacc⟩

/-- With a slot for each page no page is lost. -/
theorem not_lost_of_words {m : Nat} {physmem : Memory} {fd : φ} {alg : σ}
    {trace as : List Access} (hfns : fns.Answers file.toFileOps m swapsize physmem fd alg trace)
    (hm : m ≤ 2 ^ 20) (hswap : swapsize < 2 ^ 32) (hrange : ∀ b ∈ trace, b.vaddr.toNat < 2 ^ 36)
    (halign : ∀ b ∈ trace, b.vaddr.toNat % 4096 = 0) (hslot : (pages trace).card ≤ swapsize)
    (hwords : swapsize + 31 < 2 ^ 32 ∨ (pages trace).card ≤ m) (has : as <+: trace)
    (hs : simulate fns file.toFileOps m swapsize physmem fd alg as = .ok s) (q : PtePtr) :
    ¬s.lost q := by
  have hcard : (pages as).card ≤ (pages trace).card := Finset.card_le_card (pages_mono has)
  obtain ⟨s₂, hs₂, _, hmap, _, href⟩ := simulate_refines (hfns.of_prefix has) hm hswap
    (fun b hb => hrange b (has.subset hb)) (fun b hb => halign b (has.subset hb)) (by omega)
    (by omega)
  cases hs.symm.trans hs₂
  exact href.not_lost hmap q

/-- In every run in which the swap map has its words, or no page ever has to leave memory: when an
access evicts a page and counts it as clean, the page has a slot, and before the write the slot has
the bytes of the frame already. -/
theorem accessMem_evicts_clean (file : ByteFile φ) {m : Nat} {physmem : Memory} {fd : φ} {alg : σ}
    {trace : List Access} {a : Access}
    (hfns : fns.Answers file.toFileOps m swapsize physmem fd alg (trace ++ [a]))
    (hm : 1 ≤ m ∧ m ≤ 2 ^ 20) (hswap : swapsize < 2 ^ 32) (hrange : ∀ b ∈ trace ++ [a], b.vaddr.toNat < 2 ^ 36)
    (halign : ∀ b ∈ trace ++ [a], b.vaddr.toNat % 4096 = 0)
    (hslot : (pages (trace ++ [a])).card ≤ swapsize)
    (hwords : swapsize + 31 < 2 ^ 32 ∨ (pages (trace ++ [a])).card ≤ m) :
    ∃ s s', simulate fns file.toFileOps m swapsize physmem fd alg trace = .ok s ∧
      accessMem fns file.toFileOps a s = .ok s' ∧
      (s'.evictCleanCount ≠ s.evictCleanCount → ∃ t f s₁ q, evictCall a.vaddr s = some t ∧
        fns.evict t = .ok (f, s₁) ∧ (s₁.coremap f).pte = some q ∧
        ∃ k < swapsize, (s₁.entry q).swapOff = (k * SIMPAGESIZE : Nat) ∧
          k * SIMPAGESIZE + SIMPAGESIZE ≤ file.size s₁.swapfd ∧
          (file.bytes s₁.swapfd).load (k * SIMPAGESIZE) SIMPAGESIZE =
            s₁.physmem.load (physAddr f) SIMPAGESIZE) := by
  obtain ⟨s', hrun⟩ := simulate_ok hfns hm.2 hswap hrange
  rw [simulate_concat] at hrun
  obtain ⟨s, hs, hacc⟩ := bind_eq_ok.mp hrun
  obtain ⟨hmap, hmem⟩ := simulate_mapped hfns.toRespectful hm.2 hswap hs
  have hpre : trace <+: trace ++ [a] := List.prefix_append trace [a]
  obtain ⟨hslots, _, hclean⟩ := simulate_cleanCopied hfns.before hm.2 hswap
    (fun b hb => hrange b (hpre.subset hb)) (fun b hb => halign b (hpre.subset hb))
    (fun as b t hb ht => not_lost_of_words hfns hm.2 hswap hrange halign hslot hwords
      (((List.prefix_append as [b]).trans hb).trans hpre) ht _) hs
  refine ⟨s, s', hs, hacc, ?_⟩
  intro hcount
  obtain ⟨_, hkept, hevicted⟩ := accessMem_counted hfns.toRespectful hmap hacc
  cases hcall : evictCall a.vaddr s with
  | none => exact absurd (hkept hcall).1 hcount
  | some t =>
    obtain ⟨⟨_, _, hfree⟩, rfl⟩ := evictCall_eq_some.mp hcall
    obtain ⟨f, s₁, hevict, hlt⟩ := (hfns.last hs).evict _ hcall
    obtain ⟨hmap₁, hmem₁, hall, hpages, hentry⟩ := hfns.evict_full hmap hfree hevict
    have hstep := hfns.evict _ _ _ hevict
    rw [← hstep.memsize] at hlt
    obtain ⟨q, hq⟩ := hmap₁.page_of_inUse (hall f hlt)
    have hqt : (initSecondLevel (pgdirIndex a.vaddr) s).page f = some q := by
      rw [← hstep.page]
      exact hq
    obtain ⟨hvalid, hcleanCount, _⟩ := hevicted _ f s₁ q hcall hevict hqt
    have hdirty : (s.entry q).dirty = false := by
      cases hd : (s.entry q).dirty with
      | false => rfl
      | true =>
        rw [hd] at hcleanCount
        exact absurd hcleanCount hcount
    -- `evict_fcn` has changed neither the slot nor the frame of the victim.
    obtain ⟨k, hk, hsize, hbytes⟩ := (hclean.congr hentry
      (hstep.physmem.trans (Sim.physmem_initSecondLevel _))
      (hstep.swapfd.trans (Sim.swapfd_initSecondLevel _))) q ((hentry q).valid ▸ hvalid)
      ((hentry q).dirty ▸ hdirty)
    obtain ⟨j, hj, hjk⟩ := hslots.slot q (by rw [← (hentry q).swapOff, hk]; exact slot_ne_invalid k)
    rw [← (hentry q).swapOff, hk] at hjk
    rw [((hmap₁.backed f q (by simp)).mp hq).2] at hbytes
    refine ⟨_, f, s₁, q, rfl, hevict, (Mapped.inUse_of_page hq).2, k, by omega, ?_, hsize, hbytes⟩
    rw [hk]
    simp [SIMPAGESIZE]

/-- A page that comes back from swap, is not written to, and leaves again. -/
theorem accessMem_evicts_clean_rand :
    ∃ s s', simulate rand regularFile.toFileOps 1 2 (fun _ => 0) .empty ⟨fun n => n, 0⟩
        [⟨'S', 0x1000⟩, ⟨'L', 0x2000⟩, ⟨'L', 0x1000⟩] = .ok s ∧
      accessMem rand regularFile.toFileOps ⟨'L', 0x2000⟩ s = .ok s' ∧
      (s'.evictCleanCount ≠ s.evictCleanCount → ∃ t f s₁ q, evictCall 0x2000 s = some t ∧
        rand.evict t = .ok (f, s₁) ∧ (s₁.coremap f).pte = some q ∧
        ∃ k < 2, (s₁.entry q).swapOff = (k * SIMPAGESIZE : Nat) ∧
          k * SIMPAGESIZE + SIMPAGESIZE ≤ regularFile.size s₁.swapfd ∧
          (regularFile.bytes s₁.swapfd).load (k * SIMPAGESIZE) SIMPAGESIZE =
            s₁.physmem.load (physAddr f) SIMPAGESIZE) :=
  accessMem_evicts_clean (a := ⟨'L', 0x2000⟩) regularFile
    (rand_chooses.answers _ (by decide) (by decide) _ _ _ _) (by decide) (by decide) (by decide)
    (by decide) (by decide) (.inl (by decide))

/-- With 2^32 - 1 slots the swap map has no words. A page that is read once more after its eviction
is counted as clean when it is evicted again, and it never had a slot. -/
theorem accessMem_evicts_clean_without_words :
    (pages [⟨'S', 0x1000⟩, ⟨'L', 0x2000⟩, ⟨'L', 0x1000⟩, ⟨'L', 0x2000⟩]).card ≤ 2 ^ 32 - 1 ∧
    ∃ s s' t f s₁ q,
      simulate rand regularFile.toFileOps 1 (2 ^ 32 - 1) (fun _ => 0) .empty ⟨fun n => n, 0⟩
        [⟨'S', 0x1000⟩, ⟨'L', 0x2000⟩, ⟨'L', 0x1000⟩] = .ok s ∧
      accessMem rand regularFile.toFileOps ⟨'L', 0x2000⟩ s = .ok s' ∧
      s'.evictCleanCount = s.evictCleanCount + 1 ∧ evictCall 0x2000 s = some t ∧
      rand.evict t = .ok (f, s₁) ∧ (s₁.coremap f).pte = some q ∧
      (s₁.entry q).swapOff = INVALID_SWAP := by
  refine ⟨by decide, ?_⟩
  have hrun : (simulate rand regularFile.toFileOps 1 (2 ^ 32 - 1) (fun _ => 0) .empty
      ⟨fun n => n, 0⟩ [⟨'S', 0x1000⟩, ⟨'L', 0x2000⟩, ⟨'L', 0x1000⟩] >>= fun s =>
      accessMem rand regularFile.toFileOps ⟨'L', 0x2000⟩ s >>= fun s' =>
      rand.evict (initSecondLevel (pgdirIndex 0x2000) s) >>= fun r =>
      .ok (s.evictCleanCount, s'.evictCleanCount, (evictCall 0x2000 s).isSome, (r.2.coremap r.1).pte,
        (r.2.entry ⟨0, 1⟩).swapOff)) = .ok (0, 1, true, some ⟨0, 1⟩, INVALID_SWAP) := by
    decide +kernel
  obtain ⟨s, hs, hrest⟩ := bind_eq_ok.mp hrun
  obtain ⟨s', hacc, hrest⟩ := bind_eq_ok.mp hrest
  obtain ⟨⟨f, s₁⟩, hevict, heq⟩ := bind_eq_ok.mp hrest
  obtain ⟨hbefore, hafter, hcall, hpte, hoff⟩ : s.evictCleanCount = 0 ∧ s'.evictCleanCount = 1 ∧
      (evictCall 0x2000 s).isSome = true ∧ (s₁.coremap f).pte = some ⟨0, 1⟩ ∧
      (s₁.entry ⟨0, 1⟩).swapOff = INVALID_SWAP := by
    simpa using heq
  obtain ⟨t, ht⟩ := Option.isSome_iff_exists.mp hcall
  obtain ⟨_, rfl⟩ := evictCall_eq_some.mp ht
  exact ⟨s, s', _, f, s₁, ⟨0, 1⟩, hs, hacc, by rw [hbefore, hafter], ht, hevict, hpte, hoff⟩

end Paging

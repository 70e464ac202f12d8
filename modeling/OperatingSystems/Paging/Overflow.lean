-- SUMMARY: When swap runs out: which bytes an access finds, and that they are its own exactly if its page was not lost.
import OperatingSystems.Paging.Transparency

/-!
# Running out of swap

A page that is evicted when no slot is left is lost, but its entry is marked like that of a page on
swap. The page can be accessed again; what the access finds depends on this mark.
-/

namespace Paging

open Library Library.Run

variable {σ φ : Type} {s s' t u : Sim σ φ} {p q r : PtePtr} {f n swapsize : Nat}
  {S : Finset PtePtr} {file : ByteFile φ} {M : FlatMemory} {fns : Functions σ φ} {vaddr : Addr}
  {type : Char} {as : List Access} {a : Access}

/-! ## Pages kept and lost -/

/-- A page that is neither in memory nor accessed keeps its entry. -/
theorem Course.entry_ne {io : FileOps φ} (hc : Course fns io vaddr type s t)
    (hfns : fns.Respectful) (h : Mapped none s) (hr : r ≠ pteOf vaddr)
    (hvalid : (s.entry r).valid = false) : (s.entry r).SameButRef (t.entry r) := by
  cases hc with
  | hit _ =>
    rw [entry_hit, if_neg hr]
    exact .refl _
  | free f _ _ =>
    rw [entry_load, if_neg hr, Sim.entry_initSecondLevel]
    exact .refl _
  | evict f q off s₁ s₂ u _ hfree hevict hpage hout hin =>
    obtain ⟨h₁, _, hall, _, hentry⟩ := hfns.evict_full h hfree hevict
    obtain ⟨hev, _⟩ := Evicted.of_stages h₁ hall hpage hout hin
    obtain ⟨off', _, hu⟩ := hev.entry
    have hrq := h₁.ne_of_page hpage ((hentry r).valid.trans hvalid)
    rw [entry_load, if_neg hr, hu, if_neg hrq]
    exact hentry r

/-- The bytes of all pages that are not lost are kept. -/
def Keeps (file : ByteFile φ) (as : List Access) (s : Sim σ φ) : Prop :=
  ∃ M, Retains file M s ∧ ∀ q, ¬s.lost q → M q = flat as q

/-- An access to a page that is not lost keeps all pages but those it loses. -/
theorem Course.keeps (hc : Course fns file.toFileOps vaddr type s t) (hfns : fns.Respectful)
    (hslots : Slotted swapsize S s) (hmap : Mapped none s) (h : Keeps file as s)
    (hcard : S.card ≤ 2 ^ 24) (haddr : addrOf (pteOf vaddr) = vaddr.toNat)
    (hfound : ¬s.lost (pteOf vaddr)) :
    ∃ M, Retains file (Function.update M (pteOf vaddr) (some ((M (pteOf vaddr)).getD 0))) t ∧
      M (pteOf vaddr) = flat as (pteOf vaddr) ∧
      ∀ q, q ≠ pteOf vaddr → ¬t.lost q → M q = flat as q := by
  obtain ⟨M, hM, hflat⟩ := h
  -- What is lost stays lost.
  have hlost : ∀ q, q ≠ pteOf vaddr → ¬t.lost q → ¬s.lost q := by
    intro q hq ht hs
    have hvalid : (s.entry q).valid = false := by
      cases hv : (s.entry q).valid with
      | false => rfl
      | true =>
        rw [Sim.lost, hmap.exclusive q hv] at hs
        cases hs.1
    exact ht ((lost_congr (hc.entry_ne hfns hmap hq hvalid)).mpr hs)
  rcases hc.retains hfns hslots hmap hM hcard haddr hfound with
    ⟨hretains, _⟩ | ⟨_, _, q, hq, hvalid, _, _, _, hretains⟩
  · exact ⟨M, hretains, hflat _ hfound, fun r hr ht => hflat r (hlost r hr ht)⟩
  · have hp : Function.update M q none (pteOf vaddr) = M (pteOf vaddr) :=
      Function.update_of_ne hq.symm _ _
    refine ⟨Function.update M q none, hp ▸ hretains, hp.trans (hflat _ hfound), ?_⟩
    intro r hr ht
    have hrq : r ≠ q := by
      rintro rfl
      obtain ⟨hinvalid, hoff⟩ := hretains.absent r
        (by rw [Function.update_of_ne hr, Function.update_self])
      have hknown := (hc.flags_ne hfns hmap hr).1
      simp only [Sim.known, hvalid, hinvalid, Bool.true_or, Bool.false_or] at hknown
      exact ht ⟨hknown, hoff⟩
    rw [Function.update_of_ne hrq]
    exact hflat r (hlost r hr ht)

/-- An access to a lost page finds the bytes of the page that it evicts. -/
theorem Course.finds_victim (hc : Course fns file.toFileOps vaddr type s t)
    (hfns : fns.Respectful) (hslots : Slotted swapsize S s) (hmap : Mapped none s)
    (h : Retains file M s) (hlost : s.lost (pteOf vaddr)) :
    ∃ q n, q ∈ S ∧ q ≠ pteOf vaddr ∧
      t.physmem.load (physAddr (t.entry (pteOf vaddr)).frameNo) SIMPAGESIZE =
        pageImage (addrOf q) n := by
  obtain ⟨hon, hoff⟩ := hlost
  cases hc with
  | hit hvalid =>
    rw [hmap.exclusive _ hvalid] at hon
    cases hon
  | free f _ hfree =>
    obtain ⟨hlt, hunused, _⟩ := findFree_eq_some.mp hfree
    rw [hmap.full _ hon f hlt (by simp)] at hunused
    cases hunused
  | evict f q off s₁ s₂ u hvalid hfree hevict hpage hout hin =>
    obtain ⟨hmap₁, _, hall, hpages, hentry⟩ := hfns.evict_full hmap hfree hevict
    obtain ⟨hev, _⟩ := Evicted.of_stages hmap₁ hall hpage hout hin
    have h₁ : Retains file M s₁ := by
      refine h.congr hentry ?_ ?_
      · rw [(hfns.evict _ _ _ hevict).physmem, Sim.physmem_initSecondLevel]
      · rw [(hfns.evict _ _ _ hevict).swapfd, Sim.swapfd_initSecondLevel]
    obtain ⟨hq, hframe⟩ := (hmap₁.backed f q (by simp)).mp hpage
    obtain ⟨n, hn⟩ := h₁.mem_of_valid hq
    have hpq := hmap₁.ne_of_page hpage ((hentry _).valid.trans hvalid)
    -- The victim is written out or not, but its frame is not filled again.
    obtain ⟨off', bm, fd, stderr, hout', _⟩ := swapPageout_spec file.toFileOps
      (toInt (s₁.entry q).swapOff) hmap₁.swapmap (hmap₁.physSize_le (hmap₁.page_lt hpage))
    cases hout.symm.trans hout'
    have hslot : ((markSwapped q off { s₁ with swapmap := bm, swapfd := fd, stderr := stderr }).entry
        (pteOf vaddr)).swapOff = INVALID_SWAP := by
      rw [entry_markSwapped, if_neg hpq]
      exact (hentry _).swapOff.trans hoff
    cases hin.symm.trans (fetchPage_none _ hslot)
    have hvalid₁ : (s₁.entry (pteOf vaddr)).valid = false := by rw [(hentry _).valid, hvalid]
    refine ⟨q, n, hslots.resident f q (hpages ▸ hpage), hpq.symm, ?_⟩
    rw [(Arrived.of_evicted hmap₁ hvalid₁ hev _ _ _).frameNo, hon]
    have hload := h₁.load_of_valid hmap₁ hq hn
    rw [hframe] at hload
    rw [← hload]
    exact congrArg (fun m : Memory => m.load (physAddr f) SIMPAGESIZE) (physmem_markSwapped off)

/-! ## What an access finds -/

/-- The bytes at `ptr` are the page's own earlier ones, or those of a new page. -/
def OwnBytes (as : List Access) (a : Access) (ptr : Nat) (s : Sim σ φ) : Prop :=
  s.physmem.load ptr SIMPAGESIZE = pageImage a.vaddr.toNat (writes as a.vaddr) ∨
    s.physmem.load ptr SIMPAGESIZE = pageImage a.vaddr.toNat 0

theorem addrOf_injOn {q : PtePtr} (hq : q ∈ directory) (hv : vaddr.toNat < 2 ^ 36)
    (halign : vaddr.toNat % 4096 = 0) (hne : q ≠ pteOf vaddr) :
    addrOf q < 2 ^ 64 ∧ addrOf q ≠ vaddr.toNat := by
  obtain ⟨hdir, hidx⟩ := mem_directory_iff.mp hq
  have haddr := addrOf_pteOf hv halign
  have hdir' := pgdirIndex_lt hv
  have hidx' := pgtblIndex_lt vaddr
  obtain ⟨dir, idx⟩ := q
  simp only [addrOf, pteOf, ne_eq, PtePtr.mk.injEq, PTRS_PER_PGDIR, PTRS_PER_PGTBL] at *
  omega

/-- Bytes of another page are not the page's own. -/
theorem not_ownBytes {ptr : Nat} (hq : q ∈ directory) (hv : a.vaddr.toNat < 2 ^ 36)
    (halign : a.vaddr.toNat % 4096 = 0) (hne : q ≠ pteOf a.vaddr)
    (hload : s.physmem.load ptr SIMPAGESIZE = pageImage (addrOf q) n) :
    ¬OwnBytes as a ptr s := by
  obtain ⟨hlt, haddr⟩ := addrOf_injOn hq hv halign hne
  have hcheck := checkaddr_of_load hload hlt
  rintro (hown | hown)
  · exact haddr (hcheck.symm.trans (checkaddr_of_load hown (by omega)))
  · exact haddr (hcheck.symm.trans (checkaddr_of_load hown (by omega)))

/-- One access in a state in which all pages but the lost ones are kept. -/
theorem Keeps.access (h : Keeps file as s) (hfns : fns.Respectful)
    (hans : Answered fns file.toFileOps a s) (hslots : Slotted swapsize directory s)
    (hmap : Mapped none s) (hv : a.vaddr.toNat < 2 ^ 36) (halign : a.vaddr.toNat % 4096 = 0) :
    ∃ ptr s' s'', findPhyspage fns file.toFileOps a.vaddr a.type s = .ok (ptr, s') ∧
      accessMem fns file.toFileOps a s = .ok s'' ∧ Mapped none s'' ∧
      Slotted swapsize directory s'' ∧ (OwnBytes as a ptr s' ↔ ¬s.lost (pteOf a.vaddr)) ∧
      (¬s.lost (pteOf a.vaddr) → Keeps file (as ++ [a]) s'') := by
  have haddr := addrOf_pteOf hv halign
  obtain ⟨s', hfind, hvalid', _, hmap', hslots', _⟩ := findPhyspage_slotted hfns hans hmap
    hslots hv card_directory (mem_directory (pgdirIndex_lt hv))
  obtain ⟨t, hc, href, _⟩ := course_of_findPhyspage hfns hmap hfind
  obtain ⟨stderr, hacc⟩ :=
    accessMem_of_findPhyspage hfind (hmap'.physSize_le (hmap'.frameNo_lt hvalid'))
  have hstep := hfns.ref _ _ _ href
  have hslots'' := hslots' (hslots.writtenOut hfns file hmap card_directory a.vaddr)
  refine ⟨_, s', _, hfind, hacc, hmap'.store _ _,
    hslots''.congr hslots''.resident ⟨rfl, fun _ => rfl⟩, ?_⟩
  by_cases hlost : s.lost (pteOf a.vaddr)
  · obtain ⟨M, hM, _⟩ := h
    obtain ⟨q, n, hq, hne, hload⟩ := hc.finds_victim hfns hslots hmap hM hlost
    rw [← hstep.physmem, ← (hstep.entry _).frameNo] at hload
    exact ⟨iff_of_false (not_ownBytes hq hv halign hne hload) (not_not.mpr hlost),
      fun hfound => absurd hlost hfound⟩
  · obtain ⟨M, hM, hp, hflat⟩ :=
      hc.keeps hfns hslots hmap h card_directory haddr hlost
    have hM' := hM.policyStep hstep
    have hload := hM'.load_of_valid hmap' hvalid' (Function.update_self ..)
    rw [hp, flat_getD, haddr] at hload
    refine ⟨iff_of_true (.inl hload) hlost, fun _ =>
      ⟨_, hM'.access hmap' hvalid' stderr, ?_⟩⟩
    intro r hr
    rw [flat_concat, FlatMemory.access, FlatMemory.access, hp]
    by_cases hrp : r = pteOf a.vaddr
    · rw [hrp, Function.update_self, Function.update_self]
    · rw [Function.update_of_ne hrp, Function.update_of_ne hrp]
      exact hflat r hrp fun ht => hr ((lost_congr (hstep.entry r)).mpr ht)

/-! ## Runs -/

/-- Before the trace there is nothing to keep. -/
theorem keeps_zero {m : Nat} {bm : Bitmap} {physmem : Memory} {fd : φ} {alg : σ}
    (hfns : fns.Respectful) : Keeps file [] (fns.init (.zero m bm physmem fd alg)) := by
  refine ⟨fun _ => none, Retains.policyStep ⟨?_, ?_⟩ (hfns.init _), fun _ _ => rfl⟩
  · intro q n hq
    cases hq
  · intro q _
    exact ⟨PgtblEntry.fresh_valid, rfl⟩

/-- In every run, each access finds its page's own bytes or a new page, if and only if no access is
to a page that was evicted when no slot was left for it. -/
theorem simulate_ownBytes_iff (file : ByteFile φ) {m : Nat} {physmem : Memory} {fd : φ} {alg : σ}
    {trace : List Access} (hfns : fns.Answers file.toFileOps m swapsize physmem fd alg trace)
    (hm : 1 ≤ m ∧ m ≤ 2 ^ 20) (hswap : swapsize < 2 ^ 32) (hrange : ∀ b ∈ trace, b.vaddr.toNat < 2 ^ 36)
    (halign : ∀ b ∈ trace, b.vaddr.toNat % 4096 = 0) :
    (∀ as a, as ++ [a] <+: trace → ∃ s ptr s',
      simulate fns file.toFileOps m swapsize physmem fd alg as = .ok s ∧
      findPhyspage fns file.toFileOps a.vaddr a.type s = .ok (ptr, s') ∧ OwnBytes as a ptr s') ↔
    ∀ as a, as ++ [a] <+: trace → ∃ s,
      simulate fns file.toFileOps m swapsize physmem fd alg as = .ok s ∧
      ¬s.lost (pteOf a.vaddr) := by
  have hmem : ∀ {as a}, as ++ [a] <+: trace → a ∈ trace :=
    fun h => h.subset (by simp)
  refine forall_steps_iff
    (K := fun as => ∃ s, simulate fns file.toFileOps m swapsize physmem fd alg as = .ok s ∧
      Mapped none s ∧ Slotted swapsize directory s ∧ Keeps file as s) ?_ ?_ ?_
  · obtain ⟨bm, hnbits, hclear, hs, hmap, _⟩ :=
      simulate_nil hfns.toRespectful file.toFileOps hm.2 hswap physmem fd alg
    exact ⟨_, hs, hmap, (Slotted.zero hnbits hclear).policyStep (hfns.init _),
      keeps_zero hfns.toRespectful⟩
  · rintro as a ha ⟨s, hs, hmap, hslots, hkeeps⟩
    obtain ⟨ptr, s', _, hfind, _, _, _, hown, _⟩ := hkeeps.access hfns.toRespectful
      (hfns.answers as a ha s hs) hslots hmap (hrange a (hmem ha)) (halign a (hmem ha))
    constructor
    · rintro ⟨_, _, _, hs₂, hfind₂, hown₂⟩
      cases hs.symm.trans hs₂
      cases hfind.symm.trans hfind₂
      exact ⟨s, hs, hown.mp hown₂⟩
    · rintro ⟨_, hs₂, hlost⟩
      cases hs.symm.trans hs₂
      exact ⟨s, ptr, s', hs, hfind, hown.mpr hlost⟩
  · rintro as a ha ⟨s, hs, hmap, hslots, hkeeps⟩ ⟨_, hs₂, hlost⟩
    cases hs.symm.trans hs₂
    obtain ⟨_, _, s'', _, hacc, hmap', hslots', _, hkeeps'⟩ := hkeeps.access hfns.toRespectful
      (hfns.answers as a ha s hs) hslots hmap (hrange a (hmem ha)) (halign a (hmem ha))
    refine ⟨s'', ?_, hmap', hslots', hkeeps' hlost⟩
    rw [simulate_concat, hs, ok_bind, hacc]

/-- Two pages through one frame, with a slot for each page that is evicted. -/
theorem simulate_ownBytes_iff_rand :
    (∀ as a, as ++ [a] <+: [⟨'S', 0x1000⟩, ⟨'L', 0x2000⟩] → ∃ s ptr s',
      simulate rand regularFile.toFileOps 1 1 (fun _ => 0) .empty ⟨fun n => n, 0⟩ as = .ok s ∧
      findPhyspage rand regularFile.toFileOps a.vaddr a.type s = .ok (ptr, s') ∧
      OwnBytes as a ptr s') ↔
    ∀ as a, as ++ [a] <+: [⟨'S', 0x1000⟩, ⟨'L', 0x2000⟩] → ∃ s,
      simulate rand regularFile.toFileOps 1 1 (fun _ => 0) .empty ⟨fun n => n, 0⟩ as = .ok s ∧
      ¬s.lost (pteOf a.vaddr) :=
  simulate_ownBytes_iff regularFile (rand_chooses.answers _ (by decide) (by decide) _ _ _ _)
    (by decide) (by decide) (by decide) (by decide)

/-- With one frame and one slot, the second page evicted is lost. The access that comes back to it
is given the frame with the bytes of a third page. -/
theorem findPhyspage_mixes_pages :
    ∃ s ptr s', simulate rand regularFile.toFileOps 1 1 (fun _ => 0) .empty ⟨fun n => n, 0⟩
        [⟨'S', 0x1000⟩, ⟨'S', 0x2000⟩, ⟨'S', 0x3000⟩] = .ok s ∧
      findPhyspage rand regularFile.toFileOps 0x2000 'L' s = .ok (ptr, s') ∧
      s'.physmem.load ptr SIMPAGESIZE = pageImage 0x3000 1 := by
  have hrun : (simulate rand regularFile.toFileOps 1 1 (fun _ => 0) .empty ⟨fun n => n, 0⟩
      [⟨'S', 0x1000⟩, ⟨'S', 0x2000⟩, ⟨'S', 0x3000⟩] >>= fun s =>
      findPhyspage rand regularFile.toFileOps 0x2000 'L' s >>= fun r =>
      .ok (r.2.physmem.load r.1 SIMPAGESIZE)) = .ok (pageImage 0x3000 1) := by decide +kernel
  obtain ⟨s, hs, hrest⟩ := bind_eq_ok.mp hrun
  obtain ⟨⟨ptr, s'⟩, hfind, heq⟩ := bind_eq_ok.mp hrest
  exact ⟨s, ptr, s', hs, hfind, Except.ok.inj heq⟩

end Paging

-- SUMMARY: What the bytes of a page are, and where each stage of an access moves them.
import OperatingSystems.Paging.Consistency

/-!
# Contents

A page that has been accessed has its bytes in its frame or in its slot of the swap file. The
lemmas of this file follow the bytes of all pages through an access; the bytes are those of a flat
memory that keeps one version counter for each page.
-/

namespace Paging

open Library Library.Run

variable {σ φ : Type} {s s' t u : Sim σ φ} {p q : PtePtr} {f k n swapsize : Nat} {m : Memory}
  {hole : Option Nat} {S : Finset PtePtr} {file : ByteFile φ} {vaddr : Addr} {type : Char}

/-! ## The bytes of a page -/

/-- The bytes of a page: its version counter, its address, and padding. -/
def pageImage (vaddr version : Nat) : List Byte :=
  leBytes 4 version ++ leBytes 8 vaddr ++ leBytes 4 0

@[simp] theorem length_pageImage (v n : Nat) : (pageImage v n).length = SIMPAGESIZE := by
  simp [pageImage, SIMPAGESIZE]

/-- A frame as `init_frame` fills it. -/
theorem load_initFrame (m : Memory) (a v : Nat) :
    ((m.store a zeroPage).store (a + 4) (leBytes 8 v)).load a SIMPAGESIZE = pageImage v 0 := by
  rw [Memory.load_store_inside (by simp [SIMPAGESIZE]),
    Memory.load_store_eq (by simp [zeroPage]), length_leBytes]
  have hhead : zeroPage.take 4 = leBytes 4 0 := by decide
  have htail : zeroPage.drop (4 + 8) = leBytes 4 0 := by decide
  rw [hhead, htail]
  rfl

theorem version_of_load {v : Nat} (h : s.physmem.load k SIMPAGESIZE = pageImage v n) :
    s.version k = n % 2 ^ 32 := by
  have hpart := Memory.load_part (m := s.physmem) (a := k) (n := SIMPAGESIZE) (i := 0) (k := 4)
    (by decide)
  rw [h, Nat.add_zero] at hpart
  rw [Sim.version, ← hpart]
  simp [pageImage, ofLeBytes_leBytes]

theorem checkaddr_of_load {v : Nat} (h : s.physmem.load k SIMPAGESIZE = pageImage v n)
    (hv : v < 2 ^ 64) : s.checkaddr k = v := by
  have hpart := Memory.load_part (m := s.physmem) (a := k) (n := SIMPAGESIZE) (i := 4) (k := 8)
    (by decide)
  rw [h] at hpart
  rw [Sim.checkaddr, ← hpart]
  have hbytes : ((pageImage v n).drop 4).take 8 = leBytes 8 v := by
    simp [pageImage]
  rw [hbytes, ofLeBytes_leBytes]
  exact Nat.mod_eq_of_lt (by omega)

/-- Storing the next version, computed modulo 2^32, gives the bytes of the next version. -/
theorem load_store_version {v : Nat} (h : m.load k SIMPAGESIZE = pageImage v n) :
    (m.store k (leBytes 4 (n % 2 ^ 32 + 1))).load k SIMPAGESIZE = pageImage v (n + 1) := by
  have hnext : leBytes 4 (n % 2 ^ 32 + 1) = leBytes 4 (n + 1) := by
    rw [← leBytes_mod 4 (n % 2 ^ 32 + 1), ← leBytes_mod 4 (n + 1)]
    congr 1
    omega
  have hinside : (m.store (k + 0) (leBytes 4 (n + 1))).load k SIMPAGESIZE = _ :=
    Memory.load_store_inside (by simp [SIMPAGESIZE])
  rw [Nat.add_zero] at hinside
  rw [hnext, hinside, h]
  simp [pageImage]

/-- Frames do not overlap. -/
theorem physAddr_disjoint {i j : Nat} (hi : i < 2 ^ 20) (hj : j < 2 ^ 20) (hne : i ≠ j) :
    physAddr i + SIMPAGESIZE ≤ physAddr j ∨ physAddr j + SIMPAGESIZE ≤ physAddr i := by
  simp only [physAddr, SIMPAGESIZE]
  omega

/-- Storing in the frame of no page leaves the frames of the pages in memory alone. -/
theorem Mapped.load_store_vacant (h : Mapped (some f) s) (hf : f < s.memsize)
    (hvalid : (s.entry q).valid) {bytes : List Byte} (hlen : bytes.length = SIMPAGESIZE) :
    (s.physmem.store (physAddr f) bytes).load (physAddr (s.entry q).frameNo) SIMPAGESIZE =
      s.physmem.load (physAddr (s.entry q).frameNo) SIMPAGESIZE := by
  have hne : (s.entry q).frameNo ≠ f := fun heq => h.vacant q hvalid (by rw [heq])
  rw [Memory.load_store_disjoint]
  rw [hlen]
  exact physAddr_disjoint PgtblEntry.frameNo_lt (lt_of_lt_of_le hf h.memsize_le) hne

/-- So does filling a frame. -/
theorem Mapped.load_initFrame_vacant (h : Mapped (some f) s) (hf : f < s.memsize)
    (hvalid : (s.entry q).valid) (v : Nat) :
    ((s.physmem.store (physAddr f) zeroPage).store (physAddr f + 4) (leBytes 8 v)).load
      (physAddr (s.entry q).frameNo) SIMPAGESIZE =
        s.physmem.load (physAddr (s.entry q).frameNo) SIMPAGESIZE := by
  have hne : (s.entry q).frameNo ≠ f := fun heq => h.vacant q hvalid (by rw [heq])
  have hdisj := physAddr_disjoint PgtblEntry.frameNo_lt (lt_of_lt_of_le hf h.memsize_le) hne
  simp only [SIMPAGESIZE] at hdisj
  rw [Memory.load_store_disjoint (by simp only [length_leBytes, SIMPAGESIZE]; omega),
    h.load_store_vacant hf hvalid (by simp [zeroPage])]

/-- Storing in the frame of one page leaves the frames of the others alone. -/
theorem Mapped.load_store_frame (h : Mapped none s) (hp : (s.entry p).valid)
    (hq : (s.entry q).valid) (hne : q ≠ p) {bytes : List Byte} (hlen : bytes.length ≤ SIMPAGESIZE) :
    (s.physmem.store (physAddr (s.entry p).frameNo) bytes).load (physAddr (s.entry q).frameNo)
      SIMPAGESIZE = s.physmem.load (physAddr (s.entry q).frameNo) SIMPAGESIZE := by
  have hframe : (s.entry q).frameNo ≠ (s.entry p).frameNo := by
    intro heq
    have hpage := h.page_frameNo hq
    rw [heq, h.page_frameNo hp] at hpage
    exact hne (Option.some.inj hpage).symm
  have hdisj := physAddr_disjoint (PgtblEntry.frameNo_lt (e := s.entry q))
    (PgtblEntry.frameNo_lt (e := s.entry p)) hframe
  rw [Memory.load_store_disjoint]
  omega

/-- Storing in one slot leaves the others alone. -/
theorem load_slot_store {j : Nat} (hne : j ≠ k) {bytes : List Byte}
    (hlen : bytes.length = SIMPAGESIZE) :
    (m.store (k * 16) bytes).load (j * 16) SIMPAGESIZE = m.load (j * 16) SIMPAGESIZE := by
  rw [Memory.load_store_disjoint]
  rw [hlen]
  simp only [SIMPAGESIZE]
  omega

/-- The address that a page starts at. -/
def addrOf (q : PtePtr) : Nat := q.dir * 2 ^ 24 + q.idx * 2 ^ 12

theorem addrOf_pteOf (hv : vaddr.toNat < 2 ^ 36) (halign : vaddr.toNat % 4096 = 0) :
    addrOf (pteOf vaddr) = vaddr.toNat := by
  simp only [addrOf, pteOf, pgdirIndex, pgtblIndex, PGDIR_SHIFT, PAGE_SHIFT, PGTBL_MASK,
    PTRS_PER_PGTBL, Nat.shiftRight_eq_div_pow]
  rw [show (4096 - 1 : Nat) = 2 ^ 12 - 1 by norm_num, Nat.and_two_pow_sub_one_eq_mod]
  omega

/-! ## Flat memory -/

/-- A memory in which each page is always there: the version counter of each page accessed so
far. -/
abbrev FlatMemory := PtePtr → Option Nat

/-- Where the bytes of a page are. -/
inductive Holds (file : ByteFile φ) (s : Sim σ φ) (q : PtePtr) (bs : List Byte) : Prop
  | inMemory : (s.entry q).valid → s.physmem.load (physAddr (s.entry q).frameNo) SIMPAGESIZE = bs →
      Holds file s q bs
  | onSwap (k : Nat) : (s.entry q).onswap → (s.entry q).swapOff = k * 16 →
      k * 16 + SIMPAGESIZE ≤ file.size s.swapfd →
      (file.bytes s.swapfd).load (k * 16) SIMPAGESIZE = bs → Holds file s q bs

/-- The page is marked as on swap, and has no slot there. -/
def Sim.lost (s : Sim σ φ) (p : PtePtr) : Prop :=
  (s.entry p).onswap ∧ (s.entry p).swapOff = INVALID_SWAP

theorem lost_congr (h : (s.entry p).SameButRef (t.entry p)) : t.lost p ↔ s.lost p := by
  simp only [Sim.lost, h.onswap, h.swapOff]

/-- What the eviction has left of a page that is about to be fetched. -/
theorem absent_congr (hu : u.entry p = t.entry p) (h : (s.entry p).SameButRef (t.entry p))
    (hvalid : (s.entry p).valid = false) (hfound : ¬s.lost p) :
    (u.entry p).valid = false ∧ ¬u.lost p ∧ (u.entry p).onswap = (s.entry p).onswap := by
  refine ⟨?_, ?_, ?_⟩
  · rw [hu, h.valid, hvalid]
  · rw [Sim.lost, hu]
    exact fun hlost => hfound ((lost_congr h).mp hlost)
  · rw [hu, h.onswap]

theorem Holds.not_lost {bs : List Byte} (h : Holds file s q bs) (hmap : Mapped none s) :
    ¬s.lost q := by
  rintro ⟨hon, hoff⟩
  cases h with
  | inMemory hv _ =>
    rw [hmap.exclusive q hv] at hon
    cases hon
  | onSwap k _ hslot _ _ => exact slot_ne_invalid k (hslot.symm.trans hoff)

/-- The simulator has the bytes of the pages in `M`. The other pages are nowhere: not in memory, and
without a slot. -/
structure Retains (file : ByteFile φ) (M : FlatMemory) (s : Sim σ φ) : Prop where
  held : ∀ q n, M q = some n → Holds file s q (pageImage (addrOf q) n)
  absent : ∀ q, M q = none → (s.entry q).valid = false ∧ (s.entry q).swapOff = INVALID_SWAP

namespace Retains

variable {M : FlatMemory}

theorem congr (h : Retains file M s) (hentry : ∀ q, (s.entry q).SameButRef (t.entry q))
    (hmem : t.physmem = s.physmem) (hfd : t.swapfd = s.swapfd) : Retains file M t where
  held q n hq := by
    cases h.held q n hq with
    | inMemory hv hload =>
      exact .inMemory ((hentry q).valid ▸ hv) (by rw [(hentry q).frameNo, hmem]; exact hload)
    | onSwap k ho hoff hsize hload =>
      exact .onSwap k ((hentry q).onswap ▸ ho) ((hentry q).swapOff.trans hoff)
        (by rw [hfd]; exact hsize) (by rw [hfd]; exact hload)
  absent q hq := by
    rw [(hentry q).valid, (hentry q).swapOff]
    exact h.absent q hq

theorem policyStep (h : Retains file M s) (hstep : PolicyStep s s') : Retains file M s' :=
  h.congr hstep.entry hstep.physmem hstep.swapfd

/-- A page in memory is one of the flat memory's. -/
theorem mem_of_valid (h : Retains file M s) (hvalid : (s.entry q).valid) : ∃ n, M q = some n := by
  cases hM : M q with
  | none =>
    rw [(h.absent q hM).1] at hvalid
    cases hvalid
  | some n => exact ⟨n, rfl⟩

/-- A page that is neither in memory nor on swap is none of them. -/
theorem eq_none (h : Retains file M s) (hvalid : (s.entry q).valid = false)
    (hswap : (s.entry q).onswap = false) : M q = none := by
  cases hM : M q with
  | none => rfl
  | some n =>
    cases h.held q n hM with
    | inMemory hv _ =>
      rw [hvalid] at hv
      cases hv
    | onSwap _ hon _ _ _ =>
      rw [hswap] at hon
      cases hon

/-- A page in memory has its bytes in its frame. -/
theorem load_of_valid (h : Retains file M s) (hmap : Mapped hole s) (hvalid : (s.entry q).valid)
    (hM : M q = some n) :
    s.physmem.load (physAddr (s.entry q).frameNo) SIMPAGESIZE = pageImage (addrOf q) n := by
  cases h.held q n hM with
  | inMemory _ hload => exact hload
  | onSwap k hon _ _ _ =>
    rw [hmap.exclusive q hvalid] at hon
    cases hon

/-! ### Eviction -/

/-- The page evicted is in its slot afterwards, and no other page is touched. -/
theorem evict (h : Retains file M s) (hmap : Mapped none s) (hpage : s.page f = some q)
    (bm : Bitmap) {fd : φ} (hsize : file.size fd = max (file.size s.swapfd) (k * 16 + SIMPAGESIZE))
    (hbytes : file.bytes fd = (file.bytes s.swapfd).store (k * 16)
      (s.physmem.load (physAddr f) SIMPAGESIZE))
    (hslot : ∀ r, r ≠ q → (s.entry r).swapOff ≠ k * 16) :
    Retains file M (markSwapped q (k * 16 : Int) { s with swapmap := bm, swapfd := fd }) := by
  obtain ⟨hvalid, hframe⟩ := (hmap.backed f q (by simp)).mp hpage
  have hentry : ∀ r, (markSwapped q (k * 16 : Int) { s with swapmap := bm, swapfd := fd }).entry r =
      if r = q then (s.entry q).swapOut (k * 16) else s.entry r := fun r => entry_markSwapped _
  refine ⟨?_, ?_⟩
  · intro r n hr
    -- The victim goes from memory to its slot; other slots are disjoint from that one.
    by_cases hrq : r = q
    · subst hrq
      have hload := h.load_of_valid hmap hvalid hr
      refine .onSwap k (by rw [hentry, if_pos rfl]; simp) (by rw [hentry, if_pos rfl]; simp) ?_ ?_
      · rw [swapfd_markSwapped, hsize]
        exact le_max_right _ _
      · rw [swapfd_markSwapped, hbytes, Memory.load_store_eq (by simp), ← hframe]
        exact hload
    · cases h.held r n hr with
      | inMemory hv hload =>
        refine .inMemory (by rw [hentry, if_neg hrq]; exact hv) ?_
        rw [hentry, if_neg hrq, physmem_markSwapped]
        exact hload
      | onSwap j hon hoff hsz hload =>
        have hne : j ≠ k := by
          rintro rfl
          exact hslot r hrq hoff
        refine .onSwap j (by rw [hentry, if_neg hrq]; exact hon)
          (by rw [hentry, if_neg hrq]; exact hoff) ?_ ?_
        · rw [swapfd_markSwapped, hsize]
          exact hsz.trans (le_max_left _ _)
        · rw [swapfd_markSwapped, hbytes, load_slot_store hne (by simp)]
          exact hload
  · intro r hr
    have hrq : r ≠ q := by
      rintro rfl
      rw [(h.absent r hr).1] at hvalid
      cases hvalid
    rw [hentry, if_neg hrq]
    exact h.absent r hr

/-- A page that gets no slot is lost, and no other page is touched. -/
theorem lose (h : Retains file M s) (hvalid : (s.entry q).valid) (stderr : List String) :
    Retains file (Function.update M q none)
      (markSwapped q INVALID_SWAP { s with stderr := stderr }) := by
  have hentry : ∀ r, (markSwapped q INVALID_SWAP { s with stderr := stderr }).entry r =
      if r = q then (s.entry q).swapOut INVALID_SWAP else s.entry r := fun r => entry_markSwapped _
  refine ⟨?_, ?_⟩
  · intro r n hr
    have hrq : r ≠ q := by
      rintro rfl
      rw [Function.update_self] at hr
      cases hr
    rw [Function.update_of_ne hrq] at hr
    cases h.held r n hr with
    | inMemory hv hload =>
      refine .inMemory (by rw [hentry, if_neg hrq]; exact hv) ?_
      rw [hentry, if_neg hrq, physmem_markSwapped]
      exact hload
    | onSwap j hon hoff hsz hload =>
      exact .onSwap j (by rw [hentry, if_neg hrq]; exact hon)
        (by rw [hentry, if_neg hrq]; exact hoff) (by rw [swapfd_markSwapped]; exact hsz)
        (by rw [swapfd_markSwapped]; exact hload)
  · intro r hr
    rw [hentry]
    by_cases hrq : r = q
    · rw [if_pos hrq]
      simp [hvalid]
    · rw [if_neg hrq]
      rw [Function.update_of_ne hrq] at hr
      exact h.absent r hr

/-! ### Filling a frame -/

/-- Bytes written to a frame that no page is in do not touch a page. -/
theorem fill (h : Retains file M u) (hmap : Mapped (some f) u) (hf : f < u.memsize)
    {bytes : List Byte} (hlen : bytes.length = SIMPAGESIZE) {fd : φ}
    (hsize : file.size fd = file.size u.swapfd) (hbytes : file.bytes fd = file.bytes u.swapfd) :
    Retains file M { u with physmem := u.physmem.store (physAddr f) bytes, swapfd := fd } where
  held r n hr := by
    cases h.held r n hr with
    | inMemory hv hload =>
      refine .inMemory hv ?_
      change (u.physmem.store (physAddr f) bytes).load (physAddr (u.entry r).frameNo) SIMPAGESIZE = _
      rw [hmap.load_store_vacant hf hv hlen]
      exact hload
    | onSwap k hon hoff hsz hload =>
      refine .onSwap k hon hoff ?_ ?_
      · change k * 16 + SIMPAGESIZE ≤ file.size fd
        rw [hsize]
        exact hsz
      · change (file.bytes fd).load (k * 16) SIMPAGESIZE = _
        rw [hbytes]
        exact hload
  absent := h.absent

/-- The page whose bytes are in the frame it moves into, once its entry says so. -/
theorem land (h : Retains file M u) (hentry : ∀ r, r ≠ p → t.entry r = u.entry r)
    (hvalid : (t.entry p).valid) (hframe : (t.entry p).frameNo = f)
    (hmem : ∀ r, r ≠ p → (u.entry r).valid → t.physmem.load (physAddr (u.entry r).frameNo)
      SIMPAGESIZE = u.physmem.load (physAddr (u.entry r).frameNo) SIMPAGESIZE)
    (hload : t.physmem.load (physAddr f) SIMPAGESIZE = pageImage (addrOf p) n)
    (hfd : t.swapfd = u.swapfd) : Retains file (Function.update M p (some n)) t where
  held r n' hr := by
    by_cases hrp : r = p
    · subst hrp
      rw [Function.update_self] at hr
      cases hr
      exact .inMemory hvalid (by rw [hframe]; exact hload)
    · rw [Function.update_of_ne hrp] at hr
      cases h.held r n' hr with
      | inMemory hv hl =>
        refine .inMemory (by rw [hentry r hrp]; exact hv) ?_
        rw [hentry r hrp, hmem r hrp hv]
        exact hl
      | onSwap k hon hoff hsz hl =>
        exact .onSwap k (by rw [hentry r hrp]; exact hon) (by rw [hentry r hrp]; exact hoff)
          (by rw [hfd]; exact hsz) (by rw [hfd]; exact hl)
  absent r hr := by
    have hrp : r ≠ p := by
      rintro rfl
      rw [Function.update_self] at hr
      cases hr
    rw [Function.update_of_ne hrp] at hr
    rw [hentry r hrp]
    exact h.absent r hr

end Retains

/-- The simulator keeps the pages of a flat memory, and has printed nothing. -/
structure Refines (file : ByteFile φ) (M : FlatMemory) (s : Sim σ φ) : Prop where
  held : ∀ q n, M q = some n → Holds file s q (pageImage (addrOf q) n)
  untouched : ∀ q, M q = none → (s.entry q).valid = false ∧ (s.entry q).onswap = false ∧
    (s.entry q).swapOff = INVALID_SWAP
  stderr : s.stderr = []

namespace Refines

variable {M M' : FlatMemory}

theorem retains (h : Refines file M s) : Retains file M s where
  held := h.held
  absent q hq := ⟨(h.untouched q hq).1, (h.untouched q hq).2.2⟩

theorem not_lost (h : Refines file M s) (hmap : Mapped none s) (q : PtePtr) : ¬s.lost q := by
  cases hM : M q with
  | none =>
    rintro ⟨hon, _⟩
    rw [(h.untouched q hM).2.1] at hon
    cases hon
  | some n => exact (h.held q n hM).not_lost hmap

/-- A stage that prints nothing and loses no page. -/
theorem of_retains (h : Refines file M s) (hr : Retains file M' t)
    (honswap : ∀ q, M' q = none → (t.entry q).onswap = false) (herr : t.stderr = s.stderr) :
    Refines file M' t where
  held := hr.held
  untouched q hq := ⟨(hr.absent q hq).1, honswap q hq, (hr.absent q hq).2⟩
  stderr := herr.trans h.stderr

theorem policyStep (h : Refines file M s) (hstep : PolicyStep s s') : Refines file M s' := by
  refine h.of_retains (h.retains.policyStep hstep) ?_ hstep.stderr
  intro q hq
  rw [(hstep.entry q).onswap]
  exact (h.untouched q hq).2.1

end Refines

/-! ## Swapping with a file that stores bytes -/

theorem writeSlot_file (file : ByteFile φ) (hframe : physAddr f + SIMPAGESIZE ≤ s.physSize) (k : Nat) :
    ∃ fd, writeSlot file.toFileOps f (k * 16) s = .ok ((k * 16 : Int), { s with swapfd := fd }) ∧
      file.size fd = max (file.size s.swapfd) (k * 16 + SIMPAGESIZE) ∧
      file.bytes fd = (file.bytes s.swapfd).store (k * 16)
        (s.physmem.load (physAddr f) SIMPAGESIZE) := by
  obtain ⟨fd₁, hseek, hpos, hsize₁, hbytes₁⟩ := file.lseek_spec s.swapfd (k * 16) (by omega)
  obtain ⟨fd₂, hwrite, hsize₂, hbytes₂⟩ :=
    file.write_spec fd₁ (s.physmem.load (physAddr f) SIMPAGESIZE)
  have hpos' : file.pos fd₁ = k * 16 := by omega
  refine ⟨fd₂, ?_, ?_, ?_⟩
  · simp [writeSlot, need_of (slot_ne_invalid k), need_of hframe, hseek, hwrite]
  · rw [hsize₂, hsize₁, hpos', Memory.length_load]
  · rw [hbytes₂, hbytes₁, hpos']

/-- `swap_pageout` stores the frame in the page's own slot, or finds that the map has none left. -/
theorem swapPageout_cases (file : ByteFile φ) (hmap : Mapped none s) (h : Slotted swapsize S s)
    (hpage : s.page f = some q) (hcard : S.card ≤ 2 ^ 24) :
    (∃ (k : Nat) (bm : Bitmap) (fd : φ), swapPageout file.toFileOps f (toInt (s.entry q).swapOff) s =
        .ok ((k * 16 : Int), { s with swapmap := bm, swapfd := fd }) ∧ bm.WellFormed ∧
      toInt (k * 16) = k * 16 ∧
      file.size fd = max (file.size s.swapfd) (k * 16 + SIMPAGESIZE) ∧
      file.bytes fd = (file.bytes s.swapfd).store (k * 16)
        (s.physmem.load (physAddr f) SIMPAGESIZE) ∧
      ∀ r, r ≠ q → (s.entry r).swapOff ≠ k * 16) ∨
    (s.entry q).swapOff = INVALID_SWAP ∧ (∀ k < 32 * s.swapmap.v.length, s.swapmap.isset k) ∧
      ∃ stderr, swapPageout file.toFileOps f (toInt (s.entry q).swapOff) s =
        .ok (INVALID_SWAP, { s with stderr := stderr }) := by
  have hframe := hmap.physSize_le (hmap.page_lt hpage)
  rw [hmap.swapOff q]
  unfold swapPageout
  by_cases hoff : (s.entry q).swapOff = INVALID_SWAP
  · rw [if_pos hoff]
    have hq := h.resident f q hpage
    rcases Bitmap.bitmapAlloc_spec hmap.swapmap with
      ⟨hnone, hall⟩ | ⟨k, hsome, hk, hcap, hclear, hlow⟩
    · rw [hnone]
      exact .inr ⟨hoff, hall, _, rfl⟩
    · rw [h.nbits] at hk
      have hlt := h.lt_card hq hoff hk.le hlow
      obtain ⟨fd, hwrite, hsize, hbytes⟩ := writeSlot_file file (f := f)
        (s := { s with swapmap := s.swapmap.take k }) hframe k
      have hk27 : k < 2 ^ 27 := by omega
      refine .inl ⟨k, s.swapmap.take k, fd, ?_, hmap.swapmap.take hcap, ?_, hsize, hbytes, ?_⟩
      · rw [hsome, ok_bind]
        change writeSlot file.toFileOps f (slotOffset k) _ = _
        rw [slotOffset_of_lt hk27]
        exact hwrite
      · rw [← slotOffset_of_lt hk27, toInt_slotOffset]
      · intro r _ hr
        rw [(h.bits k hk).mpr ⟨r, hr⟩] at hclear
        cases hclear
  · rw [if_neg hoff]
    obtain ⟨k, _, hk⟩ := h.slot q hoff
    obtain ⟨fd, hwrite, hsize, hbytes⟩ := writeSlot_file file (f := f) (s := s) hframe k
    refine .inl ⟨k, s.swapmap, fd, by rw [hk]; exact hwrite, hmap.swapmap, hk ▸ hmap.swapOff q,
      hsize, hbytes, ?_⟩
    intro r hr heq
    exact hr (h.distinct q r hoff (hk.trans heq.symm)).symm

theorem swapPagein_file (file : ByteFile φ) (hframe : physAddr f + SIMPAGESIZE ≤ u.physSize)
    (hsize : k * 16 + SIMPAGESIZE ≤ file.size u.swapfd) :
    ∃ fd, swapPagein file.toFileOps f (k * 16) u = .ok (0, { u with
        physmem := u.physmem.store (physAddr f) ((file.bytes u.swapfd).load (k * 16) SIMPAGESIZE),
        swapfd := fd }) ∧
      file.size fd = file.size u.swapfd ∧ file.bytes fd = file.bytes u.swapfd := by
  obtain ⟨fd₁, hseek, hpos, hsize₁, hbytes₁⟩ := file.lseek_spec u.swapfd (k * 16) (by omega)
  have hpos' : file.pos fd₁ = k * 16 := by omega
  obtain ⟨fd₂, hread, hsize₂, hbytes₂⟩ := file.read_spec fd₁ SIMPAGESIZE
    (by rw [hpos', hsize₁]; exact hsize)
  refine ⟨fd₂, ?_, hsize₂.trans hsize₁, hbytes₂.trans hbytes₁⟩
  rw [hbytes₁, hpos'] at hread
  simp [swapPagein, need_of (slot_ne_invalid k), need_of hframe, hseek, hread]

/-- A page that has a slot is read back from it. -/
theorem fetchPage_file (file : ByteFile φ) (hframe : physAddr f + SIMPAGESIZE ≤ u.physSize)
    (hoff : (u.entry p).swapOff = k * 16) (htoInt : toInt (u.entry p).swapOff = (u.entry p).swapOff)
    (hsize : k * 16 + SIMPAGESIZE ≤ file.size u.swapfd) :
    ∃ fd, fetchPage file.toFileOps f p u = .ok { u with
        physmem := u.physmem.store (physAddr f) ((file.bytes u.swapfd).load (k * 16) SIMPAGESIZE),
        swapfd := fd } ∧
      file.size fd = file.size u.swapfd ∧ file.bytes fd = file.bytes u.swapfd := by
  obtain ⟨fd, hin, hsize', hbytes'⟩ := swapPagein_file file hframe hsize
  refine ⟨fd, ?_, hsize', hbytes'⟩
  unfold fetchPage
  rw [if_pos (hoff ▸ slot_ne_invalid k), htoInt, hoff, hin, ok_bind]
  rfl

/-- A page without a slot is not read at all. -/
theorem fetchPage_none (io : FileOps φ) (h : (u.entry p).swapOff = INVALID_SWAP) :
    fetchPage io f p u = .ok u := by
  unfold fetchPage
  rw [if_neg (not_not.mpr h)]

end Paging

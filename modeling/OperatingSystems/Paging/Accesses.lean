-- SUMMARY: The course of one access and of a whole run, as the calls that a replacement algorithm sees.
import OperatingSystems.Paging.Residency

/-!
# Accesses

An access is a call of `ref_fcn`, after a call of `evict_fcn` if there is no frame left. This file
says in which states the two are called, and derives from it the rules by which the properties of
the single replacement algorithms are proved.
-/

namespace Paging

open Library Library.Run

variable {σ φ : Type} {s s' t : Sim σ φ} {p q : PtePtr} {f i : Nat} {hole : Option Nat}

/-! ## The calls of an access -/

/-- The state in which `ref_fcn` is called, for a page that is now in a frame: nothing that a
replacement algorithm owns has changed but the page's reference bit. -/
structure Arrived (p : PtePtr) (f : Nat) (s t : Sim σ φ) : Prop where
  mapped : Mapped none t
  page : t.page = Function.update s.page f (some p)
  frameNo : (t.entry p).frameNo = f
  ref_self : (t.entry p).ref = true
  ref : ∀ q, q ≠ p → (t.entry q).ref = (s.entry q).ref
  memsize : t.memsize = s.memsize
  alg : t.alg = s.alg
  frameAbove : ∀ i, (t.coremap i).frameAbove = (s.coremap i).frameAbove
  frameBelow : ∀ i, (t.coremap i).frameBelow = (s.coremap i).frameBelow

namespace Arrived

variable {u : Sim σ φ} {fns : Functions σ φ} {io : FileOps φ} {vaddr : Addr} {type : Char}

theorem lt (h : Arrived p f s t) : f < s.memsize := by
  have hpage : t.page f = some p := by rw [h.page, Function.update_self]
  exact h.memsize ▸ h.mapped.page_lt hpage

/-- A page that is in memory already. -/
theorem hit (h : Mapped none s) (hvalid : (s.entry p).valid) (vaddr : Addr) (type : Char) :
    Arrived p (s.entry p).frameNo s
      (touched p vaddr type { s with hitCount := s.hitCount + 1 }) := by
  have hM : Mapped none { s with hitCount := s.hitCount + 1 } :=
    h.congr rfl rfl (fun _ => ⟨rfl, rfl⟩) rfl
  have hpage := h.page_frameNo hvalid
  have hframe := Mapped.frame_touched p vaddr type { s with hitCount := s.hitCount + 1 }
  refine ⟨hM.touch hpage (h.frameNo_lt hvalid) (h.exclusive p hvalid) (fun _ hi => by cases hi)
    vaddr type, ?_, ?_, ?_, ?_, rfl, rfl, fun i => (hframe i).2.2.1, fun i => (hframe i).2.2.2⟩
  · rw [Mapped.page_touched, ← hpage, Function.update_eq_self]
    rfl
  · rw [entry_touched, if_pos rfl, PgtblEntry.frameNo_mark]
    rfl
  · rw [entry_touched, if_pos rfl, PgtblEntry.ref_mark]
  · intro q hq
    rw [entry_touched, if_neg hq]
    rfl

/-- A page that moves into a frame being handed over. -/
theorem load (h : Mapped (some f) u) (hf : f < u.memsize) (hvalid : (u.entry p).valid = false)
    (onswap : Bool) (vaddr : Addr) (type : Char) :
    Arrived p f u (touched p vaddr type (place onswap p f vaddr (record p f u))) := by
  have hf20 : f < 2 ^ 20 := lt_of_lt_of_le hf h.memsize_le
  have hentry : ∀ q, (place onswap p f vaddr (record p f u)).entry q = if q = p then
      (if onswap then (u.entry p).place f else ((u.entry p).place f).set PG_DIRTY)
      else u.entry q := fun q => entry_place
  have hframeNo : ((place onswap p f vaddr (record p f u)).entry p).frameNo = f := by
    rw [hentry, if_pos rfl]
    cases onswap <;> simp [PgtblEntry.frameNo_place hf20]
  have hswap : ((place onswap p f vaddr (record p f u)).entry p).onswap = false := by
    rw [hentry, if_pos rfl]
    cases onswap <;> simp
  have hpage : (place onswap p f vaddr (record p f u)).page = Function.update u.page f (some p) := by
    funext i
    by_cases hi : i = f
    · subst hi
      simp [Sim.page, record]
    · simp [Sim.page, record, hi]
  have hframe : ∀ i, ((record p f u).coremap i).frameAbove = (u.coremap i).frameAbove ∧
      ((record p f u).coremap i).frameBelow = (u.coremap i).frameBelow := by
    intro i
    by_cases hi : i = f
    · subst hi
      simp [record]
    · simp [record, hi]
  have htouched := Mapped.frame_touched p vaddr type (place onswap p f vaddr (record p f u))
  have hM := ((h.record p).place (p := p) hvalid onswap f vaddr).touch
    (p := p) (by rw [hpage, hframeNo, Function.update_self]) (by rw [hframeNo, memsize_place]; exact hf)
    hswap (fun i hi => by rw [hframeNo]; exact (Option.some.inj hi).symm) vaddr type
  refine ⟨hM, ?_, ?_, ?_, ?_, ?_, ?_, ?_, ?_⟩
  · rw [Mapped.page_touched, hpage]
  · rw [entry_touched, if_pos rfl, PgtblEntry.frameNo_mark, hframeNo]
  · rw [entry_touched, if_pos rfl, PgtblEntry.ref_mark]
  · intro q hq
    rw [entry_touched, if_neg hq, hentry, if_neg hq]
  · exact memsize_place
  · exact alg_place
  · intro i
    rw [(htouched i).2.2.1, coremap_place, (hframe i).1]
  · intro i
    rw [(htouched i).2.2.2, coremap_place, (hframe i).2]

/-- Stages that leave these parts alone can come before the arrival. -/
theorem of_quiet (h : Arrived p f u t) (hpage : u.page = s.page)
    (href : ∀ q, (u.entry q).ref = (s.entry q).ref) (hmem : u.memsize = s.memsize)
    (halg : u.alg = s.alg) (hcore : u.coremap = s.coremap) : Arrived p f s t where
  mapped := h.mapped
  page := hpage ▸ h.page
  frameNo := h.frameNo
  ref_self := h.ref_self
  ref q hq := (h.ref q hq).trans (href q)
  memsize := h.memsize.trans hmem
  alg := h.alg.trans halg
  frameAbove i := by rw [h.frameAbove, hcore]
  frameBelow i := by rw [h.frameBelow, hcore]

end Arrived

section

variable {fns : Functions σ φ} {io : FileOps φ} {vaddr : Addr} {type : Char} {s₁ s₂ s₃ u : Sim σ φ}

/-- What is left to do of `find_physpage` when it calls `ref_fcn`. -/
def callRef (fns : Functions σ φ) (p : PtePtr) (t : Sim σ φ) : Except Fault (Nat × Sim σ φ) :=
  fns.ref p t >>= fun s' => .ok (physAddr (s'.entry p).frameNo, s')

theorem mapped_initSecondLevel (h : Mapped none s) (idx : Nat) :
    Mapped none (initSecondLevel idx s) :=
  h.congr (by simp) (by funext q; simp) (by simp) (by simp)

theorem findPhyspage_hit (h : Mapped none s) (hdir : pgdirIndex vaddr < PTRS_PER_PGDIR)
    (hvalid : (s.entry (pteOf vaddr)).valid) :
    findPhyspage fns io vaddr type s =
      callRef fns (pteOf vaddr) (touched (pteOf vaddr) vaddr type
        { initSecondLevel (pgdirIndex vaddr) s with
          hitCount := (initSecondLevel (pgdirIndex vaddr) s).hitCount + 1 }) := by
  have h₀ := mapped_initSecondLevel h (pgdirIndex vaddr)
  have hvalid₀ : ((initSecondLevel (pgdirIndex vaddr) s).entry (pteOf vaddr)).valid := by
    rw [Sim.entry_initSecondLevel]
    exact hvalid
  exact findPhyspage_eq hdir (resolve_hit hvalid₀ (h₀.exclusive _ hvalid₀)) (h₀.frameNo_lt hvalid₀)

private theorem frameNo_place_record {u : Sim σ φ} (hu : u.memsize ≤ 2 ^ 20) (hf : f < u.memsize)
    (onswap : Bool) : ((place onswap p f vaddr (record p f u)).entry p).frameNo = f := by
  rw [entry_place, if_pos rfl]
  cases onswap <;> simp [PgtblEntry.frameNo_place (show f < 2 ^ 20 by omega)]

theorem findPhyspage_free (h : Mapped none s) (hdir : pgdirIndex vaddr < PTRS_PER_PGDIR)
    (hvalid : (s.entry (pteOf vaddr)).valid = false) (hfree : findFree s = some f) :
    findPhyspage fns io vaddr type s =
      callRef fns (pteOf vaddr) (touched (pteOf vaddr) vaddr type
        (place (s.entry (pteOf vaddr)).onswap (pteOf vaddr) f vaddr
          (record (pteOf vaddr) f (initSecondLevel (pgdirIndex vaddr) s)))) := by
  have h₀ := mapped_initSecondLevel h (pgdirIndex vaddr)
  have hlt : f < (initSecondLevel (pgdirIndex vaddr) s).memsize := by
    rw [Sim.memsize_initSecondLevel]
    exact (findFree_eq_some.mp hfree).1
  have hfree₀ : findFree (initSecondLevel (pgdirIndex vaddr) s) = some f := by
    simpa [findFree] using hfree
  have hresolve := resolve_miss vaddr (by simpa using hvalid)
    (allocateFrame_free fns io (pteOf vaddr) hfree₀) (h₀.physSize_le hlt)
  rw [Sim.entry_initSecondLevel] at hresolve
  apply findPhyspage_eq hdir hresolve
  rw [frameNo_place_record h₀.memsize_le hlt, memsize_place]
  exact hlt

/-- An access that evicts, from the results of the two swap operations. -/
theorem findPhyspage_evict {off : Int} (hdir : pgdirIndex vaddr < PTRS_PER_PGDIR)
    (hvalid : (s.entry (pteOf vaddr)).valid = false) (hnone : findFree s = none)
    (hevict : fns.evict (initSecondLevel (pgdirIndex vaddr) s) = .ok (f, s₁))
    (hlt : f < s₁.memsize) (hpte : (s₁.coremap f).pte = some q)
    (hout : swapPageout io f (toInt (s₁.entry q).swapOff) s₁ = .ok (off, s₂))
    (hin : fetchPage io f (pteOf vaddr) (markSwapped q off s₂) = .ok s₃)
    (hsize : f < s₃.memsize ∧ s₃.memsize ≤ 2 ^ 20) :
    findPhyspage fns io vaddr type s =
      callRef fns (pteOf vaddr) (touched (pteOf vaddr) vaddr type
        (place (s.entry (pteOf vaddr)).onswap (pteOf vaddr) f vaddr
          (record (pteOf vaddr) f s₃))) := by
  have hnone₀ : findFree (initSecondLevel (pgdirIndex vaddr) s) = none := by
    simpa [findFree] using hnone
  have hresolve := resolve_miss vaddr (by simpa using hvalid)
    (allocateFrame_evict hnone₀ hevict hlt hpte hout hin) (physAddr_le hsize.1 hsize.2)
  rw [Sim.entry_initSecondLevel] at hresolve
  apply findPhyspage_eq hdir hresolve
  rw [frameNo_place_record hsize.2 hsize.1, memsize_place]
  exact hsize.1

/-- The state that an eviction leaves behind in the frame, whatever the file does. -/
structure Evicted (io : FileOps φ) (p : PtePtr) (f : Nat) (q : PtePtr) (s u : Sim σ φ) : Prop where
  page : s.page f = some q
  mapped : Mapped (some f) u
  entry : ∃ off, Pageout (s.stores io f) s.swapmap (s.entry q).swapOff u.swapmap off ∧
    ∀ r, u.entry r = if r = q then (s.entry q).swapOut off else s.entry r
  coremap : u.coremap = s.coremap
  memsize : u.memsize = s.memsize
  alg : u.alg = s.alg

theorem Evicted.pages (h : Evicted io p f q s s') : s'.page = s.page := by
  funext i
  simp only [Sim.page, h.coremap]

theorem Evicted.ref (h : Evicted io p f q s s') (r : PtePtr) :
    (s'.entry r).ref = (s.entry r).ref := by
  obtain ⟨off, _, hentry⟩ := h.entry
  rw [hentry]
  by_cases hr : r = q
  · subst hr
    simp
  · rw [if_neg hr]

/-- The two swap operations of an eviction never fault, and the victim is counted by its dirty
bit. -/
theorem evict_stages (io : FileOps φ) (p : PtePtr) (h : Mapped none s₁)
    (hall : ∀ i < s₁.memsize, (s₁.coremap i).inUse) (hlt : f < s₁.memsize) :
    ∃ q off s₂ u, swapPageout io f (toInt (s₁.entry q).swapOff) s₁ = .ok (off, s₂) ∧
      fetchPage io f p (markSwapped q off s₂) = .ok u ∧ Evicted io p f q s₁ u ∧
      u.counts = s₁.counts.evict (s₁.entry q).dirty := by
  obtain ⟨q, hpage⟩ := h.page_of_inUse (hall f hlt)
  obtain ⟨off, bm, fd, stderr, hout, hpo⟩ :=
    swapPageout_spec io (toInt (s₁.entry q).swapOff) h.swapmap (h.physSize_le hlt)
  rw [h.swapOff q] at hpo
  have hM := h.evict hpage hall (hpo.wellFormed h.swapmap) (hpo.toInt_eq (h.swapOff q)) fd stderr
  have hlt' : f < (markSwapped q off
      { s₁ with swapmap := bm, swapfd := fd, stderr := stderr }).memsize := by simpa using hlt
  obtain ⟨physmem, fd', stderr', hin⟩ := fetchPage_spec io (p := p) (hM.swapOff _)
    (hM.physSize_le hlt')
  refine ⟨q, off, _, _, hout, hin, ⟨hpage, ?_, ⟨off, ?_, ?_⟩, ?_, ?_, ?_⟩, counts_markSwapped off⟩
  · exact hM.congr rfl rfl (fun _ => ⟨rfl, rfl⟩) rfl
  · simpa using hpo
  · intro r
    exact entry_markSwapped off
  · exact coremap_markSwapped off
  · exact memsize_markSwapped off
  · exact alg_markSwapped off

/-- An access that evicts never faults by itself: it comes down to the calls of `evict_fcn` and
`ref_fcn`. -/
theorem findPhyspage_evicted (io : FileOps φ) (type : Char) (h : Mapped none s₁) (hdir : pgdirIndex vaddr < PTRS_PER_PGDIR)
    (hvalid : (s.entry (pteOf vaddr)).valid = false) (hnone : findFree s = none)
    (hevict : fns.evict (initSecondLevel (pgdirIndex vaddr) s) = .ok (f, s₁))
    (hall : ∀ i < s₁.memsize, (s₁.coremap i).inUse) (hlt : f < s₁.memsize) :
    ∃ q u, Evicted io (pteOf vaddr) f q s₁ u ∧ findPhyspage fns io vaddr type s =
      callRef fns (pteOf vaddr) (touched (pteOf vaddr) vaddr type
        (place (s.entry (pteOf vaddr)).onswap (pteOf vaddr) f vaddr (record (pteOf vaddr) f u))) := by
  obtain ⟨q, off, s₂, u, hout, hin, hev, _⟩ := evict_stages io (pteOf vaddr) h hall hlt
  exact ⟨q, u, hev, findPhyspage_evict hdir hvalid hnone hevict hlt
    (Mapped.inUse_of_page hev.page).2 hout hin ⟨by rw [hev.memsize]; exact hlt, hev.mapped.memsize_le⟩⟩

/-- `evict_fcn` is called in full memory, and leaves it so. -/
theorem Functions.Respectful.evict_full (hfns : fns.Respectful) (h : Mapped none s) {idx : Nat}
    (hfree : findFree s = none) (hevict : fns.evict (initSecondLevel idx s) = .ok (f, s₁)) :
    Mapped none s₁ ∧ s₁.memsize = s.memsize ∧ (∀ i < s₁.memsize, (s₁.coremap i).inUse) ∧
      s₁.page = s.page ∧ ∀ q, (s.entry q).SameButRef (s₁.entry q) := by
  have hstep := hfns.evict _ _ _ hevict
  have hmem : s₁.memsize = s.memsize := by rw [hstep.memsize, Sim.memsize_initSecondLevel]
  refine ⟨hstep.mapped (mapped_initSecondLevel h idx), hmem, ?_, ?_, ?_⟩
  · intro i hi
    rw [hstep.inUse, Sim.coremap_initSecondLevel]
    exact findFree_eq_none.mp hfree i (hmem ▸ hi)
  · rw [hstep.page]
    funext i
    simp only [Sim.page, Sim.coremap_initSecondLevel]
  · intro q
    have hentry := hstep.entry q
    rw [Sim.entry_initSecondLevel] at hentry
    exact hentry

/-! ## Arrival on each of the three ways -/

namespace Arrived

theorem of_hit (h : Mapped none s) (hvalid : (s.entry p).valid) (idx : Nat) (vaddr : Addr)
    (type : Char) : Arrived p (s.entry p).frameNo s (touched p vaddr type
      { initSecondLevel idx s with hitCount := (initSecondLevel idx s).hitCount + 1 }) := by
  have hvalid₀ : ((initSecondLevel idx s).entry p).valid := by
    rw [Sim.entry_initSecondLevel, hvalid]
  have ht := (Arrived.hit (mapped_initSecondLevel h idx) hvalid₀ vaddr type).of_quiet
    (s := s) (by funext i; simp [Sim.page]) (by simp) (by simp) (by simp) (by simp)
  rw [Sim.entry_initSecondLevel] at ht
  exact ht

theorem of_free (h : Mapped none s) (hvalid : (s.entry p).valid = false)
    (hfree : findFree s = some f) (idx : Nat) (onswap : Bool) (vaddr : Addr) (type : Char) :
    Arrived p f s
      (touched p vaddr type (place onswap p f vaddr (record p f (initSecondLevel idx s)))) := by
  have h₀ := mapped_initSecondLevel h idx
  have hvalid₀ : ((initSecondLevel idx s).entry p).valid = false := by
    rw [Sim.entry_initSecondLevel, hvalid]
  obtain ⟨hlt, hunused, _⟩ := findFree_eq_some.mp hfree
  exact (Arrived.load (h₀.vacate (by rw [Sim.coremap_initSecondLevel]; exact hunused))
    (by rw [Sim.memsize_initSecondLevel]; exact hlt) hvalid₀ onswap vaddr type).of_quiet
    (by funext i; simp [Sim.page]) (by simp) (by simp) (by simp) (by simp)

theorem of_evicted (h : Mapped none s₁) (hvalid : (s₁.entry p).valid = false)
    (hev : Evicted io p f q s₁ u) (onswap : Bool) (vaddr : Addr) (type : Char) :
    Arrived p f s₁ (touched p vaddr type (place onswap p f vaddr (record p f u))) := by
  -- The victim is another page than the one accessed, which is not in memory.
  have hne : p ≠ q := by
    rintro rfl
    rw [((h.backed f p (by simp)).mp hev.page).1] at hvalid
    cases hvalid
  have hinvalid : (u.entry p).valid = false := by
    obtain ⟨off, _, hentry⟩ := hev.entry
    rw [hentry, if_neg hne, hvalid]
  exact (Arrived.load hev.mapped (by rw [hev.memsize]; exact h.page_lt hev.page) hinvalid onswap
    vaddr type).of_quiet hev.pages hev.ref hev.memsize hev.alg hev.coremap

end Arrived

/-! ## Calls of evict_fcn -/

/-- The state in which an access calls `evict_fcn`, if it does. -/
def evictCall (vaddr : Addr) (s : Sim σ φ) : Option (Sim σ φ) :=
  if pgdirIndex vaddr < PTRS_PER_PGDIR ∧ (s.entry (pteOf vaddr)).valid = false ∧ findFree s = none
  then some (initSecondLevel (pgdirIndex vaddr) s) else none

theorem evictCall_eq_some {t : Sim σ φ} : evictCall vaddr s = some t ↔
    (pgdirIndex vaddr < PTRS_PER_PGDIR ∧ (s.entry (pteOf vaddr)).valid = false ∧
      findFree s = none) ∧ initSecondLevel (pgdirIndex vaddr) s = t := by
  unfold evictCall
  split
  · simp [*]
  · simp [*]

/-- An access whose `evict_fcn` fails, where it is called, fails in the same way. -/
theorem findPhyspage_evictCall {e : Fault} (h : evictCall vaddr s = some t)
    (hevict : fns.evict t = .error e) : findPhyspage fns io vaddr type s = .error e := by
  obtain ⟨⟨hdir, hvalid, hfree⟩, rfl⟩ := evictCall_eq_some.mp h
  have hfree₀ : findFree (initSecondLevel (pgdirIndex vaddr) s) = none := by
    simpa [findFree] using hfree
  refine findPhyspage_error hdir (resolve_error (by simpa using hvalid) ?_)
  simp only [allocateFrame, hfree₀, hevict, error_bind]

/-- Elsewhere an access does not depend on `evict_fcn`. -/
theorem findPhyspage_evictCall_none (h : evictCall vaddr s = none)
    (evict : Sim σ φ → Except Fault (Nat × Sim σ φ)) :
    findPhyspage { fns with evict := evict } io vaddr type s = findPhyspage fns io vaddr type s := by
  by_cases hdir : pgdirIndex vaddr < PTRS_PER_PGDIR
  · have halloc : (s.entry (pteOf vaddr)).valid = false →
        allocateFrame { fns with evict := evict } io (pteOf vaddr)
          (initSecondLevel (pgdirIndex vaddr) s) =
        allocateFrame fns io (pteOf vaddr) (initSecondLevel (pgdirIndex vaddr) s) := by
      intro hvalid
      cases hfree : findFree s with
      | none =>
        simp only [evictCall, hdir, hvalid, hfree, and_self, if_true] at h
        cases h
      | some f =>
        have hfree₀ : findFree (initSecondLevel (pgdirIndex vaddr) s) = some f := by
          simpa [findFree] using hfree
        rw [allocateFrame_free _ _ _ hfree₀, allocateFrame_free _ _ _ hfree₀]
    have hresolve : resolve { fns with evict := evict } io (pteOf vaddr) vaddr
          (initSecondLevel (pgdirIndex vaddr) s) =
        resolve fns io (pteOf vaddr) vaddr (initSecondLevel (pgdirIndex vaddr) s) := by
      cases hvalid : (s.entry (pteOf vaddr)).valid with
      | true => simp [resolve, hvalid]
      | false => simp only [resolve, halloc hvalid]
    simp only [findPhyspage, hresolve]
  · rw [findPhyspage_outOfBounds hdir, findPhyspage_outOfBounds hdir]

/-! ## The rule for accesses -/

/-- No slot changes hands. -/
def KeepsSlots (s t : Sim σ φ) : Prop :=
  t.swapmap = s.swapmap ∧ ∀ q, (t.entry q).swapOff = (s.entry q).swapOff

/-- The page evicted from a frame is the only one whose slot can change. -/
def PagesOut (io : FileOps φ) (f : Nat) (s t : Sim σ φ) : Prop :=
  ∃ q off, s.page f = some q ∧
    Pageout (s.stores io f) s.swapmap (s.entry q).swapOff t.swapmap off ∧
    ∀ r, (t.entry r).swapOff = if r = q then off else (s.entry r).swapOff

theorem keepsSlots_load (u : Sim σ φ) (p : PtePtr) (f : Nat) (onswap : Bool) (vaddr : Addr)
    (type : Char) :
    KeepsSlots u (touched p vaddr type (place onswap p f vaddr (record p f u))) := by
  refine ⟨swapmap_place, ?_⟩
  intro q
  rw [entry_touched, entry_place]
  by_cases hq : q = p
  · subst hq
    cases onswap <;> simp [record]
  · simp [hq, record]

theorem Evicted.pagesOut {u : Sim σ φ} (h : Evicted io p f q s u) (hkeep : KeepsSlots u t) :
    PagesOut io f s t := by
  obtain ⟨off, hpo, hentry⟩ := h.entry
  refine ⟨q, off, h.page, by rw [hkeep.1]; exact hpo, ?_⟩
  intro r
  rw [hkeep.2, hentry]
  by_cases hr : r = q
  · simp [hr]
  · simp [hr]

/-- What an access does, by the way it goes: the page is in memory, there is a free frame for it,
or a page is evicted. `Q` is what is to hold once `ref_fcn` has returned. -/
structure AccessCases (fns : Functions σ φ) (io : FileOps φ) (vaddr : Addr) (Q : Sim σ φ → Prop)
    (s : Sim σ φ) : Prop where
  hit : (s.entry (pteOf vaddr)).valid → ∀ t,
    Arrived (pteOf vaddr) (s.entry (pteOf vaddr)).frameNo s t → KeepsSlots s t →
      ∃ s', fns.ref (pteOf vaddr) t = .ok s' ∧ Q s'
  free : (s.entry (pteOf vaddr)).valid = false → ∀ f t, findFree s = some f →
    Arrived (pteOf vaddr) f s t → KeepsSlots s t → ∃ s', fns.ref (pteOf vaddr) t = .ok s' ∧ Q s'
  evict : (s.entry (pteOf vaddr)).valid = false → findFree s = none →
    ∃ f s₁, fns.evict (initSecondLevel (pgdirIndex vaddr) s) = .ok (f, s₁) ∧ f < s.memsize ∧
      ∀ t, Arrived (pteOf vaddr) f s₁ t → PagesOut io f s₁ t →
        ∃ s', fns.ref (pteOf vaddr) t = .ok s' ∧ Q s'

/-- An access that goes through with some property does so with every weaker one. -/
theorem AccessCases.mono {P Q : Sim σ φ → Prop} (hc : AccessCases fns io vaddr P s)
    (hPQ : ∀ s, P s → Q s) : AccessCases fns io vaddr Q s where
  hit hvalid t ht hslots := (hc.hit hvalid t ht hslots).imp fun s' h => ⟨h.1, hPQ s' h.2⟩
  free hvalid f t hfree ht hslots :=
    (hc.free hvalid f t hfree ht hslots).imp fun s' h => ⟨h.1, hPQ s' h.2⟩
  evict hvalid hfree := by
    obtain ⟨f, s₁, hevict, hf, href⟩ := hc.evict hvalid hfree
    exact ⟨f, s₁, hevict, hf, fun t ht hout => (href t ht hout).imp fun s' h => ⟨h.1, hPQ s' h.2⟩⟩

/-- An access goes through, and returns a pointer to the frame of its page. -/
theorem AccessCases.findPhyspage {Q : Sim σ φ → Prop} (hc : AccessCases fns io vaddr Q s)
    (hfns : fns.Respectful) (h : Mapped none s) (hdir : pgdirIndex vaddr < PTRS_PER_PGDIR)
    (type : Char) :
    ∃ s', Paging.findPhyspage fns io vaddr type s =
        .ok (physAddr (s'.entry (pteOf vaddr)).frameNo, s') ∧
      (s'.entry (pteOf vaddr)).valid ∧ s'.memsize = s.memsize ∧ Mapped none s' ∧ Q s' := by
  -- The three cases below differ in what comes before the call of `ref_fcn`.
  have hdone : ∀ f u t, u.memsize = s.memsize → Arrived (pteOf vaddr) f u t →
      (∃ s', fns.ref (pteOf vaddr) t = .ok s' ∧ Q s') →
      Paging.findPhyspage fns io vaddr type s = callRef fns (pteOf vaddr) t →
      ∃ s', Paging.findPhyspage fns io vaddr type s =
        .ok (physAddr (s'.entry (pteOf vaddr)).frameNo, s') ∧
        (s'.entry (pteOf vaddr)).valid ∧ s'.memsize = s.memsize ∧ Mapped none s' ∧ Q s' := by
    rintro f u t hu ht ⟨s', href, hQ⟩ heq
    have hstep := hfns.ref _ _ _ href
    have hpage : t.page f = some (pteOf vaddr) := by rw [ht.page, Function.update_self]
    refine ⟨s', ?_, ?_, ?_, hstep.mapped ht.mapped, hQ⟩
    · rw [heq, callRef, href, ok_bind]
    · rw [(hstep.entry _).valid]
      exact ((ht.mapped.backed f _ (by simp)).mp hpage).1
    · rw [hstep.memsize, ht.memsize, hu]
  cases hvalid : (s.entry (pteOf vaddr)).valid with
  | true =>
    have ht := Arrived.of_hit h hvalid (pgdirIndex vaddr) vaddr type
    refine hdone _ s _ rfl ht (hc.hit hvalid _ ht ⟨?_, ?_⟩) (findPhyspage_hit h hdir hvalid)
    · exact Sim.swapmap_initSecondLevel _
    · intro q
      rw [entry_touched]
      by_cases hq : q = pteOf vaddr
      · rw [if_pos hq, PgtblEntry.swapOff_mark, hq]
        exact congrArg _ (Sim.entry_initSecondLevel _)
      · rw [if_neg hq]
        exact congrArg _ (Sim.entry_initSecondLevel _)
  | false =>
    cases hfree : findFree s with
    | some f =>
      have ht := Arrived.of_free h hvalid hfree (pgdirIndex vaddr) (s.entry (pteOf vaddr)).onswap
        vaddr type
      have hkeep := keepsSlots_load (initSecondLevel (pgdirIndex vaddr) s) (pteOf vaddr) f
        (s.entry (pteOf vaddr)).onswap vaddr type
      refine hdone f s _ rfl ht (hc.free hvalid f _ hfree ht ⟨?_, ?_⟩)
        (findPhyspage_free h hdir hvalid hfree)
      · exact hkeep.1.trans (Sim.swapmap_initSecondLevel _)
      · intro q
        rw [hkeep.2, Sim.entry_initSecondLevel]
    | none =>
      obtain ⟨f, s₁, hevict, hlt, hcase⟩ := hc.evict hvalid hfree
      obtain ⟨h₁, hmem, hall, _, hentry⟩ := hfns.evict_full h hfree hevict
      obtain ⟨q, u, hev, heq⟩ := findPhyspage_evicted io type h₁ hdir hvalid hfree
        hevict hall (hmem ▸ hlt)
      have ht := Arrived.of_evicted h₁ ((hentry _).valid.trans hvalid) hev
        (s.entry (pteOf vaddr)).onswap vaddr type
      exact hdone f s₁ _ hmem ht (hcase _ ht (hev.pagesOut (keepsSlots_load ..))) heq

/-- Storing to `physmem` and printing are not the business of page table, coremap or policy. -/
theorem Mapped.store (h : Mapped hole s) (physmem : Memory) (stderr : List String) :
    Mapped hole { s with physmem := physmem, stderr := stderr } :=
  h.congr rfl rfl (fun _ => ⟨rfl, rfl⟩) rfl

/-- What `access_mem` stores in the frame of its page. -/
def stored (a : Access) (s : Sim σ φ) : Memory :=
  let ptr := physAddr (s.entry (pteOf a.vaddr)).frameNo
  if isWrite a.type then s.physmem.store ptr (leBytes 4 (s.version ptr + 1)) else s.physmem

/-- `access_mem` adds to `find_physpage` a store to the page and perhaps a message. -/
theorem accessMem_of_findPhyspage {a : Access}
    (hfind : findPhyspage fns io a.vaddr a.type s =
      .ok (physAddr (s'.entry (pteOf a.vaddr)).frameNo, s'))
    (hsize : physAddr (s'.entry (pteOf a.vaddr)).frameNo + SIMPAGESIZE ≤ s'.physSize) :
    ∃ stderr, accessMem fns io a s =
      .ok { s' with physmem := stored a s', stderr := stderr } := by
  have hprint : ∀ (c : Prop) [Decidable c] (msg : String), ∃ stderr,
      (if c then s'.report msg else s') = { s' with stderr := stderr } := by
    intro c _ msg
    split
    · exact ⟨_, rfl⟩
    · exact ⟨_, rfl⟩
  simp only [accessMem, hfind, ok_bind, need_of hsize]
  obtain ⟨stderr, hstderr⟩ := hprint
    (s'.checkaddr (physAddr (s'.entry (pteOf a.vaddr)).frameNo) ≠ a.vaddr.toNat)
    "Error, simulated page returned by pagetable lookup doese not have expected value."
  rw [hstderr]
  refine ⟨stderr, ?_⟩
  unfold stored
  cases isWrite a.type with
  | true => rfl
  | false => rfl

theorem AccessCases.accessMem {Q : Sim σ φ → Prop} {a : Access}
    (hc : AccessCases fns io a.vaddr Q s) (hfns : fns.Respectful) (h : Mapped none s)
    (hdir : pgdirIndex a.vaddr < PTRS_PER_PGDIR)
    (hstore : ∀ s' physmem stderr, Q s' → Q { s' with physmem := physmem, stderr := stderr }) :
    ∃ s', Paging.accessMem fns io a s = .ok s' ∧ s'.memsize = s.memsize ∧ Mapped none s' ∧ Q s' := by
  obtain ⟨s', hfind, hvalid, hmem, hM, hQ⟩ := hc.findPhyspage hfns h hdir a.type
  obtain ⟨stderr, hacc⟩ := accessMem_of_findPhyspage hfind (hM.physSize_le (hM.frameNo_lt hvalid))
  exact ⟨_, hacc, hmem, hM.store _ stderr, hstore s' _ stderr hQ⟩

/-- The globals before the trace agree: nothing is in memory or on swap. -/
theorem mapped_zero {m : Nat} {bm : Bitmap} {physmem : Memory} {fd : φ} {alg : σ} (hm : m ≤ 2 ^ 20)
    (hbm : bm.WellFormed) : Mapped none (Sim.zero m bm physmem fd alg) where
  memsize_le := hm
  backed i p _ := by
    have hvalid : ((Sim.zero m bm physmem fd alg).entry p).valid = false :=
      PgtblEntry.fresh_valid
    simp [Sim.page, Sim.zero, Frame.zero] at hvalid ⊢
    simp [hvalid]
  vacant p _ h := by cases h
  inUse i _ h := by cases h
  exclusive p h := by
    rw [show (Sim.zero m bm physmem fd alg).entry p = .fresh from rfl] at h
    simp at h
  full p h := by
    rw [show (Sim.zero m bm physmem fd alg).entry p = .fresh from rfl] at h
    simp at h
  swapOff p := toInt_invalid
  swapmap := hbm

/-- What the states of a run of `main` put out before each access. -/
def observe {β : Type} (fns : Functions σ φ) (io : FileOps φ) (memsize swapsize : Nat)
    (physmem : Memory) (swapfd : φ) (alg : σ) (out : Access → Sim σ φ → List β)
    (trace : List Access) : List β :=
  match start fns memsize swapsize physmem swapfd alg with
  | .ok s => outputs (accessMem fns io) out trace s
  | .error _ => []

theorem observe_nil {β : Type} {out : Access → Sim σ φ → List β} {m swapsize : Nat}
    {physmem : Memory} {fd : φ} {alg : σ} :
    observe fns io m swapsize physmem fd alg out [] = [] := by
  unfold observe
  split
  · rfl
  · rfl

theorem observe_concat {β : Type} {out : Access → Sim σ φ → List β} {m swapsize : Nat}
    {physmem : Memory} {fd : φ} {alg : σ} {as : List Access}
    (h : simulate fns io m swapsize physmem fd alg as = .ok s) (a : Access) :
    observe fns io m swapsize physmem fd alg out (as ++ [a]) =
      observe fns io m swapsize physmem fd alg out as ++ out a s := by
  obtain ⟨s₀, hstart, hexec⟩ := bind_eq_ok.mp h
  simp only [observe, hstart]
  exact outputs_concat hexec a

/-- The start of a run. -/
theorem simulate_nil {m swapsize : Nat} (hfns : fns.Respectful) (io : FileOps φ) (hm : m ≤ 2 ^ 20)
    (hswap : swapsize < 2 ^ 32) (physmem : Memory) (fd : φ) (alg : σ) :
    ∃ bm : Bitmap, bm.nbits = swapsize ∧ (∀ k < swapsize, bm.isset k = false) ∧
      simulate fns io m swapsize physmem fd alg [] = .ok (fns.init (.zero m bm physmem fd alg)) ∧
      Mapped none (fns.init (.zero m bm physmem fd alg)) ∧
      (fns.init (.zero m bm physmem fd alg)).memsize = m := by
  obtain ⟨bm, hbm, hwf, hnbits, hclear⟩ := Bitmap.bitmapCreate_spec hswap
  have hinit := hfns.init (.zero m bm physmem fd alg)
  refine ⟨bm, hnbits, hclear, ?_, hinit.mapped (mapped_zero hm hwf), hinit.memsize⟩
  simp only [simulate, start, hbm, ok_bind, exec_nil]

theorem simulate_concat {m swapsize : Nat} {physmem : Memory} {fd : φ} {alg : σ}
    (trace : List Access) (a : Access) :
    simulate fns io m swapsize physmem fd alg (trace ++ [a]) =
      simulate fns io m swapsize physmem fd alg trace >>= accessMem fns io a := by
  unfold simulate
  cases start fns m swapsize physmem fd alg with
  | error e => rfl
  | ok s₀ => exact exec_concat trace a s₀

/-- The rule for whole runs. `J` speaks of the accesses made so far and the globals after them; it
holds at the start, every access keeps it, and it does not depend on the contents of memory. Then a
run ends with `J`, or at an address past the page directory. -/
theorem simulate_sound (io : FileOps φ) {J : List Access → Sim σ φ → Prop} {m swapsize : Nat}
    (physmem : Memory) (fd : φ) (alg : σ) (hfns : fns.Respectful) (hm : m ≤ 2 ^ 20) (hswap : swapsize < 2 ^ 32)
    (hzero : ∀ bm : Bitmap, bm.nbits = swapsize → (∀ k < swapsize, bm.isset k = false) →
      J [] (fns.init (.zero m bm physmem fd alg)))
    (hstep : ∀ as a s, simulate fns io m swapsize physmem fd alg as = .ok s → Mapped none s →
      s.memsize = m → J as s → pgdirIndex a.vaddr < PTRS_PER_PGDIR →
      AccessCases fns io a.vaddr (J (as ++ [a])) s)
    (hstore : ∀ as s physmem stderr, J as s →
      J as { s with physmem := physmem, stderr := stderr })
    (trace : List Access) :
    (∃ s, simulate fns io m swapsize physmem fd alg trace = .ok s ∧ Mapped none s ∧
      s.memsize = m ∧ J trace s) ∨
    (simulate fns io m swapsize physmem fd alg trace = .error .outOfBounds ∧
      ∃ a ∈ trace, ¬pgdirIndex a.vaddr < PTRS_PER_PGDIR) := by
  induction trace using List.reverseRecOn with
  | nil =>
    obtain ⟨bm, hnbits, hclear, hs, hM, hmem⟩ := simulate_nil hfns io hm hswap physmem fd alg
    exact .inl ⟨_, hs, hM, hmem, hzero bm hnbits hclear⟩
  | append_singleton as a ih =>
    rw [simulate_concat]
    rcases ih with ⟨s, hs, hM, hmem, hJ⟩ | ⟨herr, b, hb, hdir⟩
    · rw [hs, ok_bind]
      by_cases hdir : pgdirIndex a.vaddr < PTRS_PER_PGDIR
      · obtain ⟨s', hacc, hmem', hM', hJ'⟩ :=
          (hstep as a s hs hM hmem hJ hdir).accessMem hfns hM hdir (hstore (as ++ [a]))
        exact .inl ⟨s', hacc, hM', hmem'.trans hmem, hJ'⟩
      · refine .inr ⟨?_, a, by simp, hdir⟩
        simp only [accessMem, findPhyspage_outOfBounds hdir, error_bind]
    · rw [herr, error_bind]
      exact .inr ⟨rfl, b, by simp [hb], hdir⟩

end

end Paging

-- SUMMARY: Which page each frame holds: the agreement of page table and coremap along an access.
import OperatingSystems.Paging.Stages

/-!
# Residency

A frame in use names the entry of its page, and the entry names the frame. Between the eviction of
a page and the arrival of the next one the frame is a hole in this agreement.
-/

namespace Paging

open Library Library.Run

variable {σ φ : Type} {s s' t : Sim σ φ} {p q : PtePtr} {f i : Nat} {hole : Option Nat}

/-! ## The agreement -/

/-- The page that a frame holds. -/
def Sim.page (s : Sim σ φ) (i : Nat) : Option PtePtr :=
  if (s.coremap i).inUse then (s.coremap i).pte else none

/-- Page table, coremap and swap map agree, except at a frame that is being handed over. -/
structure Mapped (hole : Option Nat) (s : Sim σ φ) : Prop where
  memsize_le : s.memsize ≤ 2 ^ 20
  backed : ∀ i p, hole ≠ some i →
    (s.page i = some p ↔ (s.entry p).valid ∧ (s.entry p).frameNo = i)
  vacant : ∀ p, (s.entry p).valid → hole ≠ some (s.entry p).frameNo
  inUse : ∀ i, hole ≠ some i → (s.coremap i).inUse → i < s.memsize ∧ (s.coremap i).pte.isSome
  exclusive : ∀ p, (s.entry p).valid → (s.entry p).onswap = false
  full : ∀ p, (s.entry p).onswap → ∀ i < s.memsize, hole ≠ some i → (s.coremap i).inUse
  swapOff : ∀ p, toInt (s.entry p).swapOff = (s.entry p).swapOff
  swapmap : s.swapmap.WellFormed

namespace Mapped

/-- A page in memory is in the frame that its entry names, and the frame is in use. -/
theorem page_frameNo (h : Mapped none s) (hp : (s.entry p).valid) :
    s.page (s.entry p).frameNo = some p :=
  (h.backed _ p (by simp)).mpr ⟨hp, rfl⟩

theorem inUse_of_page (hpage : s.page i = some p) :
    (s.coremap i).inUse ∧ (s.coremap i).pte = some p := by
  unfold Sim.page at hpage
  split at hpage
  · exact ⟨‹_›, hpage⟩
  · cases hpage

theorem page_of_inUse (h : Mapped none s) (hi : (s.coremap i).inUse) : ∃ p, s.page i = some p := by
  obtain ⟨p, hp⟩ := Option.isSome_iff_exists.mp (h.inUse i (by simp) hi).2
  exact ⟨p, by simp [Sim.page, hi, hp]⟩

/-- A page that is not in memory is in no frame. -/
theorem ne_of_page (h : Mapped none s) (hpage : s.page i = some q)
    (hvalid : (s.entry p).valid = false) : p ≠ q := by
  rintro rfl
  rw [((h.backed i p (by simp)).mp hpage).1] at hvalid
  cases hvalid

theorem page_lt (h : Mapped none s) (hpage : s.page i = some p) : i < s.memsize :=
  (h.inUse i (by simp) (inUse_of_page hpage).1).1

theorem frameNo_lt (h : Mapped none s) (hp : (s.entry p).valid) :
    (s.entry p).frameNo < s.memsize :=
  h.page_lt (h.page_frameNo hp)

/-- The pages with a valid entry are those in some frame. -/
theorem valid_iff (h : Mapped none s) : (s.entry p).valid ↔ ∃ i, s.page i = some p := by
  constructor
  · intro hvalid
    exact ⟨_, h.page_frameNo hvalid⟩
  · rintro ⟨i, hi⟩
    exact ((h.backed i p (by simp)).mp hi).1

/-- Different frames hold different pages. -/
theorem page_injective (h : Mapped none s) {j : Nat} (hi : s.page i = some p)
    (hj : s.page j = some p) : i = j := by
  rw [h.backed i p (by simp)] at hi
  rw [h.backed j p (by simp)] at hj
  exact hi.2.symm.trans hj.2

theorem physSize_le (h : Mapped hole s) (hf : f < s.memsize) :
    physAddr f + SIMPAGESIZE ≤ s.physSize :=
  physAddr_le hf h.memsize_le

end Mapped

/-! ## What a replacement algorithm may do -/

/-- A replacement algorithm changes its own globals, the links between frames and the reference
bits, and nothing else. -/
structure PolicyStep (s s' : Sim σ φ) : Prop where
  memsize : s'.memsize = s.memsize
  entry : ∀ p, (s.entry p).SameButRef (s'.entry p)
  inUse : ∀ i, (s'.coremap i).inUse = (s.coremap i).inUse
  pte : ∀ i, (s'.coremap i).pte = (s.coremap i).pte
  vaddr : ∀ i, (s'.coremap i).vaddr = (s.coremap i).vaddr
  physmem : s'.physmem = s.physmem
  swapmap : s'.swapmap = s.swapmap
  swapfd : s'.swapfd = s.swapfd
  hitCount : s'.hitCount = s.hitCount
  missCount : s'.missCount = s.missCount
  refCount : s'.refCount = s.refCount
  evictCleanCount : s'.evictCleanCount = s.evictCleanCount
  evictDirtyCount : s'.evictDirtyCount = s.evictDirtyCount
  stderr : s'.stderr = s.stderr

namespace PolicyStep

theorem refl (s : Sim σ φ) : PolicyStep s s where
  memsize := rfl
  entry _ := .refl _
  inUse _ := rfl
  pte _ := rfl
  vaddr _ := rfl
  physmem := rfl
  swapmap := rfl
  swapfd := rfl
  hitCount := rfl
  missCount := rfl
  refCount := rfl
  evictCleanCount := rfl
  evictDirtyCount := rfl
  stderr := rfl

theorem page (h : PolicyStep s s') : s'.page = s.page := by
  funext i
  simp only [Sim.page, h.inUse i, h.pte i]

theorem counts (h : PolicyStep s s') : s'.counts = s.counts := by
  simp only [Sim.counts, h.hitCount, h.missCount, h.refCount, h.evictCleanCount, h.evictDirtyCount]

theorem mapped (h : PolicyStep s s') (hM : Mapped hole s) : Mapped hole s' where
  memsize_le := h.memsize ▸ hM.memsize_le
  backed i p hi := by rw [h.page, (h.entry p).valid, (h.entry p).frameNo]; exact hM.backed i p hi
  vacant p hp := by rw [(h.entry p).frameNo]; exact hM.vacant p ((h.entry p).valid ▸ hp)
  inUse i hi hu := by rw [h.memsize, h.pte i]; exact hM.inUse i hi (h.inUse i ▸ hu)
  exclusive p hp := by rw [(h.entry p).onswap]; exact hM.exclusive p ((h.entry p).valid ▸ hp)
  full p hp i hi hhole := by
    rw [h.inUse i]
    exact hM.full p ((h.entry p).onswap ▸ hp) i (h.memsize ▸ hi) hhole
  swapOff p := by rw [(h.entry p).swapOff]; exact hM.swapOff p
  swapmap := h.swapmap ▸ hM.swapmap

end PolicyStep

/-- The contract of a replacement algorithm: it keeps to its own data. -/
structure Functions.Respectful (fns : Functions σ φ) : Prop where
  init : ∀ s, PolicyStep s (fns.init s)
  ref : ∀ p s s', fns.ref p s = .ok s' → PolicyStep s s'
  evict : ∀ s f s', fns.evict s = .ok (f, s') → PolicyStep s s'

/-- A replacement algorithm that answers each call, with an index below `memsize` of its choice. -/
structure Functions.Chooses (fns : Functions σ φ) : Prop extends Functions.Respectful fns where
  answers_ref : ∀ p s, ∃ s', fns.ref p s = .ok s'
  answers_evict : ∀ s, 0 < s.memsize → ∃ f s', fns.evict s = .ok (f, s') ∧ f < s.memsize

/-! ## The stages keep the agreement -/

namespace Mapped

/-- Only these parts of the globals matter. -/
theorem congr (h : Mapped hole s) (hmem : t.memsize = s.memsize) (hentry : t.entry = s.entry)
    (hframe : ∀ i, (t.coremap i).inUse = (s.coremap i).inUse ∧
      (t.coremap i).pte = (s.coremap i).pte)
    (hmap : t.swapmap = s.swapmap) : Mapped hole t where
  memsize_le := hmem ▸ h.memsize_le
  backed i p hi := by
    simp only [Sim.page, (hframe i).1, (hframe i).2, hentry]
    exact h.backed i p hi
  vacant := by rw [hentry]; exact h.vacant
  inUse i := by
    rw [(hframe i).1, (hframe i).2, hmem]
    exact h.inUse i
  exclusive := by rw [hentry]; exact h.exclusive
  full p hp i hi := by
    rw [(hframe i).1]
    rw [hentry] at hp
    rw [hmem] at hi
    exact h.full p hp i hi
  swapOff := by rw [hentry]; exact h.swapOff
  swapmap := hmap ▸ h.swapmap

/-- A frame that is not in use can be handed over as it is. -/
theorem vacate (h : Mapped none s) (hf : (s.coremap f).inUse = false) : Mapped (some f) s where
  memsize_le := h.memsize_le
  backed i p _ := h.backed i p (by simp)
  vacant p hp heq := by
    have hpage := h.page_frameNo hp
    rw [← Option.some.inj heq] at hpage
    rw [(inUse_of_page hpage).1] at hf
    cases hf
  inUse i _ := h.inUse i (by simp)
  exclusive := h.exclusive
  full p hp i hi _ := h.full p hp i hi (by simp)
  swapOff := h.swapOff
  swapmap := h.swapmap

/-- Eviction of the page in a frame, when all frames are in use. -/
theorem evict (h : Mapped none s) (hpage : s.page f = some q)
    (hall : ∀ i < s.memsize, (s.coremap i).inUse) {off : Int} {bm : Bitmap} (hbm : bm.WellFormed)
    (hoff : toInt off = off) (fd : φ) (stderr : List String) :
    Mapped (some f)
      (markSwapped q off { s with swapmap := bm, swapfd := fd, stderr := stderr }) := by
  have hq := (h.backed f q (by simp)).mp hpage
  have hentry : ∀ p, (markSwapped q off
      { s with swapmap := bm, swapfd := fd, stderr := stderr }).entry p =
      if p = q then (s.entry q).swapOut off else s.entry p := fun p => entry_markSwapped off
  have hpageEq : (markSwapped q off
      { s with swapmap := bm, swapfd := fd, stderr := stderr }).page = s.page := by
    funext i
    simp only [Sim.page, coremap_markSwapped]
  refine ⟨?_, ?_, ?_, ?_, ?_, ?_, ?_, ?_⟩
  · simpa using h.memsize_le
  · intro i p hi
    rw [hpageEq, hentry]
    -- The victim loses its frame, which is the hole; the others are where they were.
    by_cases hp : p = q
    · subst hp
      have hne : s.page i ≠ some p := fun hpi => hi (by rw [h.page_injective hpi hpage])
      simp [hne, hq.1]
    · rw [if_neg hp]
      exact h.backed i p (by simp)
  · intro p hp heq
    rw [hentry] at hp heq
    by_cases hpq : p = q
    · simp [hpq, hq.1] at hp
    · rw [if_neg hpq] at hp heq
      have hpage' := h.page_frameNo hp
      rw [← Option.some.inj heq, hpage] at hpage'
      exact hpq (Option.some.inj hpage').symm
  · intro i _ hu
    rw [coremap_markSwapped] at hu ⊢
    rw [memsize_markSwapped]
    exact h.inUse i (by simp) hu
  · intro p hp
    rw [hentry] at hp ⊢
    by_cases hpq : p = q
    · simp [hpq, hq.1] at hp
    · rw [if_neg hpq] at hp ⊢
      exact h.exclusive p hp
  · intro _ _ i hi _
    rw [memsize_markSwapped] at hi
    rw [coremap_markSwapped]
    exact hall i hi
  · intro p
    rw [hentry]
    by_cases hpq : p = q
    · rw [if_pos hpq]
      exact hoff
    · rw [if_neg hpq]
      exact h.swapOff p
  · simpa using hbm

/-- What happens to the frame being handed over does not matter. -/
theorem record (h : Mapped (some f) s) (p : PtePtr) : Mapped (some f) (Paging.record p f s) where
  memsize_le := h.memsize_le
  backed i q hi := by
    have hne : i ≠ f := fun heq => hi (by rw [heq])
    simp only [Sim.page, Paging.record, Sim.coremap_modifyFrame, Function.update_of_ne hne,
      Sim.entry_modifyFrame]
    exact h.backed i q hi
  vacant := h.vacant
  inUse i hi := by
    have hne : i ≠ f := fun heq => hi (by rw [heq])
    simp only [Paging.record, Sim.coremap_modifyFrame, Function.update_of_ne hne]
    exact h.inUse i hi
  exclusive := h.exclusive
  full q hq i hi hi' := by
    have hne : i ≠ f := fun heq => hi' (by rw [heq])
    simp only [Paging.record, Sim.coremap_modifyFrame, Function.update_of_ne hne]
    exact h.full q hq i hi hi'
  swapOff := h.swapOff
  swapmap := h.swapmap

/-- The page that moves in gets its entry while it is still invalid. -/
theorem place (h : Mapped hole s) (hvalid : (s.entry p).valid = false) (onswap : Bool)
    (f : Nat) (vaddr : Addr) : Mapped hole (Paging.place onswap p f vaddr s) := by
  have hentry : ∀ q, ((Paging.place onswap p f vaddr s).entry q).valid = (s.entry q).valid ∧
      (((Paging.place onswap p f vaddr s).entry q).onswap = true → (s.entry q).onswap = true) ∧
      ((Paging.place onswap p f vaddr s).entry q).swapOff = (s.entry q).swapOff ∧
      ((s.entry q).valid → (Paging.place onswap p f vaddr s).entry q = s.entry q) := by
    intro q
    rw [entry_place]
    -- Only a page that is invalid changes here, so what valid entries say stays true.
    by_cases hq : q = p
    · subst hq
      cases onswap <;> simp [hvalid]
    · simp [hq]
  have hpage : (Paging.place onswap p f vaddr s).page = s.page := by
    funext i
    simp only [Sim.page, coremap_place]
  refine ⟨by simpa using h.memsize_le, ?_, ?_, ?_, ?_, ?_, ?_, by simpa using h.swapmap⟩
  · intro i q hi
    rw [hpage, h.backed i q hi, (hentry q).1]
    constructor
    · rintro ⟨hv, hfr⟩
      rw [(hentry q).2.2.2 hv]
      exact ⟨hv, hfr⟩
    · rintro ⟨hv, hfr⟩
      rw [(hentry q).2.2.2 hv] at hfr
      exact ⟨hv, hfr⟩
  · intro q hq
    rw [(hentry q).1] at hq
    rw [(hentry q).2.2.2 hq]
    exact h.vacant q hq
  · intro i hi
    rw [coremap_place, memsize_place]
    exact h.inUse i hi
  · intro q hq
    rw [(hentry q).1] at hq
    rw [(hentry q).2.2.2 hq]
    exact h.exclusive q hq
  · intro q hq i hi
    rw [memsize_place] at hi
    rw [coremap_place]
    exact h.full q ((hentry q).2.1 hq) i hi
  · intro q
    rw [(hentry q).2.2.1]
    exact h.swapOff q

theorem frame_touched (p : PtePtr) (vaddr : Addr) (type : Char) (s : Sim σ φ) (i : Nat) :
    ((touched p vaddr type s).coremap i).inUse = (s.coremap i).inUse ∧
      ((touched p vaddr type s).coremap i).pte = (s.coremap i).pte ∧
      ((touched p vaddr type s).coremap i).frameAbove = (s.coremap i).frameAbove ∧
      ((touched p vaddr type s).coremap i).frameBelow = (s.coremap i).frameBelow := by
  by_cases hi : i = (s.entry p).frameNo
  · subst hi
    simp [touched]
  · simp [touched, hi]

theorem page_touched (p : PtePtr) (vaddr : Addr) (type : Char) (s : Sim σ φ) :
    (touched p vaddr type s).page = s.page := by
  funext i
  simp only [Sim.page, (frame_touched p vaddr type s i).1, (frame_touched p vaddr type s i).2.1]

/-- The page accessed is in the frame its entry names; marking the entry valid closes the hole, if
that frame was one. -/
theorem touch (h : Mapped hole s) (hpage : s.page (s.entry p).frameNo = some p)
    (hlt : (s.entry p).frameNo < s.memsize) (hswap : (s.entry p).onswap = false)
    (hhole : ∀ i, hole = some i → i = (s.entry p).frameNo) (vaddr : Addr) (type : Char) :
    Mapped none (touched p vaddr type s) := by
  refine ⟨h.memsize_le, ?_, ?_, ?_, ?_, ?_, ?_, h.swapmap⟩
  · intro i q _
    rw [page_touched, entry_touched]
    by_cases hq : q = p
    · subst hq
      simp only [if_pos, PgtblEntry.valid_mark, PgtblEntry.frameNo_mark, true_and]
      constructor
      · intro hi
        by_contra hne
        have hi' : hole ≠ some i := fun heq => hne (hhole i heq).symm
        exact hne ((h.backed i q hi').mp hi).2
      · rintro rfl
        exact hpage
    · rw [if_neg hq]
      by_cases hi : hole = some i
      · have hif := hhole i hi
        -- The hole is the frame of `p` now, and no other valid entry names it.
        have hne : s.page i ≠ some q := by
          rw [hif, hpage]
          exact fun heq => hq (Option.some.inj heq).symm
        have hvac : ¬((s.entry q).valid ∧ (s.entry q).frameNo = i) := by
          rintro ⟨hv, hfr⟩
          exact h.vacant q hv (by rw [hfr]; exact hi)
        exact iff_of_false hne hvac
      · exact h.backed i q hi
  · intro _ _ heq
    cases heq
  · intro i _ hu
    rw [(frame_touched p vaddr type s i).1] at hu
    rw [(frame_touched p vaddr type s i).2.1]
    by_cases hi : hole = some i
    · have hif := hhole i hi
      rw [hif, (inUse_of_page hpage).2]
      exact ⟨hlt, rfl⟩
    · exact h.inUse i hi hu
  · intro q hq
    rw [entry_touched] at hq ⊢
    by_cases hqp : q = p
    · rw [if_pos hqp, PgtblEntry.onswap_mark]
      exact hswap
    · rw [if_neg hqp] at hq ⊢
      exact h.exclusive q hq
  · intro q hq i hi _
    rw [entry_touched] at hq
    rw [(frame_touched p vaddr type s i).1]
    have hqp : q ≠ p := by
      rintro rfl
      simp [hswap] at hq
    rw [if_neg hqp] at hq
    by_cases hi' : hole = some i
    · rw [hhole i hi']
      exact (inUse_of_page hpage).1
    · exact h.full q hq i hi hi'
  · intro q
    rw [entry_touched]
    by_cases hqp : q = p
    · rw [if_pos hqp, PgtblEntry.swapOff_mark]
      exact h.swapOff p
    · rw [if_neg hqp]
      exact h.swapOff q

end Mapped

namespace Pageout

variable {stored : Int → Bool} {bm bm' : Bitmap} {off off' : Int}

theorem wellFormed (h : Pageout stored bm off bm' off') (hwf : bm.WellFormed) : bm'.WellFormed := by
  cases h with
  | kept _ _ => exact hwf
  | dropped _ _ => exact hwf
  | taken k _ _ _ hcap _ _ _ => exact hwf.take hcap
  | leaked k _ _ _ hcap _ _ => exact hwf.take hcap
  | full _ _ _ => exact hwf

theorem toInt_eq (h : Pageout stored bm off bm' off') (hoff : toInt off = off) :
    toInt off' = off' := by
  cases h with
  | kept _ _ => exact hoff
  | dropped _ _ => exact toInt_invalid
  | taken k _ _ _ _ _ _ _ => exact toInt_slotOffset k
  | leaked k _ _ _ _ _ _ => exact toInt_invalid
  | full _ _ _ => exact toInt_invalid

end Pageout

end Paging

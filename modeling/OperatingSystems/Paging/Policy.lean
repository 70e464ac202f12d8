-- SUMMARY: What the replacement algorithms share: links between frames, and the age of the page in a frame.
import OperatingSystems.Library.Links
import OperatingSystems.Library.Recency
import OperatingSystems.Paging.Accesses

/-!
# Replacement algorithms

The algorithms that keep a list of frames keep it in the links of the coremap. Their order is that
of the pages in the frames: by the last reference, or by the time of loading.
-/

namespace Paging

open Library

variable {σ φ : Type} {s s' t : Sim σ φ} {p q : PtePtr} {f i : Nat}

/-! ## Links -/

namespace Sim

def above (s : Sim σ φ) (i : Nat) : Option Nat := (s.coremap i).frameAbove
def below (s : Sim σ φ) (i : Nat) : Option Nat := (s.coremap i).frameBelow

def setAbove (s : Sim σ φ) (i : Nat) (link : Option Nat) : Sim σ φ :=
  s.modifyFrame i fun fr => { fr with frameAbove := link }

def setBelow (s : Sim σ φ) (i : Nat) (link : Option Nat) : Sim σ φ :=
  s.modifyFrame i fun fr => { fr with frameBelow := link }

def setAlg (s : Sim σ φ) (alg : σ) : Sim σ φ := { s with alg := alg }

variable {link : Option Nat} {alg : σ}

@[simp] theorem above_setAbove : (s.setAbove i link).above = Function.update s.above i link := by
  funext j
  by_cases hj : j = i
  · subst hj
    simp [above, setAbove]
  · simp [above, setAbove, hj]

@[simp] theorem above_setBelow : (s.setBelow i link).above = s.above := by
  funext j
  by_cases hj : j = i
  · subst hj
    simp [above, setBelow]
  · simp [above, setBelow, hj]

@[simp] theorem below_setAbove : (s.setAbove i link).below = s.below := by
  funext j
  by_cases hj : j = i
  · subst hj
    simp [below, setAbove]
  · simp [below, setAbove, hj]

@[simp] theorem below_setBelow : (s.setBelow i link).below = Function.update s.below i link := by
  funext j
  by_cases hj : j = i
  · subst hj
    simp [below, setBelow]
  · simp [below, setBelow, hj]

@[simp] theorem above_setAlg : (s.setAlg alg).above = s.above := rfl
@[simp] theorem below_setAlg : (s.setAlg alg).below = s.below := rfl
@[simp] theorem alg_setAlg : (s.setAlg alg).alg = alg := rfl
@[simp] theorem alg_setAbove : (s.setAbove i link).alg = s.alg := rfl
@[simp] theorem alg_setBelow : (s.setBelow i link).alg = s.alg := rfl
@[simp] theorem entry_setAbove : (s.setAbove i link).entry q = s.entry q := rfl
@[simp] theorem entry_setBelow : (s.setBelow i link).entry q = s.entry q := rfl
@[simp] theorem entry_setAlg : (s.setAlg alg).entry q = s.entry q := rfl

end Sim

@[simp] theorem above_record : (record p f s).above = s.above := by
  funext j
  by_cases hj : j = f
  · subst hj
    simp [Sim.above, record]
  · simp [Sim.above, record, hj]

@[simp] theorem below_record : (record p f s).below = s.below := by
  funext j
  by_cases hj : j = f
  · subst hj
    simp [Sim.below, record]
  · simp [Sim.below, record, hj]

namespace PolicyStep

theorem trans (h : PolicyStep s s') (h' : PolicyStep s' t) : PolicyStep s t where
  memsize := h'.memsize.trans h.memsize
  entry p :=
    { valid := (h'.entry p).valid.trans (h.entry p).valid
      dirty := (h'.entry p).dirty.trans (h.entry p).dirty
      onswap := (h'.entry p).onswap.trans (h.entry p).onswap
      frameNo := (h'.entry p).frameNo.trans (h.entry p).frameNo
      swapOff := (h'.entry p).swapOff.trans (h.entry p).swapOff }
  inUse i := (h'.inUse i).trans (h.inUse i)
  pte i := (h'.pte i).trans (h.pte i)
  vaddr i := (h'.vaddr i).trans (h.vaddr i)
  physmem := h'.physmem.trans h.physmem
  swapmap := h'.swapmap.trans h.swapmap
  swapfd := h'.swapfd.trans h.swapfd
  hitCount := h'.hitCount.trans h.hitCount
  missCount := h'.missCount.trans h.missCount
  refCount := h'.refCount.trans h.refCount
  evictCleanCount := h'.evictCleanCount.trans h.evictCleanCount
  evictDirtyCount := h'.evictDirtyCount.trans h.evictDirtyCount
  stderr := h'.stderr.trans h.stderr

/-- Changing the links of a frame is a policy's business. -/
theorem modifyFrame {g : Frame → Frame} (hinUse : ∀ fr, (g fr).inUse = fr.inUse)
    (hpte : ∀ fr, (g fr).pte = fr.pte) (hvaddr : ∀ fr, (g fr).vaddr = fr.vaddr) :
    PolicyStep s (s.modifyFrame i g) :=
  { PolicyStep.refl s with
    entry := fun p => .refl _
    inUse := fun j => by
      by_cases hj : j = i
      · subst hj
        simp [hinUse]
      · simp [hj]
    pte := fun j => by
      by_cases hj : j = i
      · subst hj
        simp [hpte]
      · simp [hj]
    vaddr := fun j => by
      by_cases hj : j = i
      · subst hj
        simp [hvaddr]
      · simp [hj] }

theorem setAbove (h : PolicyStep s s') (i : Nat) (link : Option Nat) :
    PolicyStep s (s'.setAbove i link) :=
  h.trans (modifyFrame (fun _ => rfl) (fun _ => rfl) fun _ => rfl)

theorem setBelow (h : PolicyStep s s') (i : Nat) (link : Option Nat) :
    PolicyStep s (s'.setBelow i link) :=
  h.trans (modifyFrame (fun _ => rfl) (fun _ => rfl) fun _ => rfl)

theorem setAlg (h : PolicyStep s s') (alg : σ) : PolicyStep s (s'.setAlg alg) :=
  h.trans { PolicyStep.refl s' with entry := fun _ => .refl _ }

end PolicyStep

/-! ## Ages -/

/-- The pages of an access sequence. -/
def references (trace : List Access) : List PtePtr := trace.map fun a => pteOf a.vaddr

@[simp] theorem references_concat (trace : List Access) (a : Access) :
    references (trace ++ [a]) = references trace ++ [pteOf a.vaddr] := by simp [references]

/-- The age of the page in a frame, in a history of pages. -/
def frameAge (history : List PtePtr) (s : Sim σ φ) (i : Nat) : Nat :=
  match s.page i with
  | some p => age history p
  | none => history.length

theorem frameAge_congr {history : List PtePtr} (h : s'.page = s.page) :
    frameAge history s' = frameAge history s := by
  funext i
  simp only [frameAge, h]

namespace Arrived

variable {history : List PtePtr}

theorem above (h : Arrived p f s t) : t.above = s.above := by
  funext i
  exact h.frameAbove i

theorem below (h : Arrived p f s t) : t.below = s.below := by
  funext i
  exact h.frameBelow i

theorem page_self (h : Arrived p f s t) : t.page f = some p := by
  rw [h.page, Function.update_self]

theorem inUse_iff (h : Arrived p f s t) (i : Nat) :
    (t.page i).isSome ↔ i = f ∨ (s.page i).isSome := by
  rw [h.page]
  by_cases hi : i = f
  · subst hi
    simp
  · simp [hi]

/-- A page that comes into a frame that was not in use, or is there already. -/
theorem valid_iff (h : Arrived p f s t) (hM : Mapped none s)
    (hf : s.page f = none ∨ s.page f = some p) : (t.entry q).valid ↔ q = p ∨ (s.entry q).valid := by
  rw [h.mapped.valid_iff, hM.valid_iff, h.page]
  constructor
  · rintro ⟨i, hi⟩
    by_cases hif : i = f
    · subst hif
      rw [Function.update_self] at hi
      exact .inl (Option.some.inj hi).symm
    · rw [Function.update_of_ne hif] at hi
      exact .inr ⟨i, hi⟩
  · rintro (rfl | ⟨i, hi⟩)
    · exact ⟨f, Function.update_self ..⟩
    · by_cases hif : i = f
      · subst hif
        rcases hf with hnone | hsome
        · rw [hnone] at hi
          cases hi
        · rw [hsome] at hi
          exact ⟨i, by rw [Function.update_self, ← hi]⟩
      · exact ⟨i, by rw [Function.update_of_ne hif]; exact hi⟩

/-- When its page is the newest in the history, a frame has age zero. -/
theorem frameAge_self (h : Arrived p f s t) : frameAge (history ++ [p]) t f = 0 := by
  simp only [frameAge, h.page_self, age_concat_self]

/-- The other frames grow older by one. -/
theorem frameAge_ne (h : Arrived p f s t) (hi : i ≠ f) :
    frameAge (history ++ [p]) t i = frameAge history s i + 1 := by
  have hpage : t.page i = s.page i := by rw [h.page, Function.update_of_ne hi]
  cases hq : s.page i with
  | none => simp [frameAge, hpage, hq]
  | some q =>
    have hne : q ≠ p := by
      rintro rfl
      exact hi (h.mapped.page_injective (hpage.trans hq) h.page_self)
    simp only [frameAge, hpage, hq, age_concat_ne hne]

end Arrived

/-- A frame is in use when it holds a page. -/
theorem Mapped.inUse_iff (h : Mapped none s) (i : Nat) :
    (s.coremap i).inUse ↔ (s.page i).isSome := by
  constructor
  · intro hi
    obtain ⟨p, hp⟩ := h.page_of_inUse hi
    rw [hp]
    rfl
  · intro hi
    obtain ⟨p, hp⟩ := Option.isSome_iff_exists.mp hi
    exact (Mapped.inUse_of_page hp).1

end Paging

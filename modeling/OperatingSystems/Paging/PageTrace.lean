-- SUMMARY: Under lru, fifo and clock, hits, misses and the page in every frame depend on the sequence of pages only.
import OperatingSystems.Paging.Clock
import OperatingSystems.Paging.Counters
import OperatingSystems.Paging.Fifo
import OperatingSystems.Paging.Lru

/-!
# What depends on the sequence of pages only

Two runs over traces with the same pages may differ in dirty bits, slots and bytes. The rest of
their globals goes through the same states, and the replacement algorithms read nothing else.
-/

namespace Paging

open Library Library.Run

variable {σ φ ψ : Type} {s t u : Sim σ φ} {s' t' u' : Sim σ ψ} {p q : PtePtr} {f i : Nat}

/-! ## States alike -/

/-- The parts of an entry that do not depend on how its page is accessed and where it is stored. -/
structure PgtblEntry.Alike (e e' : PgtblEntry) : Prop where
  valid : e'.valid = e.valid
  ref : e'.ref = e.ref
  frameNo : e'.frameNo = e.frameNo

namespace PgtblEntry.Alike

variable {e e' : PgtblEntry}

theorem flip (h : e.Alike e') : (e.flip PG_REF).Alike (e'.flip PG_REF) := by
  constructor
  · simp [h.valid]
  · simp [h.ref]
  · simp [h.frameNo]

theorem swapOut (h : e.Alike e') (off off' : Int) : (e.swapOut off).Alike (e'.swapOut off') := by
  constructor
  · simp [h.valid]
  · simp [h.ref]
  · rw [frameNo_swapOut, frameNo_swapOut, h.frameNo]

theorem mark (h : e.Alike e') (write write' : Bool) : (e.mark write).Alike (e'.mark write') := by
  constructor
  · simp
  · simp
  · simp [h.frameNo]

/-- Assigning a frame number overwrites all that the entries were. -/
theorem place (onswap onswap' : Bool) (f : Nat) :
    (if onswap then e.place f else (e.place f).set PG_DIRTY).Alike
      (if onswap' then e'.place f else (e'.place f).set PG_DIRTY) := by
  have hframe : (e'.place f).frameNo = (e.place f).frameNo := rfl
  cases onswap <;> cases onswap' <;> constructor <;> simp [hframe]

end PgtblEntry.Alike

/-- States of two runs that agree in all that replacement depends on. -/
structure Alike (s : Sim σ φ) (s' : Sim σ ψ) : Prop where
  memsize : s'.memsize = s.memsize
  entry : ∀ p, (s.entry p).Alike (s'.entry p)
  inUse : ∀ i, (s'.coremap i).inUse = (s.coremap i).inUse
  pte : ∀ i, (s'.coremap i).pte = (s.coremap i).pte
  above : s'.above = s.above
  below : s'.below = s.below
  alg : s'.alg = s.alg

namespace Alike

theorem page (h : Alike s s') : s'.page = s.page := by
  funext i
  simp only [Sim.page, h.inUse i, h.pte i]

theorem findFree (h : Alike s s') : Paging.findFree s' = Paging.findFree s := by
  simp only [Paging.findFree, h.memsize, h.inUse]

theorem trans_left (h : Alike s s') (hmem : t.memsize = s.memsize) (hentry : t.entry = s.entry)
    (hcore : t.coremap = s.coremap) (halg : t.alg = s.alg) : Alike t s' where
  memsize := h.memsize.trans hmem.symm
  entry p := by rw [hentry]; exact h.entry p
  inUse i := by rw [hcore]; exact h.inUse i
  pte i := by rw [hcore]; exact h.pte i
  above := h.above.trans (by funext i; simp only [Sim.above, hcore])
  below := h.below.trans (by funext i; simp only [Sim.below, hcore])
  alg := h.alg.trans halg.symm

theorem symm (h : Alike s s') : Alike s' s where
  memsize := h.memsize.symm
  entry p := ⟨(h.entry p).valid.symm, (h.entry p).ref.symm, (h.entry p).frameNo.symm⟩
  inUse i := (h.inUse i).symm
  pte i := (h.pte i).symm
  above := h.above.symm
  below := h.below.symm
  alg := h.alg.symm

/-- Only these parts of the two states matter. -/
theorem congr (h : Alike s s') (hmem : t.memsize = s.memsize) (hentry : t.entry = s.entry)
    (hcore : t.coremap = s.coremap) (halg : t.alg = s.alg) (hmem' : t'.memsize = s'.memsize)
    (hentry' : t'.entry = s'.entry) (hcore' : t'.coremap = s'.coremap) (halg' : t'.alg = s'.alg) :
    Alike t t' :=
  ((h.trans_left hmem hentry hcore halg).symm.trans_left hmem' hentry' hcore' halg').symm

/-! ### What replacement algorithms do -/

variable {link : Option Nat} {alg : σ}

theorem setAbove (h : Alike s s') (i : Nat) (link : Option Nat) :
    Alike (s.setAbove i link) (s'.setAbove i link) where
  memsize := h.memsize
  entry := h.entry
  inUse j := by
    by_cases hj : j = i
    · subst hj
      simpa [Sim.setAbove] using h.inUse j
    · simpa [Sim.setAbove, hj] using h.inUse j
  pte j := by
    by_cases hj : j = i
    · subst hj
      simpa [Sim.setAbove] using h.pte j
    · simpa [Sim.setAbove, hj] using h.pte j
  above := by rw [Sim.above_setAbove, Sim.above_setAbove, h.above]
  below := by rw [Sim.below_setAbove, Sim.below_setAbove, h.below]
  alg := h.alg

theorem setBelow (h : Alike s s') (i : Nat) (link : Option Nat) :
    Alike (s.setBelow i link) (s'.setBelow i link) where
  memsize := h.memsize
  entry := h.entry
  inUse j := by
    by_cases hj : j = i
    · subst hj
      simpa [Sim.setBelow] using h.inUse j
    · simpa [Sim.setBelow, hj] using h.inUse j
  pte j := by
    by_cases hj : j = i
    · subst hj
      simpa [Sim.setBelow] using h.pte j
    · simpa [Sim.setBelow, hj] using h.pte j
  above := by rw [Sim.above_setBelow, Sim.above_setBelow, h.above]
  below := by rw [Sim.below_setBelow, Sim.below_setBelow, h.below]
  alg := h.alg

theorem setAlg (h : Alike s s') (alg : σ) : Alike (s.setAlg alg) (s'.setAlg alg) :=
  { h with alg := rfl }

/-- Entries that stay alike under the same assignment. -/
theorem modifyEntry (h : Alike s s') {g g' : PgtblEntry → PgtblEntry}
    (hg : ∀ e e' : PgtblEntry, e.Alike e' → (g e).Alike (g' e')) (p : PtePtr) :
    Alike (s.modifyEntry p g) (s'.modifyEntry p g') :=
  { h with
    entry := fun q => by
      rw [Sim.entry_modifyEntry, Sim.entry_modifyEntry]
      by_cases hq : q = p
      · rw [if_pos hq, if_pos hq]
        exact hg _ _ (h.entry p)
      · rw [if_neg hq, if_neg hq]
        exact h.entry q }

/-! ### What an access does -/

variable {onswap onswap' : Bool} {vaddr vaddr' : Addr} {type type' : Char}

theorem initSecondLevel (h : Alike s s') (idx idx' : Nat) :
    Alike (initSecondLevel idx s) (Paging.initSecondLevel idx' s') :=
  h.congr (Sim.memsize_initSecondLevel idx) (funext fun _ => Sim.entry_initSecondLevel idx)
    (Sim.coremap_initSecondLevel idx) (Sim.alg_initSecondLevel idx)
    (Sim.memsize_initSecondLevel idx') (funext fun _ => Sim.entry_initSecondLevel idx')
    (Sim.coremap_initSecondLevel idx') (Sim.alg_initSecondLevel idx')

theorem record (h : Alike s s') (p : PtePtr) (f : Nat) :
    Alike (record p f s) (Paging.record p f s') where
  memsize := h.memsize
  entry := h.entry
  inUse i := by
    by_cases hi : i = f
    · simp [Paging.record, hi]
    · simpa [Paging.record, hi] using h.inUse i
  pte i := by
    by_cases hi : i = f
    · simp [Paging.record, hi]
    · simpa [Paging.record, hi] using h.pte i
  above := by
    rw [above_record, above_record, h.above]
  below := by
    rw [below_record, below_record, h.below]
  alg := h.alg

/-- A page that moves in has the same entry in both runs, but for its dirty bit. -/
theorem place (h : Alike s s') (p : PtePtr) (f : Nat) :
    Alike (place onswap p f vaddr s) (Paging.place onswap' p f vaddr' s') where
  memsize := by rw [memsize_place, memsize_place, h.memsize]
  entry q := by
    rw [entry_place, entry_place]
    by_cases hq : q = p
    · rw [if_pos hq, if_pos hq]
      exact .place onswap onswap' f
    · rw [if_neg hq, if_neg hq]
      exact h.entry q
  inUse i := by rw [coremap_place, coremap_place, h.inUse]
  pte i := by rw [coremap_place, coremap_place, h.pte]
  above := by
    funext i
    simp only [Sim.above, coremap_place]
    exact congrFun h.above i
  below := by
    funext i
    simp only [Sim.below, coremap_place]
    exact congrFun h.below i
  alg := by rw [alg_place, alg_place, h.alg]

theorem touched (h : Alike s s') (p : PtePtr) :
    Alike (touched p vaddr type s) (Paging.touched p vaddr' type' s') where
  memsize := h.memsize
  entry q := by
    rw [entry_touched, entry_touched]
    by_cases hq : q = p
    · rw [if_pos hq, if_pos hq]
      exact (h.entry p).mark (isWrite type) (isWrite type')
    · rw [if_neg hq, if_neg hq]
      exact h.entry q
  inUse i := by
    rw [(Mapped.frame_touched ..).1, (Mapped.frame_touched ..).1, h.inUse]
  pte i := by
    rw [(Mapped.frame_touched ..).2.1, (Mapped.frame_touched ..).2.1, h.pte]
  above := by
    funext i
    simp only [Sim.above, (Mapped.frame_touched ..).2.2.1]
    exact congrFun h.above i
  below := by
    funext i
    simp only [Sim.below, (Mapped.frame_touched ..).2.2.2]
    exact congrFun h.below i
  alg := h.alg

end Alike

/-! ## The replacement algorithms -/

/-- The results of two calls of `evict_fcn` that pick the same frame. -/
structure AlikeAt (r : Nat × Sim σ φ) (r' : Nat × Sim σ ψ) : Prop where
  frame : r'.1 = r.1
  state : Alike r.2 r'.2

/-- One replacement algorithm in two runs: on states that are alike it does the same. -/
structure Uniform (fns : Functions σ φ) (fns' : Functions σ ψ) : Prop where
  init : ∀ {s s'}, Alike s s' → Alike (fns.init s) (fns'.init s')
  ref : ∀ p {s s'}, Alike s s' → Related Alike (fns.ref p s) (fns'.ref p s')
  evict : ∀ {s s'}, Alike s s' → Related AlikeAt (fns.evict s) (fns'.evict s')

/-- The victim is the page in a frame, and what is returned is the frame that its entry names. -/
theorem Alike.pick (h : Alike s s') (i : Nat) :
    Related AlikeAt
      (match (s.coremap i).pte with
        | none => .error Fault.nullPointer
        | some p => .ok ((s.entry p).frameNo, s))
      (match (s'.coremap i).pte with
        | none => .error Fault.nullPointer
        | some p => .ok ((s'.entry p).frameNo, s')) := by
  rw [h.pte i]
  cases (s.coremap i).pte with
  | none => exact .error _
  | some p => exact .ok ⟨(h.entry p).frameNo, h⟩

section Lru

variable {s : Sim LruNodes φ} {s' : Sim LruNodes ψ}

theorem Alike.setTop (h : Alike s s') (node : Option Nat) :
    Alike (setTop s node) (Paging.setTop s' node) := by
  unfold Paging.setTop
  rw [h.alg]
  exact h.setAlg _

theorem Alike.setBottom (h : Alike s s') (node : Option Nat) :
    Alike (setBottom s node) (Paging.setBottom s' node) := by
  unfold Paging.setBottom
  rw [h.alg]
  exact h.setAlg _

theorem Alike.lruEvict (h : Alike s s') : Related AlikeAt (lruEvict s) (Paging.lruEvict s') := by
  unfold Paging.lruEvict
  rw [h.alg, h.above]
  cases s.alg.bottomNode with
  | none => exact .error _
  | some evict =>
    simp only
    cases s.above evict with
    | none => exact .error _
    | some parent =>
      have hstate := (((h.setBottom (some parent)).setBelow parent none).setAbove evict
        none).setBelow evict none
      exact hstate.pick evict

theorem Alike.lruRef (h : Alike s s') (p : PtePtr) :
    Related Alike (lruRef p s) (Paging.lruRef p s') := by
  unfold Paging.lruRef
  rw [h.alg, h.above, h.below, (h.entry p).frameNo]
  simp only
  cases s.alg.bottomNode with
  | none => exact .ok (((h.setBottom _).setAbove _ _).setBelow _ _)
  | some bottom =>
    cases s.alg.topNode with
    | none =>
      simp only
      split
      · exact .ok (((h.setTop _).setBelow _ _).setAbove _ _)
      · exact .ok h
    | some top =>
      cases s.above (s.entry p).frameNo with
      | none =>
        cases s.below (s.entry p).frameNo with
        | none => exact .ok (((h.setAbove _ _).setBelow _ _).setTop _)
        | some _ =>
          simp only [need]
          split
          · exact .ok h
          · exact .error _
      | some parent =>
        cases s.below (s.entry p).frameNo with
        | none =>
          simp only [need]
          split
          · exact .ok ((((((h.setBottom _).setBelow _ _).setAbove _ _).setBelow _ _).setTop
              _).setAbove _ _)
          · exact .error _
        | some bottomTemp =>
          exact .ok ((((((h.setAbove _ _).setBelow _ _).setAbove _ _).setBelow _ _).setAbove
            _ _).setTop _)

theorem lru_uniform : Uniform (lru : Functions LruNodes φ) (lru : Functions LruNodes ψ) where
  init h := h
  ref p _ _ h := h.lruRef p
  evict h := h.lruEvict

end Lru

section Fifo

variable {s : Sim FifoEnds φ} {s' : Sim FifoEnds ψ}

theorem Alike.setYoungest (h : Alike s s') (node : Option Nat) :
    Alike (setYoungest s node) (Paging.setYoungest s' node) := by
  unfold Paging.setYoungest
  rw [h.alg]
  exact h.setAlg _

theorem Alike.setOldest (h : Alike s s') (node : Option Nat) :
    Alike (setOldest s node) (Paging.setOldest s' node) := by
  unfold Paging.setOldest
  rw [h.alg]
  exact h.setAlg _

theorem Alike.fifoEvict (h : Alike s s') :
    Related AlikeAt (fifoEvict s) (Paging.fifoEvict s') := by
  unfold Paging.fifoEvict
  rw [h.alg, h.above]
  cases s.alg.oldestf with
  | none => exact .error _
  | some evicVictim =>
    simp only
    cases s.above evicVictim with
    | none => exact ((h.setOldest none).setAbove evicVictim none).pick evicVictim
    | some next => exact ((h.setOldest (some next)).setAbove evicVictim none).pick evicVictim

theorem Alike.fifoRef (h : Alike s s') (p : PtePtr) :
    Related Alike (fifoRef p s) (Paging.fifoRef p s') := by
  unfold Paging.fifoRef
  rw [h.alg, h.above, (h.entry p).frameNo]
  simp only
  cases s.above (s.entry p).frameNo with
  | some _ => exact .ok h
  | none =>
    cases s.alg.oldestf with
    | none => exact .ok ((h.setOldest _).setAbove _ _)
    | some oldest =>
      cases s.alg.youngestf with
      | none => exact .ok ((h.setYoungest _).setAbove _ _)
      | some youngest => exact .ok ((h.setAbove _ _).setYoungest _)

theorem fifo_uniform : Uniform (fifo : Functions FifoEnds φ) (fifo : Functions FifoEnds ψ) where
  init h := h
  ref p _ _ h := h.fifoRef p
  evict h := h.fifoEvict

end Fifo

section Clock

variable {s : Sim ClockHand φ} {s' : Sim ClockHand ψ}

theorem Alike.hand (h : Alike s s') : s'.hand = s.hand := congrArg ClockHand.clockHand h.alg

theorem Alike.setHand (h : Alike s s') (hand : Nat) :
    Alike (setHand s hand) (Paging.setHand s' hand) :=
  h.setAlg _

theorem Alike.wrapHand (h : Alike s s') : Alike (wrapHand s) (Paging.wrapHand s') := by
  unfold Paging.wrapHand
  rw [h.hand, h.memsize]
  split
  · exact h.setHand 0
  · exact h

/-- The loop goes on in one run as long as it goes on in the other. -/
theorem Alike.clockEvict {fuel : Nat} (h : Alike s s') :
    Related AlikeAt (clockEvict fuel s) (Paging.clockEvict fuel s') := by
  induction fuel generalizing s s' with
  | zero => exact .error _
  | succ fuel ih =>
    have hwrap := h.wrapHand
    unfold Paging.clockEvict
    simp only
    rw [hwrap.hand, hwrap.pte]
    cases ((Paging.wrapHand s).coremap (Paging.wrapHand s).hand).pte with
    | none => exact .error _
    | some p =>
      simp only
      rw [(hwrap.entry p).ref]
      split
      · have hflip := hwrap.modifyEntry (fun _ _ he => he.flip) p
        refine ih ?_
        rw [hflip.hand]
        exact hflip.setHand _
      · exact .ok ⟨(hwrap.entry p).frameNo, hwrap.setHand _⟩

theorem clock_uniform (fuel : Nat) :
    Uniform (clock fuel : Functions ClockHand φ) (clock fuel : Functions ClockHand ψ) where
  init h := h.setHand 0
  ref _ _ _ h := .ok h
  evict h := h.clockEvict

end Clock

/-! ## An access -/

section Access

variable {fns : Functions σ φ} {fns' : Functions σ ψ} {io : FileOps φ} {io' : FileOps ψ}
  {vaddr vaddr' : Addr} {type type' : Char}

/-- The state after a victim has left, if it left the same frame in both runs. -/
theorem Alike.evicted {s₁ u : Sim σ φ} {s₁' u' : Sim σ ψ} (h : Alike s₁ s₁')
    (hev : Evicted io p f q s₁ u) (hev' : Evicted io' p f q s₁' u') : Alike u u' where
  memsize := by rw [hev.memsize, hev'.memsize, h.memsize]
  entry r := by
    obtain ⟨off, _, hu⟩ := hev.entry
    obtain ⟨off', _, hu'⟩ := hev'.entry
    rw [hu, hu']
    by_cases hr : r = q
    · rw [if_pos hr, if_pos hr]
      exact (h.entry q).swapOut off off'
    · rw [if_neg hr, if_neg hr]
      exact h.entry r
  inUse i := by rw [hev.coremap, hev'.coremap, h.inUse]
  pte i := by rw [hev.coremap, hev'.coremap, h.pte]
  above := by
    funext i
    simp only [Sim.above, hev.coremap, hev'.coremap]
    exact congrFun h.above i
  below := by
    funext i
    simp only [Sim.below, hev.coremap, hev'.coremap]
    exact congrFun h.below i
  alg := by rw [hev.alg, hev'.alg, h.alg]

/-- Accesses to the same page go the same way in both runs. -/
theorem Course.alike (hc : Course fns io vaddr type s t) (hc' : Course fns' io' vaddr' type' s' t')
    (hpte : pteOf vaddr' = pteOf vaddr) (huni : Uniform fns fns') (hfns : fns.Respectful)
    (hfns' : fns'.Respectful) (h : Mapped none s) (h' : Mapped none s') (halike : Alike s s') :
    Alike t t' := by
  have hvalid := (halike.entry (pteOf vaddr)).valid
  have hfree := halike.findFree
  cases hc with
  | hit hv =>
    cases hc' with
    | hit hv' =>
      rw [hpte]
      refine Alike.touched ?_ _
      exact (halike.initSecondLevel (pgdirIndex vaddr) (pgdirIndex vaddr')).congr rfl rfl rfl rfl
        rfl rfl rfl rfl
    | free f' hv' _ => simp [hpte, hvalid, hv] at hv'
    | evict f' q' off' s₁' s₂' u' hv' _ _ _ _ _ => simp [hpte, hvalid, hv] at hv'
  | free f hv hf =>
    cases hc' with
    | hit hv' => simp [hpte, hvalid, hv] at hv'
    | free f' hv' hf' =>
      cases (hf'.symm.trans hfree).trans hf
      rw [hpte]
      exact (((halike.initSecondLevel _ _).record _ f).place _ f).touched _
    | evict f' q' off' s₁' s₂' u' _ hf' _ _ _ _ => cases (hf'.symm.trans hfree).trans hf
  | evict f q off s₁ s₂ u hv hf hevict hpage hout hin =>
    cases hc' with
    | hit hv' => simp [hpte, hvalid, hv] at hv'
    | free f' hv' hf' => cases (hf'.symm.trans hfree).trans hf
    | evict f' q' off' s₁' s₂' u' hv' hf' hevict' hpage' hout' hin' =>
      obtain ⟨hframe, h₁⟩ := (huni.evict (halike.initSecondLevel _ _)).of_ok hevict hevict'
      simp only at hframe h₁
      subst hframe
      rw [h₁.page, hpage] at hpage'
      cases hpage'
      obtain ⟨hM, _, hall, _, _⟩ := hfns.evict_full h hf hevict
      obtain ⟨hM', _, hall', _, _⟩ := hfns'.evict_full h' hf' hevict'
      obtain ⟨hev, _⟩ := Evicted.of_stages hM hall hpage hout hin
      rw [hpte] at hin' ⊢
      obtain ⟨hev', _⟩ := Evicted.of_stages hM' hall' (h₁.page ▸ hpage) hout' hin'
      exact (((h₁.evicted hev hev').record _ f').place _ f').touched _

/-- One access in each run, to the same page. -/
theorem Alike.accessMem {a a' : Access} (h : Alike s s') (hpte : pteOf a'.vaddr = pteOf a.vaddr)
    (huni : Uniform fns fns') (hfns : fns.Respectful) (hfns' : fns'.Respectful)
    (hM : Mapped none s) (hM' : Mapped none s') (hacc : accessMem fns io a s = .ok t)
    (hacc' : Paging.accessMem fns' io' a' s' = .ok t') :
    Alike t t' ∧ t'.missCount + s.missCount = t.missCount + s'.missCount := by
  have hmiss := accessMem_missed hfns hM hacc
  have hmiss' := accessMem_missed hfns' hM' hacc'
  rw [hpte, (h.entry _).valid] at hmiss'
  obtain ⟨u, v, stderr, hc, href, rfl⟩ := accessMem_course hfns hM hacc
  obtain ⟨u', v', stderr', hc', href', rfl⟩ := accessMem_course hfns' hM' hacc'
  rw [hpte] at href'
  have hu := hc.alike hc' hpte huni hfns hfns' hM hM' h
  have hv := (huni.ref _ hu).of_ok href href'
  refine ⟨hv.congr rfl rfl rfl rfl rfl rfl rfl rfl, ?_⟩
  omega

end Access

/-! ## Runs -/

/-- The number of the page that an address is in. -/
def pageNumber (vaddr : Addr) : Nat := vaddr.toNat >>> PAGE_SHIFT

/-- The simulator looks at nothing of an address but its page when it looks for an entry. -/
theorem pteOf_congr {vaddr vaddr' : Addr} (h : pageNumber vaddr' = pageNumber vaddr) :
    pteOf vaddr' = pteOf vaddr := by
  have hdir : ∀ v : Addr, pgdirIndex v = (pageNumber v >>> 12) % 2 ^ 32 := by
    intro v
    rw [pgdirIndex, pageNumber, ← Nat.shiftRight_add]
    rfl
  have hidx : ∀ v : Addr, pgtblIndex v = pageNumber v &&& PGTBL_MASK := fun _ => rfl
  rw [pteOf, pteOf, hdir, hdir, hidx, hidx, h]

/-- What two runs over the same pages have in common. -/
structure Agree (s : Sim σ φ) (s' : Sim σ ψ) : Prop where
  hits : s'.hitCount = s.hitCount
  misses : s'.missCount = s.missCount
  evictions : s'.evictCleanCount + s'.evictDirtyCount = s.evictCleanCount + s.evictDirtyCount
  page : s'.page = s.page

/-- The counters balance, so those of the misses determine the others. -/
theorem Alike.agree {n : Nat} (h : Alike s s') (hmiss : s'.missCount = s.missCount)
    (hb : Balanced n s) (hb' : Balanced n s') : Agree s s' := by
  have hinUse : s'.framesInUse = s.framesInUse := by
    simp only [Sim.framesInUse, h.memsize, h.inUse]
  obtain ⟨href, hhits, hmisses, _⟩ := hb
  obtain ⟨href', hhits', hmisses', _⟩ := hb'
  refine ⟨?_, hmiss, ?_, h.page⟩
  · omega
  · omega

variable {fns : Functions σ φ} {fns' : Functions σ ψ} {io : FileOps φ} {io' : FileOps ψ}
  {m swapsize swapsize' : Nat} {physmem physmem' : Memory} {fd : φ} {fd' : ψ} {alg : σ}
  {trace trace' : List Access}

theorem simulate_alike (huni : Uniform fns fns') (hfns : fns.Respectful) (hfns' : fns'.Respectful)
    (hm : m ≤ 2 ^ 20) (hswap : swapsize < 2 ^ 32) (hswap' : swapsize' < 2 ^ 32)
    (hpages : trace'.map (pageNumber ·.vaddr) = trace.map (pageNumber ·.vaddr))
    (hrun : simulate fns io m swapsize physmem fd alg trace = .ok s)
    (hrun' : simulate fns' io' m swapsize' physmem' fd' alg trace' = .ok s') :
    Alike s s' ∧ s'.missCount = s.missCount := by
  induction trace using List.reverseRecOn generalizing trace' s s' with
  | nil =>
    cases List.map_eq_nil_iff.mp hpages
    obtain ⟨bm, _, _, hs, _⟩ := simulate_nil hfns io hm hswap physmem fd alg
    obtain ⟨bm', _, _, hs', _⟩ := simulate_nil hfns' io' hm hswap' physmem' fd' alg
    cases hrun.symm.trans hs
    cases hrun'.symm.trans hs'
    refine ⟨huni.init ⟨rfl, fun _ => ⟨rfl, rfl, rfl⟩, fun _ => rfl, fun _ => rfl, rfl, rfl, rfl⟩,
      ?_⟩
    rw [(hfns.init _).missCount, (hfns'.init _).missCount]
    rfl
  | append_singleton as a ih =>
    rw [List.map_append] at hpages
    obtain ⟨as', bs', rfl, hinit, hlast⟩ := List.map_eq_append_iff.mp hpages
    obtain ⟨a', rfl, hpage⟩ := List.map_eq_singleton_iff.mp hlast
    rw [simulate_concat] at hrun hrun'
    obtain ⟨u, hu, hacc⟩ := bind_eq_ok.mp hrun
    obtain ⟨u', hu', hacc'⟩ := bind_eq_ok.mp hrun'
    obtain ⟨halike, hmiss⟩ := ih hinit hu hu'
    obtain ⟨hM, _⟩ := simulate_mapped hfns hm hswap hu
    obtain ⟨hM', _⟩ := simulate_mapped hfns' hm hswap' hu'
    obtain ⟨hnext, hmiss'⟩ :=
      halike.accessMem (pteOf_congr hpage) huni hfns hfns' hM hM' hacc hacc'
    exact ⟨hnext, by omega⟩

/-- Runs of one algorithm over the same pages agree, where it answers its calls. -/
theorem Uniform.agree (huni : Uniform fns fns')
    (hfns : fns.Answers io m swapsize physmem fd alg trace)
    (hfns' : fns'.Answers io' m swapsize' physmem' fd' alg trace') (hm : m ≤ 2 ^ 20)
    (hswap : swapsize < 2 ^ 32) (hswap' : swapsize' < 2 ^ 32)
    (hrange : ∀ a ∈ trace, a.vaddr.toNat < 2 ^ 36)
    (hrange' : ∀ a ∈ trace', a.vaddr.toNat < 2 ^ 36)
    (hpages : trace'.map (pageNumber ·.vaddr) = trace.map (pageNumber ·.vaddr)) :
    ∃ s s', simulate fns io m swapsize physmem fd alg trace = .ok s ∧
      simulate fns' io' m swapsize' physmem' fd' alg trace' = .ok s' ∧ Agree s s' := by
  obtain ⟨s, hs⟩ := simulate_ok hfns hm hswap hrange
  obtain ⟨s', hs'⟩ := simulate_ok hfns' hm hswap' hrange'
  obtain ⟨halike, hmiss⟩ := simulate_alike huni hfns.toRespectful hfns'.toRespectful hm hswap hswap'
    hpages hs hs'
  obtain ⟨_, _, hb, _⟩ := simulate_tallied hfns.toRespectful hm hswap hs
  obtain ⟨_, _, hb', _⟩ := simulate_tallied hfns'.toRespectful hm hswap' hs'
  have hlen : trace'.length = trace.length := by
    rw [← List.length_map (pageNumber ·.vaddr), hpages, List.length_map]
  exact ⟨s, s', hs, hs', halike.agree hmiss hb (hlen ▸ hb')⟩

/-- Two runs over access sequences with the same pages: whatever the types of the accesses, the
offsets within the pages, the sizes of the swap files and what the files do, after every access
the two have counted the same and hold the same page in every frame. -/
theorem simulate_same_pages (io : FileOps φ) (io' : FileOps ψ) (hm : 1 ≤ m ∧ m ≤ 2 ^ 20)
    (hswap : swapsize < 2 ^ 32) (hswap' : swapsize' < 2 ^ 32) (physmem physmem' : Memory) (fd : φ)
    (fd' : ψ) (hrange : ∀ a ∈ trace, a.vaddr.toNat < 2 ^ 36)
    (hrange' : ∀ a ∈ trace', a.vaddr.toNat < 2 ^ 36)
    (hpages : trace'.map (pageNumber ·.vaddr) = trace.map (pageNumber ·.vaddr)) {fuel : Nat}
    (hfuel : m < fuel) :
    (2 ≤ m → ∃ s s', simulate lru io m swapsize physmem fd .zero trace = .ok s ∧
      simulate lru io' m swapsize' physmem' fd' .zero trace' = .ok s' ∧ Agree s s') ∧
    (∃ s s', simulate fifo io m swapsize physmem fd .zero trace = .ok s ∧
      simulate fifo io' m swapsize' physmem' fd' .zero trace' = .ok s' ∧ Agree s s') ∧
    ∃ s s', simulate (clock fuel) io m swapsize physmem fd .zero trace = .ok s ∧
      simulate (clock fuel) io' m swapsize' physmem' fd' .zero trace' = .ok s' ∧ Agree s s' := by
  refine ⟨fun hm₂ => ?_, ?_, ?_⟩
  · exact lru_uniform.agree (lru_answers io ⟨hm₂, hm.2⟩ hswap physmem fd hrange)
      (lru_answers io' ⟨hm₂, hm.2⟩ hswap' physmem' fd' hrange') hm.2 hswap hswap' hrange hrange' hpages
  · exact fifo_uniform.agree (fifo_answers io hm hswap physmem fd hrange)
      (fifo_answers io' hm hswap' physmem' fd' hrange') hm.2 hswap hswap' hrange hrange' hpages
  · exact (clock_uniform fuel).agree (clock_answers io hm hswap hfuel physmem fd hrange)
      (clock_answers io' hm hswap' hfuel physmem' fd' hrange') hm.2 hswap hswap' hrange hrange' hpages

/-- A run that writes, with a swap file, and one that reads, with a smaller one. -/
theorem simulate_same_pages_two :
    (2 ≤ 2 → ∃ s s', simulate lru regularFile.toFileOps 2 4 (fun _ => 0) .empty .zero
        [⟨'S', 0x1000⟩, ⟨'S', 0x2abc⟩, ⟨'M', 0x3000⟩] = .ok s ∧
      simulate lru regularFile.toFileOps 2 1 (fun _ => 1) .empty .zero
        [⟨'L', 0x1fff⟩, ⟨'I', 0x2000⟩, ⟨'L', 0x3004⟩] = .ok s' ∧ Agree s s') ∧
    (∃ s s', simulate fifo regularFile.toFileOps 2 4 (fun _ => 0) .empty .zero
        [⟨'S', 0x1000⟩, ⟨'S', 0x2abc⟩, ⟨'M', 0x3000⟩] = .ok s ∧
      simulate fifo regularFile.toFileOps 2 1 (fun _ => 1) .empty .zero
        [⟨'L', 0x1fff⟩, ⟨'I', 0x2000⟩, ⟨'L', 0x3004⟩] = .ok s' ∧ Agree s s') ∧
    ∃ s s', simulate (clock 3) regularFile.toFileOps 2 4 (fun _ => 0) .empty .zero
        [⟨'S', 0x1000⟩, ⟨'S', 0x2abc⟩, ⟨'M', 0x3000⟩] = .ok s ∧
      simulate (clock 3) regularFile.toFileOps 2 1 (fun _ => 1) .empty .zero
        [⟨'L', 0x1fff⟩, ⟨'I', 0x2000⟩, ⟨'L', 0x3004⟩] = .ok s' ∧ Agree s s' :=
  simulate_same_pages regularFile.toFileOps regularFile.toFileOps (by decide) (by decide)
    (by decide) _ _ _ _ (by decide) (by decide) (by decide) (by decide)

end Paging

-- SUMMARY: The clock replacement algorithm is second-chance FIFO: its hand goes round the coremap as the head of the queue does.
import OperatingSystems.Library.Ring
import OperatingSystems.Library.SecondChance
import OperatingSystems.Paging.Course
import OperatingSystems.Paging.Policy
import OperatingSystems.Paging.SwapFile

/-!
# Clock

`clock_evict` goes round the coremap until it finds a page that has not been referenced. Read from
the hand on, the coremap is the second-chance queue: a frame passed over is at the end of it, and
so is the frame of the victim once it has its new page.
-/

namespace Paging

open Library Library.Run

/-! ## The code -/

/-- The global of `clock.c`. -/
structure ClockHand where
  clockHand : Nat

def ClockHand.zero : ClockHand := { clockHand := 0 }

variable {φ : Type}

def Sim.hand (s : Sim ClockHand φ) : Nat := s.alg.clockHand

def setHand (s : Sim ClockHand φ) (hand : Nat) : Sim ClockHand φ := s.setAlg { clockHand := hand }

/-- At the end of the coremap the hand starts over. -/
def wrapHand (s : Sim ClockHand φ) : Sim ClockHand φ :=
  if s.hand ≥ s.memsize then setHand s 0 else s

/-- `clock_evict`, whose loop has no bound: the fuel bounds the number of frames examined. -/
def clockEvict : Nat → Sim ClockHand φ → Except Fault (Nat × Sim ClockHand φ)
  | 0, _ => .error .outOfFuel
  | fuel + 1, s =>
    let s := wrapHand s
    match (s.coremap s.hand).pte with
    | none => .error .nullPointer
    | some p =>
      if (s.entry p).ref then
        -- A second chance: the hand goes on.
        let s := s.modifyEntry p fun e => e.flip PG_REF
        clockEvict fuel (setHand s (s.hand + 1))
      else
        let s := setHand s (s.hand + 1)
        .ok ((s.entry p).frameNo, s)

/-- `clock_ref`. -/
def clockRef (_ : PtePtr) (s : Sim ClockHand φ) : Except Fault (Sim ClockHand φ) := .ok s

/-- `clock_init`. -/
def clockInit (s : Sim ClockHand φ) : Sim ClockHand φ := setHand s 0

/-- The algorithm under the name `clock`. -/
def clock (fuel : Nat) : Functions ClockHand φ :=
  { init := clockInit, ref := clockRef, evict := clockEvict fuel }

namespace PgtblEntry

/-- All bits of the entry but the reference bit. -/
def clearRef (e : PgtblEntry) : PgtblEntry := { e with frame := e.frame &&& ~~~PG_REF }

variable {e : PgtblEntry}

@[simp] theorem ref_clearRef : e.clearRef.ref = false := by simp [ref_eq, clearRef]

@[simp] theorem clearRef_clearRef : e.clearRef.clearRef = e.clearRef := by
  simp [clearRef, BitVec.and_assoc]

/-- Flipping the reference bit clears it where it is set. -/
theorem flip_eq_clearRef (h : e.ref = true) : e.flip PG_REF = e.clearRef := by
  rw [ref_eq] at h
  have hframe : e.frame ^^^ PG_REF = e.frame &&& ~~~PG_REF := by
    apply BitVec.eq_of_getLsbD_eq
    intro i hi
    by_cases h2 : i = 2
    · subst h2
      simp [h]
    · simp [hi, h2]
  simp only [flip, clearRef, hframe]

end PgtblEntry

variable {s s' t : Sim ClockHand φ} {p q : PtePtr} {f i k fuel : Nat} {l l' : List (PtePtr × Bool)}

/-! ## What it leaves alone -/

theorem PolicyStep.flipRef (h : PolicyStep s s') (p : PtePtr) :
    PolicyStep s (s'.modifyEntry p fun e => e.flip PG_REF) :=
  h.trans
    { PolicyStep.refl s' with
      entry := fun q => by
        rw [Sim.entry_modifyEntry]
        by_cases hq : q = p
        · rw [if_pos hq, hq]
          exact .flip _
        · rw [if_neg hq]
          exact .refl _ }

theorem wrapHand_policyStep (s : Sim ClockHand φ) : PolicyStep s (wrapHand s) := by
  unfold wrapHand
  split
  · exact (PolicyStep.refl s).setAlg _
  · exact .refl s

theorem clockEvict_policyStep (h : clockEvict fuel s = .ok (f, s')) : PolicyStep s s' := by
  induction fuel generalizing s with
  | zero => cases h
  | succ fuel ih =>
    have hwrap := wrapHand_policyStep s
    unfold clockEvict at h
    simp only at h
    split at h
    · cases h
    · split at h
      · exact ((hwrap.flipRef _).setAlg _).trans (ih h)
      · cases h
        exact hwrap.setAlg _

theorem clock_respectful : (clock fuel : Functions ClockHand φ).Respectful where
  init s := (PolicyStep.refl s).setAlg _
  ref p s s' h := by
    cases h
    exact .refl s
  evict _ _ _ := clockEvict_policyStep

/-! ## The queue -/

/-- The hand, then the other frames in order, hold the pages of the queue with their bits. -/
structure ClockQueue (s : Sim ClockHand φ) (l : List (PtePtr × Bool)) : Prop where
  nodup : (l.map Prod.fst).Nodup
  hand : s.hand ≤ s.memsize
  pages : l.map (fun e => some e.1) =
    (List.range l.length).map fun j => s.page ((s.hand + j) % s.memsize)
  bits : ∀ e ∈ l, e.2 = (s.entry e.1).ref

theorem wrapHand_hand (h : s.hand ≤ s.memsize) : (wrapHand s).hand = s.hand % s.memsize := by
  unfold wrapHand
  split
  · have heq : s.hand = s.memsize := by omega
    rw [heq, Nat.mod_self]
    rfl
  · rw [Nat.mod_eq_of_lt (by omega)]

theorem entry_wrapHand (s : Sim ClockHand φ) (p : PtePtr) : (wrapHand s).entry p = s.entry p := by
  unfold wrapHand
  split
  · rfl
  · rfl

namespace ClockQueue

/-- The head of the queue is in the frame under the hand. -/
theorem head {e : PtePtr × Bool} (h : ClockQueue s (e :: l)) :
    s.page (s.hand % s.memsize) = some e.1 ∧ (s.entry e.1).ref = e.2 := by
  have hpages := h.pages
  rw [List.length_cons, List.range_succ_eq_map, List.map_cons, List.map_cons] at hpages
  exact ⟨(List.cons.inj hpages).1.symm, (h.bits e List.mem_cons_self).symm⟩

/-- The rest of the queue is in the frames from the next one on. -/
theorem tail {e : PtePtr × Bool} (h : ClockQueue s (e :: l)) (hm : 0 < s.memsize)
    (hmem : s'.memsize = s.memsize) (hpage : s'.page = s.page)
    (hhand : s'.hand = s.hand % s.memsize + 1)
    (hentry : ∀ r, r ≠ e.1 → (s'.entry r).ref = (s.entry r).ref) : ClockQueue s' l := by
  have hnodup := h.nodup
  rw [List.map_cons, List.nodup_cons] at hnodup
  have hlt := Nat.mod_lt s.hand hm
  refine ⟨hnodup.2, by omega, ?_, ?_⟩
  · have hpages := h.pages
    rw [List.length_cons, List.range_succ_eq_map, List.map_cons, List.map_cons,
      List.map_map] at hpages
    rw [(List.cons.inj hpages).2]
    apply List.map_congr_left
    intro j _
    have hidx : (s.hand % s.memsize + 1 + j) % s.memsize = (s.hand + (j + 1)) % s.memsize := by
      rw [Nat.add_assoc, Nat.mod_add_mod, Nat.add_comm 1 j]
    rw [Function.comp_apply, hpage, hhand, hmem, hidx]
  · intro r hr
    have hne : r.1 ≠ e.1 := fun heq => hnodup.1 (heq ▸ List.mem_map_of_mem hr)
    rw [hentry r.1 hne]
    exact h.bits r (List.mem_cons_of_mem e hr)

/-- A page in the frame after the last one of the queue is at the end of the queue. -/
theorem concat {b : Bool} (h : ClockQueue s l) (hp : p ∉ l.map Prod.fst)
    (hmem : s'.memsize = s.memsize) (hhand : s'.hand = s.hand)
    (hpages : ∀ j < l.length, s'.page ((s.hand + j) % s.memsize) =
      s.page ((s.hand + j) % s.memsize))
    (hpage : s'.page ((s.hand + l.length) % s.memsize) = some p)
    (hbits : ∀ r, r ≠ p → (s'.entry r).ref = (s.entry r).ref) (hbit : (s'.entry p).ref = b) :
    ClockQueue s' (l ++ [(p, b)]) where
  nodup := by
    rw [List.map_append]
    exact (List.perm_append_singleton p _).nodup_iff.mpr (List.nodup_cons.mpr ⟨hp, h.nodup⟩)
  hand := by rw [hhand, hmem]; exact h.hand
  pages := by
    rw [List.length_append, List.length_singleton, List.range_succ, List.map_append,
      List.map_append, h.pages, hhand, hmem]
    apply congrArg₂ (· ++ ·)
    · apply List.map_congr_left
      intro j hj
      exact (hpages j (List.mem_range.mp hj)).symm
    · simp [hpage]
  bits e he := by
    cases List.mem_append.mp he with
    | inl hl =>
      have hne : e.1 ≠ p := fun heq => hp (heq ▸ List.mem_map_of_mem hl)
      rw [hbits e.1 hne]
      exact h.bits e hl
    | inr hlast =>
      rw [List.mem_singleton.mp hlast]
      exact hbit.symm

/-- What a round of the loop does if the head of the queue has been referenced. -/
theorem skip (h : ClockQueue s ((p, true) :: l)) (hm : l.length + 1 = s.memsize) :
    ∃ s', (∀ fuel, clockEvict (fuel + 1) s = clockEvict fuel s') ∧ PolicyStep s s' ∧
      ClockQueue s' (l ++ [(p, false)]) ∧ s'.hand = s.hand % s.memsize + 1 ∧
      ∀ r, s'.entry r = if r = p then (s.entry p).clearRef else s.entry r := by
  obtain ⟨hpage, href⟩ := h.head
  have hwrap := wrapHand_policyStep s
  have hhand := wrapHand_hand h.hand
  have hentry : ∀ r, (wrapHand s).entry r = s.entry r := entry_wrapHand s
  let u := (wrapHand s).modifyEntry p fun e => e.flip PG_REF
  let s' := setHand u (u.hand + 1)
  have hstep : PolicyStep s s' := (hwrap.flipRef p).setAlg _
  have hentry' : ∀ r, s'.entry r = if r = p then (s.entry p).clearRef else s.entry r := by
    intro r
    change u.entry r = _
    rw [Sim.entry_modifyEntry, hentry, hentry, PgtblEntry.flip_eq_clearRef href]
  have hhand' : s'.hand = s.hand % s.memsize + 1 := congrArg (· + 1) hhand
  have htail : ClockQueue s' l := by
    apply h.tail (by omega) hstep.memsize hstep.page hhand'
    intro r hr
    rw [hentry', if_neg hr]
  refine ⟨s', ?_, hstep, ?_, hhand', hentry'⟩
  · intro fuel
    have hpte : ((wrapHand s).coremap (wrapHand s).hand).pte = some p := by
      rw [hwrap.pte, hhand]
      exact (Mapped.inUse_of_page hpage).2
    rw [clockEvict]
    simp only [hpte, hentry, href, if_true]
    rfl
  · refine htail.concat ?_ rfl rfl (fun _ _ => rfl) ?_ (fun _ _ => rfl) ?_
    · have hnodup := h.nodup
      rw [List.map_cons, List.nodup_cons] at hnodup
      exact hnodup.1
    · have hidx : s.hand % s.memsize + 1 + l.length = s.hand % s.memsize + s.memsize := by omega
      rw [hhand', hstep.memsize, hstep.page, hidx, Nat.add_mod_right, Nat.mod_mod]
      exact hpage
    · rw [hentry', if_pos rfl, PgtblEntry.ref_clearRef]

/-- What a round of the loop does if it has not. -/
theorem stop (h : ClockQueue s ((p, false) :: l)) (hM : Mapped none s) (hm : 0 < s.memsize) :
    ∃ s', (∀ fuel, clockEvict (fuel + 1) s = .ok (s.hand % s.memsize, s')) ∧ PolicyStep s s' ∧
      ClockQueue s' l ∧ s'.hand = s.hand % s.memsize + 1 ∧ ∀ r, s'.entry r = s.entry r := by
  obtain ⟨hpage, href⟩ := h.head
  have hwrap := wrapHand_policyStep s
  have hhand := wrapHand_hand h.hand
  have hentry : ∀ r, (wrapHand s).entry r = s.entry r := entry_wrapHand s
  let s' := setHand (wrapHand s) ((wrapHand s).hand + 1)
  have hstep : PolicyStep s s' := hwrap.setAlg _
  have hhand' : s'.hand = s.hand % s.memsize + 1 := congrArg (· + 1) hhand
  refine ⟨s', ?_, hstep, h.tail hm hstep.memsize hstep.page hhand' ?_, hhand', hentry⟩
  · intro fuel
    have hpte : ((wrapHand s).coremap (wrapHand s).hand).pte = some p := by
      rw [hwrap.pte, hhand]
      exact (Mapped.inUse_of_page hpage).2
    have hframe : (s'.entry p).frameNo = s.hand % s.memsize := by
      rw [show s'.entry p = s.entry p from hentry p]
      exact ((hM.backed _ p (by simp)).mp hpage).2
    rw [clockEvict]
    simp only [hpte, hentry, href]
    rw [← hframe]
    rfl
  · intro r _
    exact congrArg PgtblEntry.ref (hentry r)

end ClockQueue

/-! ## The loop -/

/-- A call of `clock_evict` that passes over `k` frames and stops at the next one: it takes one
round for each of them, clears the reference bit of the frames passed over and nothing else, and
returns the frame it stops at. -/
structure Sweep (s : Sim ClockHand φ) (k f : Nat) (s' : Sim ClockHand φ) : Prop where
  rounds : ∀ fuel, clockEvict fuel s = if k < fuel then .ok (f, s') else .error .outOfFuel
  frame : f = (s.hand + k) % s.memsize
  unreferenced : ∃ p, s.page f = some p ∧ (s'.entry p).ref = false
  skipped : ∀ j < k, ∃ p, s.page ((s.hand + j) % s.memsize) = some p ∧ (s.entry p).ref
  entry : ∀ p, s'.entry p =
    if ∃ j < k, s.page ((s.hand + j) % s.memsize) = some p then (s.entry p).clearRef
    else s.entry p
  keeps : PolicyStep s s'

namespace Sweep

/-- The loop that stops at once. -/
theorem zero (h : ClockQueue s ((p, false) :: l)) (hstep : PolicyStep s s')
    (hrounds : ∀ fuel, clockEvict (fuel + 1) s = .ok (s.hand % s.memsize, s'))
    (hentry : ∀ r, s'.entry r = s.entry r) : Sweep s 0 (s.hand % s.memsize) s' where
  rounds fuel := by
    cases fuel with
    | zero => rfl
    | succ fuel => rw [hrounds, if_pos (Nat.succ_pos fuel)]
  frame := rfl
  unreferenced := ⟨p, h.head.1, by rw [hentry]; exact h.head.2⟩
  skipped j hj := by omega
  entry r := by
    rw [if_neg (by rintro ⟨j, hj, _⟩; omega)]
    exact hentry r
  keeps := hstep

/-- The loop that passes over one more frame. -/
theorem succ (h : ClockQueue s ((p, true) :: l)) (hstep : PolicyStep s t)
    (hrounds : ∀ fuel, clockEvict (fuel + 1) s = clockEvict fuel t)
    (hhand : t.hand = s.hand % s.memsize + 1)
    (hentry : ∀ r, t.entry r = if r = p then (s.entry p).clearRef else s.entry r)
    (hsweep : Sweep t k f s') : Sweep s (k + 1) f s' := by
  have hidx : ∀ j, (t.hand + j) % t.memsize = (s.hand + (j + 1)) % s.memsize := by
    intro j
    rw [hhand, hstep.memsize, Nat.add_assoc, Nat.mod_add_mod, Nat.add_comm 1 j]
  have hpage : ∀ j, t.page ((t.hand + j) % t.memsize) =
      s.page ((s.hand + (j + 1)) % s.memsize) := by
    intro j
    rw [hidx, hstep.page]
  refine ⟨?_, ?_, ?_, ?_, ?_, hstep.trans hsweep.keeps⟩
  · intro fuel
    cases fuel with
    | zero => rfl
    | succ fuel =>
      rw [hrounds, hsweep.rounds]
      simp only [Nat.add_lt_add_iff_right]
  · rw [hsweep.frame, hidx]
  · rw [← hstep.page]
    exact hsweep.unreferenced
  · intro j hj
    cases j with
    | zero => exact ⟨p, h.head⟩
    | succ j =>
      obtain ⟨r, hr, href⟩ := hsweep.skipped j (by omega)
      refine ⟨r, (hpage j).symm.trans hr, ?_⟩
      rw [hentry] at href
      by_cases hrp : r = p
      · rw [hrp]
        exact h.head.2
      · rwa [if_neg hrp] at href
  · intro r
    have hiff : (∃ j < k + 1, s.page ((s.hand + j) % s.memsize) = some r) ↔
        p = r ∨ ∃ j < k, t.page ((t.hand + j) % t.memsize) = some r := by
      constructor
      · rintro ⟨j, hj, hr⟩
        cases j with
        | zero => exact .inl (Option.some.inj (h.head.1.symm.trans hr))
        | succ j => exact .inr ⟨j, by omega, (hpage j).trans hr⟩
      · rintro (rfl | ⟨j, hj, hr⟩)
        · exact ⟨0, by omega, h.head.1⟩
        · exact ⟨j + 1, by omega, (hpage j).symm.trans hr⟩
    rw [hsweep.entry, hentry]
    simp only [hiff]
    by_cases hrp : r = p
    · subst hrp
      simp
    · simp [hrp, Ne.symm hrp]

end Sweep

/-- The loop evicts the victim of the queue, within a round for each referenced page and one
more. -/
theorem ClockQueue.sweep (h : ClockQueue s l) (hM : Mapped none s) (hlen : l.length = s.memsize)
    (hm : 0 < s.memsize) :
    ∃ k f s' v l', k ≤ l.countP (·.2) ∧ Sweep s k f s' ∧ s.page f = some v ∧
      SecondChance.evict l = some (v, l') ∧ ClockQueue s' l' ∧ l'.length + 1 = s.memsize ∧
      f = (s'.hand + l'.length) % s.memsize := by
  induction l using SecondChance.evict.induct generalizing s with
  | case1 =>
    rw [← hlen] at hm
    cases hm
  | case2 p l =>
    obtain ⟨s', hrounds, hstep, hqueue, hhand, hentry⟩ := h.stop hM hm
    refine ⟨0, s.hand % s.memsize, s', p, l, Nat.zero_le _, .zero h hstep hrounds hentry,
      h.head.1, SecondChance.evict.eq_2 p l, hqueue, hlen, ?_⟩
    have hidx : s.hand % s.memsize + 1 + l.length = s.hand % s.memsize + s.memsize := by
      rw [← hlen, List.length_cons]
      omega
    rw [hhand, hidx, Nat.add_mod_right, Nat.mod_mod]
  | case3 p l ih =>
    obtain ⟨t, hrounds, hstep, hqueue, hhand, hentry⟩ := h.skip hlen
    obtain ⟨k, f, s', v, l', hk, hsweep, hpage, hevict, hqueue', hlen', hf⟩ :=
      ih hqueue (hstep.mapped hM) (by rw [hstep.memsize, ← hlen]; simp) (hstep.memsize ▸ hm)
    rw [hstep.page] at hpage
    rw [hstep.memsize] at hlen' hf
    refine ⟨k + 1, f, s', v, l', ?_, .succ h hstep hrounds hhand hentry hsweep, hpage, ?_, hqueue',
      hlen', hf⟩
    · simpa [List.countP_append, List.countP_cons] using hk
    · rw [SecondChance.evict]
      exact hevict

/-! ## Between accesses -/

/-- Between accesses the frames in use are the first ones; the hand moves only once they are all
frames. -/
structure ClockOrder (s : Sim ClockHand φ) (l : List (PtePtr × Bool)) : Prop where
  queue : ClockQueue s l
  length : l.length ≤ s.memsize
  start : l.length < s.memsize → s.hand = 0
  inUse : ∀ i, (s.page i).isSome ↔ i < l.length

namespace ClockOrder

variable {vaddr : Addr} {io : FileOps φ}

theorem initSecondLevel (h : ClockOrder s l) (idx : Nat) :
    ClockOrder (Paging.initSecondLevel idx s) l := by
  have hhand : (Paging.initSecondLevel idx s).hand = s.hand := by simp [Sim.hand]
  have hpage : (Paging.initSecondLevel idx s).page = s.page := by
    funext i
    simp [Sim.page]
  refine ⟨⟨h.queue.nodup, ?_, ?_, ?_⟩, ?_, ?_, ?_⟩
  · rw [hhand, Sim.memsize_initSecondLevel]
    exact h.queue.hand
  · rw [hhand, Sim.memsize_initSecondLevel, hpage]
    exact h.queue.pages
  · simpa using h.queue.bits
  · simpa using h.length
  · rw [hhand, Sim.memsize_initSecondLevel]
    exact h.start
  · rw [hpage]
    exact h.inUse

/-- The pages of the queue are those in memory. -/
theorem mem_iff (h : ClockOrder s l) : p ∈ l.map Prod.fst ↔ ∃ i, s.page i = some p := by
  have hmem : p ∈ l.map Prod.fst ↔ some p ∈ l.map fun e => some e.1 := by simp
  rw [hmem, h.queue.pages, List.mem_map]
  constructor
  · rintro ⟨j, _, hj⟩
    exact ⟨_, hj⟩
  · rintro ⟨i, hi⟩
    have hlt : i < l.length := (h.inUse i).mp (by rw [hi]; rfl)
    have hlen := h.length
    have hhand := h.queue.hand
    have hstart := h.start
    rcases Nat.lt_or_ge i s.hand with hback | hfront
    · refine ⟨i + s.memsize - s.hand, List.mem_range.mpr (by omega), ?_⟩
      have hidx : s.hand + (i + s.memsize - s.hand) = i + s.memsize := by omega
      rw [hidx, Nat.add_mod_right, Nat.mod_eq_of_lt (by omega)]
      exact hi
    · refine ⟨i - s.hand, List.mem_range.mpr (by omega), ?_⟩
      have hidx : s.hand + (i - s.hand) = i := by omega
      rw [hidx, Nat.mod_eq_of_lt (by omega)]
      exact hi

theorem mem_iff_valid (h : ClockOrder s l) (hM : Mapped none s) :
    p ∈ l.map Prod.fst ↔ (s.entry p).valid := by
  rw [h.mem_iff, hM.valid_iff]

/-- When memory is full the queue is as long as the coremap. -/
theorem full (h : ClockOrder s l) (hM : Mapped none s) (hm : 1 ≤ s.memsize)
    (hfree : findFree s = none) : l.length = s.memsize := by
  have hlast := (hM.inUse_iff (s.memsize - 1)).mp
    (findFree_eq_none.mp hfree (s.memsize - 1) (by omega))
  have hlt := (h.inUse _).mp hlast
  have hlen := h.length
  omega

/-- A reference to a page in memory marks it. -/
theorem hit (h : ClockOrder s l) (ht : Arrived p f s t) (hpage : s.page f = some p) :
    ClockOrder t (SecondChance.mark p l) := by
  have hpages : t.page = s.page := by rw [ht.page, ← hpage, Function.update_eq_self]
  have hhand : t.hand = s.hand := congrArg ClockHand.clockHand ht.alg
  have hfst : ∀ l' : List (PtePtr × Bool), l'.map (fun e => some e.1) =
      (l'.map Prod.fst).map some := by simp
  refine ⟨⟨?_, ?_, ?_, ?_⟩, ?_, ?_, ?_⟩
  · rw [SecondChance.map_fst_mark]
    exact h.queue.nodup
  · rw [hhand, ht.memsize]
    exact h.queue.hand
  · rw [hfst, SecondChance.map_fst_mark, ← hfst, SecondChance.length_mark, hhand, hpages,
      ht.memsize]
    exact h.queue.pages
  · intro e he
    obtain ⟨e₀, he₀, rfl⟩ := List.mem_map.mp he
    by_cases hp : e₀.1 = p
    · rw [if_pos hp]
      exact ht.ref_self.symm
    · rw [if_neg hp, ht.ref _ hp]
      exact h.queue.bits e₀ he₀
  · rw [SecondChance.length_mark, ht.memsize]
    exact h.length
  · rw [SecondChance.length_mark, ht.memsize, hhand]
    exact h.start
  · rw [SecondChance.length_mark, hpages]
    exact h.inUse

/-- A page that is loaded into a free frame goes to the end of the queue. -/
theorem free (h : ClockOrder s l) (ht : Arrived p f s t) (hp : p ∉ l.map Prod.fst)
    (hf : f = l.length) : ClockOrder t (l ++ [(p, true)]) := by
  have hlt : l.length < s.memsize := hf ▸ ht.lt
  have hhand : t.hand = s.hand := congrArg ClockHand.clockHand ht.alg
  have hidx : ∀ j ≤ l.length, (s.hand + j) % s.memsize = j := by
    intro j hj
    rw [h.start hlt, Nat.zero_add, Nat.mod_eq_of_lt (by omega)]
  refine ⟨h.queue.concat hp ht.memsize hhand ?_ ?_ ht.ref ht.ref_self, ?_, ?_, ?_⟩
  · intro j hj
    rw [hidx j (by omega), ht.page, Function.update_of_ne (by omega)]
  · rw [hidx _ le_rfl, ← hf]
    exact ht.page_self
  · rw [List.length_append, List.length_singleton, ht.memsize]
    exact hlt
  · intro _
    rw [hhand]
    exact h.start hlt
  · intro i
    rw [ht.inUse_iff, h.inUse, List.length_append, List.length_singleton]
    omega

/-- The page that replaces the victim goes to the end of the queue. -/
theorem evicted {l' : List (PtePtr × Bool)} {s₁ : Sim ClockHand φ} (h : ClockOrder s l)
    (hstep : PolicyStep s s₁) (hqueue : ClockQueue s₁ l') (hlen : l.length = s.memsize)
    (hlen' : l'.length + 1 = s.memsize) (hf : f = (s₁.hand + l'.length) % s.memsize)
    (ht : Arrived p f s₁ t) (hp : p ∉ l'.map Prod.fst) : ClockOrder t (l' ++ [(p, true)]) := by
  have hhand : t.hand = s₁.hand := congrArg ClockHand.clockHand ht.alg
  have hmem : s₁.memsize = s.memsize := hstep.memsize
  refine ⟨hqueue.concat hp ht.memsize hhand ?_ ?_ ht.ref ht.ref_self, ?_, ?_, ?_⟩
  · intro j hj
    have hne : (s₁.hand + j) % s₁.memsize ≠ f := by
      rw [hf, hmem]
      exact Ring.slot_ne hj (by omega)
    rw [ht.page, Function.update_of_ne hne]
  · rw [hmem, ← hf]
    exact ht.page_self
  · rw [List.length_append, List.length_singleton, hlen', ht.memsize, hmem]
  · intro hlt
    rw [List.length_append, List.length_singleton, hlen', ht.memsize, hmem] at hlt
    omega
  · intro i
    have hfm : f < s.memsize := hmem ▸ ht.lt
    rw [ht.inUse_iff, hstep.page, h.inUse, List.length_append, List.length_singleton, hlen',
      hlen]
    omega

end ClockOrder

/-! ## Runs -/

/-- The page that an access evicts, if it does. -/
def victim (fuel : Nat) (a : Access) (s : Sim ClockHand φ) : List PtePtr :=
  match evictCall a.vaddr s with
  | none => []
  | some t =>
    match clockEvict fuel t with
    | .ok (f, _) => (t.page f).toList
    | .error _ => []

/-- The pages evicted in the course of a run, in this order. -/
def victims (fuel : Nat) (io : FileOps φ) (m swapsize : Nat) (physmem : Memory) (fd : φ)
    (trace : List Access) : List PtePtr :=
  observe (clock fuel) io m swapsize physmem fd .zero (victim fuel) trace

theorem victim_of_none {a : Access} (h : evictCall a.vaddr s = none) : victim fuel a s = [] := by
  rw [victim, h]

theorem victim_of_evict {a : Access} (h : evictCall a.vaddr s = some t)
    (hevict : clockEvict fuel t = .ok (f, s')) (hpage : t.page f = some p) :
    victim fuel a s = [p] := by
  simp only [victim, h, hevict, hpage, Option.toList_some]

/-- Every access does to the queue what a use of its page does, with the same victim. -/
theorem accessCases_clock (io : FileOps φ) {a : Access} (h : ClockOrder s l) (hM : Mapped none s)
    (hm : 1 ≤ s.memsize) (hfuel : s.memsize < fuel) (hdir : pgdirIndex a.vaddr < PTRS_PER_PGDIR) :
    AccessCases (clock fuel) io a.vaddr
      (fun s' => ClockOrder s' (SecondChance.use s.memsize l (pteOf a.vaddr)).2 ∧
        victim fuel a s = (SecondChance.use s.memsize l (pteOf a.vaddr)).1) s where
  hit hvalid t ht _ := by
    have hcall : evictCall a.vaddr s = none := by simp [evictCall, hvalid]
    rw [SecondChance.use_mem ((h.mem_iff_valid hM).mpr hvalid), victim_of_none hcall]
    exact ⟨t, rfl, h.hit ht (hM.page_frameNo hvalid), rfl⟩
  free hvalid f t hfree ht _ := by
    have hcall : evictCall a.vaddr s = none := by simp [evictCall, hfree]
    have hp : pteOf a.vaddr ∉ l.map Prod.fst := by simp [h.mem_iff_valid hM, hvalid]
    obtain ⟨hlt, hunused, hbelow⟩ := findFree_eq_some.mp hfree
    have hf : f = l.length := by
      have hge : ¬f < l.length := by
        rw [← h.inUse, ← hM.inUse_iff, hunused]
        decide
      rcases Nat.lt_or_ge l.length f with hgt | hle
      · have hin := (h.inUse _).mp ((hM.inUse_iff _).mp (hbelow l.length hgt))
        omega
      · omega
    rw [SecondChance.use_room hp (hf ▸ hlt), victim_of_none hcall]
    exact ⟨t, rfl, h.free ht hp hf, rfl⟩
  evict hvalid hfree := by
    have hcall : evictCall a.vaddr s = some (Paging.initSecondLevel (pgdirIndex a.vaddr) s) :=
      evictCall_eq_some.mpr ⟨⟨hdir, hvalid, hfree⟩, rfl⟩
    have hp : pteOf a.vaddr ∉ l.map Prod.fst := by simp [h.mem_iff_valid hM, hvalid]
    have hM₀ := mapped_initSecondLevel hM (pgdirIndex a.vaddr)
    have h₀ := h.initSecondLevel (pgdirIndex a.vaddr)
    have hlen := h.full hM hm hfree
    have hmem := Sim.memsize_initSecondLevel (s := s) (pgdirIndex a.vaddr)
    obtain ⟨k, f, s₁, v, l', hk, hsweep, hpage, hevict, hqueue, hlen', hf⟩ :=
      h₀.queue.sweep hM₀ (hlen.trans hmem.symm) (by rw [hmem]; exact hm)
    have hkf : k < fuel := by
      have hcount : l.countP (·.2) ≤ l.length := List.countP_le_length
      omega
    have hclock := hsweep.rounds fuel
    rw [if_pos hkf] at hclock
    have hp' : pteOf a.vaddr ∉ l'.map Prod.fst := fun hin =>
      hp ((SecondChance.evict_perm hevict).mem_iff.mp (List.mem_cons_of_mem v hin))
    rw [SecondChance.use_full hp hlen.ge hevict, victim_of_evict hcall hclock hpage]
    refine ⟨f, s₁, hclock, ?_, ?_⟩
    · rw [hf, hmem]
      exact Nat.mod_lt _ hm
    · intro t ht _
      exact ⟨t, rfl, h₀.evicted hsweep.keeps hqueue (hlen.trans hmem.symm) hlen' hf ht hp', rfl⟩

/-- A run has the second-chance queue of the pages referenced and has evicted the pages that the
queue evicts, and faults at most at an address past the page directory. -/
theorem clock_runs (io : FileOps φ) {m swapsize fuel : Nat} (hm : 1 ≤ m ∧ m ≤ 2 ^ 20)
    (hswap : swapsize < 2 ^ 32) (hfuel : m < fuel) (physmem : Memory) (fd : φ)
    (trace : List Access) :
    (∃ s, simulate (clock fuel) io m swapsize physmem fd .zero trace = .ok s ∧ Mapped none s ∧
      s.memsize = m ∧ ClockOrder s (SecondChance.run m (references trace)).2 ∧
      victims fuel io m swapsize physmem fd trace =
        (SecondChance.run m (references trace)).1) ∨
    (simulate (clock fuel) io m swapsize physmem fd .zero trace = .error .outOfBounds ∧
      ∃ a ∈ trace, ¬pgdirIndex a.vaddr < PTRS_PER_PGDIR) := by
  refine simulate_sound io
    (J := fun as s => ClockOrder s (SecondChance.run m (references as)).2 ∧
      victims fuel io m swapsize physmem fd as = (SecondChance.run m (references as)).1)
    physmem fd ClockHand.zero clock_respectful hm.2 hswap ?_ ?_ ?_ trace
  · intro bm _ _
    refine ⟨⟨⟨List.nodup_nil, Nat.zero_le _, rfl, ?_⟩, Nat.zero_le _, fun _ => rfl, ?_⟩,
      observe_nil⟩
    · intro e he
      cases he
    · intro i
      simp [Sim.page, Sim.zero, Frame.zero, clock, clockInit, setHand, Sim.setAlg, references,
        SecondChance.run]
  · rintro as a s hs hM hmem ⟨hJ, hvictims⟩ hdir
    have hout : victims fuel io m swapsize physmem fd (as ++ [a]) =
        victims fuel io m swapsize physmem fd as ++ victim fuel a s := observe_concat hs a
    rw [references_concat, SecondChance.run_concat, hout, hvictims, List.append_right_inj, ← hmem]
    exact accessCases_clock io (hmem ▸ hJ) hM (hmem ▸ hm.1) (hmem ▸ hfuel) hdir
  · rintro as s physmem' stderr ⟨hJ, hvictims⟩
    refine ⟨⟨⟨hJ.queue.nodup, hJ.queue.hand, hJ.queue.pages, hJ.queue.bits⟩, hJ.length, hJ.start,
      hJ.inUse⟩, hvictims⟩

/-- In a run over addresses of 36 bits the algorithm answers each of its calls. -/
theorem clock_answers (io : FileOps φ) {m swapsize fuel : Nat} (hm : 1 ≤ m ∧ m ≤ 2 ^ 20)
    (hswap : swapsize < 2 ^ 32) (hfuel : m < fuel) (physmem : Memory) (fd : φ)
    {trace : List Access} (hrange : ∀ a ∈ trace, a.vaddr.toNat < 2 ^ 36) :
    (clock fuel : Functions ClockHand φ).Answers io m swapsize physmem fd .zero trace := by
  obtain ⟨s, hs, _⟩ := ends_of_range hrange (clock_runs io hm hswap hfuel physmem fd trace)
  exact clock_respectful.answers_of_simulate hm.2 hswap ⟨s, hs⟩

/-- The algorithm is second-chance FIFO. A run evicts the pages that the second-chance queue
evicts for the pages referenced, and faults at most at an address past the page directory.
Wherever it gets to, if the next access has to evict, the call passes over at most as many frames
as there are and stops at the next one. The loop never needs more fuel than that. -/
theorem simulate_clock (io : FileOps φ) {m swapsize fuel : Nat} (hm : 1 ≤ m ∧ m ≤ 2 ^ 20)
    (hswap : swapsize < 2 ^ 32) (hfuel : m < fuel) (physmem : Memory) (fd : φ)
    (trace : List Access) :
    (∃ s, simulate (clock fuel) io m swapsize physmem fd .zero trace = .ok s ∧
      victims fuel io m swapsize physmem fd trace =
        (SecondChance.run m (references trace)).1 ∧
      ∀ vaddr t, evictCall vaddr s = some t → ∃ k f t', k ≤ m ∧ Sweep t k f t') ∨
    (simulate (clock fuel) io m swapsize physmem fd .zero trace = .error .outOfBounds ∧
      ∃ a ∈ trace, ¬pgdirIndex a.vaddr < PTRS_PER_PGDIR) := by
  apply (clock_runs io hm hswap hfuel physmem fd trace).imp_left
  rintro ⟨s, hs, hM, hmem, hJ, hvictims⟩
  refine ⟨s, hs, hvictims, ?_⟩
  intro vaddr t ht
  obtain ⟨⟨_, _, hfree⟩, rfl⟩ := evictCall_eq_some.mp ht
  have hlen := hJ.full hM (hmem ▸ hm.1) hfree
  have hmem₀ := Sim.memsize_initSecondLevel (s := s) (pgdirIndex vaddr)
  obtain ⟨k, f, t', _, _, hk, hsweep, _⟩ := (hJ.initSecondLevel (pgdirIndex vaddr)).queue.sweep
    (mapped_initSecondLevel hM _) (hlen.trans hmem₀.symm) (by rw [hmem₀, hmem]; exact hm.1)
  refine ⟨k, f, t', ?_, hsweep⟩
  exact hk.trans (List.countP_le_length.trans (hlen.trans hmem).le)

/-- Two frames: at the first eviction both pages are marked, so the hand goes round once. -/
theorem simulate_clock_two :
    ∃ s, simulate (clock 3) regularFile.toFileOps 2 4 (fun _ => 0) .empty .zero
        [⟨'L', 0x1000⟩, ⟨'S', 0x2000⟩, ⟨'L', 0x3000⟩] = .ok s ∧
      victims 3 regularFile.toFileOps 2 4 (fun _ => 0) .empty
          [⟨'L', 0x1000⟩, ⟨'S', 0x2000⟩, ⟨'L', 0x3000⟩] =
        (SecondChance.run 2 (references [⟨'L', 0x1000⟩, ⟨'S', 0x2000⟩, ⟨'L', 0x3000⟩])).1 ∧
      ∀ vaddr t, evictCall vaddr s = some t → ∃ k f t', k ≤ 2 ∧ Sweep t k f t' :=
  (simulate_clock regularFile.toFileOps (by decide) (by decide) (by decide) _ _ _).resolve_right
    fun ⟨_, a, ha, hdir⟩ => hdir ((by decide : ∀ a ∈ [Access.mk 'L' 0x1000, ⟨'S', 0x2000⟩,
      ⟨'L', 0x3000⟩], pgdirIndex a.vaddr < PTRS_PER_PGDIR) a ha)

end Paging

-- SUMMARY: The fifo replacement algorithm is exact FIFO: its queue holds the frames in the order in which their pages were loaded.
import OperatingSystems.Paging.Course
import OperatingSystems.Paging.Policy
import OperatingSystems.Paging.SwapFile

/-!
# First in, first out

`fifo_ref` enqueues a frame whose `frame_above` is not set. That is true of the youngest frame of
the queue as well, so referencing it again links it to itself; the next frame enqueued overwrites
that link. With a single frame in memory the link survives, and `fifo_evict` follows it.
-/

namespace Paging

open Library Library.Run

/-! ## The code -/

/-- The globals of `fifo.c`. -/
structure FifoEnds where
  youngestf : Option Nat
  oldestf : Option Nat

def FifoEnds.zero : FifoEnds := { youngestf := none, oldestf := none }

variable {φ : Type}

def setYoungest (s : Sim FifoEnds φ) (node : Option Nat) : Sim FifoEnds φ :=
  s.setAlg { s.alg with youngestf := node }

def setOldest (s : Sim FifoEnds φ) (node : Option Nat) : Sim FifoEnds φ :=
  s.setAlg { s.alg with oldestf := node }

/-- `fifo_evict`. -/
def fifoEvict (s : Sim FifoEnds φ) : Except Fault (Nat × Sim FifoEnds φ) :=
  match s.alg.oldestf with
  | none => .error .nullPointer
  | some evicVictim =>
    let s := match s.above evicVictim with
      | some next => setOldest s (some next)
      | none => setOldest s none
    let s := s.setAbove evicVictim none
    match (s.coremap evicVictim).pte with
    | none => .error .nullPointer
    | some p => .ok ((s.entry p).frameNo, s)

/-- `fifo_ref`. Adding the distance of two frames to the one gives the other. -/
def fifoRef (p : PtePtr) (s : Sim FifoEnds φ) : Except Fault (Sim FifoEnds φ) :=
  let latest := (s.entry p).frameNo
  match s.above latest with
  -- Linked, so in the queue already.
  | some _ => .ok s
  | none =>
    match s.alg.oldestf with
    | none =>
      let s := setOldest s (some latest)
      .ok (s.setAbove latest none)
    | some oldest =>
      match s.alg.youngestf with
      | none =>
        -- The second frame, or the first one once more, which is then linked to itself.
        let s := setYoungest s (some latest)
        .ok (s.setAbove oldest (some latest))
      | some youngest =>
        let fOffset : Int := (latest : Int) - (youngest : Int)
        let s := s.setAbove youngest (some ((youngest : Int) + fOffset).toNat)
        .ok (setYoungest s (some latest))

/-- The algorithm under the name `fifo`. -/
def fifo : Functions FifoEnds φ := { init := id, ref := fifoRef, evict := fifoEvict }

variable {s s' t : Sim FifoEnds φ} {p q : PtePtr} {f i x : Nat} {Q : List Nat}

/-! ## What it leaves alone -/

theorem fifoEvict_policyStep (h : fifoEvict s = .ok (f, s')) : PolicyStep s s' := by
  unfold fifoEvict at h
  split at h
  · cases h
  · simp only at h
    split at h
    · cases h
    · cases h
      split
      · exact ((PolicyStep.refl s).setAlg _).setAbove _ _
      · exact ((PolicyStep.refl s).setAlg _).setAbove _ _

theorem fifoRef_policyStep (h : fifoRef p s = .ok s') : PolicyStep s s' := by
  unfold fifoRef at h
  simp only at h
  split at h
  · cases h
    exact .refl s
  · split at h
    · cases h
      exact ((PolicyStep.refl s).setAlg _).setAbove _ _
    · split at h
      · cases h
        exact ((PolicyStep.refl s).setAlg _).setAbove _ _
      · cases h
        exact ((PolicyStep.refl s).setAbove _ _).setAlg _

theorem fifo_respectful : (fifo : Functions FifoEnds φ).Respectful where
  init s := .refl s
  ref _ _ _ := fifoRef_policyStep
  evict _ _ _ := fifoEvict_policyStep

/-! ## The queue -/

/-- The queue kept in the links, oldest first. The youngest frame may be linked to itself. -/
structure FifoQueue (s : Sim FifoEnds φ) (Q : List Nat) : Prop where
  nodup : Q.Nodup
  links : Q.IsChain fun i j => s.above i = some j
  last : ∀ y, Q.getLast? = some y → s.above y = none ∨ s.above y = some y
  unlinked : ∀ i, i ∉ Q → s.above i = none
  oldest : s.alg.oldestf = Q.head?
  youngest : s.alg.youngestf = Q.getLast? ∨ s.alg.youngestf = none ∧ Q.length ≤ 1

/-- The queue when a frame outside of it is about to be enqueued. The frame may be the only one
and just evicted; then the globals may still point to it. -/
structure FifoWaits (s : Sim FifoEnds φ) (x : Nat) (Q : List Nat) : Prop where
  fresh : x ∉ Q
  nodup : Q.Nodup
  links : Q.IsChain fun i j => s.above i = some j
  unlinked : ∀ i, i ∉ Q → s.above i = none
  oldest : s.alg.oldestf = Q.head? ∨ s.alg.oldestf = some x ∧ Q = []
  youngest : s.alg.youngestf = Q.getLast? ∨ s.alg.youngestf = none ∧ Q.length ≤ 1 ∨
    s.alg.youngestf = some x ∧ Q = []

namespace FifoQueue

theorem congr (h : FifoQueue s Q) (habove : t.above = s.above) (halg : t.alg = s.alg) :
    FifoQueue t Q where
  nodup := h.nodup
  links := by rw [habove]; exact h.links
  last := by rw [habove]; exact h.last
  unlinked := by rw [habove]; exact h.unlinked
  oldest := by rw [halg]; exact h.oldest
  youngest := by rw [halg]; exact h.youngest

/-- A frame that is free. -/
theorem waits (h : FifoQueue s Q) (hx : x ∉ Q) : FifoWaits s x Q where
  fresh := hx
  nodup := h.nodup
  links := h.links
  unlinked := h.unlinked
  oldest := .inl h.oldest
  youngest := h.youngest.imp_right .inl

end FifoQueue

namespace FifoWaits

/-- What enqueueing a frame behind others comes to. -/
theorem linked {y : Nat} (h : FifoWaits s x Q) (hy : Q.getLast? = some y)
    (habove : s'.above = Function.update s.above y (some x))
    (halg : s'.alg = { youngestf := some x, oldestf := Q.head? }) : FifoQueue s' (Q ++ [x]) := by
  have hxy : x ≠ y := fun heq => h.fresh (heq ▸ List.mem_of_getLast? hy)
  refine ⟨?_, ?_, ?_, ?_, ?_, ?_⟩
  · exact List.nodup_append.mpr ⟨h.nodup, List.nodup_singleton x, fun a ha b hb heq =>
      h.fresh (by rw [← List.mem_singleton.mp hb, ← heq]; exact ha)⟩
  · rw [habove]
    refine List.isChain_append.mpr ⟨isChain_update_last h.links h.nodup hy (some x),
      .singleton x, ?_⟩
    intro a ha b hb
    rw [hy] at ha
    cases ha
    cases hb
    exact Function.update_self _ _ _
  · intro z hz
    rw [List.getLast?_concat] at hz
    cases hz
    rw [habove, Function.update_of_ne hxy]
    exact .inl (h.unlinked x h.fresh)
  · intro j hj
    obtain ⟨hjQ, hjx⟩ : j ∉ Q ∧ j ≠ x := by simpa using hj
    have hjy : j ≠ y := fun heq => hjQ (heq ▸ List.mem_of_getLast? hy)
    rw [habove, Function.update_of_ne hjy]
    exact h.unlinked j hjQ
  · rw [halg, List.head?_append]
    cases Q with
    | nil => cases hy
    | cons o Q => rfl
  · rw [halg, List.getLast?_concat]
    exact .inl rfl

/-- What enqueueing the only frame comes to. -/
theorem alone (h : FifoWaits s x []) (hself : s'.above x = none ∨ s'.above x = some x)
    (habove : ∀ i, i ≠ x → s'.above i = s.above i) (hold : s'.alg.oldestf = some x)
    (hyoung : s'.alg.youngestf = none ∨ s'.alg.youngestf = some x) : FifoQueue s' [x] where
  nodup := List.nodup_singleton x
  links := .singleton x
  last y hy := by
    cases hy
    exact hself
  unlinked i hi := by
    rw [habove i (by simpa using hi)]
    exact h.unlinked i (by simp)
  oldest := hold
  youngest := by
    cases hyoung with
    | inl hnone => exact .inr ⟨hnone, by simp⟩
    | inr hx => exact .inl hx

/-- `fifo_ref` puts the frame at the end of the queue. -/
theorem ref (h : FifoWaits s x Q) (hx : (s.entry p).frameNo = x) :
    ∃ s', fifoRef p s = .ok s' ∧ FifoQueue s' (Q ++ [x]) := by
  have hlink : s.above x = none := h.unlinked x h.fresh
  have hdist : ∀ y : Nat, ((y : Int) + ((x : Int) - (y : Int))).toNat = x := by omega
  cases Q with
  | nil =>
    have hyoung : s.alg.youngestf = none ∨ s.alg.youngestf = some x := by
      rcases h.youngest with hnone | ⟨hnone, _⟩ | ⟨hyoung, _⟩
      · exact .inl hnone
      · exact .inl hnone
      · exact .inr hyoung
    -- The only frame. If it was evicted with a link to itself, the globals still name it.
    rcases h.oldest with hold | ⟨hold, _⟩
    · refine ⟨(setOldest s (some x)).setAbove x none, ?_, h.alone ?_ ?_ rfl hyoung⟩
      · have hold' : s.alg.oldestf = none := hold
        simp only [fifoRef, hx, hlink, hold']
      · simp
      · intro i hi
        simp [setOldest, hi]
    · cases hyoung with
      | inl hyoung =>
        refine ⟨(setYoungest s (some x)).setAbove x (some x), ?_, h.alone ?_ ?_ hold (.inr rfl)⟩
        · simp only [fifoRef, hx, hlink, hold, hyoung]
        · simp
        · intro i hi
          simp [setYoungest, hi]
      | inr hyoung =>
        refine ⟨setYoungest (s.setAbove x (some x)) (some x), ?_, h.alone ?_ ?_ hold (.inr rfl)⟩
        · simp only [fifoRef, hx, hlink, hold, hyoung, hdist]
        · simp [setYoungest]
        · intro i hi
          simp [setYoungest, hi]
  | cons o Q =>
    have hold : s.alg.oldestf = some o := h.oldest.resolve_right fun hno => by cases hno.2
    obtain ⟨y, hy⟩ : ∃ y, (o :: Q).getLast? = some y := ⟨_, List.getLast?_cons⟩
    -- There is a youngest frame `y` to link from, also if `youngestf` is not set yet.
    rcases h.youngest with hyoung | ⟨hyoung, hlen⟩ | ⟨_, hno⟩
    · rw [hy] at hyoung
      refine ⟨setYoungest (s.setAbove y (some x)) (some x), ?_, h.linked hy ?_ ?_⟩
      · simp only [fifoRef, hx, hlink, hold, hyoung, hdist]
      · simp [setYoungest]
      · simp [setYoungest, hold]
    · obtain rfl : Q = [] := by simpa using hlen
      refine ⟨(setYoungest s (some x)).setAbove o (some x), ?_, h.linked (y := o) rfl ?_ ?_⟩
      · simp only [fifoRef, hx, hlink, hold, hyoung]
      · simp [setYoungest]
      · simp [setYoungest, hold]
    · cases hno

end FifoWaits

namespace FifoQueue

/-- Only the youngest frame of the queue can lack a link. -/
theorem getLast?_of_unlinked (h : FifoQueue s Q) (hmem : x ∈ Q) (hlink : s.above x = none) :
    Q.getLast? = some x := by
  obtain ⟨A, B, rfl⟩ := List.append_of_mem hmem
  cases B with
  | nil => exact List.getLast?_concat
  | cons y B =>
    have hnext := (List.isChain_append_cons_cons.mp h.links).2.1
    rw [hlink] at hnext
    cases hnext

/-- The youngest frame gets linked to itself. -/
theorem looped (h : FifoQueue s Q) (hlast : Q.getLast? = some x)
    (habove : s'.above = Function.update s.above x (some x))
    (halg : s'.alg = { youngestf := some x, oldestf := s.alg.oldestf }) : FifoQueue s' Q where
  nodup := h.nodup
  links := by
    rw [habove]
    exact isChain_update_last h.links h.nodup hlast (some x)
  last y hy := by
    rw [hlast] at hy
    cases hy
    rw [habove, Function.update_self]
    exact .inr rfl
  unlinked i hi := by
    have hix : i ≠ x := fun heq => hi (heq ▸ List.mem_of_getLast? hlast)
    rw [habove, Function.update_of_ne hix]
    exact h.unlinked i hi
  oldest := by rw [halg]; exact h.oldest
  youngest := by rw [halg]; exact .inl hlast.symm

/-- A reference to a frame of the queue keeps the queue. -/
theorem ref (h : FifoQueue s Q) (hx : (s.entry p).frameNo = x) (hmem : x ∈ Q) :
    ∃ s', fifoRef p s = .ok s' ∧ FifoQueue s' Q := by
  cases hlink : s.above x with
  | some j =>
    refine ⟨s, ?_, h⟩
    simp only [fifoRef, hx, hlink]
  | none =>
    -- A frame of the queue without a link is the youngest, and is enqueued behind itself.
    have hlast := h.getLast?_of_unlinked hmem hlink
    rcases h.youngest with hyoung | ⟨hyoung, hlen⟩
    · obtain ⟨o, hold⟩ : ∃ o, s.alg.oldestf = some o := by
        rw [h.oldest]
        exact Option.isSome_iff_exists.mp (List.isSome_head?.mpr (List.ne_nil_of_mem hmem))
      rw [hlast] at hyoung
      have hdist : ((x : Int) + ((x : Int) - (x : Int))).toNat = x := by omega
      refine ⟨setYoungest (s.setAbove x (some x)) (some x), ?_, h.looped hlast ?_ ?_⟩
      · simp only [fifoRef, hx, hlink, hold, hyoung, hdist]
      · simp [setYoungest]
      · simp [setYoungest]
    · obtain rfl : Q = [x] := by
        match Q, hmem, hlen with
        | [_], hmem, _ => rw [List.mem_singleton.mp hmem]
      have hold : s.alg.oldestf = some x := h.oldest
      refine ⟨(setYoungest s (some x)).setAbove x (some x), ?_, h.looped hlast ?_ ?_⟩
      · simp only [fifoRef, hx, hlink, hold, hyoung]
      · simp [setYoungest]
      · simp [setYoungest]

/-- The oldest frame leaves the queue. If it was the only one and linked to itself, the globals
still point to it. -/
theorem evict (h : FifoQueue s (x :: Q)) (hpte : (s.coremap x).pte = some q)
    (hq : (s.entry q).frameNo = x) :
    ∃ s', fifoEvict s = .ok (x, s') ∧ FifoWaits s' x Q := by
  obtain ⟨hfresh, hnodup⟩ := List.nodup_cons.mp h.nodup
  have hold : s.alg.oldestf = some x := h.oldest
  let s' := (setOldest s (s.above x)).setAbove x none
  have hevict : fifoEvict s = .ok (x, s') := by
    have hkeep : PolicyStep s s' := ((PolicyStep.refl s).setAlg _).setAbove _ _
    have hpte' : (s'.coremap x).pte = some q := (hkeep.pte x).trans hpte
    have hq' : (s'.entry q).frameNo = x := hq
    have hset : (match s.above x with
        | some next => setOldest s (some next)
        | none => setOldest s none) = setOldest s (s.above x) := by
      cases s.above x <;> rfl
    unfold fifoEvict
    simp only [hold, hset]
    rw [hpte']
    simp only
    rw [hq']
  have habove : s'.above = Function.update s.above x none := by simp [s', setOldest]
  refine ⟨s', hevict, hfresh, hnodup, ?_, ?_, ?_, ?_⟩
  · apply h.links.tail.imp_of_mem_imp
    intro a b ha _ hlink
    have hax : a ≠ x := fun heq => hfresh (heq ▸ ha)
    rw [habove, Function.update_of_ne hax]
    exact hlink
  · intro i hi
    rw [habove]
    by_cases hix : i = x
    · subst hix
      exact Function.update_self _ _ _
    · rw [Function.update_of_ne hix]
      exact h.unlinked i (by simp [hi, hix])
  · cases Q with
    | nil =>
      -- A link of the youngest frame to itself is what `oldestf` follows here.
      cases h.last x rfl with
      | inl hnone => exact .inl hnone
      | inr hself => exact .inr ⟨hself, rfl⟩
    | cons y Q => exact .inl (List.isChain_cons_cons.mp h.links).1
  · cases Q with
    | nil =>
      rcases h.youngest with hyoung | ⟨hyoung, _⟩
      · exact .inr (.inr ⟨hyoung, rfl⟩)
      · exact .inl hyoung
    | cons y Q =>
      rcases h.youngest with hyoung | ⟨_, hlen⟩
      · exact .inl (hyoung.trans List.getLast?_cons_cons)
      · simp at hlen

end FifoQueue

/-! ## The order -/

/-- The frames in use, from the one whose page was loaded first to the one loaded last. -/
structure LoadOrder (history : List PtePtr) (s : Sim FifoEnds φ) (Q : List Nat) : Prop where
  mem : ∀ i, i ∈ Q ↔ (s.coremap i).inUse
  sorted : Q.Pairwise fun i j => frameAge history s j < frameAge history s i

/-- Between accesses the queue of the links has the frames in use in this order. -/
structure FifoOrder (history : List PtePtr) (s : Sim FifoEnds φ) (Q : List Nat) : Prop where
  queue : FifoQueue s Q
  mem : ∀ i, i ∈ Q ↔ (s.page i).isSome
  sorted : Q.Pairwise fun i j => frameAge history s j < frameAge history s i

variable {history : List PtePtr} {vaddr : Addr} {s₁ : Sim FifoEnds φ}

/-- A loaded page goes to the end of the queue. -/
theorem FifoWaits.load (h : FifoWaits s₁ x Q) (ht : Arrived p x s₁ t)
    (hmem : ∀ i, i ∈ Q ∨ i = x ↔ (s₁.page i).isSome ∨ i = x)
    (hsorted : Q.Pairwise fun i j => frameAge history s₁ j < frameAge history s₁ i) :
    ∃ s', fifoRef p t = .ok s' ∧ FifoOrder (history ++ [p]) s' (Q ++ [x]) := by
  have hw : FifoWaits t x Q :=
    { fresh := h.fresh
      nodup := h.nodup
      links := by rw [ht.above]; exact h.links
      unlinked := by rw [ht.above]; exact h.unlinked
      oldest := by rw [ht.alg]; exact h.oldest
      youngest := by rw [ht.alg]; exact h.youngest }
  obtain ⟨s', href, hqueue⟩ := hw.ref ht.frameNo
  have hpage := (fifoRef_policyStep href).page
  refine ⟨s', href, hqueue, ?_, ?_⟩
  · intro i
    rw [hpage, ht.inUse_iff, List.mem_append, List.mem_singleton, hmem i, or_comm]
  · rw [frameAge_congr hpage]
    refine pairwise_gt_concat hsorted ?_ ht.frameAge_self
    intro j hj
    exact ht.frameAge_ne fun heq => h.fresh (heq ▸ hj)

namespace FifoOrder

theorem initSecondLevel (h : FifoOrder history s Q) (idx : Nat) :
    FifoOrder history (Paging.initSecondLevel idx s) Q where
  queue := h.queue.congr (by funext i; simp [Sim.above]) (by simp)
  mem i := by simpa [Sim.page] using h.mem i
  sorted := by simpa [frameAge, Sim.page] using h.sorted

theorem loadOrder (h : FifoOrder history s Q) (hM : Mapped none s) : LoadOrder history s Q :=
  ⟨fun i => (h.mem i).trans (hM.inUse_iff i).symm, h.sorted⟩

/-- A reference to a page in memory. -/
theorem hit (h : FifoOrder history s Q) (ht : Arrived p f s t) (hpage : s.page f = some p) :
    ∃ s', fifoRef p t = .ok s' ∧ FifoOrder history s' Q := by
  have hmem : f ∈ Q := (h.mem f).mpr (by rw [hpage]; rfl)
  have hpages : t.page = s.page := by rw [ht.page, ← hpage, Function.update_eq_self]
  obtain ⟨s', href, hqueue⟩ := (h.queue.congr ht.above ht.alg).ref ht.frameNo hmem
  have hpages' : s'.page = s.page := (fifoRef_policyStep href).page.trans hpages
  refine ⟨s', href, hqueue, ?_, ?_⟩
  · rw [hpages']
    exact h.mem
  · rw [frameAge_congr hpages']
    exact h.sorted

/-- A page that is loaded into a free frame. -/
theorem free (h : FifoOrder history s Q) (ht : Arrived p f s t) (hpage : s.page f = none) :
    ∃ s', fifoRef p t = .ok s' ∧ FifoOrder (history ++ [p]) s' (Q ++ [f]) := by
  have hf : f ∉ Q := fun hmem => by
    have hsome := (h.mem f).mp hmem
    rw [hpage] at hsome
    cases hsome
  refine (h.queue.waits hf).load ht ?_ h.sorted
  intro i
  rw [h.mem]

/-- The head of the queue is evicted: the frame in use with the page loaded first. -/
theorem evict (h : FifoOrder history s Q) (hM : Mapped none s) (hmem : 1 ≤ s.memsize)
    (hfree : findFree s = none) :
    ∃ x Q' s₁, Q = x :: Q' ∧ fifoEvict s = .ok (x, s₁) ∧ FifoWaits s₁ x Q' := by
  have hzero := (hM.inUse_iff 0).mp (findFree_eq_none.mp hfree 0 hmem)
  obtain ⟨x, Q', rfl⟩ := List.exists_cons_of_ne_nil (List.ne_nil_of_mem ((h.mem 0).mpr hzero))
  obtain ⟨q, hq⟩ := Option.isSome_iff_exists.mp ((h.mem x).mp List.mem_cons_self)
  have hframe := ((hM.backed x q (by simp)).mp hq).2
  obtain ⟨s₁, hevict, hwaits⟩ := h.queue.evict (Mapped.inUse_of_page hq).2 hframe
  exact ⟨x, Q', s₁, rfl, hevict, hwaits⟩

end FifoOrder

/-! ## Runs -/

/-- The page that an access loads, if it is not in memory. -/
def loaded (a : Access) (s : Sim FifoEnds φ) : List PtePtr :=
  if (s.entry (pteOf a.vaddr)).valid then [] else [pteOf a.vaddr]

/-- The pages loaded in the course of a run. -/
def loads (io : FileOps φ) (m swapsize : Nat) (physmem : Memory) (fd : φ) (trace : List Access) :
    List PtePtr :=
  observe fifo io m swapsize physmem fd .zero loaded trace

/-- Every access keeps the order. -/
theorem accessCases_fifo (io : FileOps φ) {a : Access} (h : FifoOrder history s Q)
    (hM : Mapped none s) (hmem : 1 ≤ s.memsize) :
    AccessCases fifo io a.vaddr (fun s' => ∃ Q, FifoOrder (history ++ loaded a s) s' Q) s where
  hit hvalid t ht _ := by
    rw [loaded, if_pos hvalid, List.append_nil]
    obtain ⟨s', href, hs'⟩ := h.hit ht (hM.page_frameNo hvalid)
    exact ⟨s', href, Q, hs'⟩
  free hvalid f t hfree ht _ := by
    rw [loaded, if_neg (by simp [hvalid])]
    have hpage : s.page f = none := by simp [Sim.page, (findFree_eq_some.mp hfree).2.1]
    obtain ⟨s', href, hs'⟩ := h.free ht hpage
    exact ⟨s', href, _, hs'⟩
  evict hvalid hfree := by
    have hM₀ := mapped_initSecondLevel hM (pgdirIndex a.vaddr)
    have h₀ := h.initSecondLevel (pgdirIndex a.vaddr)
    obtain ⟨x, Q', s₁, rfl, hevict, hwaits⟩ := h₀.evict hM₀ (by simpa using hmem)
      (by simpa [findFree] using hfree)
    have hpages := (fifoEvict_policyStep hevict).page
    refine ⟨x, s₁, hevict, ?_, ?_⟩
    · obtain ⟨q, hq⟩ := Option.isSome_iff_exists.mp ((h.mem x).mp List.mem_cons_self)
      exact hM.page_lt hq
    · intro t ht _
      rw [loaded, if_neg (by simp [hvalid])]
      have hsorted := (List.pairwise_cons.mp h₀.sorted).2
      rw [← frameAge_congr hpages] at hsorted
      have hmem' : ∀ i, i ∈ Q' ∨ i = x ↔ (s₁.page i).isSome ∨ i = x := by
        intro i
        rw [hpages, ← h₀.mem i, List.mem_cons]
        tauto
      obtain ⟨s', href, hs'⟩ := hwaits.load ht hmem' hsorted
      exact ⟨s', href, _, hs'⟩

/-- What the globals show of the order: a queue of the frames in use in the order of their loads,
which references to pages in memory do not change; and if an access has to evict now, the frame
chosen is the one whose page was loaded longest ago. -/
structure ExactFifo (io : FileOps φ) (m : Nat) (history : List PtePtr) (s : Sim FifoEnds φ) :
    Prop where
  queue : ∃ Q, FifoQueue s Q ∧ LoadOrder history s Q ∧
    ∀ a s', (s.entry (pteOf a.vaddr)).valid → accessMem fifo io a s = .ok s' → FifoQueue s' Q
  victim : ∀ vaddr t, evictCall vaddr s = some t →
    ∃ i t', fifoEvict t = .ok (i, t') ∧ i < m ∧ (t.coremap i).inUse ∧
      ∀ j, (t.coremap j).inUse → j ≠ i → frameAge history t j < frameAge history t i

/-- A hit keeps the queue, on the whole way through `access_mem`. -/
theorem FifoOrder.accessMem_hit {io : FileOps φ} {a : Access} (h : FifoOrder history s Q)
    (hM : Mapped none s) (hvalid : (s.entry (pteOf a.vaddr)).valid)
    (hacc : accessMem fifo io a s = .ok s') : FifoQueue s' Q := by
  have hcases : AccessCases fifo io a.vaddr (fun u => FifoQueue u Q) s := by
    refine ⟨?_, ?_, ?_⟩
    · intro _ t ht _
      obtain ⟨u, href, hu⟩ := h.hit ht (hM.page_frameNo hvalid)
      exact ⟨u, href, hu.queue⟩
    · intro hinvalid
      rw [hvalid] at hinvalid
      cases hinvalid
    · intro hinvalid
      rw [hvalid] at hinvalid
      cases hinvalid
  by_cases hdir : pgdirIndex a.vaddr < PTRS_PER_PGDIR
  · obtain ⟨u, hu, _, _, hqueue⟩ := hcases.accessMem fifo_respectful hM hdir
      (fun _ _ _ hq => hq.congr rfl rfl)
    rw [hacc] at hu
    cases hu
    exact hqueue
  · simp only [accessMem, findPhyspage_outOfBounds hdir, error_bind] at hacc
    cases hacc

theorem FifoOrder.exact (h : FifoOrder history s Q) (io : FileOps φ) (hM : Mapped none s)
    (hmem : 1 ≤ s.memsize) : ExactFifo io s.memsize history s where
  queue := ⟨Q, h.queue, h.loadOrder hM, fun _ _ => h.accessMem_hit hM⟩
  victim vaddr t ht := by
    obtain ⟨⟨_, _, hfree⟩, rfl⟩ := evictCall_eq_some.mp ht
    have hM₀ := mapped_initSecondLevel hM (pgdirIndex vaddr)
    have h₀ := h.initSecondLevel (pgdirIndex vaddr)
    obtain ⟨x, Q', t', rfl, hevict, _⟩ := h₀.evict hM₀ (by simpa using hmem)
      (by simpa [findFree] using hfree)
    have horder := h₀.loadOrder hM₀
    have hx := (horder.mem x).mp List.mem_cons_self
    obtain ⟨q, hq⟩ := hM₀.page_of_inUse hx
    have hlt := hM₀.page_lt hq
    rw [Sim.memsize_initSecondLevel] at hlt
    refine ⟨x, t', hevict, hlt, hx, ?_⟩
    intro j hj hne
    have hjQ : j ∈ Q' := by simpa [hne] using (horder.mem j).mpr hj
    exact (List.pairwise_cons.mp horder.sorted).1 j hjQ

/-- A run has the frames in use in the order of their loads, and faults at most at an address past
the page directory. -/
theorem fifo_runs (io : FileOps φ) {m swapsize : Nat} (hm : 1 ≤ m ∧ m ≤ 2 ^ 20)
    (hswap : swapsize < 2 ^ 32) (physmem : Memory) (fd : φ) (trace : List Access) :
    (∃ s, simulate fifo io m swapsize physmem fd .zero trace = .ok s ∧ Mapped none s ∧
      s.memsize = m ∧ ∃ Q, FifoOrder (loads io m swapsize physmem fd trace) s Q) ∨
    (simulate fifo io m swapsize physmem fd .zero trace = .error .outOfBounds ∧
      ∃ a ∈ trace, ¬pgdirIndex a.vaddr < PTRS_PER_PGDIR) := by
  refine simulate_sound io
    (J := fun as s => ∃ Q, FifoOrder (loads io m swapsize physmem fd as) s Q) physmem fd
    FifoEnds.zero fifo_respectful hm.2 hswap ?_ ?_ ?_ trace
  · intro bm _ _
    refine ⟨[], ⟨.nil, .nil, ?_, fun _ _ => rfl, rfl, .inl rfl⟩, ?_, .nil⟩
    · intro y hy
      cases hy
    · intro i
      simp [Sim.page, Sim.zero, Frame.zero, fifo]
  · rintro as a s hs hM hmem ⟨Q, hJ⟩ _
    have hloads : loads io m swapsize physmem fd (as ++ [a]) =
        loads io m swapsize physmem fd as ++ loaded a s := observe_concat hs a
    rw [hloads]
    exact accessCases_fifo io hJ hM (hmem ▸ hm.1)
  · rintro as s physmem stderr ⟨Q, hJ⟩
    exact ⟨Q, hJ.queue.congr rfl rfl, hJ.mem, hJ.sorted⟩

/-- In a run over addresses of 36 bits the algorithm answers each of its calls. -/
theorem fifo_answers (io : FileOps φ) {m swapsize : Nat} (hm : 1 ≤ m ∧ m ≤ 2 ^ 20)
    (hswap : swapsize < 2 ^ 32) (physmem : Memory) (fd : φ) {trace : List Access}
    (hrange : ∀ a ∈ trace, a.vaddr.toNat < 2 ^ 36) :
    (fifo : Functions FifoEnds φ).Answers io m swapsize physmem fd .zero trace := by
  obtain ⟨s, hs, _⟩ := ends_of_range hrange (fifo_runs io hm hswap physmem fd trace)
  exact fifo_respectful.answers_of_simulate hm.2 hswap ⟨s, hs⟩

/-- The algorithm is exact FIFO in every state that a run gets to, and a run faults at most at an
address past the page directory. -/
theorem simulate_fifo (io : FileOps φ) {m swapsize : Nat} (hm : 1 ≤ m ∧ m ≤ 2 ^ 20)
    (hswap : swapsize < 2 ^ 32) (physmem : Memory) (fd : φ) (trace : List Access) :
    (∃ s, simulate fifo io m swapsize physmem fd .zero trace = .ok s ∧
      ExactFifo io m (loads io m swapsize physmem fd trace) s) ∨
    (simulate fifo io m swapsize physmem fd .zero trace = .error .outOfBounds ∧
      ∃ a ∈ trace, ¬pgdirIndex a.vaddr < PTRS_PER_PGDIR) := by
  apply (fifo_runs io hm hswap physmem fd trace).imp_left
  rintro ⟨s, hs, hM, hmem, Q, hJ⟩
  exact ⟨s, hs, hmem ▸ hJ.exact io hM (hmem ▸ hm.1)⟩

/-- A single frame: the page in it is referenced again, which links the frame to itself, and then
evicted. -/
theorem simulate_fifo_one :
    ∃ s, simulate fifo regularFile.toFileOps 1 4 (fun _ => 0) .empty .zero
        [⟨'L', 0x1000⟩, ⟨'S', 0x1000⟩, ⟨'L', 0x2000⟩] = .ok s ∧
      ExactFifo regularFile.toFileOps 1 (loads regularFile.toFileOps 1 4 (fun _ => 0) .empty
        [⟨'L', 0x1000⟩, ⟨'S', 0x1000⟩, ⟨'L', 0x2000⟩]) s :=
  (simulate_fifo regularFile.toFileOps (by decide) (by decide) _ _ _).resolve_right
    fun ⟨_, a, ha, hdir⟩ => hdir ((by decide : ∀ a ∈ [Access.mk 'L' 0x1000, ⟨'S', 0x1000⟩,
      ⟨'L', 0x2000⟩], pgdirIndex a.vaddr < PTRS_PER_PGDIR) a ha)

end Paging

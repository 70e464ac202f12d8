-- SUMMARY: The event counters balance, hits are the accesses to resident pages, and dirty evictions are those of modified pages.
import Mathlib.Data.Finset.Card
import OperatingSystems.Paging.Course
import OperatingSystems.Paging.Policy
import OperatingSystems.Paging.Rand
import OperatingSystems.Paging.SwapFile

/-!
# The event counters

Every access is a hit or a miss, and every miss takes a free frame or evicts. Whether an eviction
is counted as clean or dirty is read off the flags of the victim; what these flags say about the
accesses made to the page is a property of the whole history.
-/

namespace Paging

open Library Library.Run

variable {σ φ : Type} {s s' t u : Sim σ φ} {p q r : PtePtr} {fns : Functions σ φ} {io : FileOps φ}
  {vaddr : Addr} {type : Char}

/-! ## Histories -/

/-- The page is in some frame. -/
def Sim.resident (s : Sim σ φ) (p : PtePtr) : Bool :=
  (List.range s.memsize).any fun i => s.page i = some p

/-- The accesses of a run, each with whether its page was in a frame before it. -/
def visits (fns : Functions σ φ) (io : FileOps φ) (m swapsize : Nat) (physmem : Memory) (fd : φ)
    (alg : σ) (trace : List Access) : List (Access × Bool) :=
  observe fns io m swapsize physmem fd alg (fun a s => [(a, s.resident (pteOf a.vaddr))]) trace

/-- From the last visit back to the one that loaded the page: one of them wrote to the page, or it
was created by its load, which then was the first visit to it. -/
def modifiedBefore (q : PtePtr) : List (Access × Bool) → Bool
  | [] => false
  | (a, resident) :: earlier =>
    if pteOf a.vaddr = q then
      isWrite a.type || (if resident then modifiedBefore q earlier
        else earlier.all fun e => pteOf e.1.vaddr ≠ q)
    else modifiedBefore q earlier

/-- Since its latest load, the page was created or accessed with type `S` or `M`. -/
def modifiedSinceLoad (q : PtePtr) (history : List (Access × Bool)) : Bool :=
  modifiedBefore q history.reverse

theorem modifiedSinceLoad_concat (history : List (Access × Bool)) (a : Access) (resident : Bool) :
    modifiedSinceLoad q (history ++ [(a, resident)]) =
      if pteOf a.vaddr = q then
        isWrite a.type || (if resident then modifiedSinceLoad q history
          else history.all fun e => pteOf e.1.vaddr ≠ q)
      else modifiedSinceLoad q history := by
  simp [modifiedSinceLoad, modifiedBefore]

theorem resident_iff (h : Mapped none s) : s.resident p = true ↔ ∃ i, s.page i = some p := by
  simp only [Sim.resident, List.any_eq_true, List.mem_range, decide_eq_true_eq]
  constructor
  · rintro ⟨i, _, hi⟩
    exact ⟨i, hi⟩
  · rintro ⟨i, hi⟩
    exact ⟨i, h.page_lt hi, hi⟩

theorem resident_eq (h : Mapped none s) : s.resident p = (s.entry p).valid := by
  rw [Bool.eq_iff_iff, resident_iff h, h.valid_iff]

/-! ## Frames in use -/

/-- The number of frames in use. -/
def Sim.framesInUse (s : Sim σ φ) : Nat :=
  ((Finset.range s.memsize).filter fun i => (s.coremap i).inUse).card

theorem framesInUse_le (s : Sim σ φ) : s.framesInUse ≤ s.memsize := by
  have hle := Finset.card_filter_le (Finset.range s.memsize) fun i => (s.coremap i).inUse = true
  rwa [Finset.card_range] at hle

theorem framesInUse_congr (hmem : s'.memsize = s.memsize)
    (hinUse : ∀ i, (s'.coremap i).inUse = (s.coremap i).inUse) :
    s'.framesInUse = s.framesInUse := by
  simp only [Sim.framesInUse, hmem, hinUse]

theorem framesInUse_full (h : ∀ i < s.memsize, (s.coremap i).inUse) :
    s.framesInUse = s.memsize := by
  rw [Sim.framesInUse, Finset.filter_true_of_mem, Finset.card_range]
  intro i hi
  exact h i (Finset.mem_range.mp hi)

/-- The page that arrives has its frame in use, and the other frames stay as they are. -/
theorem Arrived.framesInUse {f : Nat} (ht : Arrived p f s t) (h : Mapped none s) :
    t.framesInUse = if (s.coremap f).inUse then s.framesInUse else s.framesInUse + 1 := by
  have hinUse : ∀ i, (t.coremap i).inUse = true ↔ i = f ∨ (s.coremap i).inUse = true := by
    intro i
    rw [ht.mapped.inUse_iff, ht.inUse_iff, h.inUse_iff]
  cases hf : (s.coremap f).inUse with
  | true =>
    rw [if_pos rfl]
    apply framesInUse_congr ht.memsize
    intro i
    rw [Bool.eq_iff_iff, hinUse]
    constructor
    · rintro (rfl | hi)
      · exact hf
      · exact hi
    · exact .inr
  | false =>
    have hset : (Finset.range t.memsize).filter (fun i => (t.coremap i).inUse = true) =
        insert f ((Finset.range s.memsize).filter fun i => (s.coremap i).inUse = true) := by
      ext i
      have hlt := ht.lt
      simp only [Finset.mem_filter, Finset.mem_range, Finset.mem_insert, hinUse, ht.memsize]
      constructor
      · rintro ⟨hi, rfl | hu⟩
        · exact .inl rfl
        · exact .inr ⟨hi, hu⟩
      · rintro (rfl | ⟨hi, hu⟩)
        · exact ⟨hlt, .inl rfl⟩
        · exact ⟨hi, .inr hu⟩
    rw [Sim.framesInUse, hset, Finset.card_insert_of_notMem (by simp [hf])]
    rfl

/-- A miss takes a frame that was not in use, if there is one. -/
theorem Course.framesInUse (hc : Course fns io vaddr type s t) (hfns : fns.Respectful)
    (h : Mapped none s) :
    t.framesInUse = if (s.entry (pteOf vaddr)).valid then s.framesInUse
      else if (findFree s).isSome then s.framesInUse + 1 else s.memsize := by
  cases hc with
  | hit hvalid =>
    have hpage := Mapped.inUse_of_page (h.page_frameNo hvalid)
    rw [if_pos hvalid, (Arrived.of_hit h hvalid _ _ _).framesInUse h, if_pos hpage.1]
  | free f hvalid hfree =>
    have hunused := (findFree_eq_some.mp hfree).2.1
    rw [(Arrived.of_free h hvalid hfree _ _ _ _).framesInUse h]
    simp [hvalid, hfree, hunused]
  | evict f q off s₁ s₂ u hvalid hfree hevict hpage hout hin =>
    obtain ⟨h₁, hmem, hall, _, hentry⟩ := hfns.evict_full h hfree hevict
    obtain ⟨hev, _⟩ := Evicted.of_stages h₁ hall hpage hout hin
    rw [(Arrived.of_evicted h₁ ((hentry _).valid.trans hvalid) hev _ _ _).framesInUse h₁,
      if_pos (hall f (h₁.page_lt hpage)), framesInUse_full hall, hmem]
    simp [hvalid, hfree]

/-! ## The balance -/

/-- The counters after `n` accesses. -/
structure Balanced (n : Nat) (s : Sim σ φ) : Prop where
  refs : s.refCount = n
  hits : s.hitCount + s.missCount = s.refCount
  misses : s.missCount = s.framesInUse + s.evictCleanCount + s.evictDirtyCount
  inUse : s.framesInUse = min s.memsize s.missCount

theorem Balanced.congr {n : Nat} (h : Balanced n s) (hcounts : s'.counts = s.counts)
    (hmem : s'.memsize = s.memsize) (hinUse : s'.framesInUse = s.framesInUse) : Balanced n s' := by
  obtain ⟨hhit, hmiss, href, hclean, hdirty⟩ := Counts.mk.inj hcounts
  refine ⟨?_, ?_, ?_, ?_⟩
  · rw [href, h.refs]
  · rw [hhit, hmiss, href, h.hits]
  · rw [hmiss, hinUse, hclean, hdirty, h.misses]
  · rw [hinUse, hmem, hmiss, h.inUse]

theorem Counts.evict_total (dirty : Bool) (c : Counts) :
    (c.evict dirty).evictClean + (c.evict dirty).evictDirty = c.evictClean + c.evictDirty + 1 := by
  cases dirty <;> simp [Counts.evict] <;> omega

/-- A miss that finds no free frame evicts; with that, every access keeps the balance. -/
theorem Course.balanced {n : Nat} (hc : Course fns io vaddr type s t) (hfns : fns.Respectful)
    (h : Mapped none s) (hb : Balanced n s) : Balanced (n + 1) t := by
  have hmem : t.memsize = s.memsize := by
    obtain ⟨f, s₁, ht, _, hmem, _⟩ := hc.arrived hfns h
    exact ht.memsize.trans hmem
  have hinUse := hc.framesInUse hfns h
  have hle := framesInUse_le t
  obtain ⟨href, hhits, hmisses, hmin⟩ := hb
  rcases hc.counts hfns h with ⟨hvalid, hcounts⟩ | ⟨hvalid, ⟨f, hfree⟩, hcounts⟩ |
    ⟨hvalid, hfree, f, q, s₁, _, _, hcounts⟩
  · obtain ⟨hhit, hmiss, hrefs, hclean, hdirty⟩ := Counts.mk.inj hcounts
    rw [if_pos hvalid] at hinUse
    simp only [Sim.counts] at hhit hmiss hrefs hclean hdirty
    constructor <;> omega
  · obtain ⟨hhit, hmiss, hrefs, hclean, hdirty⟩ := Counts.mk.inj hcounts
    simp only [hvalid, hfree, Bool.false_eq_true, if_false, Option.isSome_some, if_true] at hinUse
    simp only [Sim.counts] at hhit hmiss hrefs hclean hdirty
    constructor <;> omega
  · obtain ⟨hhit, hmiss, hrefs, hclean, hdirty⟩ := Counts.mk.inj hcounts
    simp only [hvalid, hfree, Bool.false_eq_true, if_false, Option.isSome_none] at hinUse
    have hfull := framesInUse_full (findFree_eq_none.mp hfree)
    have htotal := s.counts.evict_total (s.entry q).dirty
    rw [← hclean, ← hdirty] at htotal
    have hkeep : (s.counts.evict (s.entry q).dirty).hit = s.counts.hit := by
      cases (s.entry q).dirty <;> rfl
    rw [hkeep] at hhit
    simp only [Sim.counts] at hhit hmiss hrefs htotal
    constructor <;> omega

/-! ## The flags and the history -/

/-- What the flags of the pages say about a history. -/
structure Tracks (history : List (Access × Bool)) (s : Sim σ φ) : Prop where
  known : ∀ q, s.known q = history.any fun e => pteOf e.1.vaddr = q
  dirty : ∀ q, (s.entry q).valid → (s.entry q).dirty = modifiedSinceLoad q history

theorem Tracks.congr {history : List (Access × Bool)} (h : Tracks history s)
    (hentry : ∀ q, (s.entry q).SameButRef (s'.entry q)) : Tracks history s' where
  known q := by rw [known_congr (hentry q), h.known]
  dirty q hq := by
    rw [(hentry q).dirty]
    exact h.dirty q ((hentry q).valid ▸ hq)

theorem Course.tracks {a : Access} {history : List (Access × Bool)}
    (hc : Course fns io a.vaddr a.type s t) (hfns : fns.Respectful) (h : Mapped none s)
    (htr : Tracks history s) :
    Tracks (history ++ [(a, s.resident (pteOf a.vaddr))]) t := by
  obtain ⟨hknown, hdirty⟩ := hc.flags_self
  refine ⟨?_, ?_⟩
  · intro q
    rw [List.any_append]
    by_cases hq : q = pteOf a.vaddr
    · subst hq
      simp [hknown]
    · rw [(hc.flags_ne hfns h hq).1, htr.known]
      simp [Ne.symm hq]
  · intro q hvalid
    rw [modifiedSinceLoad_concat, resident_eq h]
    by_cases hq : q = pteOf a.vaddr
    · subst hq
      rw [if_pos rfl, hdirty, htr.known]
      cases hv : (s.entry (pteOf a.vaddr)).valid with
      | true => simp [htr.dirty _ hv]
      | false => simp [List.not_any_eq_all_not]
    · rw [if_neg (Ne.symm hq), (hc.flags_ne hfns h hq).2]
      exact htr.dirty q (hc.valid_ne hfns h hq hvalid)

/-! ## Runs -/

/-- What a run keeps of counters and flags. -/
structure Tallied (history : List (Access × Bool)) (n : Nat) (s : Sim σ φ) : Prop where
  balanced : Balanced n s
  tracks : Tracks history s

theorem Tallied.accessMem {a : Access} {n : Nat} {history : List (Access × Bool)}
    (h : Tallied history n s) (hfns : fns.Respectful) (hM : Mapped none s)
    (hacc : accessMem fns io a s = .ok s') :
    Tallied (history ++ [(a, s.resident (pteOf a.vaddr))]) (n + 1) s' := by
  obtain ⟨t, u, stderr, hc, href, rfl⟩ := accessMem_course hfns hM hacc
  have hstep := hfns.ref _ _ _ href
  refine ⟨?_, ?_⟩
  · exact (hc.balanced hfns hM h.balanced).congr hstep.counts hstep.memsize
      (framesInUse_congr hstep.memsize hstep.inUse)
  · exact (hc.tracks hfns hM h.tracks).congr hstep.entry

theorem tallied_zero {m : Nat} {bm : Bitmap} {physmem : Memory} {fd : φ} {alg : σ}
    (hfns : fns.Respectful) : Tallied [] 0 (fns.init (.zero m bm physmem fd alg)) := by
  have hstep := hfns.init (.zero m bm physmem fd alg)
  have hnone : (Sim.zero m bm physmem fd alg).framesInUse = 0 := by
    simp [Sim.framesInUse, Sim.zero, Frame.zero]
  have hinUse := framesInUse_congr hstep.memsize hstep.inUse
  refine ⟨Balanced.congr ⟨rfl, rfl, ?_, ?_⟩ hstep.counts hstep.memsize hinUse,
    Tracks.congr ⟨?_, ?_⟩ hstep.entry⟩
  · rw [hnone]
    rfl
  · rw [hnone]
    exact (Nat.min_zero _).symm
  · intro q
    exact congrArg₂ or PgtblEntry.fresh_valid PgtblEntry.fresh_onswap
  · intro q hq
    exact absurd hq (by rw [show (Sim.zero m bm physmem fd alg).entry q = .fresh from rfl]; simp)

theorem simulate_tallied {m swapsize : Nat} {physmem : Memory} {fd : φ} {alg : σ}
    {trace : List Access} (hfns : fns.Respectful) (hm : m ≤ 2 ^ 20) (hswap : swapsize < 2 ^ 32)
    (hrun : simulate fns io m swapsize physmem fd alg trace = .ok s) :
    Mapped none s ∧ s.memsize = m ∧
      Tallied (visits fns io m swapsize physmem fd alg trace) trace.length s := by
  refine simulate_invariant
    (J := fun as s => Tallied (visits fns io m swapsize physmem fd alg as) as.length s)
    hfns hm hswap ?_ ?_ hrun
  · intro bm _ _
    rw [visits, observe_nil]
    exact tallied_zero hfns
  · intro as b s s' hs hM _ hJ hacc
    rw [visits, observe_concat hs, List.length_append]
    exact hJ.accessMem hfns hM hacc

/-- How `access_mem` counts: a hit if the page is in memory, and an eviction by the dirty bit of
the victim. -/
theorem accessMem_counted {a : Access} (hfns : fns.Respectful) (hM : Mapped none s)
    (hacc : accessMem fns io a s = .ok s') :
    (s'.hitCount = s.hitCount + if (s.entry (pteOf a.vaddr)).valid then 1 else 0) ∧
    (evictCall a.vaddr s = none →
      s'.evictCleanCount = s.evictCleanCount ∧ s'.evictDirtyCount = s.evictDirtyCount) ∧
    ∀ t f s₁ q, evictCall a.vaddr s = some t → fns.evict t = .ok (f, s₁) → t.page f = some q →
      (s.entry q).valid ∧
      s'.evictCleanCount = s.evictCleanCount + (if (s.entry q).dirty then 0 else 1) ∧
      s'.evictDirtyCount = s.evictDirtyCount + (if (s.entry q).dirty then 1 else 0) := by
  obtain ⟨t, u, stderr, hc, href, rfl⟩ := accessMem_course hfns hM hacc
  obtain ⟨hhit, _, _, hclean, hdirty⟩ := Counts.mk.inj (hfns.ref _ _ _ href).counts
  have hpages : (initSecondLevel (pgdirIndex a.vaddr) s).page = s.page := by
    funext i
    simp only [Sim.page, Sim.coremap_initSecondLevel]
  rcases hc.counts hfns hM with ⟨hvalid, hcounts⟩ | ⟨hvalid, ⟨f, hfree⟩, hcounts⟩ |
    ⟨hvalid, hfree, f, q, s₁, hevict, hpage, hcounts⟩
  all_goals
    obtain ⟨hhit', _, _, hclean', hdirty'⟩ := Counts.mk.inj hcounts
    simp only [Sim.counts] at hhit' hclean' hdirty'
    rw [hhit, hclean, hdirty, hhit', hclean', hdirty']
  · refine ⟨by rw [if_pos hvalid], fun _ => ⟨rfl, rfl⟩, ?_⟩
    intro t' f s₁ q hcall
    rw [evictCall_eq_some] at hcall
    rw [hcall.1.2.1] at hvalid
    cases hvalid
  · refine ⟨by simp [hvalid], fun _ => ⟨rfl, rfl⟩, ?_⟩
    intro t' f' s₁ q hcall
    rw [evictCall_eq_some] at hcall
    rw [hcall.1.2.2] at hfree
    cases hfree
  · refine ⟨?_, ?_, ?_⟩
    · rw [hvalid]
      cases (s.entry q).dirty <;> rfl
    · intro hcall
      have hsome := evictCall_eq_some.mpr ⟨⟨pgdirIndex_of_accessMem hacc, hvalid, hfree⟩, rfl⟩
      rw [hcall] at hsome
      cases hsome
    · intro t' f' s₁' q' hcall hevict' hpage'
      obtain ⟨_, rfl⟩ := evictCall_eq_some.mp hcall
      cases hevict.symm.trans hevict'
      rw [hpages, hpage] at hpage'
      cases hpage'
      refine ⟨((hM.backed f q (by simp)).mp hpage).1, ?_⟩
      cases (s.entry q).dirty <;> exact ⟨rfl, rfl⟩

/-- An access misses if its page is not in memory. -/
theorem accessMem_missed {a : Access} (hfns : fns.Respectful) (hM : Mapped none s)
    (hacc : accessMem fns io a s = .ok s') :
    s'.missCount = s.missCount + if (s.entry (pteOf a.vaddr)).valid then 0 else 1 := by
  obtain ⟨t, u, stderr, hc, href, rfl⟩ := accessMem_course hfns hM hacc
  obtain ⟨_, hmiss, _⟩ := Counts.mk.inj (hfns.ref _ _ _ href).counts
  rcases hc.counts hfns hM with ⟨hvalid, hcounts⟩ | ⟨hvalid, _, hcounts⟩ |
    ⟨hvalid, _, _, _, _, _, _, hcounts⟩
  all_goals
    obtain ⟨_, hmiss', _⟩ := Counts.mk.inj hcounts
    simp only [Sim.counts] at hmiss'
    rw [hmiss, hmiss', hvalid]
    rfl

/-- After every access of a run, whatever the policy picks and the file does: the counters balance;
the access was counted as a hit if its page was in a frame before it; and if it evicted, the
eviction was counted as dirty if the victim had been modified since its latest load. -/
theorem accessMem_counts {m swapsize : Nat} {physmem : Memory} {fd : φ} {alg : σ}
    {trace : List Access} {a : Access}
    (hfns : fns.Answers io m swapsize physmem fd alg (trace ++ [a])) (hm : 1 ≤ m ∧ m ≤ 2 ^ 20)
    (hswap : swapsize < 2 ^ 32) (hrange : ∀ b ∈ trace ++ [a], b.vaddr.toNat < 2 ^ 36)
    (hlen : (trace ++ [a]).length < 2 ^ 31) :
    ∃ s s', simulate fns io m swapsize physmem fd alg trace = .ok s ∧
      accessMem fns io a s = .ok s' ∧
      s'.hitCount + s'.missCount = s'.refCount ∧ s'.refCount = (trace ++ [a]).length ∧
      s'.refCount < 2 ^ 31 ∧
      s'.missCount = s'.framesInUse + s'.evictCleanCount + s'.evictDirtyCount ∧
      s'.framesInUse = min m s'.missCount ∧
      (s'.hitCount = s.hitCount + 1 ↔ ∃ i, s.page i = some (pteOf a.vaddr)) ∧
      (evictCall a.vaddr s = none →
        s'.evictCleanCount = s.evictCleanCount ∧ s'.evictDirtyCount = s.evictDirtyCount) ∧
      ∀ t f s₁ q, evictCall a.vaddr s = some t → fns.evict t = .ok (f, s₁) → t.page f = some q →
        (s'.evictDirtyCount = s.evictDirtyCount + 1 ↔
          modifiedSinceLoad q (visits fns io m swapsize physmem fd alg trace)) ∧
        (s'.evictCleanCount = s.evictCleanCount + 1 ↔
          ¬modifiedSinceLoad q (visits fns io m swapsize physmem fd alg trace)) := by
  obtain ⟨s', hrun⟩ := simulate_ok hfns hm.2 hswap hrange
  rw [simulate_concat] at hrun
  obtain ⟨s, hs, hacc⟩ := bind_eq_ok.mp hrun
  obtain ⟨hM, hmem, hJ⟩ := simulate_tallied hfns.toRespectful hm.2 hswap hs
  obtain ⟨⟨href, hhits, hmisses, hinUse⟩, _⟩ := hJ.accessMem hfns.toRespectful hM hacc
  obtain ⟨_, hmem'⟩ := mapped_accessMem hfns.toRespectful hM hacc
  obtain ⟨hhit, hkept, hevicted⟩ := accessMem_counted hfns.toRespectful hM hacc
  rw [hmem', hmem] at hinUse
  rw [List.length_append, List.length_singleton] at hlen ⊢
  refine ⟨s, s', hs, hacc, hhits, href, href ▸ hlen, hmisses, hinUse, ?_, hkept, ?_⟩
  · rw [← resident_iff hM, resident_eq hM, hhit]
    cases (s.entry (pteOf a.vaddr)).valid <;> simp
  · intro t f s₁ q ht hf hq
    obtain ⟨hvalid, hclean, hdirty⟩ := hevicted t f s₁ q ht hf hq
    rw [hclean, hdirty, hJ.tracks.dirty q hvalid]
    cases modifiedSinceLoad q (visits fns io m swapsize physmem fd alg trace) <;> simp

/-- A page that was written to leaves the only frame. -/
theorem accessMem_counts_rand :
    ∃ s s', simulate rand regularFile.toFileOps 1 2 (fun _ => 0) .empty ⟨fun n => n, 0⟩
        [⟨'S', 0x1000⟩, ⟨'L', 0x1000⟩] = .ok s ∧
      accessMem rand regularFile.toFileOps ⟨'L', 0x2000⟩ s = .ok s' ∧
      s'.hitCount + s'.missCount = s'.refCount ∧ s'.refCount = 3 ∧ s'.refCount < 2 ^ 31 ∧
      s'.missCount = s'.framesInUse + s'.evictCleanCount + s'.evictDirtyCount ∧
      s'.framesInUse = min 1 s'.missCount := by
  have hfns : (rand : Functions Random OpenFile).Answers regularFile.toFileOps 1 2 (fun _ => 0) .empty
      ⟨fun n => n, 0⟩ ([⟨'S', 0x1000⟩, ⟨'L', 0x1000⟩] ++ [⟨'L', 0x2000⟩]) :=
    rand_chooses.answers _ (by decide) (by decide) _ _ _ _
  obtain ⟨s, s', hs, hacc, hhits, href, hlen, hmisses, hinUse, _⟩ :=
    accessMem_counts hfns (by decide) (by decide) (by decide) (by decide)
  exact ⟨s, s', hs, hacc, hhits, href, hlen, hmisses, hinUse⟩

end Paging

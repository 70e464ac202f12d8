-- SUMMARY: lru, fifo and clock keep a page that is newly loaded, so they miss at most memsize times as often as any policy.
import OperatingSystems.Paging.Clock
import OperatingSystems.Paging.Demand
import OperatingSystems.Paging.Fifo
import OperatingSystems.Paging.Inclusion

/-!
# Retention

The three algorithms differ in the page they evict, but none of them evicts a page before as many
pages as there are frames have been accessed since it was loaded. That alone bounds their misses by
those of any other policy, even of one that knows the trace.
-/

namespace Paging

open Library Library.Run

variable {σ φ ψ : Type} {m n swapsize swapsize' fuel : Nat} {physmem physmem' : Memory} {fd : φ}
  {fd' : ψ} {trace as bs : List Access} {a : Access} {p q : PtePtr}

/-- A page that was just loaded is in memory while no more pages are accessed than there are frames,
itself among them. -/
def KeepsLoaded (fns : Functions σ φ) (alg : σ) (m : Nat) : Prop :=
  ∀ (io : FileOps φ) (swapsize : Nat) (physmem : Memory) (fd : φ) (as bs : List Access) (a : Access)
    (s s' : Sim σ φ), swapsize < 2 ^ 32 →
    simulate fns io m swapsize physmem fd alg as = .ok s →
    simulate fns io m swapsize physmem fd alg (as ++ a :: bs) = .ok s' →
    (s.entry (pteOf a.vaddr)).valid = false → (references (a :: bs)).toFinset.card ≤ m →
    (s'.entry (pteOf a.vaddr)).valid

theorem references_append (as bs : List Access) :
    references (as ++ bs) = references as ++ references bs := List.map_append

theorem references_cons (a : Access) (as : List Access) :
    references (a :: as) = pteOf a.vaddr :: references as := List.map_cons

/-! ## lru -/

/-- The pages in memory after a run of lru that ends. -/
theorem lru_valid_iff {io : FileOps φ} {s : Sim LruNodes φ} (hm : 2 ≤ m ∧ m ≤ 2 ^ 20)
    (hswap : swapsize < 2 ^ 32) (hrun : simulate lru io m swapsize physmem fd .zero as = .ok s) :
    (s.entry q).valid ↔ q ∈ LruStack.cache m (references as) := by
  obtain ⟨hM, _, L, hL, hpages⟩ := of_run hrun (simulate_lruOrder io hm hswap physmem fd as)
  exact (hL.mem_pages hM hpages).symm

/-- What an access hits, in memory of `m` frames under lru: a page that was accessed before, and
since then fewer than `m` others. -/
theorem accessMem_lru_hit_iff {io : FileOps φ} {s s' : Sim LruNodes φ} (hm : 2 ≤ m ∧ m ≤ 2 ^ 20)
    (hswap : swapsize < 2 ^ 32) (hrun : simulate lru io m swapsize physmem fd .zero trace = .ok s)
    (hacc : accessMem lru io a s = .ok s') :
    s'.hitCount = s.hitCount + 1 ↔ ∃ before since, references trace = before ++ pteOf a.vaddr :: since ∧
      pteOf a.vaddr ∉ since ∧ since.toFinset.card < m := by
  obtain ⟨hM, _⟩ := simulate_mapped lru_respectful hm.2 hswap hrun
  rw [← LruStack.mem_cache_iff, ← lru_valid_iff hm hswap hrun,
    (accessMem_counted lru_respectful hM hacc).1]
  cases (s.entry (pteOf a.vaddr)).valid <;> simp

theorem lru_keepsLoaded (hm : 2 ≤ m ∧ m ≤ 2 ^ 20) :
    KeepsLoaded (lru : Functions LruNodes φ) .zero m := by
  intro io swapsize physmem fd as bs a s s' hswap _ hrun' _ hcard
  rw [lru_valid_iff hm hswap hrun', references_append, references_cons]
  rw [references_cons, List.toFinset_cons] at hcard
  exact LruStack.mem_cache_of_card_le hcard

/-- The page is accessed again after another one. -/
theorem accessMem_lru_hit_iff_two : ∃ s s', simulate lru regularFile.toFileOps 2 4 (fun _ => 0) .empty
      .zero [⟨'L', 0x0⟩, ⟨'L', 0x1000⟩] = .ok s ∧
    accessMem lru regularFile.toFileOps ⟨'L', 0x0⟩ s = .ok s' ∧
    (s'.hitCount = s.hitCount + 1 ↔ ∃ before since,
      references [⟨'L', 0x0⟩, ⟨'L', 0x1000⟩] = before ++ pteOf 0x0 :: since ∧
        pteOf 0x0 ∉ since ∧ since.toFinset.card < 2) := by
  obtain ⟨t, ht, _⟩ := @simulate_caches _ regularFile.toFileOps 2 4 (by decide) (by decide)
    (fun _ => 0) .empty ([⟨'L', 0x0⟩, ⟨'L', 0x1000⟩] ++ [⟨'L', 0x0⟩]) (by decide)
  obtain ⟨s, s', hs, _, hacc, _⟩ := simulate_step lru_respectful (by decide) (by decide) ht
    List.prefix_rfl
  have hiff := accessMem_lru_hit_iff (show 2 ≤ 2 ∧ 2 ≤ 2 ^ 20 by decide) (by decide) hs hacc
  exact ⟨s, s', hs, hacc, hiff⟩

/-! ## clock -/

/-- The pages in memory after a run of clock that ends. -/
theorem clock_valid_iff {io : FileOps φ} {s : Sim ClockHand φ} (hm : 1 ≤ m ∧ m ≤ 2 ^ 20)
    (hswap : swapsize < 2 ^ 32) (hfuel : m < fuel)
    (hrun : simulate (clock fuel) io m swapsize physmem fd .zero as = .ok s) :
    (s.entry q).valid ↔ q ∈ (SecondChance.run m (references as)).2.map Prod.fst := by
  obtain ⟨hM, _, hJ, _⟩ := of_run hrun (clock_runs io hm hswap hfuel physmem fd as)
  exact (hJ.mem_iff_valid hM).symm

theorem clock_kept {io : FileOps φ} {s s' : Sim ClockHand φ} (hm : 1 ≤ m ∧ m ≤ 2 ^ 20)
    (hfuel : m < fuel) (hswap : swapsize < 2 ^ 32)
    (hrun : simulate (clock fuel) io m swapsize physmem fd .zero as = .ok s)
    (hrun' : simulate (clock fuel) io m swapsize physmem fd .zero (as ++ a :: bs) = .ok s')
    (hmiss : (s.entry (pteOf a.vaddr)).valid = false)
    (hcard : (references (a :: bs)).toFinset.card ≤ m) : (s'.entry (pteOf a.vaddr)).valid := by
  have hnew : pteOf a.vaddr ∉ (SecondChance.run m (references as)).2.map Prod.fst := by
    rw [← clock_valid_iff hm hswap hfuel hrun, hmiss]
    exact Bool.false_ne_true
  rw [clock_valid_iff hm hswap hfuel hrun', references_append, references_cons]
  rw [references_cons, List.toFinset_cons] at hcard
  exact SecondChance.mem_run_of_card_le hnew hcard

theorem clock_keepsLoaded (hm : 1 ≤ m ∧ m ≤ 2 ^ 20) (hfuel : m < fuel) :
    KeepsLoaded (clock fuel : Functions ClockHand φ) .zero m :=
  fun _ _ _ _ _ _ _ _ _ hswap hrun hrun' => clock_kept hm hfuel hswap hrun hrun'

/-- Before the trace no page is in memory. -/
theorem exists_simulate_nil {fns : Functions σ φ} (hfns : fns.Respectful) (io : FileOps φ)
    (hm : m ≤ 2 ^ 20) (hswap : swapsize < 2 ^ 32) (physmem : Memory) (fd : φ) (alg : σ) :
    ∃ s, simulate fns io m swapsize physmem fd alg [] = .ok s ∧ ∀ q, (s.entry q).valid = false := by
  obtain ⟨bm, _, _, hs, _⟩ := simulate_nil hfns io hm hswap physmem fd alg
  exact ⟨_, hs, fun q => ((hfns.init _).entry q).valid.trans PgtblEntry.fresh_valid⟩

/-- Of two pages in two frames, both stay. -/
theorem clock_keepsLoaded_two : ∃ s : Sim ClockHand OpenFile,
    simulate (clock 3) regularFile.toFileOps 2 4 (fun _ => 0) .empty .zero
      [⟨'L', 0x0⟩, ⟨'L', 0x1000⟩] = .ok s ∧ (s.entry (pteOf 0x0)).valid := by
  have hfns : (clock 3 : Functions ClockHand OpenFile).Respectful := clock_respectful
  obtain ⟨s₀, hs₀, hinvalid⟩ := exists_simulate_nil hfns regularFile.toFileOps
    (show 2 ≤ 2 ^ 20 by decide) (show 4 < 2 ^ 32 by decide) (fun _ => 0) .empty .zero
  obtain ⟨s, hs, _⟩ := ends_of_range (by decide) (clock_runs regularFile.toFileOps
    (show 1 ≤ 2 ∧ 2 ≤ 2 ^ 20 by decide) (show 4 < 2 ^ 32 by decide) (show 2 < 3 by decide)
    (fun _ => 0) .empty [⟨'L', 0x0⟩, ⟨'L', 0x1000⟩])
  exact ⟨s, hs, clock_keepsLoaded (by decide) (by decide) _ 4 _ _ [] [⟨'L', 0x1000⟩] ⟨'L', 0x0⟩ s₀ s
    (by decide) hs₀ hs (hinvalid _) (by decide)⟩

/-! ## fifo -/

/-- What was loaded more recently than the latest load of a page comes after it. -/
theorem mem_of_age_lt {α : Type} [DecidableEq α] {before since : List α} {p q : α}
    (hp : p ∉ since) (hlt : age (before ++ p :: since) q < age (before ++ p :: since) p) :
    q ∈ since := by
  have hrev : (before ++ p :: since).reverse = since.reverse ++ p :: before.reverse := by simp
  have hp' : age (before ++ p :: since) p = since.length := by
    rw [age, hrev, List.idxOf_append_of_notMem (by simpa using hp), List.idxOf_cons_self,
      Nat.add_zero, List.length_reverse]
  by_contra hq
  rw [hp', age, hrev, List.idxOf_append_of_notMem (by simpa using hq), List.length_reverse] at hlt
  omega

/-- In a full memory of fifo a page leaves only if all others were loaded after it. -/
theorem fifo_victim {io : FileOps φ} {s s' : Sim FifoEnds φ} {history : List PtePtr} {Q : List Nat}
    (h : FifoOrder history s Q) (hM : Mapped none s) (hmem : 1 ≤ s.memsize)
    (hacc : accessMem fifo io a s = .ok s') (hp : p ∈ s.memory) (hgone : p ∉ s'.memory) :
    pteOf a.vaddr ∉ s.memory ∧ s.memory.card = s.memsize ∧
      ∀ q ∈ s.memory, q ≠ p → age history q < age history p := by
  obtain ⟨hinvalid, hfree, f, s₁, hevict, hpage⟩ := accessMem_evicted fifo_respectful hM hacc hp hgone
  have hcard : s.memory.card = s.memsize := by
    rw [card_memory hM]
    exact framesInUse_full (findFree_eq_none.mp hfree)
  refine ⟨hinvalid, hcard, ?_⟩
  have hM₀ := mapped_initSecondLevel hM (pgdirIndex a.vaddr)
  have h₀ := h.initSecondLevel (pgdirIndex a.vaddr)
  obtain ⟨x, Q', s₂, rfl, hevict', _⟩ := h₀.evict hM₀ (by simpa using hmem)
    (by simpa [findFree] using hfree)
  cases hevict.symm.trans hevict'
  intro q hq hne
  obtain ⟨i, hi⟩ := (mem_memory_iff_page hM).mp hq
  have hiQ : i ∈ Q' := by
    refine (List.mem_cons.mp ((h.mem i).mpr (by rw [hi]; rfl))).resolve_left ?_
    rintro rfl
    exact hne (Option.some.inj (hi.symm.trans hpage))
  have hlt := (List.pairwise_cons.mp h.sorted).1 i hiQ
  simpa only [frameAge, hi, hpage] using hlt

/-- Along the accesses that follow its load, a page stays, and what is loaded is among them. -/
theorem fifo_loads_since {io : FileOps φ} {s s' : Sim FifoEnds φ} (hm : 1 ≤ m ∧ m ≤ 2 ^ 20)
    (hswap : swapsize < 2 ^ 32) (hrun : simulate fifo io m swapsize physmem fd .zero as = .ok s)
    (hrun' : simulate fifo io m swapsize physmem fd .zero (as ++ a :: bs) = .ok s')
    (hmiss : (s.entry (pteOf a.vaddr)).valid = false)
    (hcard : (references (a :: bs)).toFinset.card ≤ m) :
    pteOf a.vaddr ∈ s'.memory ∧ ∃ since, loads io m swapsize physmem fd (as ++ a :: bs) =
      loads io m swapsize physmem fd as ++ pteOf a.vaddr :: since ∧ pteOf a.vaddr ∉ since ∧
      since ⊆ references bs := by
  induction bs using List.reverseRecOn generalizing s' with
  | nil =>
    obtain ⟨hM, _⟩ := simulate_mapped fifo_respectful hm.2 hswap hrun
    have hacc : accessMem fifo io a s = .ok s' := by
      rwa [simulate_concat, hrun, ok_bind] at hrun'
    have hloads : loads io m swapsize physmem fd (as ++ [a]) =
        loads io m swapsize physmem fd as ++ loaded a s := observe_concat hrun a
    rw [loaded, hmiss, if_neg Bool.false_ne_true] at hloads
    exact ⟨(accessMem_use fifo_respectful hM hacc).mem, [], hloads, List.not_mem_nil,
      List.nil_subset _⟩
  | append_singleton bs b ih =>
    have hsplit : as ++ a :: (bs ++ [b]) = as ++ a :: bs ++ [b] := by simp
    have hrefs : references (a :: (bs ++ [b])) = references (a :: bs) ++ [pteOf b.vaddr] := by
      rw [← List.cons_append, references_concat]
    rw [hsplit] at hrun' ⊢
    rw [hrefs, List.toFinset_append] at hcard
    have hstep := hrun'
    rw [simulate_concat] at hstep
    obtain ⟨t, ht, hacc⟩ := bind_eq_ok.mp hstep
    obtain ⟨hp, since, hloads, hnew, hsub⟩ :=
      ih ht ((Finset.card_le_card Finset.subset_union_left).trans hcard)
    obtain ⟨hM, hmem, Q, hQ⟩ := of_run ht (fifo_runs io hm hswap physmem fd _)
    have hkept : pteOf a.vaddr ∈ s'.memory := by
      by_contra hgone
      obtain ⟨hb, hfull, hage⟩ := fifo_victim hQ hM (hmem ▸ hm.1) hacc hp hgone
      -- All pages in memory were accessed since, and the one accessed now is not among them.
      have hall : insert (pteOf b.vaddr) t.memory ⊆
          (references (a :: bs)).toFinset ∪ [pteOf b.vaddr].toFinset := by
        intro q hq
        rcases Finset.mem_insert.mp hq with rfl | hq
        · simp
        · by_cases hqp : q = pteOf a.vaddr
          · simp [hqp, references_cons]
          · have hlt := hage q hq hqp
            rw [hloads] at hlt
            simp [references_cons, hsub (mem_of_age_lt hnew hlt)]
      have hle := Finset.card_le_card hall
      rw [Finset.card_insert_of_notMem hb] at hle
      omega
    have hloads' : loads io m swapsize physmem fd (as ++ a :: bs ++ [b]) =
        loads io m swapsize physmem fd (as ++ a :: bs) ++ loaded b t := observe_concat ht b
    refine ⟨hkept, since ++ loaded b t, by rw [hloads', hloads]; simp, ?_, ?_⟩
    · rw [List.mem_append, not_or]
      refine ⟨hnew, fun hin => ?_⟩
      unfold loaded at hin
      split at hin
      · cases hin
      · rename_i hinvalid
        rw [List.mem_singleton] at hin
        exact hinvalid (hin ▸ (mem_memory hM).mp hp)
    · intro q hq
      rw [references_concat]
      rcases List.mem_append.mp hq with hq | hq
      · exact List.mem_append_left _ (hsub hq)
      · unfold loaded at hq
        split at hq
        · cases hq
        · exact List.mem_append_right _ hq

theorem fifo_kept {io : FileOps φ} {s s' : Sim FifoEnds φ} (hm : 1 ≤ m ∧ m ≤ 2 ^ 20)
    (hswap : swapsize < 2 ^ 32)
    (hrun : simulate fifo io m swapsize physmem fd .zero as = .ok s)
    (hrun' : simulate fifo io m swapsize physmem fd .zero (as ++ a :: bs) = .ok s')
    (hmiss : (s.entry (pteOf a.vaddr)).valid = false)
    (hcard : (references (a :: bs)).toFinset.card ≤ m) : (s'.entry (pteOf a.vaddr)).valid := by
  obtain ⟨hM, _⟩ := simulate_mapped fifo_respectful hm.2 hswap hrun'
  exact (mem_memory hM).mp (fifo_loads_since hm hswap hrun hrun' hmiss hcard).1

theorem fifo_keepsLoaded (hm : 1 ≤ m ∧ m ≤ 2 ^ 20) :
    KeepsLoaded (fifo : Functions FifoEnds φ) .zero m :=
  fun _ _ _ _ _ _ _ _ _ hswap hrun hrun' => fifo_kept hm hswap hrun hrun'

/-- Of two pages in two frames, both stay. -/
theorem fifo_keepsLoaded_two : ∃ s : Sim FifoEnds OpenFile,
    simulate fifo regularFile.toFileOps 2 4 (fun _ => 0) .empty .zero
      [⟨'L', 0x0⟩, ⟨'L', 0x1000⟩] = .ok s ∧ (s.entry (pteOf 0x0)).valid := by
  obtain ⟨s₀, hs₀, hinvalid⟩ := exists_simulate_nil fifo_respectful regularFile.toFileOps
    (show 2 ≤ 2 ^ 20 by decide) (show 4 < 2 ^ 32 by decide) (fun _ => 0) .empty .zero
  obtain ⟨s, hs, _⟩ := ends_of_range (by decide) (fifo_runs regularFile.toFileOps
    (show 1 ≤ 2 ∧ 2 ≤ 2 ^ 20 by decide) (show 4 < 2 ^ 32 by decide) (fun _ => 0) .empty
    [⟨'L', 0x0⟩, ⟨'L', 0x1000⟩])
  exact ⟨s, hs, fifo_keepsLoaded (by decide) _ 4 _ _ [] [⟨'L', 0x1000⟩] ⟨'L', 0x0⟩ s₀ s
    (by decide) hs₀ hs (hinvalid _) (by decide)⟩

/-! ## Competition -/

/-- Against any other policy in at most as many frames, over the same trace. -/
theorem KeepsLoaded.competitive {fns : Functions σ φ} {alg : σ} (hkeeps : KeepsLoaded fns alg m)
    (hfns : fns.Respectful) {τ : Type} {fns' : Functions τ ψ} {alg' : τ} (hfns' : fns'.Respectful)
    {io : FileOps φ} {io' : FileOps ψ} (hm : 1 ≤ m ∧ m ≤ 2 ^ 20) (hn : n ≤ m)
    (hswap : swapsize < 2 ^ 32) (hswap' : swapsize' < 2 ^ 32) {s : Sim σ φ} {s' : Sim τ ψ}
    (hrun : simulate fns io m swapsize physmem fd alg trace = .ok s)
    (hrun' : simulate fns' io' n swapsize' physmem' fd' alg' trace = .ok s') :
    (m - n + 1) * s.missCount ≤ m * s'.missCount + m * (m - n) := by
  have hle := (demand hfns hm.2 hswap hrun).competitive (demand hfns' (hn.trans hm.2) hswap' hrun') ?_
    hn hm.1
  · rwa [demand_misses, demand_misses] at hle
  · intro as a bs has hmiss hcard
    obtain ⟨t, ht⟩ := simulate_prefix hrun ((List.prefix_append as (a :: bs)).trans has)
    obtain ⟨t', ht'⟩ := simulate_prefix hrun has
    change _ ∉ readAfter _ _ _ _ _ _ _ _ _ as at hmiss
    change _ ∈ readAfter _ _ _ _ _ _ _ _ _ (as ++ a :: bs)
    rw [readAfter_of_ok ht, mem_memory (simulate_mapped hfns hm.2 hswap ht).1] at hmiss
    rw [readAfter_of_ok ht', mem_memory (simulate_mapped hfns hm.2 hswap ht').1]
    exact hkeeps io swapsize physmem fd as bs a t t' hswap ht ht' (by simpa using hmiss) hcard

/-- In `m` frames, lru, fifo and clock miss at most `m / (m - n + 1)` times as often as any policy
does in `n` frames, but for a constant; with as many frames, at most `m` times as often. -/
theorem simulate_competitive {io₁ : FileOps φ} {io₂ : FileOps φ} {io₃ : FileOps φ}
    {io' : FileOps ψ} (hm : 2 ≤ m ∧ m ≤ 2 ^ 20) (hn : n ≤ m) (hfuel : m < fuel)
    (hswap : swapsize < 2 ^ 32) (hswap' : swapsize' < 2 ^ 32) {s₁ : Sim LruNodes φ}
    {s₂ : Sim FifoEnds φ} {s₃ : Sim ClockHand φ}
    (hrun₁ : simulate lru io₁ m swapsize physmem fd .zero trace = .ok s₁)
    (hrun₂ : simulate fifo io₂ m swapsize physmem fd .zero trace = .ok s₂)
    (hrun₃ : simulate (clock fuel) io₃ m swapsize physmem fd .zero trace = .ok s₃)
    {fns : Functions σ ψ} (hfns : fns.Respectful) {alg : σ} {s' : Sim σ ψ}
    (hrun' : simulate fns io' n swapsize' physmem' fd' alg trace = .ok s') :
    (m - n + 1) * s₁.missCount ≤ m * s'.missCount + m * (m - n) ∧
      (m - n + 1) * s₂.missCount ≤ m * s'.missCount + m * (m - n) ∧
      (m - n + 1) * s₃.missCount ≤ m * s'.missCount + m * (m - n) := by
  have hm' : 1 ≤ m ∧ m ≤ 2 ^ 20 := ⟨Nat.le_of_succ_le hm.1, hm.2⟩
  have hlru := (lru_keepsLoaded hm).competitive lru_respectful hfns hm' hn hswap hswap' hrun₁ hrun'
  have hkeeps₂ : KeepsLoaded (fifo : Functions FifoEnds φ) .zero m :=
    fun _ _ _ _ _ _ _ _ _ hswap hrun hrun' => fifo_kept hm' hswap hrun hrun'
  have hfifo := hkeeps₂.competitive fifo_respectful hfns hm' hn hswap hswap' hrun₂ hrun'
  have hkeeps₃ : KeepsLoaded (clock fuel : Functions ClockHand φ) .zero m :=
    fun _ _ _ _ _ _ _ _ _ hswap hrun hrun' => clock_kept hm' hfuel hswap hrun hrun'
  have hclock := hkeeps₃.competitive clock_respectful hfns hm' hn hswap hswap' hrun₃ hrun'
  exact ⟨hlru, hfifo, hclock⟩

/-- Two accesses in two frames, against rand in one. -/
theorem simulate_competitive_rand :
    ∃ s₁ s₂ s₃ s', simulate lru regularFile.toFileOps 2 4 (fun _ => 0) .empty .zero
        [⟨'L', 0x0⟩, ⟨'L', 0x1000⟩] = .ok s₁ ∧
      simulate fifo regularFile.toFileOps 2 4 (fun _ => 0) .empty .zero
        [⟨'L', 0x0⟩, ⟨'L', 0x1000⟩] = .ok s₂ ∧
      simulate (clock 3) regularFile.toFileOps 2 4 (fun _ => 0) .empty .zero
        [⟨'L', 0x0⟩, ⟨'L', 0x1000⟩] = .ok s₃ ∧
      simulate rand regularFile.toFileOps 1 4 (fun _ => 0) .empty ⟨fun n => n, 0⟩
        [⟨'L', 0x0⟩, ⟨'L', 0x1000⟩] = .ok s' ∧
      2 * s₁.missCount ≤ 2 * s'.missCount + 2 ∧ 2 * s₂.missCount ≤ 2 * s'.missCount + 2 ∧
      2 * s₃.missCount ≤ 2 * s'.missCount + 2 := by
  obtain ⟨s₁, hs₁, _⟩ := @simulate_caches _ regularFile.toFileOps 2 4 (by decide) (by decide)
    (fun _ => 0) .empty [⟨'L', 0x0⟩, ⟨'L', 0x1000⟩] (by decide)
  obtain ⟨s', hs'⟩ := simulate_ok (rand_chooses.answers regularFile.toFileOps
    (show 1 ≤ 1 ∧ 1 ≤ 2 ^ 20 by decide) (show 4 < 2 ^ 32 by decide) (fun _ => 0) .empty
    ⟨fun n => n, 0⟩ [⟨'L', 0x0⟩, ⟨'L', 0x1000⟩]) (by decide) (by decide) (by decide)
  obtain ⟨s₂, hs₂, _⟩ := ends_of_range (by decide) (fifo_runs regularFile.toFileOps
    (show 1 ≤ 2 ∧ 2 ≤ 2 ^ 20 by decide) (show 4 < 2 ^ 32 by decide) (fun _ => 0) .empty
    [⟨'L', 0x0⟩, ⟨'L', 0x1000⟩])
  obtain ⟨s₃, hs₃, _⟩ := ends_of_range (by decide) (clock_runs regularFile.toFileOps
    (show 1 ≤ 2 ∧ 2 ≤ 2 ^ 20 by decide) (show 4 < 2 ^ 32 by decide) (show 2 < 3 by decide)
    (fun _ => 0) .empty [⟨'L', 0x0⟩, ⟨'L', 0x1000⟩])
  have hle := simulate_competitive (show 2 ≤ 2 ∧ 2 ≤ 2 ^ 20 by decide) (show 1 ≤ 2 by decide)
    (show 2 < 3 by decide) (by decide) (by decide) hs₁ hs₂ hs₃ rand_chooses.toRespectful hs'
  exact ⟨s₁, s₂, s₃, s', hs₁, hs₂, hs₃, hs', hle⟩

end Paging

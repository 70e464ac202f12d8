-- SUMMARY: The inversion of an access: the way it went, the counters it bumped, and the rule for the runs that end.
import OperatingSystems.Paging.Accesses

/-!
# The course of an access

An access that returns went one of three ways, and on each of them the state in which it called
`ref_fcn` is known exactly. Every property of runs that speaks of counters, dirty bits or bytes is
read off this inversion.
-/

namespace Paging

open Library Library.Run

variable {σ φ : Type} {s s' t u : Sim σ φ} {p q r : PtePtr} {f : Nat}

/-! ## The three ways -/

variable {fns : Functions σ φ} {io : FileOps φ} {vaddr : Addr} {type : Char}

/-- The ways an access can go, each with the state in which it calls `ref_fcn`. On the last of them
the page `q` leaves the frame `f`. -/
inductive Course (fns : Functions σ φ) (io : FileOps φ) (vaddr : Addr) (type : Char)
    (s : Sim σ φ) : Sim σ φ → Prop
  | hit : (s.entry (pteOf vaddr)).valid →
      Course fns io vaddr type s (touched (pteOf vaddr) vaddr type
        { initSecondLevel (pgdirIndex vaddr) s with
          hitCount := (initSecondLevel (pgdirIndex vaddr) s).hitCount + 1 })
  | free (f : Nat) : (s.entry (pteOf vaddr)).valid = false → findFree s = some f →
      Course fns io vaddr type s (touched (pteOf vaddr) vaddr type
        (place (s.entry (pteOf vaddr)).onswap (pteOf vaddr) f vaddr
          (record (pteOf vaddr) f (initSecondLevel (pgdirIndex vaddr) s))))
  | evict (f : Nat) (q : PtePtr) (off : Int) (s₁ s₂ u : Sim σ φ) :
      (s.entry (pteOf vaddr)).valid = false → findFree s = none →
      fns.evict (initSecondLevel (pgdirIndex vaddr) s) = .ok (f, s₁) → s₁.page f = some q →
      swapPageout io f (toInt (s₁.entry q).swapOff) s₁ = .ok (off, s₂) →
      fetchPage io f (pteOf vaddr) (markSwapped q off s₂) = .ok u →
      Course fns io vaddr type s (touched (pteOf vaddr) vaddr type
        (place (s.entry (pteOf vaddr)).onswap (pteOf vaddr) f vaddr (record (pteOf vaddr) f u)))

/-- An index past the coremap, where `evict_fcn` is called, is a fault. -/
theorem findPhyspage_evict_outOfBounds {s₁ : Sim σ φ} (h : evictCall vaddr s = some t)
    (hevict : fns.evict t = .ok (f, s₁)) (hf : ¬f < s₁.memsize) :
    findPhyspage fns io vaddr type s = .error .outOfBounds := by
  obtain ⟨⟨hdir, hvalid, hfree⟩, rfl⟩ := evictCall_eq_some.mp h
  have hfree₀ : findFree (initSecondLevel (pgdirIndex vaddr) s) = none := by
    simpa [findFree] using hfree
  refine findPhyspage_error hdir (resolve_error (by simpa using hvalid) ?_)
  simp only [allocateFrame, hfree₀, hevict, ok_bind, need_of_not hf, error_bind]

/-- An access to an address inside the page directory comes to the call of `ref_fcn`, if
`evict_fcn` gives a frame where it is called. -/
theorem Course.exists_of_evict (io : FileOps φ) (type : Char) (hfns : fns.Respectful)
    (h : Mapped none s)
    (hdir : pgdirIndex vaddr < PTRS_PER_PGDIR)
    (hevict : ∀ t, evictCall vaddr s = some t → ∃ f s₁, fns.evict t = .ok (f, s₁) ∧ f < t.memsize) :
    ∃ t, Course fns io vaddr type s t ∧
      findPhyspage fns io vaddr type s = callRef fns (pteOf vaddr) t := by
  cases hvalid : (s.entry (pteOf vaddr)).valid with
  | true => exact ⟨_, .hit hvalid, findPhyspage_hit h hdir hvalid⟩
  | false =>
    cases hfree : findFree s with
    | some f => exact ⟨_, .free f hvalid hfree, findPhyspage_free h hdir hvalid hfree⟩
    | none =>
      obtain ⟨f, s₁, hcall, hlt⟩ := hevict _ (evictCall_eq_some.mpr ⟨⟨hdir, hvalid, hfree⟩, rfl⟩)
      obtain ⟨h₁, _, hall, _, _⟩ := hfns.evict_full h hfree hcall
      rw [← (hfns.evict _ _ _ hcall).memsize] at hlt
      obtain ⟨q, off, s₂, u, hout, hin, hev, _⟩ := evict_stages io (pteOf vaddr) h₁ hall hlt
      exact ⟨_, .evict f q off s₁ s₂ u hvalid hfree hcall hev.page hout hin,
        findPhyspage_evict hdir hvalid hfree hcall hlt (Mapped.inUse_of_page hev.page).2 hout hin
          ⟨by rw [hev.memsize]; exact hlt, hev.mapped.memsize_le⟩⟩

/-- Inversion: an access that returns took one of the ways, and then `ref_fcn` returned. -/
theorem course_of_findPhyspage {ptr : Nat} (hfns : fns.Respectful) (h : Mapped none s)
    (hok : findPhyspage fns io vaddr type s = .ok (ptr, s')) :
    ∃ t, Course fns io vaddr type s t ∧ fns.ref (pteOf vaddr) t = .ok s' ∧
      ptr = physAddr (s'.entry (pteOf vaddr)).frameNo := by
  have hdir : pgdirIndex vaddr < PTRS_PER_PGDIR := by
    by_contra hdir
    rw [findPhyspage_outOfBounds hdir] at hok
    cases hok
  have hevict : ∀ t, evictCall vaddr s = some t →
      ∃ f s₁, fns.evict t = .ok (f, s₁) ∧ f < t.memsize := by
    intro t hcall
    cases hevict : fns.evict t with
    | error e =>
      rw [findPhyspage_evictCall hcall hevict] at hok
      cases hok
    | ok r =>
      refine ⟨r.1, r.2, rfl, ?_⟩
      by_contra hge
      rw [← (hfns.evict _ _ _ hevict).memsize] at hge
      rw [findPhyspage_evict_outOfBounds hcall hevict hge] at hok
      cases hok
  obtain ⟨t, ht, heq⟩ := Course.exists_of_evict io type hfns h hdir hevict
  rw [hok] at heq
  obtain ⟨s'', href, hptr⟩ := bind_eq_ok.mp heq.symm
  cases hptr
  exact ⟨t, ht, href, rfl⟩

/-- There is one way for each access. -/
theorem Course.unique (hc : Course fns io vaddr type s t) (hc' : Course fns io vaddr type s u) :
    t = u := by
  cases hc with
  | hit hvalid =>
    cases hc' with
    | hit _ => rfl
    | free _ hinvalid _ => rw [hvalid] at hinvalid; cases hinvalid
    | evict _ _ _ _ _ _ hinvalid => rw [hvalid] at hinvalid; cases hinvalid
  | free f hinvalid hfree =>
    cases hc' with
    | hit hvalid => rw [hvalid] at hinvalid; cases hinvalid
    | free g _ hfree' =>
      cases hfree.symm.trans hfree'
      rfl
    | evict _ _ _ _ _ _ _ hfull => rw [hfree] at hfull; cases hfull
  | evict f q off s₁ s₂ v hinvalid hfull hevict hpage hout hin =>
    cases hc' with
    | hit hvalid => rw [hvalid] at hinvalid; cases hinvalid
    | free _ _ hfree => rw [hfree] at hfull; cases hfull
    | evict f' q' off' s₁' s₂' v' _ _ hevict' hpage' hout' hin' =>
      cases hevict.symm.trans hevict'
      cases hpage.symm.trans hpage'
      cases hout.symm.trans hout'
      cases hin.symm.trans hin'
      rfl

/-- What an eviction on the third way has done to the globals, and how it was counted. -/
theorem Evicted.of_stages {off : Int} {s₁ s₂ : Sim σ φ} (h : Mapped none s₁)
    (hall : ∀ i < s₁.memsize, (s₁.coremap i).inUse) (hpage : s₁.page f = some q)
    (hout : swapPageout io f (toInt (s₁.entry q).swapOff) s₁ = .ok (off, s₂))
    (hin : fetchPage io f p (markSwapped q off s₂) = .ok u) :
    Evicted io p f q s₁ u ∧ u.counts = s₁.counts.evict (s₁.entry q).dirty := by
  obtain ⟨q', off', s₂', u', hout', hin', hev, hcounts⟩ :=
    evict_stages io p h hall (h.page_lt hpage)
  cases hpage.symm.trans hev.page
  cases hout.symm.trans hout'
  cases hin.symm.trans hin'
  exact ⟨hev, hcounts⟩

/-- Wherever the access goes, its page arrives in a frame. -/
theorem Course.arrived (hc : Course fns io vaddr type s t) (hfns : fns.Respectful)
    (h : Mapped none s) :
    ∃ f s₁, Arrived (pteOf vaddr) f s₁ t ∧ Mapped none s₁ ∧ s₁.memsize = s.memsize ∧
      s₁.page = s.page := by
  cases hc with
  | hit hvalid => exact ⟨_, s, .of_hit h hvalid _ _ _, h, rfl, rfl⟩
  | free f hvalid hfree => exact ⟨f, s, .of_free h hvalid hfree _ _ _ _, h, rfl, rfl⟩
  | evict f q off s₁ s₂ u hvalid hfree hevict hpage hout hin =>
    obtain ⟨h₁, hmem, hall, hpages, hentry⟩ := hfns.evict_full h hfree hevict
    obtain ⟨hev, _⟩ := Evicted.of_stages h₁ hall hpage hout hin
    exact ⟨f, s₁, .of_evicted h₁ ((hentry _).valid.trans hvalid) hev _ _ _, h₁, hmem, hpages⟩

/-- How an access is counted. -/
theorem Course.counts (hc : Course fns io vaddr type s t) (hfns : fns.Respectful)
    (h : Mapped none s) :
    (s.entry (pteOf vaddr)).valid ∧
      t.counts = { s.counts with hit := s.counts.hit + 1, ref := s.counts.ref + 1 } ∨
    (s.entry (pteOf vaddr)).valid = false ∧ (∃ f, findFree s = some f) ∧
      t.counts = { s.counts with miss := s.counts.miss + 1, ref := s.counts.ref + 1 } ∨
    (s.entry (pteOf vaddr)).valid = false ∧ findFree s = none ∧ ∃ f q s₁,
      fns.evict (initSecondLevel (pgdirIndex vaddr) s) = .ok (f, s₁) ∧ s.page f = some q ∧
      t.counts = { s.counts.evict (s.entry q).dirty with
        miss := s.counts.miss + 1, ref := s.counts.ref + 1 } := by
  cases hc with
  | hit hvalid =>
    refine .inl ⟨hvalid, ?_⟩
    rw [← counts_initSecondLevel (s := s) (pgdirIndex vaddr)]
    rfl
  | free f hvalid hfree =>
    refine .inr (.inl ⟨hvalid, ⟨f, hfree⟩, ?_⟩)
    simp
  | evict f q off s₁ s₂ u hvalid hfree hevict hpage hout hin =>
    obtain ⟨h₁, hmem, hall, hpages, hentry⟩ := hfns.evict_full h hfree hevict
    obtain ⟨hev, hcounts⟩ := Evicted.of_stages h₁ hall hpage hout hin
    refine .inr (.inr ⟨hvalid, hfree, f, q, s₁, hevict, hpages ▸ hpage, ?_⟩)
    have hstep := (hfns.evict _ _ _ hevict).counts
    rw [counts_initSecondLevel] at hstep
    simp only [counts_touched, counts_place, counts_record, hcounts, hstep, (hentry q).dirty]
    cases (s.entry q).dirty
    · rfl
    · rfl

/-! ## Addresses of frames -/

/-- Before the access touches its page it changes the address of no frame. -/
theorem Course.touches (hc : Course fns io vaddr type s t) (hfns : fns.Respectful)
    (h : Mapped none s) : ∃ u, t = touched (pteOf vaddr) vaddr type u ∧
      ∀ i, (u.coremap i).vaddr = (s.coremap i).vaddr := by
  have hrecord : ∀ (u : Sim σ φ) (f : Nat) (onswap : Bool) (i : Nat),
      ((place onswap (pteOf vaddr) f vaddr (record (pteOf vaddr) f u)).coremap i).vaddr =
        (u.coremap i).vaddr := by
    intro u f onswap i
    rw [coremap_place, record, Sim.coremap_modifyFrame]
    by_cases hi : i = f
    · subst hi
      rw [Function.update_self]
    · rw [Function.update_of_ne hi]
  cases hc with
  | hit hvalid =>
    exact ⟨_, rfl, fun i => congrArg (fun c => (c i).vaddr) (Sim.coremap_initSecondLevel _)⟩
  | free f hvalid hfree =>
    exact ⟨_, rfl, fun i => by rw [hrecord, Sim.coremap_initSecondLevel]⟩
  | evict f q off s₁ s₂ u hvalid hfree hevict hpage hout hin =>
    obtain ⟨h₁, _, hall, _, _⟩ := hfns.evict_full h hfree hevict
    obtain ⟨hev, _⟩ := Evicted.of_stages h₁ hall hpage hout hin
    refine ⟨_, rfl, fun i => ?_⟩
    rw [hrecord, hev.coremap, (hfns.evict _ _ _ hevict).vaddr, Sim.coremap_initSecondLevel]

/-- The frame that the page is in has the address accessed, and the other frames keep theirs. -/
theorem Course.vaddr_eq (hc : Course fns io vaddr type s t) (hfns : fns.Respectful)
    (h : Mapped none s) (i : Nat) : (t.coremap i).vaddr =
      if t.page i = some (pteOf vaddr) then vaddr else (s.coremap i).vaddr := by
  obtain ⟨f, s₁, ht, _⟩ := hc.arrived hfns h
  obtain ⟨u, rfl, hu⟩ := hc.touches hfns h
  have hf : (u.entry (pteOf vaddr)).frameNo = f := by
    rw [← ht.frameNo, entry_touched, if_pos rfl, PgtblEntry.frameNo_mark]
  have hself : (touched (pteOf vaddr) vaddr type u).page f = some (pteOf vaddr) := by
    rw [ht.page, Function.update_self]
  have hcore : (touched (pteOf vaddr) vaddr type u).coremap =
      Function.update u.coremap f { u.coremap f with vaddr := vaddr } := by
    rw [touched, hf]
    rfl
  by_cases hi : i = f
  · subst hi
    rw [if_pos hself, hcore, Function.update_self]
  · have hne : (touched (pteOf vaddr) vaddr type u).page i ≠ some (pteOf vaddr) :=
      fun hpage => hi (ht.mapped.page_injective hpage hself)
    rw [if_neg hne, hcore, Function.update_of_ne hi, hu]

/-! ## Flags along an access -/

/-- The page is in memory or on swap. -/
def Sim.known (s : Sim σ φ) (p : PtePtr) : Bool := (s.entry p).valid || (s.entry p).onswap

theorem known_congr (h : (s.entry p).SameButRef (s'.entry p)) : s'.known p = s.known p := by
  simp only [Sim.known, h.valid, h.onswap]

/-- The page accessed is dirty afterwards if it is written to, was dirty in memory, or is new. -/
theorem Course.flags_self (hc : Course fns io vaddr type s t) :
    t.known (pteOf vaddr) = true ∧ (t.entry (pteOf vaddr)).dirty =
      (isWrite type || if (s.entry (pteOf vaddr)).valid then (s.entry (pteOf vaddr)).dirty
        else !s.known (pteOf vaddr)) := by
  cases hc with
  | hit hvalid =>
    rw [Sim.known, entry_hit, if_pos rfl, if_pos hvalid]
    simp [Bool.or_comm]
  | free f hvalid hfree =>
    rw [Sim.known, Sim.known, entry_load, if_pos rfl, hvalid]
    cases (s.entry (pteOf vaddr)).onswap <;> simp
  | evict f q off s₁ s₂ u hvalid hfree hevict hpage hout hin =>
    rw [Sim.known, Sim.known, entry_load, if_pos rfl, hvalid]
    cases (s.entry (pteOf vaddr)).onswap <;> simp

/-- The flags of the other pages: a victim keeps its dirty bit and is on swap. -/
theorem Course.flags_ne (hc : Course fns io vaddr type s t) (hfns : fns.Respectful)
    (h : Mapped none s) (hr : r ≠ pteOf vaddr) :
    t.known r = s.known r ∧ (t.entry r).dirty = (s.entry r).dirty := by
  cases hc with
  | hit hvalid =>
    rw [Sim.known, entry_hit, if_neg hr]
    exact ⟨rfl, rfl⟩
  | free f hvalid hfree =>
    rw [Sim.known, entry_load, if_neg hr, Sim.entry_initSecondLevel]
    exact ⟨rfl, rfl⟩
  | evict f q off s₁ s₂ u hvalid hfree hevict hpage hout hin =>
    obtain ⟨h₁, _, hall, _, hentry⟩ := hfns.evict_full h hfree hevict
    obtain ⟨hev, _⟩ := Evicted.of_stages h₁ hall hpage hout hin
    obtain ⟨off', _, hu⟩ := hev.entry
    rw [Sim.known, entry_load, if_neg hr, hu, ← known_congr (hentry r), ← (hentry r).dirty]
    by_cases hrq : r = q
    · subst hrq
      simp [Sim.known, ((h₁.backed f r (by simp)).mp hpage).1]
    · rw [if_neg hrq]
      exact ⟨rfl, rfl⟩

/-- Only the page accessed comes into memory. -/
theorem Course.valid_ne (hc : Course fns io vaddr type s t) (hfns : fns.Respectful)
    (h : Mapped none s) (hr : r ≠ pteOf vaddr) (hvalid : (t.entry r).valid) :
    (s.entry r).valid := by
  obtain ⟨f, s₁, ht, _, _, hpages⟩ := hc.arrived hfns h
  have hpage := ht.mapped.page_frameNo hvalid
  rw [ht.page, hpages] at hpage
  by_cases hf : (t.entry r).frameNo = f
  · rw [hf, Function.update_self] at hpage
    exact absurd (Option.some.inj hpage).symm hr
  · rw [Function.update_of_ne hf] at hpage
    exact ((h.backed _ r (by simp)).mp hpage).1

/-! ## Whole accesses and runs -/

/-- An access that returns is `find_physpage`, a store and perhaps a message. -/
theorem accessMem_course {a : Access} (hfns : fns.Respectful) (h : Mapped none s)
    (hacc : accessMem fns io a s = .ok s') :
    ∃ t u stderr, Course fns io a.vaddr a.type s t ∧ fns.ref (pteOf a.vaddr) t = .ok u ∧
      s' = { u with physmem := stored a u, stderr := stderr } := by
  obtain ⟨⟨ptr, u⟩, hfind, hrest⟩ := bind_eq_ok.mp hacc
  obtain ⟨t, ht, href, rfl⟩ := course_of_findPhyspage hfns h hfind
  obtain ⟨_, hneed, _⟩ := bind_eq_ok.mp hrest
  obtain ⟨stderr, hacc'⟩ := accessMem_of_findPhyspage hfind (of_need hneed)
  cases hacc.symm.trans hacc'
  exact ⟨t, u, stderr, ht, href, rfl⟩

/-- An access that returns was to an address inside the page directory. -/
theorem pgdirIndex_of_accessMem {a : Access} (hacc : accessMem fns io a s = .ok s') :
    pgdirIndex a.vaddr < PTRS_PER_PGDIR := by
  by_contra hdir
  simp only [accessMem, findPhyspage_outOfBounds hdir, error_bind] at hacc
  cases hacc

theorem mapped_accessMem {a : Access} (hfns : fns.Respectful) (h : Mapped none s)
    (hacc : accessMem fns io a s = .ok s') : Mapped none s' ∧ s'.memsize = s.memsize := by
  obtain ⟨t, u, stderr, hc, href, rfl⟩ := accessMem_course hfns h hacc
  obtain ⟨f, s₁, ht, _, hmem, _⟩ := hc.arrived hfns h
  have hstep := hfns.ref _ _ _ href
  exact ⟨(hstep.mapped ht.mapped).store _ _, hstep.memsize.trans (ht.memsize.trans hmem)⟩

/-- The rule for the runs that end: what holds at the start and is kept by every access that
returns. -/
theorem simulate_invariant {J : List Access → Sim σ φ → Prop} {m swapsize : Nat}
    {physmem : Memory} {fd : φ} {alg : σ} {trace : List Access} (hfns : fns.Respectful)
    (hm : m ≤ 2 ^ 20) (hswap : swapsize < 2 ^ 32)
    (hzero : ∀ bm : Bitmap, bm.nbits = swapsize → (∀ k < swapsize, bm.isset k = false) →
      J [] (fns.init (.zero m bm physmem fd alg)))
    (hstep : ∀ as a s s', simulate fns io m swapsize physmem fd alg as = .ok s → Mapped none s →
      s.memsize = m → J as s → accessMem fns io a s = .ok s' → J (as ++ [a]) s')
    (hrun : simulate fns io m swapsize physmem fd alg trace = .ok s) :
    Mapped none s ∧ s.memsize = m ∧ J trace s := by
  induction trace using List.reverseRecOn generalizing s with
  | nil =>
    obtain ⟨bm, hnbits, hclear, hs, hM, hmem⟩ := simulate_nil hfns io hm hswap physmem fd alg
    cases hrun.symm.trans hs
    exact ⟨hM, hmem, hzero bm hnbits hclear⟩
  | append_singleton as a ih =>
    rw [simulate_concat] at hrun
    obtain ⟨t, ht, hacc⟩ := bind_eq_ok.mp hrun
    obtain ⟨hM, hmem, hJ⟩ := ih ht
    obtain ⟨hM', hmem'⟩ := mapped_accessMem hfns hM hacc
    exact ⟨hM', hmem'.trans hmem, hstep as a t s ht hM hmem hJ hacc⟩

theorem simulate_mapped {m swapsize : Nat} {physmem : Memory} {fd : φ} {alg : σ}
    {trace : List Access} (hfns : fns.Respectful) (hm : m ≤ 2 ^ 20) (hswap : swapsize < 2 ^ 32)
    (hrun : simulate fns io m swapsize physmem fd alg trace = .ok s) :
    Mapped none s ∧ s.memsize = m := by
  obtain ⟨hM, hmem, -⟩ := simulate_invariant (J := fun _ _ => True) hfns hm hswap
    (fun _ _ _ => trivial) (fun _ _ _ _ _ _ _ _ _ => trivial) hrun
  exact ⟨hM, hmem⟩

/-- A frame has the address by which its page was last accessed. -/
theorem simulate_vaddr {m swapsize : Nat} {physmem : Memory} {fd : φ} {alg : σ}
    {trace : List Access} (hfns : fns.Respectful) (hm : m ≤ 2 ^ 20) (hswap : swapsize < 2 ^ 32)
    (hrun : simulate fns io m swapsize physmem fd alg trace = .ok s) {i : Nat}
    (hpage : s.page i = some p) :
    ∃ a ∈ trace, pteOf a.vaddr = p ∧ (s.coremap i).vaddr = a.vaddr := by
  have hJ := (simulate_invariant (J := fun as s => ∀ i p, s.page i = some p →
    ∃ a ∈ as, pteOf a.vaddr = p ∧ (s.coremap i).vaddr = a.vaddr) hfns hm hswap ?_ ?_ hrun).2.2
  · exact hJ i p hpage
  · intro bm _ _ i p hpage
    rw [(hfns.init _).page] at hpage
    cases hpage
  · intro as a s s' _ hM _ hJ hacc i q hpage
    obtain ⟨t, u, stderr, hc, href, rfl⟩ := accessMem_course hfns hM hacc
    have hstep := hfns.ref _ _ _ href
    have hpage' : t.page i = some q := by
      rw [← hstep.page]
      exact hpage
    have hvaddr := (hstep.vaddr i).trans (hc.vaddr_eq hfns hM i)
    by_cases hq : q = pteOf a.vaddr
    · subst hq
      rw [if_pos hpage'] at hvaddr
      exact ⟨a, by simp, rfl, hvaddr⟩
    · obtain ⟨f, s₁, ht, _, _, hpages⟩ := hc.arrived hfns hM
      have hi : i ≠ f := by
        rintro rfl
        rw [ht.page, Function.update_self] at hpage'
        exact hq (Option.some.inj hpage').symm
      rw [if_neg (by rw [hpage']; exact fun heq => hq (Option.some.inj heq))] at hvaddr
      rw [ht.page, Function.update_of_ne hi, hpages] at hpage'
      obtain ⟨b, hb, hbq, hbv⟩ := hJ i q hpage'
      exact ⟨b, by simp [hb], hbq, hvaddr.trans hbv⟩

/-! ## Policies that answer -/

/-- The calls that an access makes to a replacement algorithm are answered, `evict_fcn` with a
frame. -/
structure Answered (fns : Functions σ φ) (io : FileOps φ) (a : Access) (s : Sim σ φ) : Prop where
  ref : ∀ t, Course fns io a.vaddr a.type s t → ∃ s', fns.ref (pteOf a.vaddr) t = .ok s'
  evict : ∀ t, evictCall a.vaddr s = some t → ∃ f s', fns.evict t = .ok (f, s') ∧ f < t.memsize

/-- A replacement algorithm that keeps to its own data and answers each of its calls in a run. -/
structure Functions.Answers (fns : Functions σ φ) (io : FileOps φ) (m swapsize : Nat)
    (physmem : Memory) (fd : φ) (alg : σ) (trace : List Access) : Prop
    extends fns.Respectful where
  answers : ∀ as a, as ++ [a] <+: trace → ∀ s,
    simulate fns io m swapsize physmem fd alg as = .ok s → Answered fns io a s

/-- An access whose calls are answered returns, with a pointer to the frame of its page. -/
theorem Answered.findPhyspage {a : Access} (hans : Answered fns io a s) (hfns : fns.Respectful)
    (h : Mapped none s) (hdir : pgdirIndex a.vaddr < PTRS_PER_PGDIR) :
    ∃ t s', Course fns io a.vaddr a.type s t ∧ fns.ref (pteOf a.vaddr) t = .ok s' ∧
      Paging.findPhyspage fns io a.vaddr a.type s =
        .ok (physAddr (s'.entry (pteOf a.vaddr)).frameNo, s') ∧
      (s'.entry (pteOf a.vaddr)).valid ∧ s'.memsize = s.memsize ∧ Mapped none s' := by
  obtain ⟨t, hc, hfind⟩ := Course.exists_of_evict io a.type hfns h hdir hans.evict
  obtain ⟨s', href⟩ := hans.ref t hc
  obtain ⟨f, s₁, ht, _, hmem, _⟩ := hc.arrived hfns h
  have hstep := hfns.ref _ _ _ href
  have hpage : t.page f = some (pteOf a.vaddr) := by rw [ht.page, Function.update_self]
  refine ⟨t, s', hc, href, ?_, ?_, hstep.memsize.trans (ht.memsize.trans hmem),
    hstep.mapped ht.mapped⟩
  · rw [hfind, callRef, href, ok_bind]
  · rw [(hstep.entry _).valid]
    exact ((ht.mapped.backed f _ (by simp)).mp hpage).1

theorem Answered.accessMem {a : Access} (hans : Answered fns io a s) (hfns : fns.Respectful)
    (h : Mapped none s) (hdir : pgdirIndex a.vaddr < PTRS_PER_PGDIR) :
    ∃ s', Paging.accessMem fns io a s = .ok s' := by
  obtain ⟨_, s', _, _, hfind, hvalid, _, hM⟩ := hans.findPhyspage hfns h hdir
  obtain ⟨stderr, hacc⟩ := accessMem_of_findPhyspage hfind (hM.physSize_le (hM.frameNo_lt hvalid))
  exact ⟨_, hacc⟩

section

variable {m swapsize : Nat} {physmem : Memory} {fd : φ} {alg : σ} {trace as : List Access}

/-- What holds of a run, if it ends at all, holds of the state that it ends in. -/
theorem of_run {P : Sim σ φ → Prop} {e : Fault} {E : Prop}
    (hrun : simulate fns io m swapsize physmem fd alg trace = .ok s)
    (h : (∃ s, simulate fns io m swapsize physmem fd alg trace = .ok s ∧ P s) ∨
      simulate fns io m swapsize physmem fd alg trace = .error e ∧ E) : P s := by
  rcases h with ⟨s', hs', hP⟩ | ⟨herror, _⟩
  · cases hrun.symm.trans hs'
    exact hP
  · rw [hrun] at herror
    cases herror

/-- Addresses of 36 bits are inside the page directory, so a run over them ends. -/
theorem ends_of_range {P : Sim σ φ → Prop} {e : Fault}
    (hrange : ∀ a ∈ trace, a.vaddr.toNat < 2 ^ 36)
    (h : (∃ s, simulate fns io m swapsize physmem fd alg trace = .ok s ∧ P s) ∨
      simulate fns io m swapsize physmem fd alg trace = .error e ∧
        ∃ a ∈ trace, ¬pgdirIndex a.vaddr < PTRS_PER_PGDIR) :
    ∃ s, simulate fns io m swapsize physmem fd alg trace = .ok s ∧ P s := by
  refine h.resolve_right ?_
  rintro ⟨_, a, ha, hdir⟩
  exact hdir (pgdirIndex_lt (hrange a ha))

/-- What a run has come to after a part of its trace. -/
theorem simulate_prefix (hrun : simulate fns io m swapsize physmem fd alg trace = .ok s)
    (has : as <+: trace) : ∃ t, simulate fns io m swapsize physmem fd alg as = .ok t := by
  obtain ⟨bs, rfl⟩ := has
  rw [simulate] at hrun ⊢
  obtain ⟨s₀, hstart, hexec⟩ := bind_eq_ok.mp hrun
  rw [exec_append] at hexec
  obtain ⟨t, ht, _⟩ := bind_eq_ok.mp hexec
  exact ⟨t, by rw [hstart, ok_bind, ht]⟩

theorem Functions.Answers.of_prefix
    (hfns : fns.Answers io m swapsize physmem fd alg trace)
    (has : as <+: trace) : fns.Answers io m swapsize physmem fd alg as where
  toRespectful := hfns.toRespectful
  answers bs b hb := hfns.answers bs b (hb.trans has)

/-- The answers to the last access of a trace. -/
theorem Functions.Answers.last {a : Access}
    (hfns : fns.Answers io m swapsize physmem fd alg (trace ++ [a]))
    (hs : simulate fns io m swapsize physmem fd alg trace = .ok s) : Answered fns io a s :=
  hfns.answers trace a List.prefix_rfl s hs

theorem Functions.Answers.before {a : Access}
    (hfns : fns.Answers io m swapsize physmem fd alg (trace ++ [a])) :
    fns.Answers io m swapsize physmem fd alg trace :=
  hfns.of_prefix (List.prefix_append trace [a])

/-- Under a policy that answers its calls a run ends. -/
theorem simulate_ok (hfns : fns.Answers io m swapsize physmem fd alg trace) (hm : m ≤ 2 ^ 20)
    (hswap : swapsize < 2 ^ 32) (hrange : ∀ b ∈ trace, b.vaddr.toNat < 2 ^ 36) :
    ∃ s, simulate fns io m swapsize physmem fd alg trace = .ok s := by
  induction trace using List.reverseRecOn with
  | nil =>
    obtain ⟨_, _, _, hs, _⟩ := simulate_nil hfns.toRespectful io hm hswap physmem fd alg
    exact ⟨_, hs⟩
  | append_singleton as a ih =>
    obtain ⟨s, hs⟩ := ih hfns.before fun b hb => hrange b (by simp [hb])
    obtain ⟨hM, _⟩ := simulate_mapped hfns.toRespectful hm hswap hs
    obtain ⟨s', hacc⟩ := (hfns.last hs).accessMem hfns.toRespectful hM
      (pgdirIndex_lt (hrange a (by simp)))
    exact ⟨s', by rw [simulate_concat, hs, ok_bind, hacc]⟩

/-- In a run that ends all calls have been answered. -/
theorem Functions.Respectful.answers_of_simulate (hfns : fns.Respectful) (hm : m ≤ 2 ^ 20)
    (hswap : swapsize < 2 ^ 32)
    (hrun : ∃ s, simulate fns io m swapsize physmem fd alg trace = .ok s) :
    fns.Answers io m swapsize physmem fd alg trace where
  toRespectful := hfns
  answers as a ha s hs := by
    obtain ⟨s', hrun⟩ := hrun
    obtain ⟨u, hacc⟩ := simulate_prefix hrun ha
    rw [simulate_concat, hs, ok_bind] at hacc
    obtain ⟨hM, _⟩ := simulate_mapped hfns hm hswap hs
    obtain ⟨t, v, _, hc, href, _⟩ := accessMem_course hfns hM hacc
    refine ⟨fun t' hc' => ⟨v, hc.unique hc' ▸ href⟩, fun t' hcall => ?_⟩
    cases hevict : fns.evict t' with
    | error e =>
      have herr : findPhyspage fns io a.vaddr a.type s = .error e :=
        findPhyspage_evictCall hcall hevict
      simp only [accessMem, herr, error_bind] at hacc
      cases hacc
    | ok r =>
      refine ⟨r.1, r.2, rfl, ?_⟩
      by_contra hge
      rw [← (hfns.evict _ _ _ hevict).memsize] at hge
      have herr : findPhyspage fns io a.vaddr a.type s = .error .outOfBounds :=
        findPhyspage_evict_outOfBounds hcall hevict hge
      simp only [accessMem, herr, error_bind] at hacc
      cases hacc

/-- A policy that answers whenever it is asked does so in each run. -/
theorem Functions.Chooses.answers (hfns : fns.Chooses) (io : FileOps φ) (hm : 1 ≤ m ∧ m ≤ 2 ^ 20)
    (hswap : swapsize < 2 ^ 32) (physmem : Memory) (fd : φ) (alg : σ) (trace : List Access) :
    fns.Answers io m swapsize physmem fd alg trace where
  toRespectful := hfns.toRespectful
  answers as a _ s hs := by
    obtain ⟨_, hmem⟩ := simulate_mapped hfns.toRespectful hm.2 hswap hs
    refine ⟨fun t _ => hfns.answers_ref _ t, fun t hcall => hfns.answers_evict t ?_⟩
    obtain ⟨_, rfl⟩ := evictCall_eq_some.mp hcall
    rw [Sim.memsize_initSecondLevel]
    omega

end

end Paging

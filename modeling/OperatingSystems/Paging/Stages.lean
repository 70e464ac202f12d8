-- SUMMARY: What each stage of an access does to the globals, for any file operations.
import OperatingSystems.Paging.Simulator

/-!
# The stages of an access

One lemma for each function of the simulator, saying that it does not fault and what it leaves.
An assumption on the file is made only where a result needs one.
-/

namespace Paging

open Library Library.Run

variable {σ φ : Type} {s s' : Sim σ φ} {p q : PtePtr} {f i : Nat}

/-! ## Updates -/

namespace Sim

@[simp] theorem entry_modifyEntry (g : PgtblEntry → PgtblEntry) :
    (s.modifyEntry p g).entry q = if q = p then g (s.entry p) else s.entry q := by
  obtain ⟨pd, pi⟩ := p
  obtain ⟨qd, qi⟩ := q
  by_cases hd : qd = pd
  · subst hd
    by_cases hi : qi = pi
    · subst hi
      cases h : s.pgdir qd <;> simp [modifyEntry, entry, h]
    · cases h : s.pgdir qd <;> simp [modifyEntry, entry, h, hi]
  · simp [modifyEntry, entry, hd]

theorem modifyEntry_modifyEntry (g h : PgtblEntry → PgtblEntry) :
    (s.modifyEntry p g).modifyEntry p h = s.modifyEntry p fun e => h (g e) := by
  simp [modifyEntry]

@[simp] theorem entry_modifyFrame (g : Frame → Frame) : (s.modifyFrame i g).entry q = s.entry q :=
  rfl

@[simp] theorem coremap_modifyFrame (g : Frame → Frame) :
    (s.modifyFrame i g).coremap = Function.update s.coremap i (g (s.coremap i)) := rfl

@[simp] theorem coremap_modifyEntry (g : PgtblEntry → PgtblEntry) :
    (s.modifyEntry p g).coremap = s.coremap := rfl

@[simp] theorem entry_report (msg : String) : (s.report msg).entry q = s.entry q := rfl

@[simp] theorem entry_initSecondLevel (idx : Nat) : (initSecondLevel idx s).entry q = s.entry q := by
  unfold initSecondLevel
  cases h : s.pgdir idx with
  | some _ => rfl
  | none =>
    by_cases hq : q.dir = idx
    · simp [entry, hq, h]
    · simp [entry, hq]

@[simp] theorem coremap_initSecondLevel (idx : Nat) :
    (initSecondLevel idx s).coremap = s.coremap := by
  unfold initSecondLevel; split <;> rfl

@[simp] theorem memsize_initSecondLevel (idx : Nat) :
    (initSecondLevel idx s).memsize = s.memsize := by
  unfold initSecondLevel; split <;> rfl

@[simp] theorem alg_initSecondLevel (idx : Nat) : (initSecondLevel idx s).alg = s.alg := by
  unfold initSecondLevel; split <;> rfl

@[simp] theorem swapmap_initSecondLevel (idx : Nat) :
    (initSecondLevel idx s).swapmap = s.swapmap := by
  unfold initSecondLevel; split <;> rfl

@[simp] theorem swapfd_initSecondLevel (idx : Nat) :
    (initSecondLevel idx s).swapfd = s.swapfd := by
  unfold initSecondLevel; split <;> rfl

@[simp] theorem physmem_initSecondLevel (idx : Nat) :
    (initSecondLevel idx s).physmem = s.physmem := by
  unfold initSecondLevel; split <;> rfl

@[simp] theorem stderr_initSecondLevel (idx : Nat) :
    (initSecondLevel idx s).stderr = s.stderr := by
  unfold initSecondLevel; split <;> rfl

end Sim

/-! ### Eviction -/

section

variable (off : Int)

@[simp] theorem coremap_markSwapped : (markSwapped q off s).coremap = s.coremap := by
  simp only [markSwapped]; split <;> split <;> rfl

@[simp] theorem memsize_markSwapped : (markSwapped q off s).memsize = s.memsize := by
  simp only [markSwapped]; split <;> split <;> rfl

@[simp] theorem alg_markSwapped : (markSwapped q off s).alg = s.alg := by
  simp only [markSwapped]; split <;> split <;> rfl

@[simp] theorem physmem_markSwapped : (markSwapped q off s).physmem = s.physmem := by
  simp only [markSwapped]; split <;> split <;> rfl

@[simp] theorem swapmap_markSwapped : (markSwapped q off s).swapmap = s.swapmap := by
  simp only [markSwapped]; split <;> split <;> rfl

@[simp] theorem swapfd_markSwapped : (markSwapped q off s).swapfd = s.swapfd := by
  simp only [markSwapped]; split <;> split <;> rfl

theorem stderr_markSwapped (h : off ≠ INVALID_SWAP) : (markSwapped q off s).stderr = s.stderr := by
  simp only [markSwapped]
  rw [if_neg h]
  split <;> rfl

@[simp] theorem entry_markSwapped :
    (markSwapped q off s).entry p = if p = q then (s.entry q).swapOut off else s.entry p := by
  have hmod : ∀ t : Sim σ φ, t.entry = s.entry →
      (((t.modifyEntry q fun e => e.set PG_ONSWAP).modifyEntry q fun e => e.flip PG_VALID).modifyEntry
        q fun e => { e with swapOff := off }).entry p =
        if p = q then (s.entry q).swapOut off else s.entry p := by
    intro t ht
    rw [Sim.modifyEntry_modifyEntry, Sim.modifyEntry_modifyEntry, Sim.entry_modifyEntry, ht]
    rfl
  simp only [markSwapped]
  split <;> split <;> exact hmod _ rfl

end

/-! ### Swapping, whatever the file does -/

theorem toInt_of_lt {n : Nat} (h : n < 2 ^ 31) : toInt n = n := by
  unfold toInt
  apply Int.bmod_eq_of_le <;> omega

@[simp] theorem toInt_toInt (n : Int) : toInt (toInt n) = toInt n := Int.bmod_bmod

@[simp] theorem toInt_invalid : toInt INVALID_SWAP = INVALID_SWAP := by decide

@[simp] theorem toInt_slotOffset (k : Nat) : toInt (slotOffset k) = slotOffset k := toInt_toInt _

/-- The offset of a slot, however large its index, is not the invalid one: it is even. -/
theorem slotOffset_ne (k : Nat) : slotOffset k ≠ INVALID_SWAP := by
  unfold slotOffset toInt INVALID_SWAP SIMPAGESIZE
  rw [Int.bmod_def]
  split <;> omega

/-- The offsets of the first 2^27 slots are what one expects. -/
theorem slotOffset_of_lt {k : Nat} (h : k < 2 ^ 27) : slotOffset k = k * 16 := by
  unfold slotOffset SIMPAGESIZE
  rw [Nat.mod_eq_of_lt (by omega), toInt_of_lt (by omega)]
  push_cast
  rfl

/-- A frame below `memsize` lies inside `physmem`. -/
theorem physAddr_le {m : Nat} (hf : f < m) (hm : m ≤ 2 ^ 20) :
    physAddr f + SIMPAGESIZE ≤ m * SIMPAGESIZE % 2 ^ 32 := by
  simp only [physAddr, SIMPAGESIZE]
  omega

variable (io : FileOps φ)

/-- Whether `lseek` to an offset of the swap file and then the `write` of a frame there succeed. -/
def Sim.stores (io : FileOps φ) (f : Nat) (s : Sim σ φ) (off : Int) : Bool :=
  match io.lseek s.swapfd off with
  | .ok fd => (io.write fd (s.physmem.load (physAddr f) SIMPAGESIZE)).1 = some SIMPAGESIZE
  | .error _ => false

theorem writeSlot_spec {off : Int} (hoff : off ≠ INVALID_SWAP)
    (hframe : physAddr f + SIMPAGESIZE ≤ s.physSize) :
    ∃ fd stderr, writeSlot io f off s =
      .ok (if s.stores io f off then off else INVALID_SWAP,
        { s with swapfd := fd, stderr := stderr }) := by
  simp only [writeSlot]
  rw [need_of hoff, ok_bind, need_of hframe, ok_bind]
  cases hseek : io.lseek s.swapfd off with
  | error errno =>
    have hstored : s.stores io f off = false := by simp [Sim.stores, hseek]
    rw [hstored]
    exact ⟨_, _, rfl⟩
  | ok fd =>
    simp only
    split
    · rename_i hn
      have hstored : s.stores io f off = false := by simpa [Sim.stores, hseek] using hn
      rw [hstored]
      exact ⟨_, _, rfl⟩
    · rename_i hn
      have hstored : s.stores io f off = true := by simpa [Sim.stores, hseek] using hn
      rw [hstored]
      exact ⟨_, _, rfl⟩

/-- The offset at which `swap_pageout` writes, if it gets that far: that of the page's slot, or of
the one that `bitmap_alloc` finds for it. -/
def slotFor (bm : Bitmap) (off : Int) : Option Int :=
  if off = INVALID_SWAP then
    match bitmapAlloc bm with
    | .ok (some (k, _)) => some (slotOffset k)
    | _ => none
  else some off

/-- What `swap_pageout` does to the map and to the offset of a page, `stored` telling the offsets
at which the file takes it: the page keeps its slot or gets the lowest free one, gets none because
all are taken, or is left without the slot that could not be written. -/
inductive Pageout (stored : Int → Bool) (bm : Bitmap) (off : Int) : Bitmap → Int → Prop
  | kept : off ≠ INVALID_SWAP → stored off → Pageout stored bm off bm off
  | dropped : off ≠ INVALID_SWAP → stored off = false → Pageout stored bm off bm INVALID_SWAP
  | taken (k : Nat) : off = INVALID_SWAP → slotFor bm off = some (slotOffset k) → k < bm.nbits →
      k < 32 * bm.v.length → bm.isset k = false → (∀ j < k, bm.isset j) → stored (slotOffset k) →
      Pageout stored bm off (bm.take k) (slotOffset k)
  | leaked (k : Nat) : off = INVALID_SWAP → slotFor bm off = some (slotOffset k) → k < bm.nbits →
      k < 32 * bm.v.length → bm.isset k = false → stored (slotOffset k) = false →
      Pageout stored bm off (bm.take k) INVALID_SWAP
  | full : off = INVALID_SWAP → slotFor bm off = none → (∀ k < 32 * bm.v.length, bm.isset k) →
      Pageout stored bm off bm INVALID_SWAP

theorem swapPageout_spec (off : Int) (hwf : s.swapmap.WellFormed)
    (hframe : physAddr f + SIMPAGESIZE ≤ s.physSize) :
    ∃ off' bm fd stderr, swapPageout io f off s =
        .ok (off', { s with swapmap := bm, swapfd := fd, stderr := stderr }) ∧
      Pageout (s.stores io f) s.swapmap off bm off' := by
  unfold swapPageout
  by_cases hoff : off = INVALID_SWAP
  · rw [if_pos hoff]
    rcases Bitmap.bitmapAlloc_spec hwf with ⟨hnone, hall⟩ | ⟨k, hsome, hk, hcap, hclear, hlow⟩
    · have hslot : slotFor s.swapmap off = none := by simp [slotFor, hoff, hnone]
      rw [hnone]
      exact ⟨_, _, _, _, rfl, .full hoff hslot hall⟩
    · have hslot : slotFor s.swapmap off = some (slotOffset k) := by simp [slotFor, hoff, hsome]
      obtain ⟨fd, stderr, hout⟩ := writeSlot_spec io (f := f)
        (s := { s with swapmap := s.swapmap.take k }) (slotOffset_ne k) hframe
      rw [hsome, ok_bind]
      refine ⟨_, _, _, _, hout, ?_⟩
      change Pageout _ _ _ _ (if s.stores io f (slotOffset k) then slotOffset k else INVALID_SWAP)
      split
      · exact .taken k hoff hslot hk hcap hclear hlow ‹_›
      · exact .leaked k hoff hslot hk hcap hclear (Bool.eq_false_of_not_eq_true ‹_›)
  · rw [if_neg hoff]
    obtain ⟨fd, stderr, hout⟩ := writeSlot_spec io hoff hframe
    refine ⟨_, _, _, _, hout, ?_⟩
    split
    · exact .kept hoff ‹_›
    · exact .dropped hoff (Bool.eq_false_of_not_eq_true ‹_›)

theorem swapPagein_spec {off : Int} (hoff : off ≠ INVALID_SWAP)
    (hframe : physAddr f + SIMPAGESIZE ≤ s.physSize) :
    ∃ r physmem fd stderr, swapPagein io f off s =
        .ok (r, { s with physmem := physmem, swapfd := fd, stderr := stderr }) := by
  simp only [swapPagein]
  rw [need_of hoff, ok_bind, need_of hframe, ok_bind]
  cases io.lseek s.swapfd off with
  | error errno => exact ⟨_, _, _, _, rfl⟩
  | ok fd =>
    simp only
    cases hread : io.read fd SIMPAGESIZE with
    | mk bytes fd' =>
      cases bytes with
      | none => exact ⟨_, _, _, _, rfl⟩
      | some bytes =>
        simp only
        split
        · exact ⟨_, _, _, _, rfl⟩
        · exact ⟨_, _, _, _, rfl⟩

theorem fetchPage_spec (hoff : toInt (s.entry p).swapOff = (s.entry p).swapOff)
    (hframe : physAddr f + SIMPAGESIZE ≤ s.physSize) :
    ∃ physmem fd stderr, fetchPage io f p s =
        .ok { s with physmem := physmem, swapfd := fd, stderr := stderr } := by
  unfold fetchPage
  by_cases hslot : (s.entry p).swapOff = INVALID_SWAP
  · rw [if_neg (not_not.mpr hslot)]
    exact ⟨_, _, _, rfl⟩
  · rw [if_pos hslot]
    obtain ⟨r, physmem, fd, stderr, hin⟩ := swapPagein_spec io (hoff ▸ hslot) hframe
    rw [hin, ok_bind]
    simp only
    split
    · exact ⟨_, _, _, rfl⟩
    · exact ⟨_, _, _, rfl⟩

/-! ### Allocating a frame -/

theorem findFree_eq_none : findFree s = none ↔ ∀ i < s.memsize, (s.coremap i).inUse := by
  simp [findFree]

theorem findFree_eq_some :
    findFree s = some f ↔ f < s.memsize ∧ (s.coremap f).inUse = false ∧
      ∀ i < f, (s.coremap i).inUse := by
  rw [findFree, List.find?_range_eq_some]
  simp only [List.mem_range, Bool.not_not, Bool.not_eq_true']
  tauto

/-- What `allocate_frame` records about the page in the coremap. -/
def record (p : PtePtr) (f : Nat) (s : Sim σ φ) : Sim σ φ :=
  s.modifyFrame f fun fr => { fr with inUse := true, pte := some p }

variable {fns : Functions σ φ} {io} {s₁ s₂ s₃ : Sim σ φ} {vaddr : Addr} {type : Char}

theorem allocateFrame_free (fns : Functions σ φ) (io : FileOps φ) (p : PtePtr)
    (h : findFree s = some f) : allocateFrame fns io p s = .ok (f, record p f s) := by
  simp only [allocateFrame, h]
  rfl

theorem allocateFrame_evict {off : Int} (h : findFree s = none) (hevict : fns.evict s = .ok (f, s₁))
    (hlt : f < s₁.memsize) (hpte : (s₁.coremap f).pte = some q)
    (hout : swapPageout io f (toInt (s₁.entry q).swapOff) s₁ = .ok (off, s₂))
    (hin : fetchPage io f p (markSwapped q off s₂) = .ok s₃) :
    allocateFrame fns io p s = .ok (f, record p f s₃) := by
  have hpage : evictPage io f s₁ = .ok (markSwapped q off s₂) := by
    unfold evictPage
    rw [hpte]
    simp only [hout, ok_bind]
  simp only [allocateFrame, h, hevict, ok_bind, need_of hlt, hpage, hin]
  rfl

/-! ### The three branches, and the common end -/

/-- What the first two branches of `find_physpage` do once there is a frame: on a first touch the
frame is filled and the entry marked dirty. -/
def place (onswap : Bool) (p : PtePtr) (f : Nat) (vaddr : Addr) (s : Sim σ φ) : Sim σ φ :=
  if onswap then
    { s.modifyEntry p fun e => e.place f with missCount := s.missCount + 1 }
  else
    let physmem := (s.physmem.store (physAddr f) zeroPage).store (physAddr f + 4)
      (leBytes 8 vaddr.toNat)
    { ({ s with physmem := physmem }).modifyEntry p fun e => (e.place f).set PG_DIRTY with
      missCount := s.missCount + 1 }

theorem resolve_hit (hvalid : (s.entry p).valid = true) (hswap : (s.entry p).onswap = false) :
    resolve fns io p vaddr s = .ok { s with hitCount := s.hitCount + 1 } := by
  simp [resolve, hvalid, need_of hswap]

theorem resolve_miss (vaddr : Addr) (hvalid : (s.entry p).valid = false)
    (halloc : allocateFrame fns io p s = .ok (f, s₁))
    (hframe : physAddr f + SIMPAGESIZE ≤ s₁.physSize) :
    resolve fns io p vaddr s = .ok (place (s.entry p).onswap p f vaddr s₁) := by
  cases hswap : (s.entry p).onswap with
  | false =>
    simp only [resolve, hvalid, hswap, halloc, ok_bind, initFrame, need_of hframe,
      Sim.modifyEntry_modifyEntry]
    rfl
  | true =>
    simp only [resolve, hvalid, hswap, halloc, ok_bind]
    rfl

theorem resolve_error {e : Fault} (hvalid : (s.entry p).valid = false)
    (halloc : allocateFrame fns io p s = .error e) : resolve fns io p vaddr s = .error e := by
  cases hswap : (s.entry p).onswap <;> simp [resolve, hvalid, hswap, halloc]

/-- What `find_physpage` does to the page in memory before it calls `ref_fcn`. -/
def touched (p : PtePtr) (vaddr : Addr) (type : Char) (s : Sim σ φ) : Sim σ φ :=
  ({ s with refCount := s.refCount + 1 }.modifyEntry p fun e => e.mark (isWrite type)).modifyFrame
    (s.entry p).frameNo fun fr => { fr with vaddr := vaddr }

theorem touch_eq (hf : (s.entry p).frameNo < s.memsize) :
    touch p vaddr type s = .ok (touched p vaddr type s) := by
  have hmark : (if isWrite type = true then
      (({ s with refCount := s.refCount + 1 }.modifyEntry p fun e => e.set PG_VALID).modifyEntry p
        fun e => e.set PG_REF).modifyEntry p fun e => e.set PG_DIRTY
      else ({ s with refCount := s.refCount + 1 }.modifyEntry p fun e => e.set PG_VALID).modifyEntry
        p fun e => e.set PG_REF) =
      { s with refCount := s.refCount + 1 }.modifyEntry p fun e => e.mark (isWrite type) := by
    cases isWrite type <;> simp [PgtblEntry.mark, Sim.modifyEntry_modifyEntry]
  have hentry : (({ s with refCount := s.refCount + 1 } : Sim σ φ).modifyEntry p fun e =>
      e.mark (isWrite type)).entry p = (s.entry p).mark (isWrite type) := by
    rw [Sim.entry_modifyEntry, if_pos rfl]
    rfl
  have hneed : need (((s.entry p).mark (isWrite type)).frameNo < s.memsize) .outOfBounds = .ok () :=
    need_of (by simpa using hf)
  simp only [touch, hmark, hentry]
  change need (((s.entry p).mark (isWrite type)).frameNo < s.memsize) .outOfBounds >>= _ = _
  rw [hneed, ok_bind, PgtblEntry.frameNo_mark]
  rfl

/-- An access is the replacement algorithm's `ref` on the state that the stages before it leave. -/
theorem findPhyspage_eq (hdir : pgdirIndex vaddr < PTRS_PER_PGDIR)
    (hresolve : resolve fns io (pteOf vaddr) vaddr (initSecondLevel (pgdirIndex vaddr) s) = .ok s₁)
    (hf : (s₁.entry (pteOf vaddr)).frameNo < s₁.memsize) :
    findPhyspage fns io vaddr type s =
      fns.ref (pteOf vaddr) (touched (pteOf vaddr) vaddr type s₁) >>= fun s' =>
        .ok (physAddr (s'.entry (pteOf vaddr)).frameNo, s') := by
  simp only [findPhyspage, need_of hdir, ok_bind, hresolve, touch_eq hf]

theorem findPhyspage_error {e : Fault} (hdir : pgdirIndex vaddr < PTRS_PER_PGDIR)
    (hresolve : resolve fns io (pteOf vaddr) vaddr (initSecondLevel (pgdirIndex vaddr) s) =
      .error e) : findPhyspage fns io vaddr type s = .error e := by
  simp only [findPhyspage, need_of hdir, ok_bind, hresolve, error_bind]

/-- An address past the page directory. -/
theorem findPhyspage_outOfBounds (hdir : ¬pgdirIndex vaddr < PTRS_PER_PGDIR) :
    findPhyspage fns io vaddr type s = .error .outOfBounds := by
  simp only [findPhyspage, need_of_not hdir, error_bind]

/-! ### The fields of the intermediate states -/

@[simp] theorem entry_touched :
    (touched p vaddr type s).entry q = if q = p then (s.entry p).mark (isWrite type) else s.entry q := by
  change (({ s with refCount := s.refCount + 1 } : Sim σ φ).modifyEntry p fun e =>
    e.mark (isWrite type)).entry q = _
  rw [Sim.entry_modifyEntry]
  rfl

@[simp] theorem entry_place {onswap : Bool} :
    (place onswap p f vaddr s).entry q = if q = p then
      (if onswap then (s.entry p).place f else ((s.entry p).place f).set PG_DIRTY)
      else s.entry q := by
  cases onswap with
  | false =>
    change (({ s with physmem := _ } : Sim σ φ).modifyEntry p fun e =>
      (e.place f).set PG_DIRTY).entry q = _
    rw [Sim.entry_modifyEntry]
    rfl
  | true =>
    change (s.modifyEntry p fun e => e.place f).entry q = _
    rw [Sim.entry_modifyEntry]
    rfl

@[simp] theorem coremap_place {onswap : Bool} : (place onswap p f vaddr s).coremap = s.coremap := by
  cases onswap <;> rfl

@[simp] theorem memsize_place {onswap : Bool} : (place onswap p f vaddr s).memsize = s.memsize := by
  cases onswap <;> rfl

@[simp] theorem alg_place {onswap : Bool} : (place onswap p f vaddr s).alg = s.alg := by
  cases onswap <;> rfl

@[simp] theorem swapmap_place {onswap : Bool} : (place onswap p f vaddr s).swapmap = s.swapmap := by
  cases onswap <;> rfl

@[simp] theorem swapfd_place {onswap : Bool} : (place onswap p f vaddr s).swapfd = s.swapfd := by
  cases onswap <;> rfl

@[simp] theorem stderr_place {onswap : Bool} : (place onswap p f vaddr s).stderr = s.stderr := by
  cases onswap <;> rfl

/-! ### The entries after an access -/

/-- The entries when `ref_fcn` is called on a hit. -/
theorem entry_hit (idx hits : Nat) :
    (touched p vaddr type { initSecondLevel idx s with hitCount := hits }).entry q =
      if q = p then (s.entry p).mark (isWrite type) else s.entry q := by
  rw [entry_touched]
  change (if q = p then ((initSecondLevel idx s).entry p).mark (isWrite type)
    else (initSecondLevel idx s).entry q) = _
  rw [Sim.entry_initSecondLevel, Sim.entry_initSecondLevel]

/-- The entries when `ref_fcn` is called for a page that has just moved in. -/
theorem entry_load {onswap : Bool} :
    (touched p vaddr type (place onswap p f vaddr (record p f s))).entry q =
      if q = p then (if onswap then (s.entry p).place f
        else ((s.entry p).place f).set PG_DIRTY).mark (isWrite type)
      else s.entry q := by
  rw [entry_touched]
  by_cases hq : q = p
  · rw [if_pos hq, if_pos hq, entry_place, if_pos rfl]
    rfl
  · rw [if_neg hq, if_neg hq, entry_place, if_neg hq]
    rfl

/-! ### The counters -/

/-- The counters of `pagetable.c`. -/
structure Counts where
  hit : Nat
  miss : Nat
  ref : Nat
  evictClean : Nat
  evictDirty : Nat
deriving DecidableEq, Repr

def Sim.counts (s : Sim σ φ) : Counts :=
  ⟨s.hitCount, s.missCount, s.refCount, s.evictCleanCount, s.evictDirtyCount⟩

/-- The eviction of a page, by its dirty bit. -/
def Counts.evict (dirty : Bool) (c : Counts) : Counts :=
  if dirty then { c with evictDirty := c.evictDirty + 1 }
  else { c with evictClean := c.evictClean + 1 }

@[simp] theorem counts_initSecondLevel (idx : Nat) : (initSecondLevel idx s).counts = s.counts := by
  unfold initSecondLevel
  split
  · rfl
  · rfl

@[simp] theorem counts_record : (record p f s).counts = s.counts := rfl

@[simp] theorem counts_place {onswap : Bool} :
    (place onswap p f vaddr s).counts = { s.counts with miss := s.counts.miss + 1 } := by
  cases onswap
  · rfl
  · rfl

@[simp] theorem counts_touched  :
    (touched p vaddr type s).counts = { s.counts with ref := s.counts.ref + 1 } := rfl

theorem counts_counted (s : Sim σ φ) :
    (if (s.entry q).dirty = true then { s with evictDirtyCount := s.evictDirtyCount + 1 }
      else { s with evictCleanCount := s.evictCleanCount + 1 }).counts =
      s.counts.evict (s.entry q).dirty := by
  cases (s.entry q).dirty
  · rfl
  · rfl

/-- The two assignments to the flags before the test leave the dirty bit alone. -/
theorem counts_markSwapped (off : Int) :
    (markSwapped q off s).counts = s.counts.evict (s.entry q).dirty := by
  have hdirty : ∀ v : Sim σ φ, v.entry = s.entry →
      ((((v.modifyEntry q fun e => e.set PG_ONSWAP).modifyEntry q fun e => e.flip PG_VALID).modifyEntry
        q fun e => { e with swapOff := off }).entry q).dirty = (s.entry q).dirty := by
    intro v hv
    rw [Sim.modifyEntry_modifyEntry, Sim.modifyEntry_modifyEntry, Sim.entry_modifyEntry, hv,
      if_pos rfl]
    change ((s.entry q).swapOut off).dirty = _
    rw [PgtblEntry.dirty_swapOut]
  simp only [markSwapped]
  split
  · rw [counts_counted, hdirty (s.report _) rfl]
    rfl
  · rw [counts_counted, hdirty s rfl]
    rfl

end Paging

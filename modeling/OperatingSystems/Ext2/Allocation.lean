-- SUMMARY: Bitmaps that are in order, what keeps them so, and what a search for several numbers gives.
import Mathlib.Tactic.IntervalCases
import OperatingSystems.Ext2.Bitmaps

/-!
# Allocation

The bitmap on disk, the count and the cursor of a bitmap belong together. Both functions that set
bits keep them together, through a full bitmap and back. The search for one number relies on this;
the search for several counts from the cursor while it reads from another place.
-/

namespace Ext2

open Library Library.Process

variable {m : Memory} {N n : Nat} {ns : List Nat} {s s' s₀ : State} {b b' : Bm}

/-! ## Bitmaps in order -/

/-- The bitmap with its cursor at a number, or invalidated. -/
def Bitmap.withCursor (bm : Bitmap) : Option Nat → Bitmap
  | some n => { bm with
      currAvailNum := n, availByteIndex := (n - 1) / 8, availBitIndex := (n - 1) % 8 }
  | none => { bm with
      currAvailNum := sub32 0 1, availByteIndex := sub32 0 1, availBitIndex := sub32 0 1 }

namespace State

/-- The free numbers of a bitmap. -/
def free (s : State) (b : Bm) (N : Nat) : List Nat := Ext2.free s.disk (s.bmap b).sysBm N

/-- Whether a number is in use. -/
def used (s : State) (b : Bm) (n : Nat) : Bool := Ext2.used s.disk (s.bmap b).sysBm n

end State

/-- The numbers from 1 to 10 are in use, the count is that of the free numbers, and the cursor
designates the lowest one, if there is one. -/
structure Good (N : Nat) (b : Bm) (s : State) : Prop where
  reserved : ∀ n, 1 ≤ n → n ≤ 10 → s.used b n = true
  avail : (s.bmap b).numBitsAvail = (s.free b N).length
  cursor : s.bmap b = (s.bmap b).withCursor (s.free b N).head?

/-- The bytes of the bitmap are mapped. -/
def Mapped (N : Nat) (b : Bm) (s : State) : Prop := (s.bmap b).sysBm + (N + 7) / 8 ≤ s.size

/-- The state with the bits of some numbers toggled, and the count and cursor that go with them. -/
def State.toggled (s : State) (b : Bm) (N : Nat) (ns : List Nat) : State :=
  let disk := flips s.disk (s.bmap b).sysBm ns
  let left := Ext2.free disk (s.bmap b).sysBm N
  { s with disk }.setBmap b ({ s.bmap b with numBitsAvail := left.length }.withCursor left.head?)

@[simp] theorem sysBm_withCursor {bm : Bitmap} {o : Option Nat} :
    (bm.withCursor o).sysBm = bm.sysBm := by cases o <;> rfl

@[simp] theorem numBitsAvail_withCursor {bm : Bitmap} {o : Option Nat} :
    (bm.withCursor o).numBitsAvail = bm.numBitsAvail := by cases o <;> rfl

@[simp] theorem withCursor_withCursor {bm : Bitmap} {o o' : Option Nat} :
    (bm.withCursor o).withCursor o' = bm.withCursor o' := by cases o <;> cases o' <;> rfl

@[simp] theorem disk_toggled : (s.toggled b N ns).disk = flips s.disk (s.bmap b).sysBm ns := by
  simp [State.toggled]

@[simp] theorem size_toggled : (s.toggled b N ns).size = s.size := by simp [State.toggled]

@[simp] theorem sysBm_toggled : ((s.toggled b N ns).bmap b).sysBm = (s.bmap b).sysBm := by
  simp [State.toggled]

theorem bmap_toggled_of_ne (h : b' ≠ b) : (s.toggled b N ns).bmap b' = s.bmap b' := by
  rw [State.toggled, State.bmap_setBmap_of_ne h, State.bmap_disk]

/-- Setting bits of other numbers than the reserved ones leaves the bitmap in order. -/
theorem Good.toggled (h : Good N b s) (hnodup : ns.Nodup) (hns : ∀ n ∈ ns, 11 ≤ n) :
    Good N b (s.toggled b N ns) := by
  have hfree : (s.toggled b N ns).free b N =
      free (flips s.disk (s.bmap b).sysBm ns) (s.bmap b).sysBm N := by
    simp [State.free]
  constructor
  case reserved =>
    intro n h1 h10
    have hout : n ∉ ns := fun hin => by have := hns n hin; omega
    have hused : (s.toggled b N ns).used b n =
        used (flips s.disk (s.bmap b).sysBm ns) (s.bmap b).sysBm n := by simp [State.used]
    rw [hused, used_flips hnodup (fun n hn => by have := hns n hn; omega) h1]
    have hres := h.reserved n h1 h10
    rw [State.used] at hres
    simp [hout, hres]
  case avail =>
    rw [hfree]
    simp [State.toggled]
  case cursor =>
    rw [hfree]
    simp [State.toggled]

/-! ## What stays where it is -/

/-- The mapping and the addresses of the structures are the same. -/
structure Unmoved (s s' : State) : Prop where
  size : s'.size = s.size
  table : s'.indTable = s.indTable
  sysBm : ∀ b, (s'.bmap b).sysBm = (s.bmap b).sysBm

theorem Unmoved.refl (s : State) : Unmoved s s := ⟨rfl, rfl, fun _ => rfl⟩

theorem Unmoved.trans (h : Unmoved s₀ s) (h' : Unmoved s s') : Unmoved s₀ s' :=
  ⟨h'.size.trans h.size, h'.table.trans h.table, fun b => (h'.sysBm b).trans (h.sysBm b)⟩

theorem Unmoved.disk : Unmoved s { s with disk := m } := ⟨rfl, rfl, fun b => by cases b <;> rfl⟩

theorem Unmoved.setBmap {bm : Bitmap} (h : bm.sysBm = (s.bmap b).sysBm) : Unmoved s (s.setBmap b bm) := by
  refine ⟨by simp, by simp, fun b' => ?_⟩
  by_cases hb : b' = b
  · subst hb
    rw [State.bmap_setBmap, h]
  · rw [State.bmap_setBmap_of_ne hb]

/-- Setting the cursor does not touch the disk. -/
theorem updateCursor_unmoved : Triple (fun s => s.disk = m ∧ Unmoved s₀ s) (updateCursor b)
    (fun _ s => s.disk = m ∧ Unmoved s₀ s) fun _ s => s.disk = m ∧ Unmoved s₀ s := by
  refine .of_state fun s ⟨hdisk, hs⟩ => ?_
  rw [updateCursor, run_get_bind]
  split
  · cases hfind : (findFree (s.bmap b)).run s with
    | done num s' =>
      obtain rfl := (readOnly_findFree _).of_done hfind
      rw [bind_done hfind]
      exact ⟨(State.disk_setBmap).trans hdisk, hs.trans (.setBmap rfl)⟩
    | halted e s' =>
      obtain rfl := (readOnly_findFree _).of_halted hfind
      rw [bind_halted hfind]
      exact ⟨hdisk, hs⟩
  · exact ⟨(State.disk_setBmap).trans hdisk, hs.trans (.setBmap rfl)⟩

theorem Unmoved.toggled : Unmoved s (s.toggled b N ns) := by
  refine ⟨size_toggled, by simp [State.toggled], fun b' => ?_⟩
  by_cases hb : b' = b
  · subst hb
    exact sysBm_toggled
  · rw [bmap_toggled_of_ne hb]

/-! ## What the functions do to a bitmap in order -/

/-- A free number of a bitmap in order is not a reserved one. -/
theorem Good.le_of_mem_free (h : Good N b s) (hn : n ∈ s.free b N) : 11 ≤ n ∧ n ≤ N := by
  obtain ⟨⟨h1, hN⟩, hfree⟩ := mem_free.mp hn
  refine ⟨?_, hN⟩
  by_contra hlt
  have hres := h.reserved n h1 (by omega)
  rw [State.used, hfree] at hres
  cases hres

/-- The end of both functions finds the cursor for the count. -/
theorem run_updateCursor (hmap : Mapped N b s)
    (hreserved : ∀ n, 1 ≤ n → n ≤ 10 → s.used b n = true)
    (havail : (s.bmap b).numBitsAvail = (s.free b N).length) :
    (updateCursor b).run s = .done () (s.setBmap b ((s.bmap b).withCursor (s.free b N).head?)) := by
  rw [updateCursor, run_get_bind]
  cases hfree : s.free b N with
  | nil =>
    rw [hfree] at havail
    rw [if_neg (by simp [havail])]
    rfl
  | cons n rest =>
    have hhead : (free s.disk (s.bmap b).sysBm N).head? = some n := by
      rw [← State.free, hfree, List.head?_cons]
    obtain ⟨hmem, hlow⟩ := head?_free hhead
    obtain ⟨⟨h1, hnN⟩, hclear⟩ := mem_free.mp hmem
    have h11 : 11 ≤ n := by
      by_contra hlt
      have hres := hreserved n h1 (by omega)
      rw [State.used, hclear] at hres
      cases hres
    have hpos : 0 < (s.bmap b).numBitsAvail := by rw [havail, hfree]; exact Nat.succ_pos _
    have hfind := run_findFree (s := s) hpos h11
      (fun k hk hkn => hlow k (by have : EXT2_GOOD_OLD_FIRST_INO = 11 := rfl; omega) hkn) hclear
      (by unfold Mapped at hmap; omega)
    rw [if_pos hpos, bind_done hfind, run_modify, BYTE_INDEX_eq h1,
      BIT_INDEX_eq h1, List.head?_cons]
    rfl

/-- Once the bits are toggled and the count is set, the cursor follows. -/
theorem run_updateCursor_toggled (hmap : Mapped N b s) (hgood : Good N b s)
    (hnodup : ns.Nodup) (hns : ∀ n ∈ ns, 11 ≤ n) :
    (updateCursor b).run ({ s with disk := flips s.disk (s.bmap b).sysBm ns }.setBmap b
        { s.bmap b with numBitsAvail :=
            (free (flips s.disk (s.bmap b).sysBm ns) (s.bmap b).sysBm N).length }) =
      .done () (s.toggled b N ns) := by
  have hres := (hgood.toggled hnodup hns).reserved
  rw [run_updateCursor (N := N)]
  · simp only [State.toggled, State.bmap_setBmap, State.free, State.disk_setBmap]
    cases b <;> rfl
  · simpa [Mapped] using hmap
  · intro k hk1 hk10
    simpa [State.used] using hres k hk1 hk10
  · simp [State.free]

theorem or_bitMask {byte : Byte} {i : Nat} (hi : i < 8) (h : byte.getLsbD i = false) :
    byte ||| bitMask i = byte ^^^ bitMask i := by
  apply BitVec.eq_of_getLsbD_eq
  intro j hj
  rw [BitVec.getLsbD_or, BitVec.getLsbD_xor, getLsbD_bitMask hi]
  by_cases hij : j = i
  · subst hij
    simp [h]
  · simp [hij]

/-- `set_used_bit` takes the lowest free number. -/
theorem run_setUsedBit (hmap : Mapped N b s) (hgood : Good N b s)
    (hhead : (s.free b N).head? = some n) :
    (setUsedBit b).run s = .done () (s.toggled b N [n]) := by
  obtain ⟨hmem, _⟩ := head?_free hhead
  obtain ⟨⟨h1, hnN⟩, hclear⟩ := mem_free.mp hmem
  obtain ⟨h11, _⟩ := hgood.le_of_mem_free hmem
  have hcursor := hgood.cursor
  rw [hhead] at hcursor
  have hbyte : (s.bmap b).availByteIndex = (n - 1) / 8 := by rw [hcursor]; rfl
  have hbit : (s.bmap b).availBitIndex = (n - 1) % 8 := by rw [hcursor]; rfl
  have hin : (s.bmap b).sysBm + (n - 1) / 8 < s.size := by unfold Mapped at hmap; omega
  have hlen := length_free_flips_of_free (List.nodup_singleton n) (by simpa using hmem)
  have hle := length_free_le s.disk (s.bmap b).sysBm N
  have havail := hgood.avail
  rw [State.free] at havail
  rw [List.length_singleton] at hlen
  have hsub : sub32 (s.bmap b).numBitsAvail 1 =
      (free (flips s.disk (s.bmap b).sysBm [n]) (s.bmap b).sysBm N).length := by
    rw [sub32_of_le (by omega)]
    omega
  have hclear' : (s.disk ((s.bmap b).sysBm + (n - 1) / 8)).getLsbD ((n - 1) % 8) = false := hclear
  rw [setUsedBit, run_get_bind]
  dsimp only
  rw [hbyte, hbit, bind_done (run_loadByte hin), hclear',
    if_neg (by decide), bind_done (run_storeByte hin), run_modify_bind, hsub,
    or_bitMask (Nat.mod_lt _ (by decide)) hclear', State.bmap_disk]
  exact run_updateCursor_toggled hmap hgood (List.nodup_singleton n) (by simpa using h11)

theorem run_toggleBit {sysBm : Nat} (h1 : 1 ≤ n)
    (hin : sysBm + (n - 1) / 8 < s.size) :
    (toggleBit sysBm n).run s = .done () { s with disk := flip s.disk sysBm n } := by
  rw [toggleBit, BYTE_INDEX_eq h1, BIT_INDEX_eq h1, bind_done (run_loadByte hin),
    run_storeByte hin, flip]

theorem run_toggleBits {sysBm : Nat} (h : ∀ n ∈ ns, 1 ≤ n ∧ sysBm + (n - 1) / 8 < s.size) :
    (toggleBits sysBm ns).run s = .done () { s with disk := flips s.disk sysBm ns } := by
  induction ns generalizing s with
  | nil => rfl
  | cons n ns ih =>
    obtain ⟨h1, hin⟩ := h n List.mem_cons_self
    have hrest := ih (s := { s with disk := flip s.disk sysBm n }) fun n' hn' =>
      h n' (List.mem_cons_of_mem _ hn')
    rw [toggleBits, bind_done (run_toggleBit h1 hin), hrest, flips_cons]

/-- `set_n_toggle_bit` toggles the numbers it is given, if they are as the flag says. -/
theorem run_setNToggleBit {setFlag : Nat} (hN : N ≤ 128) (hmap : Mapped N b s) (hgood : Good N b s)
    (hne : ns ≠ []) (hnodup : ns.Nodup) (hns : ∀ n ∈ ns, 11 ≤ n ∧ n ≤ N)
    (hflag : setFlag = 0 ∨ setFlag = 1) (hopp : ∀ n ∈ ns, s.used b n = decide (setFlag = 0)) :
    (setNToggleBit b ns setFlag).run s = .done () (s.toggled b N ns) := by
  have hlast : ns.getLast? = some (ns.getLast hne) := List.getLast?_eq_some_getLast hne
  obtain ⟨hl11, hlN⟩ := hns _ (List.getLast_mem hne)
  have hbyte : 1 ≤ BYTE_INDEX (ns.getLast hne) ∧ BYTE_INDEX (ns.getLast hne) ≤ 15 := by
    rw [BYTE_INDEX_eq (by omega)]
    omega
  have htoggle : (toggleBits (s.bmap b).sysBm ns).run s =
      .done () { s with disk := flips s.disk (s.bmap b).sysBm ns } := by
    apply run_toggleBits
    intro n hn
    have := hns n hn
    unfold Mapped at hmap
    omega
  have hle := length_free_le s.disk (s.bmap b).sysBm N
  have hle' := length_free_le (flips s.disk (s.bmap b).sysBm ns) (s.bmap b).sysBm N
  have havail := hgood.avail
  rw [State.free] at havail
  have hcount : (if setFlag = 1 then sub32 (s.bmap b).numBitsAvail ns.length
        else add32 (s.bmap b).numBitsAvail ns.length) =
      (free (flips s.disk (s.bmap b).sysBm ns) (s.bmap b).sysBm N).length := by
    cases hflag with
    | inl h0 =>
      have hlen := @length_free_flips_of_used s.disk (s.bmap b).sysBm N ns hnodup
        fun n hn => ⟨by have := hns n hn; omega, by rw [← State.used, hopp n hn, h0]; rfl⟩
      rw [if_neg (by omega), add32_of_lt (by omega)]
      omega
    | inr h1 =>
      have hlen := @length_free_flips_of_free s.disk (s.bmap b).sysBm N ns hnodup
        fun n hn => mem_free.mpr ⟨by have := hns n hn; omega, by rw [← State.used, hopp n hn, h1]; rfl⟩
      rw [if_pos h1, sub32_of_le (by omega)]
      omega
  rw [setNToggleBit, hlast]
  dsimp only
  rw [run_get_bind, bind_done htoggle, if_pos hbyte, run_modify_bind]
  simp only [State.bmap_disk]
  rw [hcount]
  exact run_updateCursor_toggled hmap hgood hnodup fun n hn => (hns n hn).1

/-! ## Sequences of calls -/

/-- A call of one of the two functions that set bits. -/
inductive Call where
  | setUsedBit
  | setNToggleBit (numArr : List Nat) (setFlag : Nat)

namespace Call

def run (b : Bm) : Call → Tool Unit
  | setUsedBit => Ext2.setUsedBit b
  | setNToggleBit numArr setFlag => Ext2.setNToggleBit b numArr setFlag

/-- The calls that callers may make: to take a number while there is one, and to toggle distinct
numbers that are all opposite to the flag. -/
def Allowed (N : Nat) (b : Bm) : Call → State → Prop
  | setUsedBit, s => 0 < (s.bmap b).numBitsAvail
  | setNToggleBit numArr setFlag, s =>
    numArr ≠ [] ∧ numArr.Nodup ∧ (∀ n ∈ numArr, 11 ≤ n ∧ n ≤ N) ∧ (setFlag = 0 ∨ setFlag = 1) ∧
      ∀ n ∈ numArr, s.used b n = decide (setFlag = 0)

/-- The numbers whose bits a call is to change. -/
def designated (b : Bm) : Call → State → List Nat
  | setUsedBit, s => [(s.bmap b).currAvailNum]
  | setNToggleBit numArr _, _ => numArr

end Call

/-- Exactly the bits of the numbers differ between two memories. -/
def OnlyToggled (sysBm : Nat) (ns : List Nat) (m m' : Memory) : Prop :=
  ∀ a i, (m' a).getLsbD i =
    ((m a).getLsbD i ^^ decide (∃ n ∈ ns, a = sysBm + (n - 1) / 8 ∧ i = (n - 1) % 8))

/-- Each call that is allowed ends, leaves the bitmap in order, and has changed exactly the bits it
is to change. -/
def CallsKeep (N : Nat) (b : Bm) : List Call → State → Prop
  | [], _ => True
  | c :: cs, s => c.Allowed N b s → ∃ s', (c.run b).run s = .done () s' ∧ Good N b s' ∧
      OnlyToggled (s.bmap b).sysBm (c.designated b s) s.disk s'.disk ∧ CallsKeep N b cs s'

/-- One call. -/
theorem Call.run_allowed (hN : N ≤ 128) (hmap : Mapped N b s) (hgood : Good N b s) {c : Call}
    (hc : c.Allowed N b s) :
    (c.run b).run s = .done () (s.toggled b N (c.designated b s)) ∧ (c.designated b s).Nodup ∧
      ∀ n ∈ c.designated b s, 11 ≤ n := by
  cases c with
  | setUsedBit =>
    have hpos : 0 < (s.free b N).length := by
      rw [← hgood.avail]
      exact hc
    obtain ⟨n, rest, hfree⟩ := List.exists_cons_of_length_pos hpos
    have hhead : (s.free b N).head? = some n := by rw [hfree, List.head?_cons]
    have hnum : (s.bmap b).currAvailNum = n := by
      have hcursor := hgood.cursor
      rw [hhead] at hcursor
      rw [hcursor]
      rfl
    have h11 : 11 ≤ n := (hgood.le_of_mem_free (by simp [hfree])).1
    simp only [Call.run, Call.designated, hnum]
    exact ⟨run_setUsedBit hmap hgood hhead, by simp, by simpa using h11⟩
  | setNToggleBit numArr setFlag =>
    obtain ⟨hne, hnodup, hns, hflag, hopp⟩ := hc
    exact ⟨run_setNToggleBit hN hmap hgood hne hnodup hns hflag hopp, hnodup, fun n hn => (hns n hn).1⟩

/-- A bitmap in order stays so over any sequence of allowed calls. The mapping may end with the last
bit of the bitmap, so no search reads past it. -/
theorem calls_keep_good (hN : N ≤ 128) (hmap : Mapped N b s) (hgood : Good N b s)
    (calls : List Call) : CallsKeep N b calls s := by
  induction calls generalizing s with
  | nil => trivial
  | cons c cs ih =>
    intro hc
    obtain ⟨hrun, hnodup, h11⟩ := c.run_allowed hN hmap hgood hc
    refine ⟨_, hrun, hgood.toggled hnodup h11, ?_, ?_⟩
    · intro a i
      rw [disk_toggled]
      exact getLsbD_flips hnodup fun n hn => by have := h11 n hn; omega
    · refine ih ?_ (hgood.toggled hnodup h11)
      simpa [Mapped] using hmap

/-- A bitmap over 16 numbers at the end of the mapping, with the numbers from `n` on free. -/
def State.freeFrom (n : Nat) : State where
  disk a := if a = 0 then 0xFF else if a = 1 then BitVec.ofNat 8 (2 ^ (n - 9) - 1) else 0
  size := 2
  indsCount := 16
  blksCount := 16
  indTable := 0
  indBmap :=
    { sysBm := 0, numBitsAvail := 17 - n, availByteIndex := 1, availBitIndex := n - 9,
      currAvailNum := n }
  blkBmap := .zero

theorem mapped_freeFrom (n : Nat) : Mapped 16 .ind (.freeFrom n) := Nat.le_refl 2

theorem good_freeFrom_11 : Good 16 .ind (.freeFrom 11) where
  reserved n h1 h10 := by interval_cases n <;> rfl
  avail := rfl
  cursor := rfl

theorem good_freeFrom_12 : Good 16 .ind (.freeFrom 12) where
  reserved n h1 h10 := by interval_cases n <;> rfl
  avail := rfl
  cursor := rfl

theorem calls_keep_good_freeFrom_11 :
    CallsKeep 16 .ind [.setUsedBit, .setNToggleBit [12, 16] 1, .setNToggleBit [11, 16] 0]
      (.freeFrom 11) :=
  calls_keep_good (by decide) (mapped_freeFrom _) good_freeFrom_11 _

/-! ## The search for several numbers -/

/-- The search ends within the bitmap, and gives the lowest free numbers, as many as asked for. -/
def FindsFree (N : Nat) (b : Bm) (reqNBits : Nat) (s : State) : Prop :=
  ∃ numArr, (findNFree (s.bmap b) reqNBits).run s = .done numArr s ∧ numArr.Nodup ∧
    (∀ n ∈ numArr, (11 ≤ n ∧ n ≤ N) ∧ s.used b n = false) ∧ numArr = (s.free b N).take reqNBits

/-- What `find_n_free` gives for a bitmap in order: the free numbers, shifted by how far the lowest
one lies past the first one tried. -/
theorem Good.run_findNFree (hN : N ≤ 128) (hmap : Mapped N b s) (hgood : Good N b s) {reqNBits : Nat}
    (hreq : reqNBits ≤ (s.bmap b).numBitsAvail) (hhead : (s.free b N).head? = some n) :
    (findNFree (s.bmap b) reqNBits).run s =
      .done (((s.free b N).take reqNBits).map fun k => n + (k - 11)) s := by
  obtain ⟨h11, hnN⟩ := hgood.le_of_mem_free (head?_free hhead).1
  have hnum : (s.bmap b).currAvailNum = n := by
    have hcursor := hgood.cursor
    rw [hhead] at hcursor
    rw [hcursor]
    rfl
  have hfrom : freeFrom s.disk (s.bmap b).sysBm N EXT2_GOOD_OLD_FIRST_INO = s.free b N :=
    freeFrom_of_forall_used (by decide) fun i h1 h2 =>
      hgood.reserved i h1 (by have : EXT2_GOOD_OLD_FIRST_INO = 11 := rfl; omega)
  have hrun := Ext2.run_findNFree (N := N) (s := s) hreq (by omega)
    (by rw [hfrom, ← hgood.avail]; exact hreq) (by unfold Mapped at hmap; omega)
  rw [hrun, hfrom, hnum]
  congr 1
  refine List.map_congr_left fun k hk => ?_
  have hkN := (hgood.le_of_mem_free (List.mem_of_mem_take hk)).2
  have h11' : EXT2_GOOD_OLD_FIRST_INO = 11 := rfl
  rw [h11', add32_of_lt (by omega)]

/-- `find_n_free` finds free numbers exactly if the first number it tries is free. -/
theorem findsFree_iff (hN : N ≤ 128) (hmap : Mapped N b s) (hgood : Good N b s) {reqNBits : Nat}
    (hpos : 1 ≤ reqNBits) (hreq : reqNBits ≤ (s.bmap b).numBitsAvail) :
    FindsFree N b reqNBits s ↔ 11 ∈ s.free b N := by
  have hlen : 0 < (s.free b N).length := by
    rw [← hgood.avail]
    omega
  obtain ⟨n, rest, hfree⟩ := List.exists_cons_of_length_pos hlen
  have hhead : (s.free b N).head? = some n := by rw [hfree, List.head?_cons]
  obtain ⟨h11, hnN⟩ := hgood.le_of_mem_free (head?_free hhead).1
  have hrun := hgood.run_findNFree hN hmap hreq hhead
  obtain ⟨left, hleft⟩ := Nat.exists_eq_succ_of_ne_zero (by omega : reqNBits ≠ 0)
  constructor
  · rintro ⟨numArr, hnums, _, _, htake⟩
    rw [hrun] at hnums
    cases hnums
    rw [hfree, hleft, List.take_succ_cons, List.map_cons] at htake
    have hn : n = 11 := by
      have := (List.cons.inj htake).1
      omega
    rw [hfree, hn]
    exact List.mem_cons_self
  · intro h
    have hn : n = 11 := by
      by_contra hne
      have hused := (head?_free hhead).2 11 (by omega) (by omega)
      rw [(mem_free.mp h).2] at hused
      cases hused
    subst hn
    have hmap' : ((s.free b N).take reqNBits).map (fun k => 11 + (k - 11)) =
        (s.free b N).take reqNBits := by
      conv_rhs => rw [← List.map_id ((s.free b N).take reqNBits)]
      refine List.map_congr_left fun k hk => ?_
      have := (hgood.le_of_mem_free (List.mem_of_mem_take hk)).1
      rw [id]
      omega
    rw [hmap'] at hrun
    refine ⟨_, hrun, ?_, ?_, rfl⟩
    · exact (free_nodup _ _ _).sublist (List.take_sublist _ _)
    · intro k hk
      have hk' := List.mem_of_mem_take hk
      exact ⟨hgood.le_of_mem_free hk', (mem_free.mp hk').2⟩

theorem findsFree_freeFrom_11 : FindsFree 16 .ind 3 (.freeFrom 11) ↔ 11 ∈ (State.freeFrom 11).free .ind 16 :=
  findsFree_iff (by decide) (mapped_freeFrom _) good_freeFrom_11 (by decide) (by decide)

/-- With 12 the lowest free number, the search for one number gives 13. -/
theorem not_findsFree_freeFrom_12 :
    Mapped 16 .ind (.freeFrom 12) ∧ Good 16 .ind (.freeFrom 12) ∧
      1 ≤ ((State.freeFrom 12).bmap .ind).numBitsAvail ∧ ¬FindsFree 16 .ind 1 (.freeFrom 12) := by
  refine ⟨(mapped_freeFrom _), good_freeFrom_12, by decide, ?_⟩
  rintro ⟨numArr, hrun, _, _, htake⟩
  have hgives : (findNFree ((State.freeFrom 12).bmap .ind) 1).run (.freeFrom 12) =
      .done [13] (.freeFrom 12) := rfl
  rw [hgives] at hrun
  cases hrun
  exact absurd htake (by decide)

end Ext2

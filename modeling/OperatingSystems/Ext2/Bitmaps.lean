-- SUMMARY: The bitmaps of free inodes and blocks: the search for free numbers, the setting of bits, and the cursor of a bitmap.
import Mathlib.Data.Finset.Card
import Mathlib.Order.Interval.Finset.Nat
import Mathlib.Data.List.Nodup
import OperatingSystems.Ext2.Disk

/-!
# Bitmaps

A number is free while its bit is clear. Beside the bitmap on disk, a tool keeps the count of free
numbers and a cursor at the lowest one. The searches start at `EXT2_GOOD_OLD_FIRST_INO`; nothing
but the count keeps them inside the bitmap.
-/

namespace Ext2

open Library Library.Process

/-! ## The search -/

/-- The indices that a search advances. -/
structure Cursor where
  byteIndex : Nat
  bitIndex : Nat
deriving DecidableEq, Repr

def Cursor.start : Cursor :=
  { byteIndex := BYTE_INDEX EXT2_GOOD_OLD_FIRST_INO, bitIndex := BIT_INDEX EXT2_GOOD_OLD_FIRST_INO }

def Cursor.next (c : Cursor) : Cursor :=
  let bitIndex := (c.bitIndex + 1) % 8
  { byteIndex := if bitIndex = 0 then c.byteIndex + 1 else c.byteIndex, bitIndex }

/-- `sys_bm[byte_index] & (1 << bit_index)`. -/
def testBit (sysBm byteIndex bitIndex : Nat) : Tool Bool := do
  let byte ← loadByte (sysBm + byteIndex)
  pure (byte.getLsbD bitIndex)

/-- A round of the loop of `find_free`, at `current_num`. -/
def findFreeRound (sysBm : Nat) (p : Cursor × Nat) : Tool (Round (Cursor × Nat) Nat) := do
  let used ← testBit sysBm p.1.byteIndex p.1.bitIndex
  if used then pure (.next (p.1.next, p.2 + 1)) else pure (.stop p.2)

/-- `find_free`. The loop leaves the mapping when it finds nothing there. -/
def findFree (bm : Bitmap) : Tool Nat := do
  if bm.numBitsAvail < 1 then halt (.exit ENOSPC)
  else do
    let s ← get
    loop .diverges (findFreeRound bm.sysBm) (8 * s.size + 1) (.start, EXT2_GOOD_OLD_FIRST_INO)

/-- The variables of the loop of `find_n_free`. -/
structure Collect where
  cursor : Cursor
  currInodeNum : Nat
  nBitsToFind : Nat
  numArr : List Nat

/-- A round of the loop of `find_n_free`. -/
def findNFreeRound (sysBm : Nat) (c : Collect) : Tool (Round Collect (List Nat)) := do
  if c.nBitsToFind = 0 then pure (.stop c.numArr)
  else do
    let used ← testBit sysBm c.cursor.byteIndex c.cursor.bitIndex
    let c' := { c with cursor := c.cursor.next, currInodeNum := add32 c.currInodeNum 1 }
    if used then pure (.next c')
    else pure (.next { c' with
      nBitsToFind := c.nBitsToFind - 1, numArr := c.numArr ++ [c.currInodeNum] })

/-- `find_n_free`, with what it puts into `num_arr`. -/
def findNFree (bm : Bitmap) (reqNBits : Nat) : Tool (List Nat) := do
  if reqNBits > bm.numBitsAvail then halt (.exit ENOSPC)
  else do
    let s ← get
    loop .diverges (findNFreeRound bm.sysBm) (8 * s.size + 2)
      { cursor := .start, currInodeNum := bm.currAvailNum, nBitsToFind := reqNBits, numArr := [] }

/-! ## Setting bits -/

/-- `1 << bit_index`. -/
def bitMask (bitIndex : Nat) : Byte := 1 <<< bitIndex

/-- The end of `set_used_bit` and `set_n_toggle_bit`: set the cursor according to the number of
remaining bits. -/
def updateCursor (b : Bm) : Tool Unit := do
  let s ← get
  if (s.bmap b).numBitsAvail > 0 then do
    let num ← findFree (s.bmap b)
    modify fun s => s.setBmap b { s.bmap b with
      currAvailNum := num, availByteIndex := BYTE_INDEX num, availBitIndex := BIT_INDEX num }
  else
    modify fun s => s.setBmap b { s.bmap b with
      currAvailNum := sub32 0 1, availByteIndex := sub32 0 1, availBitIndex := sub32 0 1 }

/-- `set_used_bit`. -/
def setUsedBit (b : Bm) : Tool Unit := do
  let s ← get
  let bm := s.bmap b
  let byte ← loadByte (bm.sysBm + bm.availByteIndex)
  if byte.getLsbD bm.availBitIndex then halt (.exit ENOENT)
  else do
    storeByte (bm.sysBm + bm.availByteIndex) (byte ||| bitMask bm.availBitIndex)
    modify fun s => s.setBmap b { s.bmap b with numBitsAvail := sub32 bm.numBitsAvail 1 }
    updateCursor b

/-- `bm->sys_bm[byte_index] ^= (1 << bit_index)`. -/
def toggleBit (sysBm num : Nat) : Tool Unit := do
  let byte ← loadByte (sysBm + BYTE_INDEX num)
  storeByte (sysBm + BYTE_INDEX num) (byte ^^^ bitMask (BIT_INDEX num))

/-- The loop of `set_n_toggle_bit`. -/
def toggleBits (sysBm : Nat) : List Nat → Tool Unit
  | [] => pure ()
  | num :: nums => do
    toggleBit sysBm num
    toggleBits sysBm nums

/-- `set_n_toggle_bit`, without its warnings; `bits_to_set` is the length of `num_arr`. The second
assertion on the last indices always holds. -/
def setNToggleBit (b : Bm) (numArr : List Nat) (setFlag : Nat) : Tool Unit := do
  let bitsToSet := numArr.length
  match numArr.getLast? with
  | none => halt .assertion
  | some num => do
    let s ← get
    toggleBits (s.bmap b).sysBm numArr
    if 1 ≤ BYTE_INDEX num ∧ BYTE_INDEX num ≤ 15 then do
      modify fun s => s.setBmap b { s.bmap b with
        numBitsAvail :=
          if setFlag = 1 then sub32 (s.bmap b).numBitsAvail bitsToSet
          else add32 (s.bmap b).numBitsAvail bitsToSet }
      updateCursor b
    else halt .assertion

/-- `check_bit`, whether it gives something other than 0. -/
def checkBit (bm : Bitmap) (bitIndex : Nat) : Tool Bool := testBit bm.sysBm (bitIndex / 8) (bitIndex % 8)

/-! ## Bits and free numbers -/

/-- Whether the bit of a number is set. -/
def used (m : Memory) (sysBm n : Nat) : Bool := (m (sysBm + (n - 1) / 8)).getLsbD ((n - 1) % 8)

/-- The free numbers of a bitmap over `N` numbers, the lowest first. -/
def free (m : Memory) (sysBm N : Nat) : List Nat := (List.range' 1 N).filter fun n => !used m sysBm n

variable {m m' : Memory} {sysBm N n k : Nat} {ns : List Nat} {s : State} {b : Bm} {bm : Bitmap}

theorem BYTE_INDEX_eq (h : 1 ≤ n) : BYTE_INDEX n = (n - 1) / 8 := by
  rw [BYTE_INDEX, sub32_of_le h]

theorem BIT_INDEX_eq (h : 1 ≤ n) : BIT_INDEX n = (n - 1) % 8 := by
  rw [BIT_INDEX, sub32_of_le h]

theorem mem_free : n ∈ free m sysBm N ↔ (1 ≤ n ∧ n ≤ N) ∧ used m sysBm n = false := by
  simp only [free, List.mem_filter, List.mem_range'_1, Bool.not_eq_true']
  constructor
  · rintro ⟨⟨h1, h2⟩, h3⟩
    exact ⟨⟨h1, by omega⟩, h3⟩
  · rintro ⟨⟨h1, h2⟩, h3⟩
    exact ⟨⟨h1, by omega⟩, h3⟩

theorem free_sorted (m : Memory) (sysBm N : Nat) : (free m sysBm N).Pairwise (· < ·) :=
  (List.pairwise_lt_range' (s := 1) (n := N) 1).filter _

theorem free_nodup (m : Memory) (sysBm N : Nat) : (free m sysBm N).Nodup :=
  (free_sorted m sysBm N).imp fun h => h.ne

theorem length_free_le (m : Memory) (sysBm N : Nat) : (free m sysBm N).length ≤ N := by
  have h := List.length_filter_le (fun n => !used m sysBm n) (List.range' 1 N)
  rwa [List.length_range'] at h

/-- The number of free numbers, counted as a set. -/
theorem length_free (m : Memory) (sysBm N : Nat) :
    (free m sysBm N).length = ((Finset.Icc 1 N).filter fun n => used m sysBm n = false).card := by
  rw [← List.toFinset_card_of_nodup (free_nodup m sysBm N)]
  congr 1
  ext n
  simp [mem_free]

/-- The first free number is the lowest one. -/
theorem head?_free (h : (free m sysBm N).head? = some n) :
    n ∈ free m sysBm N ∧ ∀ k, 1 ≤ k → k < n → used m sysBm k = true := by
  obtain ⟨rest, hrest⟩ := List.head?_eq_some_iff.mp h
  have hmem : n ∈ free m sysBm N := by simp [hrest]
  refine ⟨hmem, fun k h1 hk => ?_⟩
  by_contra hfree
  have hkmem : k ∈ free m sysBm N :=
    mem_free.mpr ⟨⟨h1, by have := (mem_free.mp hmem).1.2; omega⟩, by simpa using hfree⟩
  have hsorted := free_sorted m sysBm N
  rw [hrest] at hsorted hkmem
  cases List.mem_cons.mp hkmem with
  | inl heq => omega
  | inr hin => exact absurd ((List.pairwise_cons.mp hsorted).1 k hin) (by omega)

/-! ### The cursor of a search -/

def Cursor.ofNum (n : Nat) : Cursor := { byteIndex := (n - 1) / 8, bitIndex := (n - 1) % 8 }

theorem Cursor.start_eq : Cursor.start = .ofNum EXT2_GOOD_OLD_FIRST_INO := by decide

theorem Cursor.next_ofNum (h : 1 ≤ n) : (Cursor.ofNum n).next = .ofNum (n + 1) := by
  change Cursor.mk (if ((n - 1) % 8 + 1) % 8 = 0 then (n - 1) / 8 + 1 else (n - 1) / 8)
    (((n - 1) % 8 + 1) % 8) = Cursor.mk (n / 8) (n % 8)
  congr 1
  · split
    · omega
    · omega
  · omega

theorem run_testBit (h : sysBm + (n - 1) / 8 < s.size) :
    (testBit sysBm (Cursor.ofNum n).byteIndex (Cursor.ofNum n).bitIndex).run s =
      .done (used s.disk sysBm n) s := by
  have hload : (loadByte (sysBm + (Cursor.ofNum n).byteIndex)).run s =
      .done (s.disk (sysBm + (n - 1) / 8)) s := run_loadByte h
  rw [testBit, bind_done hload]
  rfl

theorem readOnly_testBit (sysBm i j : Nat) : ReadOnly (testBit sysBm i j) :=
  .bind (readOnly_loadByte _) fun _ => .pure _

theorem readOnly_checkBit (bm : Bitmap) (i : Nat) : ReadOnly (checkBit bm i) := readOnly_testBit _ _ _

theorem readOnly_findFree (bm : Bitmap) : ReadOnly (findFree bm) := by
  refine .ite (.halt _) (.bind .get fun _ => .loop (fun p => ?_) _ _)
  exact .bind (readOnly_testBit _ _ _) fun _ => .ite (.pure _) (.pure _)

theorem readOnly_findNFree (bm : Bitmap) (reqNBits : Nat) : ReadOnly (findNFree bm reqNBits) := by
  refine .ite (.halt _) (.bind .get fun _ => .loop (fun c => ?_) _ _)
  exact .ite (.pure _) (.bind (readOnly_testBit _ _ _) fun _ => .ite (.pure _) (.pure _))

/-! ### `find_free` -/

/-- From a number on, the search goes over the used numbers to the first free one. -/
theorem loop_findFreeRound {fuel : Nat} (hn : 1 ≤ n) (hle : n ≤ k)
    (hused : ∀ i, n ≤ i → i < k → used s.disk sysBm i = true) (hfree : used s.disk sysBm k = false)
    (hsize : sysBm + (k - 1) / 8 < s.size) (hfuel : k - n < fuel) :
    (loop .diverges (findFreeRound sysBm) fuel (.ofNum n, n)).run s = .done k s := by
  induction fuel generalizing n with
  | zero => omega
  | succ fuel ih =>
    have hin : sysBm + (n - 1) / 8 < s.size := by omega
    by_cases hk : n = k
    · subst hk
      refine loop_of_stop ?_
      simp only [findFreeRound]
      rw [bind_done (run_testBit hin), hfree]
      rfl
    · have hbody : (findFreeRound sysBm (.ofNum n, n)).run s = .done (.next (.ofNum (n + 1), n + 1)) s := by
        simp only [findFreeRound]
        rw [bind_done (run_testBit hin), hused n le_rfl (by omega), ← Cursor.next_ofNum hn]
        rfl
      rw [loop_of_next hbody]
      exact ih (by omega) (by omega) (fun i h1 h2 => hused i (by omega) h2) (by omega)

/-- `find_free` gives the lowest number from the first one it tries on, and reads no further. -/
theorem run_findFree (havail : 1 ≤ bm.numBitsAvail) (hn : EXT2_GOOD_OLD_FIRST_INO ≤ n)
    (hused : ∀ k, EXT2_GOOD_OLD_FIRST_INO ≤ k → k < n → used s.disk bm.sysBm k = true)
    (hfree : used s.disk bm.sysBm n = false) (hsize : bm.sysBm + (n - 1) / 8 < s.size) :
    (findFree bm).run s = .done n s := by
  rw [findFree, if_neg (by omega), run_get_bind, Cursor.start_eq]
  refine loop_findFreeRound (by decide) hn hused hfree hsize ?_
  omega

/-! ### `find_n_free` -/

/-- The free numbers from a number on. -/
def freeFrom (m : Memory) (sysBm N n : Nat) : List Nat :=
  (List.range' n (N + 1 - n)).filter fun n => !used m sysBm n

theorem freeFrom_of_used (hn : n ≤ N) (h : used m sysBm n = true) :
    freeFrom m sysBm N n = freeFrom m sysBm N (n + 1) := by
  have hlen : N + 1 - n = (N + 1 - (n + 1)) + 1 := by omega
  rw [freeFrom, hlen, List.range'_succ, List.filter_cons_of_neg (by simp [h]), freeFrom]

theorem freeFrom_of_free (hn : n ≤ N) (h : used m sysBm n = false) :
    freeFrom m sysBm N n = n :: freeFrom m sysBm N (n + 1) := by
  have hlen : N + 1 - n = (N + 1 - (n + 1)) + 1 := by omega
  rw [freeFrom, hlen, List.range'_succ, List.filter_cons_of_pos (by simp [h]), freeFrom]

theorem le_of_mem_freeFrom (h : k ∈ freeFrom m sysBm N n) : n ≤ k :=
  (List.mem_range'_1.mp (List.mem_of_mem_filter h)).1

/-- The lowest free number is the first one from any number up to it on. -/
theorem freeFrom_of_forall_used (hk : 1 ≤ k)
    (hused : ∀ i, 1 ≤ i → i < k → used m sysBm i = true) : freeFrom m sysBm N k = free m sysBm N := by
  induction k, hk using Nat.le_induction with
  | base => simp [freeFrom, free]
  | succ k hk ih =>
    rw [← ih fun i h1 h2 => hused i h1 (by omega)]
    by_cases hN : k ≤ N
    · exact (freeFrom_of_used hN (hused k hk (by omega))).symm
    · have h0 : N + 1 - k = 0 := by omega
      have h1 : N + 1 - (k + 1) = 0 := by omega
      simp [freeFrom, h0, h1]

/-- The search collects a number for each free one, as many as it is to find. The number collected
is counted up from the one the search was given. -/
theorem loop_findNFreeRound {fuel : Nat} {c : Collect} (hn : 1 ≤ n) (hcursor : c.cursor = .ofNum n)
    (hcurr : c.currInodeNum < 2 ^ 32) (hlen : c.nBitsToFind ≤ (freeFrom s.disk sysBm N n).length)
    (hsize : sysBm + (N - 1) / 8 < s.size) (hfuel : N + 1 - n < fuel) :
    (loop .diverges (findNFreeRound sysBm) fuel c).run s =
      .done (c.numArr ++ ((freeFrom s.disk sysBm N n).take c.nBitsToFind).map
        fun p => add32 c.currInodeNum (p - n)) s := by
  induction fuel generalizing c n with
  | zero => omega
  | succ fuel ih =>
    by_cases h0 : c.nBitsToFind = 0
    · have hbody : (findNFreeRound sysBm c).run s = .done (.stop c.numArr) s := by
        rw [findNFreeRound, if_pos h0, run_pure]
      rw [loop_of_stop hbody, h0]
      simp
    · have hN : n ≤ N := by
        by_contra hN
        have hnil : N + 1 - n = 0 := by omega
        simp only [freeFrom, hnil, List.range'_zero, List.filter_nil, List.length_nil] at hlen
        omega
      have hin : sysBm + (n - 1) / 8 < s.size := by omega
      have htest : (testBit sysBm c.cursor.byteIndex c.cursor.bitIndex).run s =
          .done (used s.disk sysBm n) s := by
        rw [hcursor]
        exact run_testBit hin
      have hnext : c.cursor.next = .ofNum (n + 1) := by rw [hcursor, Cursor.next_ofNum hn]
      have hadd : add32 c.currInodeNum 1 < 2 ^ 32 := Nat.mod_lt _ (by decide)
      have hshift : ∀ p ∈ freeFrom s.disk sysBm N (n + 1),
          add32 (add32 c.currInodeNum 1) (p - (n + 1)) = add32 c.currInodeNum (p - n) := by
        intro p hp
        have hp' := le_of_mem_freeFrom hp
        unfold add32
        omega
      cases hu : used s.disk sysBm n with
      | true =>
        rw [freeFrom_of_used hN hu] at hlen ⊢
        have hbody : (findNFreeRound sysBm c).run s = .done (.next
            { c with cursor := c.cursor.next, currInodeNum := add32 c.currInodeNum 1 }) s := by
          rw [findNFreeRound, if_neg h0, bind_done htest, hu]
          rfl
        rw [loop_of_next hbody, ih (n := n + 1)
          (c := { c with cursor := c.cursor.next, currInodeNum := add32 c.currInodeNum 1 })
          (by omega) hnext hadd hlen (by omega)]
        congr 2
        exact List.map_congr_left fun p hp => hshift p (List.mem_of_mem_take hp)
      | false =>
        rw [freeFrom_of_free hN hu] at hlen ⊢
        have hbody : (findNFreeRound sysBm c).run s = .done (.next
            { cursor := c.cursor.next, currInodeNum := add32 c.currInodeNum 1,
              nBitsToFind := c.nBitsToFind - 1, numArr := c.numArr ++ [c.currInodeNum] }) s := by
          rw [findNFreeRound, if_neg h0, bind_done htest, hu]
          rfl
        rw [List.length_cons] at hlen
        rw [loop_of_next hbody, ih (n := n + 1)
          (c := { cursor := c.cursor.next, currInodeNum := add32 c.currInodeNum 1,
                  nBitsToFind := c.nBitsToFind - 1, numArr := c.numArr ++ [c.currInodeNum] })
          (by omega) hnext hadd (by simp only; omega) (by omega)]
        obtain ⟨left, hleft⟩ := Nat.exists_eq_succ_of_ne_zero h0
        have hfirst : add32 c.currInodeNum (n - n) = c.currInodeNum := by
          rw [Nat.sub_self, add32_of_lt (by omega), Nat.add_zero]
        simp only [hleft, Nat.succ_eq_add_one, Nat.add_sub_cancel, List.take_succ_cons, List.map_cons,
          hfirst, List.append_assoc, List.singleton_append]
        congr 3
        exact List.map_congr_left fun p hp => hshift p (List.mem_of_mem_take hp)

/-- `find_n_free` goes over the free numbers from the first one it tries on, but counts the numbers
it gives from `curr_avail_num` on. -/
theorem run_findNFree {reqNBits : Nat} (havail : reqNBits ≤ bm.numBitsAvail)
    (hcurr : bm.currAvailNum < 2 ^ 32)
    (hlen : reqNBits ≤ (freeFrom s.disk bm.sysBm N EXT2_GOOD_OLD_FIRST_INO).length)
    (hsize : bm.sysBm + (N - 1) / 8 < s.size) :
    (findNFree bm reqNBits).run s =
      .done (((freeFrom s.disk bm.sysBm N EXT2_GOOD_OLD_FIRST_INO).take reqNBits).map
        fun p => add32 bm.currAvailNum (p - EXT2_GOOD_OLD_FIRST_INO)) s := by
  rw [findNFree, if_neg (by omega), run_get_bind, Cursor.start_eq]
  have h := loop_findNFreeRound (N := N) (n := EXT2_GOOD_OLD_FIRST_INO)
    (c := { cursor := .ofNum EXT2_GOOD_OLD_FIRST_INO, currInodeNum := bm.currAvailNum,
            nBitsToFind := reqNBits, numArr := [] })
    (by decide) rfl hcurr hlen hsize
    (show N + 1 - EXT2_GOOD_OLD_FIRST_INO < 8 * s.size + 2 by omega)
  exact h

/-! ### Toggled bits -/

/-- Toggle the bit of a number. -/
def flip (m : Memory) (sysBm n : Nat) : Memory :=
  Function.update m (sysBm + (n - 1) / 8) (m (sysBm + (n - 1) / 8) ^^^ bitMask ((n - 1) % 8))

/-- Toggle the bits of all the numbers. -/
def flips (m : Memory) (sysBm : Nat) (ns : List Nat) : Memory := ns.foldl (fun m n => flip m sysBm n) m

@[simp] theorem flips_nil : flips m sysBm [] = m := rfl

@[simp] theorem flips_cons : flips m sysBm (n :: ns) = flips (flip m sysBm n) sysBm ns := rfl

theorem getLsbD_bitMask {i j : Nat} (hi : i < 8) : (bitMask i).getLsbD j = decide (j = i) := by
  have heq : bitMask i = BitVec.twoPow 8 i := rfl
  rw [heq, BitVec.getLsbD_twoPow]
  simp [hi, eq_comm]

theorem getLsbD_flip {a i : Nat} :
    (flip m sysBm n a).getLsbD i =
      ((m a).getLsbD i ^^ decide (a = sysBm + (n - 1) / 8 ∧ i = (n - 1) % 8)) := by
  by_cases ha : a = sysBm + (n - 1) / 8
  · subst ha
    rw [flip, Function.update_self, BitVec.getLsbD_xor, getLsbD_bitMask (Nat.mod_lt _ (by decide))]
    simp
  · rw [flip, Function.update_of_ne ha]
    simp [ha]

/-- Exactly the bits of the numbers are toggled, in all of memory. -/
theorem getLsbD_flips (hnodup : ns.Nodup) (hpos : ∀ n ∈ ns, 1 ≤ n) {a i : Nat} :
    (flips m sysBm ns a).getLsbD i =
      ((m a).getLsbD i ^^ decide (∃ n ∈ ns, a = sysBm + (n - 1) / 8 ∧ i = (n - 1) % 8)) := by
  induction ns generalizing m with
  | nil => simp
  | cons n ns ih =>
    obtain ⟨hn, hns⟩ := List.nodup_cons.mp hnodup
    rw [flips_cons, ih hns fun n' h => hpos n' (List.mem_cons_of_mem _ h), getLsbD_flip, Bool.xor_assoc]
    congr 1
    have hcons : (∃ n' ∈ n :: ns, a = sysBm + (n' - 1) / 8 ∧ i = (n' - 1) % 8) ↔
        (a = sysBm + (n - 1) / 8 ∧ i = (n - 1) % 8) ∨
          ∃ n' ∈ ns, a = sysBm + (n' - 1) / 8 ∧ i = (n' - 1) % 8 :=
      List.exists_mem_cons_iff ..
    rw [decide_eq_decide.mpr hcons]
    by_cases h1 : a = sysBm + (n - 1) / 8 ∧ i = (n - 1) % 8
    · -- No other number of the list has this bit.
      have h2 : ¬∃ n' ∈ ns, a = sysBm + (n' - 1) / 8 ∧ i = (n' - 1) % 8 := by
        rintro ⟨n', hn', ha, hi⟩
        have hpos1 := hpos n List.mem_cons_self
        have hpos2 := hpos n' (List.mem_cons_of_mem _ hn')
        have heq : n' = n := by omega
        exact hn (heq ▸ hn')
      rw [decide_eq_true h1, decide_eq_false h2, decide_eq_true (.inl h1)]
      rfl
    · rw [decide_eq_false h1, decide_eq_decide.mpr (or_iff_right h1),
        Bool.false_xor]

theorem used_flips (hnodup : ns.Nodup) (hpos : ∀ n ∈ ns, 1 ≤ n) (hk : 1 ≤ k) :
    used (flips m sysBm ns) sysBm k = (used m sysBm k ^^ decide (k ∈ ns)) := by
  rw [used, getLsbD_flips hnodup hpos, used]
  congr 2
  rw [eq_iff_iff]
  constructor
  · rintro ⟨n, hn, ha, hi⟩
    have hn1 := hpos n hn
    have heq : k = n := by omega
    exact heq ▸ hn
  · intro hmem
    exact ⟨k, hmem, rfl, rfl⟩

theorem length_free_flips_of_free (hnodup : ns.Nodup) (h : ∀ n ∈ ns, n ∈ free m sysBm N) :
    (free (flips m sysBm ns) sysBm N).length + ns.length = (free m sysBm N).length := by
  have hpos : ∀ n ∈ ns, 1 ≤ n := fun n hn => (mem_free.mp (h n hn)).1.1
  rw [length_free, length_free, ← List.toFinset_card_of_nodup hnodup]
  rw [← Finset.card_union_of_disjoint]
  · congr 1
    ext k
    simp only [Finset.mem_union, Finset.mem_filter, Finset.mem_Icc, List.mem_toFinset]
    constructor
    · rintro (⟨hk, hfree⟩ | hk)
      · rw [used_flips hnodup hpos hk.1] at hfree
        by_cases hin : k ∈ ns
        · exact mem_free.mp (h k hin)
        · exact ⟨hk, by simpa [hin] using hfree⟩
      · exact mem_free.mp (h k hk)
    · rintro ⟨hk, hfree⟩
      by_cases hin : k ∈ ns
      · exact .inr hin
      · refine .inl ⟨hk, ?_⟩
        rw [used_flips hnodup hpos hk.1]
        simp [hin, hfree]
  · rw [Finset.disjoint_left]
    intro k hk hin
    have hin' := List.mem_toFinset.mp hin
    obtain ⟨hk1, hfree⟩ := Finset.mem_filter.mp hk
    rw [used_flips hnodup hpos (hpos k hin'), (mem_free.mp (h k hin')).2] at hfree
    simp [hin'] at hfree

theorem length_free_flips_of_used (hnodup : ns.Nodup)
    (h : ∀ n ∈ ns, (1 ≤ n ∧ n ≤ N) ∧ used m sysBm n = true) :
    (free (flips m sysBm ns) sysBm N).length = (free m sysBm N).length + ns.length := by
  have hpos : ∀ n ∈ ns, 1 ≤ n := fun n hn => (h n hn).1.1
  rw [length_free, length_free, ← List.toFinset_card_of_nodup hnodup]
  rw [← Finset.card_union_of_disjoint]
  · congr 1
    ext k
    simp only [Finset.mem_union, Finset.mem_filter, Finset.mem_Icc, List.mem_toFinset]
    constructor
    · rintro ⟨hk, hfree⟩
      rw [used_flips hnodup hpos hk.1] at hfree
      by_cases hin : k ∈ ns
      · exact .inr hin
      · exact .inl ⟨hk, by simpa [hin] using hfree⟩
    · rintro (⟨hk, hfree⟩ | hin)
      · refine ⟨hk, ?_⟩
        have hout : k ∉ ns := fun hin => by simp [(h k hin).2] at hfree
        rw [used_flips hnodup hpos hk.1]
        simp [hout, hfree]
      · refine ⟨(h k hin).1, ?_⟩
        rw [used_flips hnodup hpos (hpos k hin), (h k hin).2]
        simp [hin]
  · rw [Finset.disjoint_left]
    intro k hk hin
    have hused := (h k (List.mem_toFinset.mp hin)).2
    simp [hused] at hk

end Ext2

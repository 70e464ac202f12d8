-- SUMMARY: The superblock and the group descriptor, and how a tool sets its globals from them.
import OperatingSystems.Ext2.Allocation

/-!
# Globals

Every tool starts with `init_globals`. It takes the counts of free numbers from the group descriptor
as they are, and looks for the first free number of each bitmap.
-/

namespace Ext2

open Library Library.Process

/-! ## Where the fields lie -/

def sb : Nat := EXT2_BLOCK_SIZE
def gd : Nat := 2 * EXT2_BLOCK_SIZE

def sInodesCount : Nat := sb
def sBlocksCount : Nat := sb + 4
def sFreeBlocksCount : Nat := sb + 12
def sFreeInodesCount : Nat := sb + 16

def bgBlockBitmap : Nat := gd
def bgInodeBitmap : Nat := gd + 4
def bgInodeTable : Nat := gd + 8
def bgFreeBlocksCount : Nat := gd + 12
def bgFreeInodesCount : Nat := gd + 14
def bgPad : Nat := gd + 18
def bgReserved (i : Nat) : Nat := gd + 20 + 4 * i

/-! ## The code -/

/-- `disk + block_num * EXT2_BLOCK_SIZE` where the block number is unsigned. -/
def blockAddrU (blockNum : Nat) : Nat := blockNum * EXT2_BLOCK_SIZE % 2 ^ 32

theorem blockAddrU_of_lt {n : Nat} (h : n * EXT2_BLOCK_SIZE < 2 ^ 32) : blockAddrU n = n * EXT2_BLOCK_SIZE :=
  Nat.mod_eq_of_lt h

/-- The loops of `read_bitmaps` over the bytes and bits of a bitmap, both left once enough bits are
found: `pos` is `8 * byte_i + bit`, and `index` one more. -/
def readBitmap (b : Bm) (currBm : Int) : Nat → Nat → Int → Tool Int
  | 0, _, foundBits => pure foundBits
  | n + 1, pos, foundBits => do
    if foundBits < currBm then do
      let s ← get
      let used ← testBit (s.bmap b).sysBm (pos / 8) (pos % 8)
      if used = false ∧ pos + 1 ≥ EXT2_GOOD_OLD_FIRST_INO then do
        modify fun s => s.setBmap b { s.bmap b with
          availByteIndex := pos / 8, availBitIndex := pos % 8, currAvailNum := pos + 1 }
        readBitmap b currBm n (pos + 1) (foundBits + 1)
      else readBitmap b currBm n (pos + 1) foundBits
    else pure foundBits

/-- The number of bits that the loops cover; the count is taken as an int. -/
def bitsToRead (count : Nat) : Nat := if count < 2 ^ 31 then 8 * (count / 8) else 0

/-- `read_bitmaps`. -/
def readBitmaps : Tool Unit := do
  let s ← get
  let foundBits ← readBitmap .ind 0 (bitsToRead s.indsCount) 0 (-1)
  let foundBits ← readBitmap .blk 1 (bitsToRead s.blksCount) 0 foundBits
  if foundBits = 0 then halt (.exit ENOSPC) else pure ()

/-- `init_globals`. -/
def initGlobals : Tool Unit := do
  storeWord 2 bgPad 0
  storeWord 4 (bgReserved 0) 0
  storeWord 4 (bgReserved 1) 0
  storeWord 4 (bgReserved 2) 0
  let indsCount ← loadWord 4 sInodesCount
  let blksCount ← loadWord 4 sBlocksCount
  let inodeTable ← loadWord 4 bgInodeTable
  let inodeBitmap ← loadWord 4 bgInodeBitmap
  let blockBitmap ← loadWord 4 bgBlockBitmap
  let freeInodes ← loadWord 2 bgFreeInodesCount
  let freeBlocks ← loadWord 2 bgFreeBlocksCount
  modify fun s => { s with
    indsCount, blksCount
    indTable := blockAddrU inodeTable
    indBmap := { s.indBmap with sysBm := blockAddrU inodeBitmap, numBitsAvail := freeInodes }
    blkBmap := { s.blkBmap with sysBm := blockAddrU blockBitmap, numBitsAvail := freeBlocks } }
  readBitmaps

/-- `find_free_inode`. -/
def findFreeInode : Tool Nat := do
  let s ← get
  if s.indBmap.numBitsAvail < 1 then halt (.exit ENOSPC) else pure s.indBmap.currAvailNum

/-- `find_free_block`. -/
def findFreeBlock : Tool Nat := do
  let s ← get
  if s.blkBmap.numBitsAvail < 1 then halt (.exit ENOSPC) else pure s.blkBmap.currAvailNum

theorem readOnly_findFreeInode : ReadOnly findFreeInode := .bind .get fun _ => .ite (.halt _) (.pure _)

theorem readOnly_findFreeBlock : ReadOnly findFreeBlock := .bind .get fun _ => .ite (.halt _) (.pure _)

/-! ## A tool on an image -/

/-- A tool that has just mapped an image. -/
def State.boot (disk : Memory) : State where
  disk := disk
  size := 128 * 1024
  indsCount := 0
  blksCount := 0
  indTable := 0
  indBmap := .zero
  blkBmap := .zero

/-- A tool runs on an image after `init_globals`. -/
def Tool.runOn {α : Type} (t : Tool α) (disk : Memory) : Outcome Halt State α :=
  (initGlobals >>= fun _ => t).run (.boot disk)

/-! ## What `init_globals` does -/

section

variable {s s' : State} {b : Bm} {n pos : Nat} {currBm foundBits : Int}

/-- The disk with `bg_pad` and `bg_reserved` zeroed. -/
def zeroed (m : Memory) : Memory :=
  Memory.store (Memory.store (Memory.store (Memory.store m bgPad (leBytes 2 0))
    (bgReserved 0) (leBytes 4 0)) (bgReserved 1) (leBytes 4 0)) (bgReserved 2) (leBytes 4 0)

/-- The globals as the superblock and the group descriptor have them. -/
def State.loaded (s : State) : State :=
  { s with
    disk := zeroed s.disk
    indsCount := word (zeroed s.disk) 4 sInodesCount
    blksCount := word (zeroed s.disk) 4 sBlocksCount
    indTable := blockAddrU (word (zeroed s.disk) 4 bgInodeTable)
    indBmap := { s.indBmap with
      sysBm := blockAddrU (word (zeroed s.disk) 4 bgInodeBitmap)
      numBitsAvail := word (zeroed s.disk) 2 bgFreeInodesCount }
    blkBmap := { s.blkBmap with
      sysBm := blockAddrU (word (zeroed s.disk) 4 bgBlockBitmap)
      numBitsAvail := word (zeroed s.disk) 2 bgFreeBlocksCount } }

theorem run_initGlobals (h : 3 * EXT2_BLOCK_SIZE ≤ s.size) :
    initGlobals.run s = readBitmaps.run s.loaded := by
  have hin : ∀ k, k ≤ 3 * EXT2_BLOCK_SIZE → k ≤ s.size := fun k hk => hk.trans h
  simp (disch := exact hin _ (by decide)) only [initGlobals, run_storeWord_bind, run_loadWord_bind,
    run_modify_bind]
  rfl

/-- The state with the cursor of a bitmap at a number, or as it is. -/
def State.cursorAt (s : State) (b : Bm) : Option Nat → State
  | some k => s.setBmap b ((s.bmap b).withCursor (some k))
  | none => s

@[simp] theorem disk_cursorAt {o : Option Nat} : (s.cursorAt b o).disk = s.disk := by
  cases o <;> simp [State.cursorAt]

@[simp] theorem size_cursorAt {o : Option Nat} : (s.cursorAt b o).size = s.size := by
  cases o <;> simp [State.cursorAt]

@[simp] theorem sysBm_cursorAt {o : Option Nat} {b' : Bm} :
    ((s.cursorAt b o).bmap b').sysBm = (s.bmap b').sysBm := by
  cases o <;> cases b <;> cases b' <;> rfl

@[simp] theorem numBitsAvail_cursorAt {o : Option Nat} {b' : Bm} :
    ((s.cursorAt b o).bmap b').numBitsAvail = (s.bmap b').numBitsAvail := by
  cases o <;> cases b <;> cases b' <;> rfl

theorem cursorAt_cursorAt {k : Nat} {o : Option Nat} :
    (s.cursorAt b (some k)).cursorAt b o = s.cursorAt b (some (o.getD k)) := by
  cases o <;> cases b <;> rfl

/-- The numbers that `read_bitmaps` takes, from a position on. -/
def candidates (s : State) (b : Bm) (pos n : Nat) : List Nat :=
  (List.range' (pos + 1) n).filter fun k => EXT2_GOOD_OLD_FIRST_INO ≤ k ∧ s.used b k = false

theorem candidates_of_neg (h : ¬(s.used b (pos + 1) = false ∧ pos + 1 ≥ EXT2_GOOD_OLD_FIRST_INO)) :
    candidates s b pos (n + 1) = candidates s b (pos + 1) n := by
  rw [candidates, List.range'_succ, List.filter_cons_of_neg, candidates]
  simp only [decide_eq_true_eq]
  tauto

theorem candidates_of_pos (h : s.used b (pos + 1) = false ∧ pos + 1 ≥ EXT2_GOOD_OLD_FIRST_INO) :
    candidates s b pos (n + 1) = (pos + 1) :: candidates s b (pos + 1) n := by
  rw [candidates, List.range'_succ, List.filter_cons_of_pos, candidates]
  simp only [decide_eq_true_eq]
  tauto

theorem candidates_cursorAt {o : Option Nat} {b' : Bm} :
    candidates (s.cursorAt b o) b' pos n = candidates s b' pos n := by
  cases o <;> cases b <;> cases b' <;> rfl

theorem run_testBit_pos (h : (s.bmap b).sysBm + pos / 8 < s.size) :
    (testBit (s.bmap b).sysBm (pos / 8) (pos % 8)).run s = .done (s.used b (pos + 1)) s :=
  run_testBit (n := pos + 1) h

/-- The search takes as many of the candidates as it has to find, and leaves the cursor at the last of
them. -/
theorem run_readBitmap_find (hmap : (s.bmap b).sysBm + (pos + n + 7) / 8 ≤ s.size) :
    (readBitmap b currBm n pos foundBits).run s =
      .done (foundBits + min (currBm - foundBits).toNat (candidates s b pos n).length)
        (s.cursorAt b ((candidates s b pos n).take (currBm - foundBits).toNat).getLast?) := by
  induction n generalizing s pos foundBits with
  | zero =>
    rw [readBitmap, run_pure]
    simp [candidates, State.cursorAt]
  | succ n ih =>
    rw [readBitmap]
    by_cases hfound : foundBits < currBm
    · rw [if_pos hfound, run_get_bind, bind_done (run_testBit_pos (by omega))]
      by_cases h : s.used b (pos + 1) = false ∧ pos + 1 ≥ EXT2_GOOD_OLD_FIRST_INO
      · obtain ⟨d, hd⟩ : ∃ d, (currBm - foundBits).toNat = d + 1 := ⟨(currBm - foundBits).toNat - 1, by omega⟩
        have hd' : (currBm - (foundBits + 1)).toNat = d := by omega
        have hrun := @ih (s.cursorAt b (some (pos + 1))) (pos + 1) (foundBits + 1) (by
          rw [sysBm_cursorAt, size_cursorAt]
          omega)
        rw [candidates_cursorAt, hd', cursorAt_cursorAt] at hrun
        rw [if_pos h, run_modify_bind, candidates_of_pos h, hd, List.take_succ_cons, List.length_cons,
          List.getLast?_cons]
        refine hrun.trans ?_
        congr 1
        omega
      · rw [if_neg h, candidates_of_neg h]
        exact ih (by omega)
    · have hzero : (currBm - foundBits).toNat = 0 := by omega
      rw [if_neg hfound, run_pure, hzero]
      simp [State.cursorAt]

/-- With one number to find, the search ends at the first one. -/
theorem run_readBitmap_one (hfound : foundBits + 1 = currBm)
    (hmap : (s.bmap b).sysBm + (pos + n + 7) / 8 ≤ s.size) :
    (readBitmap b currBm n pos foundBits).run s =
      .done (if (candidates s b pos n).head?.isSome then currBm else foundBits)
        (s.cursorAt b (candidates s b pos n).head?) := by
  have hone : (currBm - foundBits).toNat = 1 := by omega
  rw [run_readBitmap_find hmap, hone]
  cases candidates s b pos n with
  | nil => simp
  | cons k ks => simp [hfound]

/-- However many numbers there are to find, the cursor ends up at one of them, if there is any. -/
theorem run_readBitmap (hmap : (s.bmap b).sysBm + (pos + n + 7) / 8 ≤ s.size) :
    ∃ found o, (readBitmap b currBm n pos foundBits).run s = .done found (s.cursorAt b o) ∧
      (∀ k ∈ o, k ∈ candidates s b pos n) ∧
      (foundBits < currBm → candidates s b pos n ≠ [] → o ≠ none) := by
  refine ⟨_, _, run_readBitmap_find hmap, fun k hk => ?_, fun hlt hne => ?_⟩
  · exact List.mem_of_mem_take (List.mem_of_getLast? hk)
  · rw [Ne, List.getLast?_eq_none_iff, List.take_eq_nil_iff]
    rintro (h | h)
    · omega
    · exact hne h

/-- Whatever the search finds, it changes nothing but the cursor. -/
theorem state_readBitmap (b : Bm) (currBm : Int) (n pos : Nat) (foundBits : Int) (s : State) :
    ∃ o, ((readBitmap b currBm n pos foundBits).run s).state = s.cursorAt b o ∧
      ∀ k ∈ o, EXT2_GOOD_OLD_FIRST_INO ≤ k := by
  induction n generalizing s pos foundBits with
  | zero => exact ⟨none, rfl, by simp⟩
  | succ n ih =>
    rw [readBitmap]
    by_cases hfound : foundBits < currBm
    · rw [if_pos hfound, run_get_bind]
      cases htest : (testBit (s.bmap b).sysBm (pos / 8) (pos % 8)).run s with
      | halted e s' =>
        rw [bind_halted htest]
        exact ⟨none, (readOnly_testBit _ _ _).of_halted htest, by simp⟩
      | done used s' =>
        obtain rfl := (readOnly_testBit _ _ _).of_done htest
        rw [bind_done htest]
        by_cases h : used = false ∧ pos + 1 ≥ EXT2_GOOD_OLD_FIRST_INO
        · rw [if_pos h, run_modify_bind]
          obtain ⟨o, hstate, ho⟩ := ih (pos + 1) (foundBits + 1) (s'.cursorAt b (some (pos + 1)))
          refine ⟨some (o.getD (pos + 1)), hstate.trans cursorAt_cursorAt, ?_⟩
          intro k hk
          cases hk
          cases o with
          | none => exact h.2
          | some k => exact ho k rfl
        · rw [if_neg h]
          exact ih (pos + 1) foundBits s'
    · rw [if_neg hfound]
      exact ⟨none, rfl, by simp⟩

end

end Ext2

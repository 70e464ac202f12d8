-- SUMMARY: The checker: what it looks at, what it repairs, and what it counts.
import OperatingSystems.Ext2.Directories

/-!
# Checker

Five checks go over the counts, the entries of directories, and the inodes they name. They test the
bit with the index of a number, which is that of the next number, and change the one of the number
itself. The inode they look at is the next one, too. Each function gives what it adds to `*fix_count`;
where the source has `*fix_count++`, a copy of the pointer is moved and nothing is counted.
-/

namespace Ext2

open Library Library.Process

/-! ## Types -/

/-- The types of inodes and entries: `'u'`, `'f'`, `'d'` and `'l'`. -/
inductive FileType where
  | unknown
  | file
  | dir
  | link
deriving DecidableEq, Repr

/-- `get_inode_type`. -/
def getInodeType (iMode : Nat) : Tool FileType :=
  if iMode / 2 ^ 12 = EXT2_S_IFLNK / 2 ^ 12 then pure .link
  else if iMode / 2 ^ 12 = EXT2_S_IFREG / 2 ^ 12 then pure .file
  else if iMode / 2 ^ 12 = EXT2_S_IFDIR / 2 ^ 12 then pure .dir
  else halt (.exit EINVAL)

/-- `get_directory_entry_type`. -/
def getDirectoryEntryType (fileType : Nat) : Tool FileType :=
  if fileType = EXT2_FT_UNKNOWN then pure .unknown
  else if fileType = EXT2_FT_REG_FILE then pure .file
  else if fileType = EXT2_FT_DIR then pure .dir
  else if fileType = EXT2_FT_SYMLINK then pure .link
  else halt (.exit EINVAL)

theorem readOnly_getInodeType (iMode : Nat) : ReadOnly (getInodeType iMode) :=
  .ite (.pure _) (.ite (.pure _) (.ite (.pure _) (.halt _)))

theorem readOnly_getDirectoryEntryType (fileType : Nat) : ReadOnly (getDirectoryEntryType fileType) :=
  .ite (.pure _) (.ite (.pure _) (.ite (.pure _) (.ite (.pure _) (.halt _))))

/-- The values that the cases of the switch assign, each case with those it falls through to. -/
def assigned : FileType → List Nat
  | .link => [EXT2_FT_SYMLINK, EXT2_FT_REG_FILE, EXT2_FT_DIR, EXT2_FT_UNKNOWN]
  | .file => [EXT2_FT_REG_FILE, EXT2_FT_DIR, EXT2_FT_UNKNOWN]
  | .dir => [EXT2_FT_DIR, EXT2_FT_UNKNOWN]
  | .unknown => [EXT2_FT_UNKNOWN]

/-- Assign values to a byte, one after the other. -/
def assignAll (a : Nat) : List Nat → Tool Unit
  | [] => pure ()
  | v :: vs => do
    storeWord 1 a v
    assignAll a vs

/-! ## The checks -/

/-- A count that differs from the number of free bits is set to it. -/
def fixCount (w a free : Nat) : Tool (BitVec 32) := do
  let count ← loadWord w a
  if count ≠ free then do
    storeWord w a free
    pure (BitVec.ofInt 32 |signed count - signed free|)
  else pure 0

/-- `check_free_counts`. -/
def checkFreeCounts : Tool (BitVec 32) := do
  let s ← get
  let freeInodesCount := s.indBmap.numBitsAvail
  let freeBlocksCount := s.blkBmap.numBitsAvail
  let n₁ ← fixCount 2 bgFreeBlocksCount freeBlocksCount
  let n₂ ← fixCount 2 bgFreeInodesCount freeInodesCount
  let n₃ ← fixCount 4 sFreeBlocksCount freeBlocksCount
  let n₄ ← fixCount 4 sFreeInodesCount freeInodesCount
  pure (n₁ + n₂ + n₃ + n₄)

/-- `check_matching_types`, for the entry at an address. -/
def checkMatchingTypes (dirEnt : Nat) : Tool Unit := do
  let inode ← loadWord 4 dirEnt
  let currentInode ← indTableAt inode
  let fileType ← loadWord 1 (dirEnt + 7)
  let dirEntType ← getDirectoryEntryType fileType
  let inodeType ← getInodeType currentInode.iMode
  if dirEntType ≠ inodeType then assignAll (dirEnt + 7) (assigned inodeType) else pure ()

/-- `check_inode_bitmap`. -/
def checkInodeBitmap (dirEnt : Nat) : Tool Unit := do
  let s ← get
  let inode ← loadWord 4 dirEnt
  let used ← checkBit s.indBmap inode
  if used then pure ()
  else do
    setNToggleBit .ind [inode] 1
    let bgFreeInodes ← loadWord 2 bgFreeInodesCount
    storeWord 2 bgFreeInodesCount (sub32 bgFreeInodes 1)
    let sFreeInodes ← loadWord 4 sFreeInodesCount
    storeWord 4 sFreeInodesCount (sub32 sFreeInodes 1)

/-- `check_inode_dtime`. It assigns to a copy of the inode. -/
def checkInodeDtime (dirEnt : Nat) : Tool Unit := do
  let inode ← loadWord 4 dirEnt
  let _ ← indTableAt inode
  pure ()

/-- The variables of the loop of `check_data_block_bitmap`. -/
structure MarkWalk where
  iBlockIndex : Nat
  indirectBlockIndex : Nat
  blockNum : Nat
  blockCount : Nat

/-- The next block number. Without an indirect block, `indirect_blks` is not set. -/
def MarkWalk.next (inode : Inode) (w : MarkWalk) : Tool MarkWalk := do
  if w.iBlockIndex = INDIRECT_BLK_INDEX then do
    let table ← iBlockAt inode INDIRECT_BLK_INDEX
    if table = 0 then halt .fault
    else do
      let blockNum ← loadWord 4 (blockAddrU table + 4 * w.indirectBlockIndex)
      pure { w with blockNum, indirectBlockIndex := w.indirectBlockIndex + 1 }
  else do
    let blockNum ← iBlockAt inode w.iBlockIndex
    pure { w with blockNum, iBlockIndex := w.iBlockIndex + 1 }

/-- A round of the loop of `check_data_block_bitmap`. The zero that ends the blocks is checked too. -/
def markRound (inode : Inode) (w : MarkWalk) : Tool (Round MarkWalk Nat) := do
  if w.blockNum ≠ 0 then do
    let w ← w.next inode
    let s ← get
    let used ← checkBit s.blkBmap w.blockNum
    if used then pure (.next w)
    else do
      setNToggleBit .blk [w.blockNum] 1
      pure (.next { w with blockCount := w.blockCount + 1 })
  else pure (.stop w.blockCount)

/-- `check_data_block_bitmap`. An indirect table ends with a zero or with the mapping. -/
def checkDataBlockBitmap (dirEnt : Nat) : Tool (BitVec 32) := do
  let inode ← loadWord 4 dirEnt
  let currentInode ← indTableAt inode
  let s ← get
  let blockCount ← loop .diverges (markRound currentInode) (s.size + 14)
    { iBlockIndex := 0, indirectBlockIndex := 0, blockNum := currentInode.iBlock.getD 0 0, blockCount := 0 }
  pure (BitVec.ofNat 32 blockCount)

/-! ## Going over the directories -/

/-- A round of the loop of `check_block`, with `mem_to_check`, `curr_dir_ent` and the sum. An entry of
size 0 keeps it from ending. -/
def checkBlockRound (p : Int × Nat × BitVec 32) : Tool (Round (Int × Nat × BitVec 32) (BitVec 32)) := do
  if p.1 > 0 then do
    checkMatchingTypes p.2.1
    checkInodeBitmap p.2.1
    checkInodeDtime p.2.1
    let n ← checkDataBlockBitmap p.2.1
    let recLen ← loadWord 2 (p.2.1 + 4)
    let recLen' ← loadWord 2 (p.2.1 + 4)
    pure (.next (p.1 - recLen, p.2.1 + recLen', p.2.2 + n))
  else pure (.stop p.2.2)

/-- `check_block`. -/
def checkBlock (blockNum : Nat) : Tool (BitVec 32) :=
  loop .diverges checkBlockRound chainRounds ((EXT2_BLOCK_SIZE : Int), blockAddrU blockNum, 0)

/-- The variables of `check_dir_entries`, which keep their values from one directory to the next. -/
structure DirWalk where
  iBlockIndex : Nat
  indirectBlockIndex : Nat
  indirectBlks : Option Nat
  fixed : BitVec 32

/-- A round of the loop over the blocks of a directory, with `block_num`. -/
def dirBlocksRound (inode : Inode) (p : DirWalk × Nat) : Tool (Round (DirWalk × Nat) DirWalk) := do
  if p.2 ≠ 0 then do
    let n ← checkBlock p.2
    let w := { p.1 with fixed := p.1.fixed + n }
    if w.iBlockIndex = INDIRECT_BLK_INDEX then
      match w.indirectBlks with
      | none => halt .fault
      | some table => do
        let blockNum ← loadWord 4 (table + 4 * w.indirectBlockIndex)
        pure (.next ({ w with indirectBlockIndex := w.indirectBlockIndex + 1 }, blockNum))
    else do
      let blockNum ← iBlockAt inode (w.iBlockIndex + 1)
      pure (.next ({ w with iBlockIndex := w.iBlockIndex + 1 }, blockNum))
  else pure (.stop p.1)

/-- The loop of `check_dir_entries` over indices of the table, `n` of them. -/
def checkDirEntriesFrom : Nat → Nat → DirWalk → Tool (BitVec 32)
  | 0, _, w => pure w.fixed
  | n + 1, index, w => do
    let inode ← indTableAt index
    if inode.iCtime ≠ 0 ∧ IS_DIR inode.iMode then do
      let table := inode.iBlock.getD INDIRECT_BLK_INDEX 0
      let w := if table ≠ 0 then { w with indirectBlks := some (blockAddrU table) } else w
      let blockNum ← iBlockAt inode w.iBlockIndex
      let s ← get
      let w ← loop .diverges (dirBlocksRound inode) (s.size + 14) (w, blockNum)
      checkDirEntriesFrom n (index + 1) w
    else checkDirEntriesFrom n (index + 1) w

/-- `check_dir_entries`. -/
def checkDirEntries : Tool (BitVec 32) := do
  let inodesCount ← loadWord 4 sInodesCount
  let total := sub32 inodesCount EXT2_GOOD_OLD_FIRST_INO
  checkDirEntriesFrom (total - EXT2_GOOD_OLD_FIRST_INO) EXT2_GOOD_OLD_FIRST_INO
    { iBlockIndex := 0, indirectBlockIndex := 0, indirectBlks := none, fixed := 0 }

/-- `ext2_checker`, with what is in the memory that it takes for the counter. It reports the final
value. -/
def ext2Checker (fixCount : BitVec 32) : Tool (BitVec 32) := do
  let n ← checkFreeCounts
  let n' ← checkDirEntries
  pure (fixCount + n + n')

end Ext2

-- SUMMARY: The tools that remove an entry, and that restore what has been removed.
import OperatingSystems.Ext2.Directories

/-!
# Removals

Both tools index the table of inodes with the numbers themselves, and so look at the inode after the
one they mean. The blocks they collect are those after the first, with the zero that ends them.
-/

namespace Ext2

open Library Library.Process

/-! ## The blocks of an inode -/

/-- The variables of the loops over the blocks of an inode. -/
structure BlockWalk where
  iBlockIndex : Nat
  indirectBlockIndex : Nat
  blockNum : Nat
  blocks : List Nat

/-- The step of the loops to the next block number. -/
def BlockWalk.next (inode : Inode) (w : BlockWalk) : Tool BlockWalk := do
  if w.iBlockIndex = INDIRECT_BLK_INDEX then do
    let blockNum ← loadWord 4
      (blockAddrU (inode.iBlock.getD INDIRECT_BLK_INDEX 0) + 4 * w.indirectBlockIndex)
    pure { w with blockNum, indirectBlockIndex := w.indirectBlockIndex + 1 }
  else do
    let blockNum ← iBlockAt inode (w.iBlockIndex + 1)
    pure { w with blockNum, iBlockIndex := w.iBlockIndex + 1 }

/-- A round of the loop that collects the block numbers. -/
def collectRound (inode : Inode) (w : BlockWalk) : Tool (Round BlockWalk (List Nat)) := do
  if w.blockNum ≠ 0 then do
    let w ← w.next inode
    pure (.next { w with blocks := w.blocks ++ [w.blockNum] })
  else pure (.stop w.blocks)

/-- The walk at the first block. -/
def BlockWalk.start (inode : Inode) : BlockWalk :=
  { iBlockIndex := 0, indirectBlockIndex := 0, blockNum := inode.iBlock.getD 0 0, blocks := [] }

/-- The loop that collects the block numbers. The one before it goes the same way and counts them. An
indirect table ends with a zero or with the mapping. -/
def collect (inode : Inode) : Tool (List Nat) := do
  let s ← get
  loop .diverges (collectRound inode) (s.size + 13) (.start inode)

/-! ## Removing -/

/-- `rm_inode`. -/
def rmInode (inodeNum : Nat) : Tool Unit := do
  let inode ← indTableAt inodeNum
  let blocks ← collect inode
  setNToggleBit .blk blocks 0
  setNToggleBit .ind [inodeNum] 0

/-- The variables of the search for an entry: `mem_to_check`, `prev_dir_ent`, which is not set at
first, and `curr_dir_ent`. -/
structure EntrySearch where
  memToCheck : Int
  prevDirEnt : Option Nat
  currDirEnt : Nat

/-- A round of the inner loop of `rm_dir_entry`, which says whether it has found the entry. The size
it subtracts is that of the entry it has moved to. -/
def rmSearchRound (name : Name) (e : EntrySearch) : Tool (Round EntrySearch (Bool × EntrySearch)) := do
  if e.memToCheck > 0 then do
    let nameLen ← loadWord 1 (e.currDirEnt + 6)
    let eq ← strncmpEq name.chars (e.currDirEnt + 8) nameLen
    if eq then pure (.stop (true, e))
    else do
      let recLen ← loadWord 2 (e.currDirEnt + 4)
      let recLen' ← loadWord 2 (e.currDirEnt + recLen + 4)
      pure (.next { memToCheck := e.memToCheck - recLen', prevDirEnt := some e.currDirEnt,
                    currDirEnt := e.currDirEnt + recLen })
  else pure (.stop (false, e))

/-- The variables of the loops over the blocks of a directory. -/
structure DirSearch where
  found : Bool
  iBlockIndex : Nat
  blockNum : Nat
  prevDirEnt : Option Nat
  currDirEnt : Nat

/-- A round of the outer loop of `rm_dir_entry`, or of `restore_dir_entry`. It goes on to block 0 as
long as the entry has not been found. -/
def dirSearchRound (inode : Inode)
    (searchRound : EntrySearch → Tool (Round EntrySearch (Bool × EntrySearch))) (d : DirSearch) :
    Tool (Round DirSearch (Option Nat × Nat)) := do
  if d.blockNum ≠ 0 ∨ d.found = false then do
    let (found, e) ← loop .diverges searchRound chainRounds
      { memToCheck := EXT2_BLOCK_SIZE, prevDirEnt := d.prevDirEnt, currDirEnt := blockAddrU d.blockNum }
    let blockNum ← iBlockAt inode (d.iBlockIndex + 1)
    pure (.next { found := d.found || found, iBlockIndex := d.iBlockIndex + 1, blockNum,
                  prevDirEnt := e.prevDirEnt, currDirEnt := e.currDirEnt })
  else pure (.stop (d.prevDirEnt, d.currDirEnt))

/-- The outer loop, which ends with the pointers to the previous and the current entry. -/
def dirSearch (inode : Inode)
    (searchRound : EntrySearch → Tool (Round EntrySearch (Bool × EntrySearch))) : Tool (Option Nat × Nat) :=
  loop .diverges (dirSearchRound inode searchRound) 16
    { found := false, iBlockIndex := 0, blockNum := inode.iBlock.getD 0 0, prevDirEnt := none,
      currDirEnt := 0 }

/-- `rm_dir_entry`. -/
def rmDirEntry (parentInodeNum : Nat) (name : Name) : Tool Nat := do
  let parentInode ← indTableAt parentInodeNum
  let (prev, curr) ← dirSearch parentInode (rmSearchRound name)
  match prev with
  | none => halt .fault
  | some prevDirEnt => do
    let prevRecLen ← loadWord 2 (prevDirEnt + 4)
    let recLen ← loadWord 2 (curr + 4)
    storeWord 2 (prevDirEnt + 4) (prevRecLen + recLen)
    let inode ← loadWord 4 curr
    let currentInode ← indTableAt inode
    if currentInode.iLinksCount = 1 then do
      let inode ← loadWord 4 curr
      pure inode
    else pure 0

/-- `ext2_rm`. -/
def ext2Rm (p : List Name) (fpath : Name) : Tool Unit := do
  let parentInodeNum ← dirEntryExists p 0
  if parentInodeNum = 0 then halt (.exit EINVAL)
  else do
    let fileInodeNum ← dirEntryExists [fpath] parentInodeNum
    if fileInodeNum = 0 then halt (.exit EINVAL)
    else do
      let fileInode ← indTableAt fileInodeNum
      let parentInode ← indTableAt parentInodeNum
      if IS_DIR fileInode.iMode then halt (.exit EISDIR)
      else if IS_DIR parentInode.iMode = false then halt (.exit EISDIR)
      else do
        let fileInodeNum ← rmDirEntry parentInodeNum fpath
        if fileInodeNum ≠ 0 then rmInode fileInodeNum else pure ()

/-- The tests that `ext2_rm` has passed once it is done, and the two parts that follow. -/
theorem ext2Rm_done {path : List Name} {fpath : Name} {s s' : State}
    (h : (ext2Rm path fpath).run s = .done () s') :
    ∃ parentInodeNum fileInodeNum s₁, (dirEntryExists path 0).run s = .done parentInodeNum s ∧
      (rmDirEntry parentInodeNum fpath).run s = .done fileInodeNum s₁ ∧
      (if fileInodeNum ≠ 0 then rmInode fileInodeNum else pure () : Tool Unit).run s₁ = .done () s' := by
  obtain ⟨parentInodeNum, s₁, hparent, h₁⟩ := bind_eq_done.mp h
  obtain rfl := (readOnly_dirEntryExists _ _).of_done hparent
  split at h₁
  · cases h₁
  · obtain ⟨fileInodeNum, s₂, hfile, h₂⟩ := bind_eq_done.mp h₁
    obtain rfl := (readOnly_dirEntryExists _ _).of_done hfile
    split at h₂
    · cases h₂
    · obtain ⟨fileInode, s₃, hinode, h₃⟩ := bind_eq_done.mp h₂
      obtain rfl := (readOnly_indTableAt _).of_done hinode
      obtain ⟨parentInode, s₄, hinode', h₄⟩ := bind_eq_done.mp h₃
      obtain rfl := (readOnly_indTableAt _).of_done hinode'
      split at h₄
      · cases h₄
      · split at h₄
        · cases h₄
        · obtain ⟨freed, s₅, hentry, h₅⟩ := bind_eq_done.mp h₄
          exact ⟨parentInodeNum, freed, s₅, hparent, hentry, h₅⟩

/-! ## Restoring -/

/-- A round of the first loop of `restore_inode`, which says whether all blocks are free. -/
def checkFreeRound (inode : Inode) (w : BlockWalk) : Tool (Round BlockWalk Bool) := do
  if w.blockNum ≠ 0 then do
    let w ← w.next inode
    let s ← get
    let used ← checkBit s.blkBmap w.blockNum
    if used then pure (.stop false) else pure (.next w)
  else pure (.stop true)

/-- `restore_inode`, whether it gives 1. -/
def restoreInode (inodeNum : Nat) : Tool Bool := do
  let inode ← indTableAt inodeNum
  let s ← get
  let isFree ← loop .diverges (checkFreeRound inode) (s.size + 13) (.start inode)
  if isFree then do
    let blocks ← collect inode
    setNToggleBit .blk blocks 1
    setNToggleBit .ind [inodeNum] 1
    pure true
  else pure false

/-- A round of the inner loop of `restore_dir_entry`, which looks into the gaps between the entries. -/
def restoreSearchRound (name : Name) (e : EntrySearch) :
    Tool (Round EntrySearch (Bool × EntrySearch)) := do
  if e.memToCheck > 0 then do
    let nameLen ← loadWord 1 (e.currDirEnt + 6)
    let eq ← strncmpEq name.chars (e.currDirEnt + 8) nameLen
    if eq then pure (.stop (true, e))
    else do
      let recLen ← loadWord 2 (e.currDirEnt + 4)
      if TRUE_FILE_SIZE nameLen < recLen then
        pure (.next { memToCheck := e.memToCheck - TRUE_FILE_SIZE nameLen,
                      prevDirEnt := some e.currDirEnt,
                      currDirEnt := e.currDirEnt + TRUE_FILE_SIZE nameLen })
      else do
        let recLen' ← loadWord 2 (e.currDirEnt + recLen + 4)
        pure (.next { memToCheck := e.memToCheck - recLen', prevDirEnt := some e.currDirEnt,
                      currDirEnt := e.currDirEnt + recLen })
  else pure (.stop (false, e))

/-- `restore_dir_entry`. The loops end only once the entry has been found. -/
def restoreDirEntry (parentInodeNum : Int) (name : Name) : Tool Nat := do
  let parentInode ← indTableAt parentInodeNum
  let (_, curr) ← dirSearch parentInode (restoreSearchRound name)
  loadWord 4 curr

/-- `ext2_restore`. -/
def ext2Restore (p : List Name) (fpath : Name) : Tool Unit := do
  let parentInodeNum ← dirEntryExists p 0
  if parentInodeNum = 0 then halt (.exit EINVAL)
  else do
    let parentInode ← indTableAt (signed parentInodeNum)
    if IS_DIR parentInode.iMode = false then halt (.exit EISDIR)
    else do
      let listed ← dirEntryExists [fpath] parentInodeNum
      let fileInodeNum ← (if listed = 0 then restoreDirEntry (signed parentInodeNum) fpath else pure listed)
      if fileInodeNum = 0 then halt (.exit EINVAL)
      else do
        let restored ← restoreInode fileInodeNum
        if restored then pure () else halt (.exit ENOENT)

end Ext2

-- SUMMARY: The tools that create something: directories, copies of files, and links.
import OperatingSystems.Ext2.Directories

/-!
# Creations

Each tool looks up the place for the new entry, takes an inode number and blocks for it, and then
adds the entry to the directory. The inodes that the tools fill in are copies.
-/

namespace Ext2

open Library Library.Process

/-! ## Directories -/

/-- `mk_new_dir_inode`. -/
def mkNewDirInode (inodeNum parentInodeNum : Nat) : Tool Unit := do
  let newBlockNum ← findFreeBlock
  let a ← blockAddr newBlockNum
  putDirEntry a parentInodeNum (TRUE_FILE_SIZE 2) 2 EXT2_FT_REG_FILE [0x2E, 0x2E]
  putDirEntry (a + TRUE_FILE_SIZE 2) inodeNum (TRUE_FILE_SIZE 1) 1 EXT2_FT_REG_FILE [0x2E]
  let _ ← indTableAt (signed inodeNum - 1)
  let _ ← indTableAt (signed parentInodeNum - 1)
  setUsedBit .ind
  setUsedBit .blk

/-- The call of `mk_dir_entry` that ends all three tools. -/
def mkEntryFor (dirInode inode fileType : Nat) (name : Name) : Tool Unit :=
  mkDirEntry dirInode inode (name.chars.length % 2 ^ 8) fileType name name.chars.length

/-- `ext2_mkdir`. The second test is the wrong way round. -/
def ext2Mkdir (p : List Name) (dpath : Name) : Tool Unit := do
  let parentInodeNum ← dirEntryExists p EXT2_ROOT_INO
  if parentInodeNum = 0 then halt (.exit EINVAL)
  else do
    let existing ← dirEntryExists [dpath] parentInodeNum
    if existing = 0 then halt (.exit EEXIST)
    else do
      let newInodeNum ← findFreeInode
      mkNewDirInode newInodeNum parentInodeNum
      mkEntryFor parentInodeNum newInodeNum EXT2_FT_DIR dpath

/-! ## Files -/

/-- `mk_new_file_inode`, with the length of the file at the path, if it can be opened. The buffer is
a null pointer, and `fread` into it needs an empty file. An empty file takes two blocks, none of
which is written to. -/
def mkNewFileInode (inodeNum : Nat) (file : Option Nat) : Tool Unit := do
  match file with
  | none => halt .fault
  | some copiedFileSz =>
    if copiedFileSz % 2 ^ 32 ≠ 0 then halt .fault
    else do
      let _ ← indTableAt (signed inodeNum)
      let s ← get
      let memBlks ← findNFree s.blkBmap 2
      setNToggleBit .blk memBlks 1
      setUsedBit .ind

/-- `ext2_cp`. -/
def ext2Cp (p : List Name) (fpath : Name) (file : Option Nat) : Tool Unit := do
  let parentInodeNum ← dirEntryExists p 0
  if parentInodeNum = 0 then halt (.exit EINVAL)
  else do
    let existing ← dirEntryExists [fpath] parentInodeNum
    if existing ≠ 0 then halt (.exit EEXIST)
    else do
      let s ← get
      let newInodeNum ← findFree s.indBmap
      let _ ← findFree s.blkBmap
      let _ ← indTableAt (newInodeNum - 1)
      let _ ← indTableAt (parentInodeNum - 1)
      mkNewFileInode newInodeNum file
      mkEntryFor parentInodeNum newInodeNum EXT2_FT_REG_FILE fpath

/-! ## Links -/

/-- `mk_new_symlink_inode`. The length of the path is taken to be the size of a character. -/
def mkNewSymlinkInode (srcInodeNum linkInodeNum : Nat) (linkPath : Name) : Tool Unit := do
  let s ← get
  let newBlockNum ← findFree s.blkBmap
  storeByte (blockAddrU newBlockNum) (linkPath.chars.headD 0)
  let _ ← indTableAt (linkInodeNum - 1)
  let _ ← indTableAt (srcInodeNum - 1)
  setUsedBit .ind
  setUsedBit .blk

/-- `ext2_ln`. The test for directories looks at the next inode. -/
def ext2Ln (src linkParent : List Name) (lpath : Name) (isSoftlink : Bool) (absPath : Name) : Tool Unit := do
  let srcInodeNum ← dirEntryExists src 0
  let linkInodeNum ← dirEntryExists linkParent 0
  if srcInodeNum = 0 then halt (.exit ENOENT)
  else if linkInodeNum = 0 then halt (.exit EINVAL)
  else do
    let existing ← dirEntryExists [lpath] linkInodeNum
    if existing ≠ 0 then halt (.exit EEXIST)
    else do
      let srcInode ← indTableAt srcInodeNum
      if IS_DIR srcInode.iMode then halt (.exit EISDIR)
      else if isSoftlink then do
        let s ← get
        let newInodeNum ← findFree s.indBmap
        mkNewSymlinkInode srcInodeNum linkInodeNum absPath
        mkEntryFor linkInodeNum newInodeNum EXT2_FT_SYMLINK lpath
      else mkEntryFor linkInodeNum srcInodeNum EXT2_FT_REG_FILE lpath

/-- The tests that `ext2_ln` has passed once it is done. -/
theorem ext2Ln_done {src linkParent : List Name} {lpath absPath : Name} {isSoftlink : Bool} {s s' : State}
    (h : (ext2Ln src linkParent lpath isSoftlink absPath).run s = .done () s') :
    ∃ srcInodeNum linkInodeNum srcInode, (dirEntryExists src 0).run s = .done srcInodeNum s ∧
      (dirEntryExists linkParent 0).run s = .done linkInodeNum s ∧ linkInodeNum ≠ 0 ∧
      (indTableAt srcInodeNum).run s = .done srcInode s ∧
      (if isSoftlink then do
        let s ← get
        let newInodeNum ← findFree s.indBmap
        mkNewSymlinkInode srcInodeNum linkInodeNum absPath
        mkEntryFor linkInodeNum newInodeNum EXT2_FT_SYMLINK lpath
      else mkEntryFor linkInodeNum srcInodeNum EXT2_FT_REG_FILE lpath : Tool Unit).run s = .done () s' := by
  obtain ⟨srcInodeNum, s₁, hsrc, h₁⟩ := bind_eq_done.mp h
  obtain rfl := (readOnly_dirEntryExists _ _).of_done hsrc
  obtain ⟨linkInodeNum, s₂, hlink, h₂⟩ := bind_eq_done.mp h₁
  obtain rfl := (readOnly_dirEntryExists _ _).of_done hlink
  split at h₂
  · cases h₂
  · split at h₂
    · cases h₂
    · rename_i hne
      obtain ⟨existing, s₃, hexisting, h₃⟩ := bind_eq_done.mp h₂
      obtain rfl := (readOnly_dirEntryExists _ _).of_done hexisting
      split at h₃
      · cases h₃
      · obtain ⟨srcInode, s₄, hinode, h₄⟩ := bind_eq_done.mp h₃
        obtain rfl := (readOnly_indTableAt _).of_done hinode
        split at h₄
        · cases h₄
        · exact ⟨srcInodeNum, linkInodeNum, srcInode, hsrc, hlink, hne, hinode, h₄⟩

end Ext2

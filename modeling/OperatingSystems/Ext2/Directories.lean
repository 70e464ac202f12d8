-- SUMMARY: Inodes and directories on disk: looking up a name, and adding an entry.
import OperatingSystems.Ext2.Globals

/-!
# Directories

A directory block is a chain of entries, each of which says how far it is to the next one. All walks
follow `rec_len` until the entries they have seen make up a block. Structs of the inode table are
copied before use, and what is assigned to the fields of a copy never reaches the disk; these
assignments are left out.
-/

namespace Ext2

open Library Library.Process

/-! ## Inodes -/

/-- The fields of `struct ext2_inode` that the tools read. -/
structure Inode where
  iMode : Nat
  iCtime : Nat
  iDtime : Nat
  iLinksCount : Nat
  iBlock : List Nat
deriving DecidableEq, Repr

def inodeSize : Nat := 128

def decodeInode (m : Memory) (a : Nat) : Inode where
  iMode := word m 2 a
  iCtime := word m 4 (a + 12)
  iDtime := word m 4 (a + 20)
  iLinksCount := word m 2 (a + 26)
  iBlock := (List.range 15).map fun i => word m 4 (a + 40 + 4 * i)

/-- `IND_TABLE[index]`. -/
def indTableAt (index : Int) : Tool Inode := do
  let s ← get
  let a : Int := s.indTable + inodeSize * index
  if 0 ≤ a ∧ a + inodeSize ≤ s.size then pure (decodeInode s.disk a.toNat) else halt .fault

/-- `i_block[index]`. -/
def iBlockAt (inode : Inode) (index : Nat) : Tool Nat :=
  match inode.iBlock[index]? with
  | some v => pure v
  | none => halt .fault

def IS_DIR (mode : Nat) : Bool := mode = EXT2_FT_DIR ∨ mode / 2 ^ 12 = EXT2_S_IFDIR / 2 ^ 12

/-- `disk + block_num * EXT2_BLOCK_SIZE` where the block number is an int. From 2^21 on the product
is negative or does not fit. -/
def blockAddr (blockNum : Nat) : Tool Nat :=
  if blockNum < 2 ^ 21 then pure (blockNum * EXT2_BLOCK_SIZE) else halt .fault

/-! ## Entries -/

/-- A string as C passes it: its characters, without the NUL. -/
structure Name where
  chars : List Byte
  noNul : 0 ∉ chars
deriving DecidableEq

/-- Whether `strncmp` of a string and the `n` bytes at an address gives 0. -/
def strncmpEq : List Byte → Nat → Nat → Tool Bool
  | _, _, 0 => pure true
  | [], a, _ + 1 => do
    let c ← loadByte a
    pure (c = 0)
  | b :: bs, a, n + 1 => do
    let c ← loadByte a
    if b = c then strncmpEq bs (a + 1) n else pure false

/-- The bytes of a `struct ext2_dir_entry`. -/
def entryBytes (inode recLen nameLen fileType : Nat) (name : List Byte) : List Byte :=
  leBytes 4 inode ++ leBytes 2 recLen ++ leBytes 1 nameLen ++ leBytes 1 fileType ++ name

/-- Write an entry. The tools assign to the fields, which lie next to each other, one by one. -/
def putDirEntry (a inode recLen nameLen fileType : Nat) (name : List Byte) : Tool Unit :=
  storeBytes a (entryBytes inode recLen nameLen fileType name)

/-! ## Looking up a name -/

/-- A round of the loop of `check_block_for_dir`, with `mem_to_check` and `curr_dir_ent`. -/
def checkBlockForDirRound (dirName : Name) (p : Int × Nat) : Tool (Round (Int × Nat) Nat) := do
  if p.1 > 0 then do
    let nameLen ← loadWord 1 (p.2 + 6)
    let eq ← strncmpEq dirName.chars (p.2 + 8) nameLen
    if eq then do
      let inode ← loadWord 4 p.2
      pure (.stop inode)
    else do
      let recLen ← loadWord 2 (p.2 + 4)
      pure (.next (p.1 - recLen, p.2 + recLen))
  else pure (.stop 0)

/-- The rounds after which a walk along a chain stands still: each one that moves uses up a byte of
the block at least. -/
def chainRounds : Nat := EXT2_BLOCK_SIZE + 1

/-- `check_block_for_dir`. -/
def checkBlockForDir (blockNum : Nat) (dirName : Name) : Tool Nat := do
  let a ← blockAddr blockNum
  loop .diverges (checkBlockForDirRound dirName) chainRounds ((EXT2_BLOCK_SIZE : Int), a)

/-- A round of the loop of `dir_entry_exists` over an indirect table, with `match` and the pointer
into the table. -/
def indirectRound (pathSection : Name) (p : Nat × Nat) : Tool (Round (Nat × Nat) Nat) := do
  let blockNum ← loadWord 4 p.2
  if blockNum ≠ 0 ∨ p.1 = 0 then do
    let found ← checkBlockForDir blockNum pathSection
    pure (.next (found, p.2 + 4))
  else pure (.stop p.1)

/-- A round of the loop of `dir_entry_exists` over the blocks of a directory, with `match` and
`i_block_index`. -/
def lookupRound (inode : Inode) (pathSection : Name) (p : Nat × Nat) : Tool (Round (Nat × Nat) Nat) := do
  if p.2 < INDIRECT_BLK_INDEX + 1 ∧ p.1 = 0 then do
    let value ← iBlockAt inode p.2
    if value ≠ 0 then
      if p.2 = INDIRECT_BLK_INDEX then do
        let table ← blockAddr value
        let s ← get
        let found ← loop .diverges (indirectRound pathSection) (s.size + 1) (p.1, table)
        pure (.next (found, p.2 + 1))
      else do
        let found ← checkBlockForDir value pathSection
        pure (.next (found, p.2 + 1))
    else pure (.stop p.1)
  else pure (.stop p.1)

/-- The loop of `dir_entry_exists` over the components of a path, with `match` and
`current_inode_num`. -/
def resolve : List Name → Nat → Nat → Tool Nat
  | [], _, current => pure current
  | pathSection :: path, found, current => do
    if found = 0 then do
      let inode ← indTableAt (signed current - 1)
      let found ← loop .diverges (lookupRound inode pathSection) (INDIRECT_BLK_INDEX + 2) (0, 0)
      if found = 0 then pure 0 else resolve path found found
    else pure current

/-- `sizeof(path)/sizeof(char*)`, for a `path` that is itself a pointer. -/
def sizeofPath : Nat := 8 / 8

/-- `dir_entry_exists`. A path is the list of its components; `*path` is null if there are none. -/
def dirEntryExists (path : List Name) (startingInode : Nat) : Tool Nat :=
  match path with
  | [] => pure EXT2_ROOT_INO
  | _ => resolve (path.take sizeofPath) 0 (if startingInode ≠ 0 then startingInode else EXT2_ROOT_INO)

/-! ## Adding an entry -/

/-- The first loop of `mk_dir_entry`: the highest of the indices below `n` with a block. -/
def lastBlockIndex (inode : Inode) : Nat → Option (Nat × Nat)
  | 0 => none
  | n + 1 =>
    let value := inode.iBlock.getD n 0
    if value ≠ 0 then some (n, value) else lastBlockIndex inode n

/-- A round of the search of `mk_dir_entry` for the last entry of a block, with `rem_block_space` and
`dir_ent`. -/
def lastEntryRound (p : Int × Nat) : Tool (Round (Int × Nat) Nat) := do
  if p.1 > 0 then do
    let recLen ← loadWord 2 (p.2 + 4)
    let recLen' ← loadWord 2 (p.2 + recLen + 4)
    pure (.next (p.1 - recLen', p.2 + recLen))
  else pure (.stop p.2)

/-- The address of the last entry of a block. -/
def lastEntry (memBlk : Nat) : Tool Nat := do
  let a ← blockAddr memBlk
  let recLen ← loadWord 2 (a + 4)
  loop .diverges lastEntryRound chainRounds ((EXT2_BLOCK_SIZE : Int) - recLen, a)

/-- The block for an entry that has no room in the last one. The numbers go into a copy of the
inode, and no bit is set. -/
def newBlock (iBlockIndex : Nat) : Tool Nat := do
  if iBlockIndex = INDIRECT_BLK_INDEX then do
    let s ← get
    let indBlks ← findNFree s.blkBmap 2
    match indBlks with
    | [table, blk] => do
      storeWord 4 (blockAddrU table) blk
      pure blk
    | _ => halt .fault
  else findFreeBlock

/-- `mk_dir_entry`. Its argument `rec_len` is never read. For a directory with an indirect block the
loop over the table goes on until a pointer that counts up is null. -/
def mkDirEntry (dirInode inode nameLen fileType : Nat) (name : Name) (namelen : Nat) : Tool Unit := do
  let parentInode ← indTableAt (signed dirInode - 1)
  let last := lastBlockIndex parentInode (INDIRECT_BLK_INDEX + 2)
  if last.map Prod.fst = some INDIRECT_BLK_INDEX then halt .diverges
  else do
    -- Without any block the index is -1 and the block number 0.
    let dirEnt ← lastEntry (last.elim 0 Prod.snd)
    let lastNameLen ← loadWord 1 (dirEnt + 6)
    let lastRecLen ← loadWord 2 (dirEnt + 4)
    let lastDirEntSz := TRUE_FILE_SIZE lastNameLen
    let newDirEntSz := TRUE_FILE_SIZE nameLen
    let padding : Int := (lastRecLen : Int) - lastDirEntSz
    if padding < newDirEntSz then do
      let memBlk ← newBlock (last.elim 0 fun p => p.1 + 1)
      let a ← blockAddr memBlk
      putDirEntry a inode EXT2_BLOCK_SIZE nameLen fileType (name.chars.take namelen)
    else do
      storeWord 2 (dirEnt + 4) lastDirEntSz
      putDirEntry (dirEnt + lastDirEntSz) inode padding.toNat nameLen fileType (name.chars.take namelen)

/-! ## Looking up changes nothing -/

theorem readOnly_indTableAt (index : Int) : ReadOnly (indTableAt index) :=
  .bind .get fun _ => .ite (.pure _) (.halt _)

/-- An element of `i_block`. -/
theorem iBlockAt_of_lt {inode : Inode} {index : Nat} (h : index < inode.iBlock.length) :
    iBlockAt inode index = pure (inode.iBlock.getD index 0) := by
  rw [iBlockAt, List.getD_eq_getElem?_getD, List.getElem?_eq_getElem h, Option.getD_some]

theorem readOnly_iBlockAt (inode : Inode) (index : Nat) : ReadOnly (iBlockAt inode index) := by
  rw [iBlockAt]
  split
  · exact .pure _
  · exact .halt _

theorem readOnly_blockAddr (blockNum : Nat) : ReadOnly (blockAddr blockNum) := .ite (.pure _) (.halt _)

theorem readOnly_strncmpEq (bs : List Byte) (a n : Nat) : ReadOnly (strncmpEq bs a n) := by
  induction n generalizing bs a with
  | zero =>
    rw [strncmpEq]
    exact .pure _
  | succ n ih =>
    cases bs with
    | nil => exact .bind (readOnly_loadByte _) fun _ => .pure _
    | cons b bs => exact .bind (readOnly_loadByte _) fun _ => .ite (ih _ _) (.pure _)

theorem readOnly_checkBlockForDir (blockNum : Nat) (dirName : Name) :
    ReadOnly (checkBlockForDir blockNum dirName) := by
  refine .bind (readOnly_blockAddr _) fun _ => .loop (fun p => .ite ?_ (.pure _)) _ _
  refine .bind (readOnly_loadWord _ _) fun _ => .bind (readOnly_strncmpEq _ _ _) fun _ => .ite ?_ ?_
  · exact .bind (readOnly_loadWord _ _) fun _ => .pure _
  · exact .bind (readOnly_loadWord _ _) fun _ => .pure _

theorem readOnly_lookupRound (inode : Inode) (pathSection : Name) (p : Nat × Nat) :
    ReadOnly (lookupRound inode pathSection p) := by
  refine .ite (.bind (readOnly_iBlockAt _ _) fun value => .ite (.ite ?_ ?_) (.pure _)) (.pure _)
  · refine .bind (readOnly_blockAddr _) fun table => .bind .get fun s => .bind ?_ fun _ => .pure _
    refine .loop (fun p => .bind (readOnly_loadWord _ _) fun _ => .ite ?_ (.pure _)) _ _
    exact .bind (readOnly_checkBlockForDir _ _) fun _ => .pure _
  · exact .bind (readOnly_checkBlockForDir _ _) fun _ => .pure _

theorem readOnly_resolve (path : List Name) (found current : Nat) : ReadOnly (resolve path found current) := by
  induction path generalizing found current with
  | nil => exact .pure _
  | cons pathSection path ih =>
    refine .ite (.bind (readOnly_indTableAt _) fun inode => .bind ?_ fun found => .ite (.pure _) (ih _ _))
      (.pure _)
    exact .loop (readOnly_lookupRound _ _) _ _

theorem readOnly_dirEntryExists (path : List Name) (startingInode : Nat) :
    ReadOnly (dirEntryExists path startingInode) := by
  cases path with
  | nil => exact .pure _
  | cons name path => exact readOnly_resolve _ _ _

theorem readOnly_lastEntry (memBlk : Nat) : ReadOnly (lastEntry memBlk) := by
  refine .bind (readOnly_blockAddr _) fun a => .bind (readOnly_loadWord _ _) fun _ => .loop (fun p => ?_) _ _
  exact .ite (.bind (readOnly_loadWord _ _) fun _ => .bind (readOnly_loadWord _ _) fun _ => .pure _) (.pure _)

end Ext2

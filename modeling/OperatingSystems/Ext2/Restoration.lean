-- SUMMARY: Restoring what has been removed: the tool never gets to its end.
import OperatingSystems.Ext2.Operations

/-!
# Restoration

The numbers that `restore_inode` collects end with the zero behind the last block. The bit for it is
far outside of any bitmap, so the tool stops before it has restored anything.
-/

namespace Ext2

open Library Library.Process

variable {s s' : State} {inode : Inode} {b : Bm} {n setFlag : Nat} {ns blocks : List Nat}

/-! ## The numbers collected -/

theorem readOnly_next (w : BlockWalk) : ReadOnly (w.next inode) := by
  refine .ite ?_ ?_
  · exact .bind (readOnly_loadWord _ _) fun _ => .pure _
  · exact .bind (readOnly_iBlockAt _ _) fun _ => .pure _

theorem readOnly_collect (inode : Inode) : ReadOnly (collect inode) := by
  refine .bind .get fun s => .loop (fun w => .ite ?_ (.pure _)) _ _
  exact .bind (readOnly_next _) fun _ => .pure _

/-- If any numbers are collected, the last one is zero. -/
theorem collect_getLast? (h : (collect inode).run s = .done blocks s') :
    blocks = [] ∨ blocks.getLast? = some 0 := by
  have htriple : Triple (fun _ => True) (collect inode)
      (fun blocks _ => blocks = [] ∨ blocks.getLast? = some 0) fun _ _ => True := by
    refine .bind (.of_readOnly .get fun _ _ _ => trivial) fun s => ?_
    refine .weaken (.loop
      (I := fun (w : BlockWalk) _ => w.blocks = [] ∨ w.blocks.getLast? = some w.blockNum)
      (fun w => ?_) (fun _ _ _ => trivial) _ (BlockWalk.start inode)) (fun _ _ => .inl rfl) (fun _ _ h => h) fun _ _ h => h
    by_cases hblk : w.blockNum = 0
    · rw [collectRound, if_neg (not_not.mpr hblk)]
      exact .pure fun _ h => hblk ▸ h
    · rw [collectRound, if_pos hblk]
      refine .bind (Q := fun _ _ => True) (fun _ _ => ?_) fun w => .pure fun _ _ => .inr ?_
      · split <;> trivial
      · exact List.getLast?_concat
  exact htriple.of_done trivial h

/-! ## No bit for zero -/

theorem toggleBits_zero {sysBm : Nat} (h0 : 0 ∈ ns) (hsize : s.size ≤ 2 ^ 29 - 1) :
    (toggleBits sysBm ns).run s ≠ .done () s' := by
  induction ns generalizing s with
  | nil => simp at h0
  | cons n ns ih =>
    intro h
    obtain ⟨_, s₁, htoggle, h⟩ := bind_eq_done.mp h
    obtain ⟨byte, s₂, hload, hstore⟩ := bind_eq_done.mp htoggle
    obtain ⟨hin, _, rfl⟩ := loadByte_done hload
    obtain ⟨_, rfl⟩ := storeByte_done hstore
    cases List.mem_cons.mp h0 with
    | inl heq =>
      subst heq
      have hbyte : BYTE_INDEX 0 = 2 ^ 29 - 1 := rfl
      omega
    | inr hin0 => exact ih (s := { s₂ with disk := Function.update s₂.disk _ _ }) hin0 hsize h

/-- No number that `restore_inode` or `rm_inode` collects can be set without the zero. -/
theorem setNToggleBit_collected (h : (collect inode).run s = .done blocks s)
    (hsize : s.size ≤ 2 ^ 29 - 1) : (setNToggleBit b blocks setFlag).run s ≠ .done () s' := by
  intro hdone
  rw [setNToggleBit] at hdone
  rcases collect_getLast? h with rfl | hlast
  · cases hdone
  · rw [hlast] at hdone
    dsimp only at hdone
    rw [run_get_bind] at hdone
    obtain ⟨_, s₁, htoggle, _⟩ := bind_eq_done.mp hdone
    exact toggleBits_zero (List.mem_of_getLast? hlast) hsize htoggle

/-! ## The tools -/

/-- `rm_inode` never gets to its end. -/
theorem rmInode_not_done (hsize : s.size ≤ 2 ^ 29 - 1) : (rmInode n).run s ≠ .done () s' := by
  intro hdone
  obtain ⟨inode, s₁, hinode, h₁⟩ := bind_eq_done.mp hdone
  obtain rfl := (readOnly_indTableAt _).of_done hinode
  obtain ⟨blocks, s₂, hblocks, h₂⟩ := bind_eq_done.mp h₁
  obtain rfl := (readOnly_collect _).of_done hblocks
  obtain ⟨_, s₃, htoggle, _⟩ := bind_eq_done.mp h₂
  exact setNToggleBit_collected hblocks hsize htoggle

theorem readOnly_checkFree (inode : Inode) {fuel : Nat} :
    ReadOnly (loop .diverges (checkFreeRound inode) fuel (.start inode)) := by
  refine .loop (fun w => .ite ?_ (.pure _)) _ _
  refine .bind (readOnly_next _) fun w => .bind .get fun s => .bind (readOnly_checkBit _ _) fun used => ?_
  exact .ite (.pure _) (.pure _)

/-- `restore_inode` never gives 1. -/
theorem restoreInode_ne_true (hsize : s.size ≤ 2 ^ 29 - 1) :
    (restoreInode n).run s ≠ .done true s' := by
  intro hdone
  obtain ⟨inode, s₁, hinode, h₁⟩ := bind_eq_done.mp hdone
  obtain rfl := (readOnly_indTableAt _).of_done hinode
  rw [run_get_bind] at h₁
  obtain ⟨isFree, s₂, hfree, h₂⟩ := bind_eq_done.mp h₁
  obtain rfl := (readOnly_checkFree inode).of_done hfree
  cases isFree with
  | false => cases h₂
  | true =>
    obtain ⟨blocks, s₃, hblocks, h₃⟩ := bind_eq_done.mp h₂
    obtain rfl := (readOnly_collect _).of_done hblocks
    obtain ⟨_, s₄, htoggle, _⟩ := bind_eq_done.mp h₃
    exact setNToggleBit_collected hblocks hsize htoggle

theorem readOnly_dirSearch {searchRound : EntrySearch → Tool (Round EntrySearch (Bool × EntrySearch))}
    (h : ∀ e, ReadOnly (searchRound e)) : ReadOnly (dirSearch inode searchRound) := by
  refine .loop (fun d => .ite (.bind (.loop h _ _) fun p => ?_) (.pure _)) _ _
  exact .bind (readOnly_iBlockAt _ _) fun _ => .pure _

theorem readOnly_restoreDirEntry (i : Int) (name : Name) : ReadOnly (restoreDirEntry i name) := by
  refine .bind (readOnly_indTableAt _) fun inode => .bind (readOnly_dirSearch fun e => ?_) fun p =>
    readOnly_loadWord _ _
  refine .ite (.bind (readOnly_loadWord _ _) fun nameLen => .bind (readOnly_strncmpEq _ _ _) fun eq => ?_)
    (.pure _)
  refine .ite (.pure _) (.bind (readOnly_loadWord _ _) fun recLen => .ite (.pure _) ?_)
  exact .bind (readOnly_loadWord _ _) fun _ => .pure _

/-- `ext2_restore` never gets to its end. -/
theorem ext2Restore_not_done {p : List Name} {f : Name} (hsize : s.size ≤ 2 ^ 29 - 1) :
    (ext2Restore p f).run s ≠ .done () s' := by
  intro hdone
  obtain ⟨parent, s₁, hparent, h₁⟩ := bind_eq_done.mp hdone
  obtain rfl := (readOnly_dirEntryExists _ _).of_done hparent
  split at h₁
  · cases h₁
  · obtain ⟨inode, s₂, hinode, h₂⟩ := bind_eq_done.mp h₁
    obtain rfl := (readOnly_indTableAt _).of_done hinode
    split at h₂
    · cases h₂
    · obtain ⟨listed, s₃, hlisted, h₃⟩ := bind_eq_done.mp h₂
      obtain rfl := (readOnly_dirEntryExists _ _).of_done hlisted
      obtain ⟨file, s₄, hfile, h₄⟩ := bind_eq_done.mp h₃
      obtain rfl := (ReadOnly.ite (readOnly_restoreDirEntry _ _) (.pure _)).of_done hfile
      split at h₄
      · cases h₄
      · obtain ⟨restored, s₅, hrestored, h₅⟩ := bind_eq_done.mp h₄
        cases restored with
        | false => cases h₅
        | true => exact restoreInode_ne_true hsize hrestored

/-! ## Removing and restoring -/

/-- Removing a file and restoring it at once brings back both bitmaps, the file without a time of
deletion, its entry with its inode number, and the other entries of the directory. -/
def Cancels (m : Memory) (p : List Name) (f : Name) : Prop :=
  ∃ s₀ s₁ s₂ parent file, initGlobals.run (.boot m) = .done () s₀ ∧
    (dirEntryExists p 0).run s₀ = .done parent s₀ ∧
    (dirEntryExists [f] parent).run s₀ = .done file s₀ ∧
    (ext2Rm p f).runOn m = .done () s₁ ∧ (ext2Restore p f).runOn s₁.disk = .done () s₂ ∧
    (∀ b n, 1 ≤ n → n ≤ total m b → usedOn s₂.disk b n = usedOn m b n) ∧
    (inodeOn s₂.disk file).iDtime = 0 ∧
    (dirEntryExists [f] parent).run s₂ = .done file s₂ ∧
    ∀ blk ∈ contentBlocks m (inodeOn m parent), ∀ es, Block m blk es →
      ∃ es', Block s₂.disk blk es' ∧ es'.map DirEntry.item = es.map DirEntry.item

theorem ext2Restore_runOn_not_done {p : List Name} {f : Name} {m : Memory} :
    (ext2Restore p f).runOn m ≠ .done () s' := by
  intro h
  obtain ⟨s, _, hmounted, hrun⟩ := runOn_eq_done h
  exact ext2Restore_not_done (by rw [hmounted.size]; decide) hrun

/-- Removing and restoring never cancel, as the second tool does not get to its end. -/
theorem not_cancels (m : Memory) (p : List Name) (f : Name) : ¬Cancels m p f := by
  rintro ⟨_, _, _, _, _, _, _, _, _, hrestore, _⟩
  exact ext2Restore_runOn_not_done hrestore

/-! ## A file in the root directory -/

/-- An entry of the table of inodes, for a regular file with one link and one block. -/
def fileInodeBytes (block : Nat) : List Byte :=
  leBytes 2 EXT2_S_IFREG ++ List.replicate 24 0 ++ leBytes 2 1 ++ List.replicate 12 0 ++ leBytes 4 block

/-- The empty disk with a file in the root directory that has inode 12 and block 11. -/
def fileDisk : Memory := [
  (sFreeBlocksCount, leBytes 4 116), (sFreeInodesCount, leBytes 4 20),
  (bgFreeBlocksCount, leBytes 2 116), (bgFreeInodesCount, leBytes 2 20),
  (3 * EXT2_BLOCK_SIZE + 1, [0x07]), (4 * EXT2_BLOCK_SIZE + 1, [0x0F]),
  (5 * EXT2_BLOCK_SIZE + 11 * inodeSize, fileInodeBytes 11),
  (9 * EXT2_BLOCK_SIZE + 28, leBytes 2 20),
  (9 * EXT2_BLOCK_SIZE + 44, entryBytes 12 980 1 EXT2_FT_REG_FILE Name.letter.chars)].foldl
    (fun m p => Memory.store m p.1 p.2) emptyDisk

/-- The disk with a file, with the globals of a tool. -/
def State.withFile : State := { State.empty with disk := fileDisk }

/-- The entries of the blocks of directories on this disk. -/
def fileDiskEntries (blk : Nat) : List DirEntry :=
  if blk = 9 then [⟨2, 12, 1, EXT2_FT_DIR, [0x2E]⟩, ⟨2, 12, 2, EXT2_FT_DIR, [0x2E, 0x2E]⟩,
    ⟨11, 20, 10, EXT2_FT_DIR, lostFound⟩, ⟨12, 980, 1, EXT2_FT_REG_FILE, Name.letter.chars⟩]
  else [⟨11, 12, 1, EXT2_FT_DIR, [0x2E]⟩, ⟨2, 1012, 2, EXT2_FT_DIR, [0x2E, 0x2E]⟩]

theorem layout_fileDisk : Layout fileDisk where
  total b := by cases b <;> decide +kernel
  bitmaps b := by cases b <;> decide +kernel
  apart := by decide +kernel
  table := by decide +kernel
  tableApart b := by cases b <;> decide +kernel
  reserved b n h1 h10 := by cases b <;> interval_cases n <;> decide +kernel

theorem countsTrue_fileDisk : CountsTrue fileDisk where
  superblock b := by cases b <;> decide +kernel
  group b := by cases b <;> decide +kernel

theorem inodesInUse_fileDisk : inodesInUse fileDisk = [2, 11, 12] := by decide +kernel

theorem directories_fileDisk : directories fileDisk = [2, 11] := by decide +kernel

theorem consistent_fileDisk : Consistent fileDisk where
  layout := layout_fileDisk
  counts := countsTrue_fileDisk
  blocksUsed := by
    rw [inodesInUse_fileDisk]
    have hrefs : ∀ n ∈ [2, 11, 12], ∀ blk ∈ blockRefs fileDisk (inodeOn fileDisk n),
        blk = 9 ∨ blk = 10 ∨ blk = 11 := by decide +kernel
    intro n hn blk hblk
    refine ⟨⟨fun b => ?_, ?_⟩, ?_⟩
    · rcases hrefs n hn blk hblk with rfl | rfl | rfl <;> cases b <;> decide +kernel
    · rcases hrefs n hn blk hblk with rfl | rfl | rfl <;> decide +kernel
    · rcases hrefs n hn blk hblk with rfl | rfl | rfl <;> decide +kernel
  blocksOnce := by
    rw [inodesInUse_fileDisk]
    decide +kernel
  chains := by
    refine ⟨fileDiskEntries, ?_, ?_, ?_⟩
    · rw [directories_fileDisk]
      decide +kernel
    · rw [allEntries, directories_fileDisk, inodesInUse_fileDisk]
      decide +kernel
    · rw [allEntries, directories_fileDisk, inodesInUse_fileDisk]
      decide +kernel

/-- A consistent disk with a file in the root directory that cannot be removed and restored. -/
theorem not_cancels_fileDisk :
    Consistent fileDisk ∧ IS_DIR (inodeOn fileDisk EXT2_ROOT_INO).iMode = true ∧
      IS_REG (inodeOn fileDisk 12).iMode = true ∧ (inodeOn fileDisk 12).iLinksCount = 1 ∧
      (∃ es, Block fileDisk 9 es ∧ (Name.letter.chars, 12, EXT2_FT_REG_FILE) ∈ es.map DirEntry.item) ∧
      ¬Cancels fileDisk [] .letter := by
  refine ⟨consistent_fileDisk, by decide +kernel, by decide +kernel, by decide +kernel,
    ⟨fileDiskEntries 9, by decide +kernel, by decide +kernel⟩, ?_⟩
  rintro ⟨_, _, _, _, _, _, _, _, _, hrestore, _⟩
  exact ext2Restore_runOn_not_done hrestore

end Ext2

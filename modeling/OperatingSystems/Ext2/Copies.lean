-- SUMMARY: Copying a file: the tool reads into no buffer, and would not write the inode to the table with one.
import OperatingSystems.Ext2.Atomicity
import OperatingSystems.Ext2.Counts

/-!
# Copies

`mk_new_file_inode` hands a null pointer to `fread`. What comes after that is modelled here for a buffer
that holds the file: it writes all blocks but the last, takes the numbers, and fills in a copy of the
inode that is never stored.
-/

namespace Ext2

open Library Library.Process

variable {m : Memory} {s s' : State} {b : Bm} {n N : Nat} {blocks : List Nat} {buffer content : List Byte}

/-! ## Behind `fread` -/

/-- The loop of `mk_new_file_inode` that fills the blocks. It goes on while there is more than a block
left, and so copies a whole block each time. -/
def copyChunks : List Nat → List Byte → Tool Unit
  | [], _ => pure ()
  | newBlockNum :: blocks, buffer => do
    let a ← blockAddr newBlockNum
    storeBytes a (buffer.take EXT2_BLOCK_SIZE)
    copyChunks blocks (buffer.drop EXT2_BLOCK_SIZE)

/-- The block for the indirect numbers. They are all zero: the numbers of the first twelve blocks go to
the direct ones, and the others nowhere. -/
def storeIndirect (reqMemBlks : Nat) (memBlks : List Nat) : Tool Unit :=
  if reqMemBlks > INDIRECT_BLK_INDEX then
    storeBytes (blockAddrU (memBlks.getD reqMemBlks 0)) (List.replicate EXT2_BLOCK_SIZE 0)
  else pure ()

/-- `mk_new_file_inode` behind `fread`, with what is in the buffer. -/
def storeFile (inodeNum : Nat) (buffer : List Byte) : Tool Unit := do
  let _ ← indTableAt (signed inodeNum)
  let reqMemBlks := (buffer.length - 1) / EXT2_BLOCK_SIZE + 1
  let s ← get
  let memBlks ← findNFree s.blkBmap (reqMemBlks + 1)
  copyChunks (memBlks.take (reqMemBlks - 1)) buffer
  storeIndirect reqMemBlks memBlks
  setNToggleBit .blk memBlks 1
  setUsedBit .ind

/-! ## Reading back -/

def blockBytes (m : Memory) (blk : Nat) : List Byte := Memory.load m (blk * EXT2_BLOCK_SIZE) EXT2_BLOCK_SIZE

/-- Afterwards the inode in the table refers to blocks that make up the content, all of which have been
free and are in use now, and the blocks of all other inodes are as they were. -/
def ReadsBack (x : Tool Unit) (s : State) (n : Nat) (content : List Byte) : Prop :=
  ∃ s', x.run s = .done () s' ∧
    ((contentBlocks s'.disk (inodeOf s' n)).flatMap (blockBytes s'.disk)).take content.length = content ∧
    (∀ blk ∈ blockRefs s'.disk (inodeOf s' n), s.used .blk blk = false ∧ s'.used .blk blk = true) ∧
    ∀ k, 1 ≤ k → k ≤ s.indsCount → k ≠ n → s.used .ind k = true →
      ∀ blk ∈ blockRefs s.disk (inodeOf s k), blockBytes s'.disk blk = blockBytes s.disk blk

/-- What has been written lies behind the first eleven blocks. -/
def WrittenBehind (s s' : State) : Prop :=
  ∃ D, s' = { s with disk := D } ∧ ∀ j < EXT2_GOOD_OLD_FIRST_INO * EXT2_BLOCK_SIZE, D j = s.disk j

theorem WrittenBehind.refl : WrittenBehind s s := ⟨s.disk, rfl, fun _ _ => rfl⟩

theorem WrittenBehind.trans {s'' : State} (h : WrittenBehind s s') (h' : WrittenBehind s' s'') :
    WrittenBehind s s'' := by
  obtain ⟨D, rfl, hD⟩ := h
  obtain ⟨D', rfl, hD'⟩ := h'
  exact ⟨D', rfl, fun j hj => (hD' j hj).trans (hD j hj)⟩

theorem writtenBehind_storeBytes {a : Nat} {bs : List Byte} (ha : EXT2_GOOD_OLD_FIRST_INO * EXT2_BLOCK_SIZE ≤ a)
    (h : (storeBytes a bs).run s = .done () s') : WrittenBehind s s' := by
  obtain ⟨_, rfl⟩ := storeBytes_done h
  exact ⟨_, rfl, fun j hj => Memory.store_of_lt (by omega)⟩

theorem writtenBehind_copyChunks (hblocks : ∀ blk ∈ blocks, EXT2_GOOD_OLD_FIRST_INO ≤ blk)
    (h : (copyChunks blocks buffer).run s = .done () s') : WrittenBehind s s' := by
  induction blocks generalizing s buffer with
  | nil =>
    cases h
    exact .refl
  | cons blk blocks ih =>
    obtain ⟨a, s₁, haddr, h₁⟩ := bind_eq_done.mp h
    obtain ⟨_, s₂, hstore, h₂⟩ := bind_eq_done.mp h₁
    obtain rfl := (readOnly_blockAddr _).of_done haddr
    have ha : a = blk * EXT2_BLOCK_SIZE := by
      rw [blockAddr] at haddr
      split at haddr
      · cases haddr
        rfl
      · cases haddr
    have hblk := hblocks blk List.mem_cons_self
    refine (writtenBehind_storeBytes ?_ hstore).trans (ih (fun b hb => hblocks b (List.mem_cons_of_mem _ hb)) h₂)
    rw [ha]
    exact Nat.mul_le_mul_right _ hblk

/-- The disk with the bit set that the cursor is at. -/
def markedAt (m : Memory) (bm : Bitmap) : Memory :=
  Function.update m (bm.sysBm + bm.availByteIndex) (m (bm.sysBm + bm.availByteIndex) ||| bitMask bm.availBitIndex)

/-- What `set_used_bit` has done once it is done. -/
theorem setUsedBit_done (h : (setUsedBit b).run s = .done () s') :
    (s.disk ((s.bmap b).sysBm + (s.bmap b).availByteIndex)).getLsbD (s.bmap b).availBitIndex = false ∧
      ∃ bm, bm.sysBm = (s.bmap b).sysBm ∧ s' = { s with disk := markedAt s.disk (s.bmap b) }.setBmap b bm := by
  rw [setUsedBit, run_get_bind] at h
  dsimp only at h
  obtain ⟨byte, s₁, hload, h₁⟩ := bind_eq_done.mp h
  obtain ⟨_, rfl, rfl⟩ := loadByte_done hload
  split at h₁
  · cases h₁
  · rename_i hclear
    obtain ⟨_, s₂, hstore, h₂⟩ := bind_eq_done.mp h₁
    obtain ⟨_, rfl⟩ := storeByte_done hstore
    rw [run_modify_bind] at h₂
    obtain ⟨bm, rfl, hsysBm, _⟩ := updateCursor_done h₂
    refine ⟨by simpa using hclear, bm, ?_, ?_⟩
    · rw [hsysBm, State.bmap_setBmap, State.bmap_disk]
    · cases b <;> rfl

/-! ## The table of inodes -/

section

variable (hlayout : Layout m) (hmounted : Mounted m s) (hgood : ∀ b, Good (total m b) b s)

include hlayout hmounted hgood

/-- The numbers that a file is given lie behind the first eleven blocks, and near the bitmap's range. -/
theorem bounds_of_findNFree {reqNBits : Nat} (h : (findNFree s.blkBmap (reqNBits + 1)).run s = .done blocks s') :
    s' = s ∧ blocks.length = reqNBits + 1 ∧ ∀ blk ∈ blocks, EXT2_GOOD_OLD_FIRST_INO ≤ blk ∧ blk ≤ 256 := by
  have h11 : EXT2_GOOD_OLD_FIRST_INO = 11 := rfl
  obtain rfl := (readOnly_findNFree _ _).of_done h
  have hN := (hlayout.total .blk).1
  have havail := (hgood .blk).avail
  have hreq : reqNBits + 1 ≤ (s'.bmap .blk).numBitsAvail := by
    by_contra hlt
    have hlt' : reqNBits + 1 > s'.blkBmap.numBitsAvail := Nat.lt_of_not_le hlt
    rw [findNFree, if_pos hlt'] at h
    cases h
  obtain ⟨k, rest, hfree⟩ := List.exists_cons_of_length_pos
    (show 0 < (s'.free .blk (total m .blk)).length by omega)
  have hhead : (s'.free .blk (total m .blk)).head? = some k := by rw [hfree, List.head?_cons]
  obtain ⟨hk11, hkN⟩ := (hgood .blk).le_of_mem_free (head?_free hhead).1
  have hrun : (findNFree s'.blkBmap (reqNBits + 1)).run s' = _ :=
    (hgood .blk).run_findNFree hN (mapped_of_layout hlayout hmounted .blk) hreq hhead
  rw [hrun] at h
  cases h
  refine ⟨rfl, ?_, fun blk hblk => ?_⟩
  · rw [List.length_map, List.length_take]
    omega
  · obtain ⟨j, hj, rfl⟩ := List.mem_map.mp hblk
    have hjN := ((hgood .blk).le_of_mem_free (List.mem_of_mem_take hj)).2
    omega

/-- Once a file has been copied, the inode is in the table as it was. -/
theorem inodeOf_storeFile (hn : 1 ≤ n ∧ n ≤ total m .ind) (h : (storeFile n buffer).run s = .done () s') :
    inodeOf s' n = inodeOf s n := by
  have h11 : EXT2_GOOD_OLD_FIRST_INO = 11 := rfl
  have h1024 : EXT2_BLOCK_SIZE = 1024 := rfl
  obtain ⟨inode, s₁, htable, h₁⟩ := bind_eq_done.mp h
  obtain rfl := (readOnly_indTableAt _).of_done htable
  rw [run_get_bind] at h₁
  obtain ⟨memBlks, s₂, hfind, h₂⟩ := bind_eq_done.mp h₁
  obtain ⟨rfl, hlen, hbounds⟩ := bounds_of_findNFree hlayout hmounted hgood hfind
  obtain ⟨_, s₃, hcopy, h₃⟩ := bind_eq_done.mp h₂
  obtain ⟨_, s₄, hindirect, h₄⟩ := bind_eq_done.mp h₃
  obtain ⟨_, s₅, htoggle, hused⟩ := bind_eq_done.mp h₄
  have hwritten : WrittenBehind s₂ s₄ := by
    refine (writtenBehind_copyChunks (fun blk hblk => (hbounds blk (List.mem_of_mem_take hblk)).1) hcopy).trans ?_
    rw [storeIndirect] at hindirect
    split at hindirect
    · have hmem : memBlks.getD ((buffer.length - 1) / EXT2_BLOCK_SIZE + 1) 0 ∈ memBlks := by
        rw [List.getD_eq_getElem?_getD, List.getElem?_eq_getElem (by omega), Option.getD_some]
        exact List.getElem_mem _
      obtain ⟨hlow, hhigh⟩ := hbounds _ hmem
      refine writtenBehind_storeBytes ?_ hindirect
      have hlt := Nat.mul_le_mul_right EXT2_BLOCK_SIZE hhigh
      rw [blockAddrU_of_lt (by omega)]
      exact Nat.mul_le_mul_right _ hlow
    · cases hindirect
      exact .refl
  obtain ⟨D, rfl, hD⟩ := hwritten
  obtain ⟨_, bm, rfl, hsysBm, _⟩ := setNToggleBit_done (fun blk hblk => by have := hbounds blk hblk; omega) htoggle
  obtain ⟨_, bm', _, rfl⟩ := setUsedBit_done hused
  have hD : ∀ j < 11 * 1024, D j = s₂.disk j := hD
  have htable : 3 * 1024 ≤ tableAt m ∧ tableAt m + inodeSize * total m .ind ≤ 11 * 1024 := hlayout.table
  have hapart := hlayout.tableApart
  have hend := inodeSize_le hn
  have haddr : inodeAddr s₂ n = tableAt m + inodeSize * (n - 1) := by rw [inodeAddr, hmounted.table]
  have hind := hmounted.sysBm .ind
  have hblk' : s₂.blkBmap.sysBm = bitmapAt m .blk := hmounted.sysBm .blk
  change decodeInode _ (inodeAddr s₂ n) = decodeInode _ (inodeAddr s₂ n)
  refine decodeInode_congr fun i h1 h2 => ?_
  rw [haddr] at h1 h2
  change markedAt (flips D s₂.blkBmap.sysBm memBlks) s₂.indBmap i = s₂.disk i
  rw [markedAt, Function.update_of_ne, flips_of_forall_ne fun blk hblk => ?_]
  · exact hD i (by omega)
  · have hblk'' := hapart .blk
    have hbound := hbounds blk hblk
    change i ≠ s₂.blkBmap.sysBm + (blk - 1) / 8
    omega
  · -- The cursor is in the bitmap, or at no number.
    have hbyte : (s₂.bmap .ind).availByteIndex ≤ 15 ∨ 2 ^ 31 ≤ (s₂.bmap .ind).availByteIndex := by
      rw [(hgood .ind).cursor]
      cases hhead : (s₂.free .ind (total m .ind)).head? with
      | none =>
        right
        change 2 ^ 31 ≤ sub32 0 1
        decide
      | some k =>
        have hk := (mem_free.mp (head?_free hhead).1).1.2
        have hN := (hlayout.total .ind).1
        left
        change (k - 1) / 8 ≤ 15
        omega
    have hind' := hapart .ind
    change i ≠ (s₂.bmap .ind).sysBm + (s₂.bmap .ind).availByteIndex
    omega

/-- The tool reads no file into its buffer, and with a buffer that holds the file the inode could only
read back if the table has had its blocks before. -/
theorem readsBack_only (hn : 1 ≤ n ∧ n ≤ total m .ind) (hne : content ≠ [])
    (hlen : content.length ≤ (INDIRECT_BLK_INDEX + EXT2_BLOCK_SIZE / 4) * EXT2_BLOCK_SIZE) :
    ¬ReadsBack (mkNewFileInode n (some content.length)) s n content ∧
      (ReadsBack (storeFile n content) s n content →
        (inodeOf s n).blocks ≠ [] ∧ ∀ blk ∈ (inodeOf s n).blocks, s.used .blk blk = false) := by
  constructor
  · rintro ⟨s', hrun, _⟩
    have hpos := List.length_pos_iff.mpr hne
    have h1024 : EXT2_BLOCK_SIZE = 1024 := rfl
    have h11 : INDIRECT_BLK_INDEX = 11 := rfl
    rw [h1024, h11] at hlen
    unfold mkNewFileInode at hrun
    dsimp only at hrun
    rw [if_pos (by omega)] at hrun
    cases hrun
  · rintro ⟨s', hrun, hcontent, hblocks, _⟩
    have hinode := inodeOf_storeFile hlayout hmounted hgood hn hrun
    rw [hinode] at hcontent hblocks
    refine ⟨fun hnil => hne ?_, fun blk hblk => (hblocks blk (List.mem_append_left _ hblk)).1⟩
    have hrefs : blockRefs s'.disk (inodeOf s n) = [] := by
      rw [blockRefs, hnil, if_neg (by simp [INDIRECT_BLK_INDEX])]
      rfl
    rw [contentBlocks, hnil, hrefs] at hcontent
    simpa using hcontent.symm

end

/-! ## A file of one byte on the empty disk -/

theorem freeOn_emptyDisk_ne_nil : freeOn emptyDisk .ind ≠ [] := by
  have hmem : 12 ∈ freeOn emptyDisk .ind := mem_free.mpr ⟨by decide +kernel, by decide +kernel⟩
  exact List.ne_nil_of_mem hmem

theorem goods_onEmpty (b : Bm) : Good (total emptyDisk b) b .onEmpty :=
  (good_of_initGlobals layout_emptyDisk countsTrue_emptyDisk initGlobals_emptyDisk freeOn_emptyDisk_ne_nil).2 b

/-- Neither does the byte read back, nor would it with a buffer. -/
theorem readsBack_only_onEmpty : ¬ReadsBack (mkNewFileInode 12 (some 1)) .onEmpty 12 [0x61] ∧
    ¬ReadsBack (storeFile 12 [0x61]) .onEmpty 12 [0x61] := by
  have honly := @readsBack_only emptyDisk .onEmpty 12 [0x61] layout_emptyDisk mounted_onEmpty goods_onEmpty
    (by decide +kernel) (by decide) (by decide)
  exact ⟨honly.1, fun h => (honly.2 h).1 (by decide +kernel)⟩

/-- On the empty disk, inode 12 is the first free one. The tool dies when it reads the file. -/
theorem not_readsBack_onEmpty : Mounted emptyDisk .onEmpty ∧ Layout emptyDisk ∧ CountsTrue emptyDisk ∧
    (findFree State.onEmpty.indBmap).run .onEmpty = .done 12 .onEmpty ∧
    (mkNewFileInode 12 (some 1)).run .onEmpty = .halted .fault .onEmpty ∧
    ¬ReadsBack (mkNewFileInode 12 (some 1)) .onEmpty 12 [0x61] := by
  refine ⟨mounted_onEmpty, layout_emptyDisk, countsTrue_emptyDisk, rfl, rfl, ?_⟩
  rintro ⟨s', hrun, _⟩
  cases hrun

end Ext2

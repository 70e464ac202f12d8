-- SUMMARY: What an image says about itself, when it is in order, and the globals that a tool takes from it.
import OperatingSystems.Ext2.Entries

/-!
# Images

The superblock and the group descriptor keep the counts of free numbers beside the bitmaps. An image
is laid out as usual if all of this, and the table of inodes, is in the first ten blocks.
-/

namespace Ext2

open Library Library.Process

variable {m m' : Memory} {s : State} {b : Bm} {n a w : Nat}

/-! ## The fields -/

def sCount : Bm → Nat
  | .ind => sInodesCount
  | .blk => sBlocksCount

def sFreeCount : Bm → Nat
  | .ind => sFreeInodesCount
  | .blk => sFreeBlocksCount

def bgBitmap : Bm → Nat
  | .ind => bgInodeBitmap
  | .blk => bgBlockBitmap

def bgFreeCount : Bm → Nat
  | .ind => bgFreeInodesCount
  | .blk => bgFreeBlocksCount

/-- The number of inodes or blocks. -/
def total (m : Memory) (b : Bm) : Nat := word m 4 (sCount b)

def bitmapAt (m : Memory) (b : Bm) : Nat := blockAddrU (word m 4 (bgBitmap b))

def tableAt (m : Memory) : Nat := blockAddrU (word m 4 bgInodeTable)

/-- The free numbers. -/
def freeOn (m : Memory) (b : Bm) : List Nat := free m (bitmapAt m b) (total m b)

def usedOn (m : Memory) (b : Bm) (n : Nat) : Bool := used m (bitmapAt m b) n

def inodeOn (m : Memory) (n : Nat) : Inode := decodeInode m (tableAt m + inodeSize * (n - 1))

/-! ## Images in order -/

/-- All four counts are the number of zero bits. -/
structure CountsTrue (m : Memory) : Prop where
  superblock : ∀ b, word m 4 (sFreeCount b) = (freeOn m b).length
  group : ∀ b, word m 2 (bgFreeCount b) = (freeOn m b).length

/-- The bitmaps and the table lie between the group descriptor and the eleventh block, apart from
each other, and the first ten numbers are in use. -/
structure Layout (m : Memory) : Prop where
  total : ∀ b, total m b ≤ 128 ∧ total m b % 8 = 0
  bitmaps : ∀ b, 3 * EXT2_BLOCK_SIZE ≤ bitmapAt m b ∧
    bitmapAt m b + EXT2_BLOCK_SIZE ≤ EXT2_GOOD_OLD_FIRST_INO * EXT2_BLOCK_SIZE
  apart : bitmapAt m .ind + EXT2_BLOCK_SIZE ≤ bitmapAt m .blk ∨
    bitmapAt m .blk + EXT2_BLOCK_SIZE ≤ bitmapAt m .ind
  table : 3 * EXT2_BLOCK_SIZE ≤ tableAt m ∧
    tableAt m + inodeSize * Ext2.total m .ind ≤ EXT2_GOOD_OLD_FIRST_INO * EXT2_BLOCK_SIZE
  tableApart : ∀ b, bitmapAt m b + EXT2_BLOCK_SIZE ≤ tableAt m ∨
    tableAt m + inodeSize * Ext2.total m .ind ≤ bitmapAt m b
  reserved : ∀ b n, 1 ≤ n → n ≤ 10 → usedOn m b n = true

/-- The blocks that an inode refers to: the direct ones, the indirect table, and those in it. -/
def blockRefs (m : Memory) (i : Inode) : List Nat :=
  i.blocks ++
    if i.blocks.length = INDIRECT_BLK_INDEX ∧ i.iBlock.getD INDIRECT_BLK_INDEX 0 ≠ 0 then
      let t := i.iBlock.getD INDIRECT_BLK_INDEX 0
      t :: ((List.range (EXT2_BLOCK_SIZE / 4)).map fun k =>
        word m 4 (t * EXT2_BLOCK_SIZE + 4 * k)).takeWhile (· ≠ 0)
    else []

/-- The blocks with the contents of an inode. -/
def contentBlocks (m : Memory) (i : Inode) : List Nat :=
  i.blocks ++ (blockRefs m i).drop (INDIRECT_BLK_INDEX + 1)

/-- The numbers of the inodes that are in use and have a mode. -/
def inodesInUse (m : Memory) : List Nat :=
  (List.range' 1 (total m .ind)).filter fun n => usedOn m .ind n ∧ (inodeOn m n).iMode ≠ 0

def directories (m : Memory) : List Nat :=
  (inodesInUse m).filter fun n => IS_DIR (inodeOn m n).iMode

theorem mem_inodesInUse : n ∈ inodesInUse m ↔
    (1 ≤ n ∧ n ≤ total m .ind) ∧ usedOn m .ind n = true ∧ (inodeOn m n).iMode ≠ 0 := by
  rw [inodesInUse, List.mem_filter, List.mem_range'_1, decide_eq_true_iff]
  refine and_congr_left fun _ => ⟨?_, ?_⟩
  · rintro ⟨h1, h2⟩
    exact ⟨h1, by omega⟩
  · rintro ⟨h1, h2⟩
    exact ⟨h1, by omega⟩

theorem bounds_of_inodesInUse (hn : n ∈ inodesInUse m) : 1 ≤ n ∧ n ≤ total m .ind := (mem_inodesInUse.mp hn).1

theorem bounds_of_directories (hn : n ∈ directories m) : 1 ≤ n ∧ n ≤ total m .ind :=
  bounds_of_inodesInUse (List.mem_of_mem_filter hn)

/-- The entries of all directories, given that `entriesOf` are those of each block. -/
def allEntries (m : Memory) (entriesOf : Nat → List DirEntry) : List DirEntry :=
  (directories m).flatMap fun d => (contentBlocks m (inodeOn m d)).flatMap entriesOf

/-- The inode is one of a regular file. -/
def IS_REG (mode : Nat) : Bool := mode / 2 ^ 12 = EXT2_S_IFREG / 2 ^ 12

/-- A block lies behind the bitmaps and the table of inodes. -/
def Behind (m : Memory) (blk : Nat) : Prop :=
  (∀ b, bitmapAt m b + EXT2_BLOCK_SIZE ≤ blk * EXT2_BLOCK_SIZE) ∧
    tableAt m + inodeSize * total m .ind ≤ blk * EXT2_BLOCK_SIZE

/-- The blocks of directories are chains of entries, everything that is referred to is in use, no
block twice and each regular file as often as it has links, and the counts are true. -/
structure Consistent (m : Memory) : Prop where
  layout : Layout m
  counts : CountsTrue m
  blocksUsed : ∀ n ∈ inodesInUse m, ∀ blk ∈ blockRefs m (inodeOn m n),
    Behind m blk ∧ blk < total m .blk ∧ usedOn m .blk blk = true
  blocksOnce : ((inodesInUse m).flatMap fun n => blockRefs m (inodeOn m n)).Nodup
  chains : ∃ entriesOf : Nat → List DirEntry,
    (∀ d ∈ directories m, ∀ blk ∈ contentBlocks m (inodeOn m d), Block m blk (entriesOf blk)) ∧
    (∀ e ∈ allEntries m entriesOf, e.inode ≠ 0 → e.inode ∈ inodesInUse m) ∧
    ∀ n ∈ inodesInUse m, IS_REG (inodeOn m n).iMode = true →
      (allEntries m entriesOf).countP (fun e => e.inode = n) = (inodeOn m n).iLinksCount

/-- A number in use is not a free one. -/
theorem ne_of_free {k : Nat} (hused : usedOn m b k = true) (hn : n ∈ freeOn m b) : k ≠ n := by
  rintro rfl
  rw [usedOn, (mem_free.mp hn).2] at hused
  cases hused

/-- A free number lies behind the reserved ones. -/
theorem Layout.le_of_mem_freeOn (h : Layout m) (hn : n ∈ freeOn m b) : EXT2_GOOD_OLD_FIRST_INO ≤ n := by
  have h11 : EXT2_GOOD_OLD_FIRST_INO = 11 := rfl
  by_contra hlt
  exact ne_of_free (h.reserved b n (mem_free.mp hn).1.1 (by omega)) hn rfl

/-- A free block lies behind the bitmaps and the table. -/
theorem Layout.behind_of_free (h : Layout m) (hn : n ∈ freeOn m .blk) : Behind m n := by
  have hle := Nat.mul_le_mul_right EXT2_BLOCK_SIZE (h.le_of_mem_freeOn hn)
  exact ⟨fun b => (h.bitmaps b).2.trans hle, h.table.2.trans hle⟩

/-! ## What the fields depend on -/

/-- The layout is a matter of some fields, and of the reserved numbers. -/
theorem Layout.of_fields (h : Layout m) (htotal : ∀ b, Ext2.total m' b = Ext2.total m b)
    (hbitmap : ∀ b, bitmapAt m' b = bitmapAt m b) (htable : tableAt m' = tableAt m)
    (hreserved : ∀ b n, 1 ≤ n → n ≤ 10 → used m' (bitmapAt m b) n = true) : Layout m' := by
  refine ⟨fun b => ?_, fun b => ?_, ?_, ?_, fun b => ?_, fun b n h1 h10 => ?_⟩
  · rw [htotal]
    exact h.total b
  · rw [hbitmap]
    exact h.bitmaps b
  · rw [hbitmap, hbitmap]
    exact h.apart
  · rw [htable, htotal]
    exact h.table
  · rw [hbitmap, htable, htotal]
    exact h.tableApart b
  · rw [usedOn, hbitmap]
    exact hreserved b n h1 h10

section

variable (hm : ∀ i < bgPad, m' i = m i)

include hm

theorem field_congr (ha : a + w ≤ bgPad) : word m' w a = word m w a :=
  word_congr fun i _ h2 => hm i (by omega)

theorem total_congr (b : Bm) : total m' b = total m b := by
  cases b <;> exact field_congr hm (by decide)

theorem bitmapAt_congr (b : Bm) : bitmapAt m' b = bitmapAt m b := by
  cases b <;> exact congrArg blockAddrU (field_congr hm (by decide))

theorem tableAt_congr : tableAt m' = tableAt m := congrArg blockAddrU (field_congr hm (by decide))

/-- An image stays laid out as usual if the fields stay, and the reserved numbers in use. -/
theorem Layout.congr (h : Layout m)
    (hreserved : ∀ b n, 1 ≤ n → n ≤ 10 → used m' (bitmapAt m b) n = true) : Layout m' :=
  h.of_fields (total_congr hm) (bitmapAt_congr hm) (tableAt_congr hm) hreserved

end

/-! ## After `init_globals` -/

theorem store_zeros {i : Nat} :
    Memory.store m a (leBytes w 0) i = if a ≤ i ∧ i < a + w then 0 else m i := by
  rw [Memory.store, leBytes_zero, List.length_replicate]
  split
  · simp [List.getD_eq_getElem?_getD, List.getElem?_replicate]
    split <;> rfl
  · rfl

/-- `init_globals` writes to the last bytes of the group descriptor. -/
theorem zeroed_eq {i : Nat} : zeroed m i = if bgPad ≤ i ∧ i < bgPad + 14 then 0 else m i := by
  have h1 : bgReserved 0 = bgPad + 2 := rfl
  have h2 : bgReserved 1 = bgPad + 6 := rfl
  have h3 : bgReserved 2 = bgPad + 10 := rfl
  rw [zeroed, store_zeros, store_zeros, store_zeros, store_zeros, h1, h2, h3]
  split_ifs <;> first | rfl | omega

theorem zeroed_apply {i : Nat} (h : i < bgPad ∨ 3 * EXT2_BLOCK_SIZE ≤ i) : zeroed m i = m i := by
  have h4 : bgPad + 14 ≤ 3 * EXT2_BLOCK_SIZE := by decide
  rw [zeroed_eq, if_neg (by omega)]

theorem word_zeroed (h : a + w ≤ bgPad ∨ 3 * EXT2_BLOCK_SIZE ≤ a) : word (zeroed m) w a = word m w a :=
  word_congr fun i h1 h2 => zeroed_apply (by omega)

/-- The globals of a tool are as the image says. -/
structure Mounted (m : Memory) (s : State) : Prop where
  disk : s.disk = zeroed m
  size : s.size = 128 * 1024
  table : s.indTable = tableAt m
  sysBm : ∀ b, (s.bmap b).sysBm = bitmapAt m b
  avail : ∀ b, (s.bmap b).numBitsAvail = word m 2 (bgFreeCount b)
  curr : ∀ b, (s.bmap b).currAvailNum = 0 ∨ EXT2_GOOD_OLD_FIRST_INO ≤ (s.bmap b).currAvailNum

theorem mounted_loaded : Mounted m (State.boot m).loaded where
  disk := rfl
  size := rfl
  table := congrArg blockAddrU (word_zeroed (.inl (by decide)))
  sysBm b := by
    cases b with
    | ind => exact congrArg blockAddrU (word_zeroed (.inl (by decide)))
    | blk => exact congrArg blockAddrU (word_zeroed (.inl (by decide)))
  avail b := by
    cases b with
    | ind => exact word_zeroed (.inl (by decide))
    | blk => exact word_zeroed (.inl (by decide))
  curr b := by cases b <;> exact .inl rfl

theorem Mounted.cursorAt (h : Mounted m s) {o : Option Nat}
    (ho : ∀ k ∈ o, EXT2_GOOD_OLD_FIRST_INO ≤ k) : Mounted m (s.cursorAt b o) := by
  cases o with
  | none => exact h
  | some k =>
    refine ⟨?_, ?_, ?_, ?_, ?_, ?_⟩
    · rw [disk_cursorAt, h.disk]
    · rw [size_cursorAt, h.size]
    · rw [State.cursorAt, State.indTable_setBmap, h.table]
    · intro b'
      rw [sysBm_cursorAt, h.sysBm]
    · intro b'
      rw [numBitsAvail_cursorAt, h.avail]
    · intro b'
      by_cases hb : b' = b
      · subst hb
        right
        rw [State.cursorAt, State.bmap_setBmap]
        exact ho k rfl
      · rw [State.cursorAt, State.bmap_setBmap_of_ne hb]
        exact h.curr b'

theorem mounted_readBitmap (b : Bm) (currBm : Int) (n pos : Nat) (foundBits : Int) :
    Triple (Mounted m) (readBitmap b currBm n pos foundBits) (fun _ => Mounted m) fun _ => Mounted m := by
  refine .of_state fun s hs => ?_
  obtain ⟨o, hstate, ho⟩ := state_readBitmap b currBm n pos foundBits s
  rw [hstate]
  exact hs.cursorAt ho

/-- However `init_globals` ends, the globals are as the image says. -/
theorem mounted_initGlobals (m : Memory) : Mounted m (initGlobals.run (.boot m)).state := by
  have htriple : Triple (Mounted m) readBitmaps (fun _ => Mounted m) fun _ => Mounted m := by
    refine .bind (.of_readOnly .get fun _ _ h => h) fun s => ?_
    refine .bind (mounted_readBitmap _ _ _ _ _) fun found => ?_
    refine .bind (mounted_readBitmap _ _ _ _ _) fun found' => ?_
    split
    · exact .halt fun _ h => h
    · exact .pure fun _ h => h
  rw [run_initGlobals (show 3 * EXT2_BLOCK_SIZE ≤ 128 * 1024 by decide)]
  exact htriple.state mounted_loaded

theorem mounted_of_initGlobals (hinit : initGlobals.run (.boot m) = .done () s) : Mounted m s := by
  have hmounted := mounted_initGlobals m
  rwa [hinit] at hmounted

/-- `init_globals` leaves the bitmaps as they are. -/
theorem Mounted.used_of_le (h : Mounted m s) (hb : 3 * EXT2_BLOCK_SIZE ≤ bitmapAt m b) :
    s.used b n = usedOn m b n := by
  rw [State.used, h.sysBm, h.disk, Ext2.used, zeroed_apply (.inr (by omega)), usedOn, Ext2.used]

theorem Mounted.used (h : Mounted m s) (hlayout : Layout m) : s.used b n = usedOn m b n :=
  h.used_of_le (hlayout.bitmaps b).1

theorem Mounted.inodeOf (h : Mounted m s) (htable : 3 * EXT2_BLOCK_SIZE ≤ tableAt m) :
    Ext2.inodeOf s n = inodeOn m n := by
  rw [Ext2.inodeOf, inodeAddr, h.table, h.disk, inodeOn]
  exact decodeInode_congr fun i h1 _ => zeroed_apply (.inr (by omega))

theorem Mounted.free (h : Mounted m s) (hb : 3 * EXT2_BLOCK_SIZE ≤ bitmapAt m b) :
    s.free b (total m b) = freeOn m b :=
  List.filter_congr fun _ _ => congrArg Bool.not (h.used_of_le hb)

end Ext2

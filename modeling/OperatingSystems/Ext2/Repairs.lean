-- SUMMARY: What the checker is to repair, and when it does so and a second run finds nothing left.
import OperatingSystems.Ext2.Cursors
import OperatingSystems.Ext2.Drifts
import OperatingSystems.Ext2.Lookups

/-!
# Repairs

The checker sets the counts of the superblock to those of the group descriptor, which it trusts. Where
it finds nothing in the directories that it goes over, what it leaves behind is right if all but these
counts was right before, and a second run reports what the memory for its counter held. Where it does
find something, and writes over nothing that it goes by, there is an entry of an unknown type afterwards,
or a second run finds something again.
-/

namespace Ext2

open Library Library.Process

variable {m m' : Memory} {s s' : State} {b : Bm} {i : Inode} {left left' fixed : BitVec 32} {a n w : Nat}

/-! ## What is to be repaired -/

/-- Each entry of a directory has the type of its inode, which is in use with all its blocks and has no
time of deletion. -/
def EntriesTrue (m : Memory) : Prop :=
  ∀ d ∈ directories m, ∀ blk ∈ contentBlocks m (inodeOn m d), ∀ es, Block m blk es →
    ∀ e ∈ es, e.inode ≠ 0 → some e.fileType = fileTypeOf (inodeOn m e.inode).iMode ∧
      usedOn m .ind e.inode = true ∧
      (∀ blk ∈ blockRefs m (inodeOn m e.inode), usedOn m .blk blk = true) ∧
      (inodeOn m e.inode).iDtime = 0

/-- The counts and the entries are true. -/
structure Repaired (m : Memory) : Prop where
  counts : CountsTrue m
  entries : EntriesTrue m

/-- The checker repairs the image, and in a second run it changes nothing and reports no repairs. The
memory for the counter of each run holds a value, which is 0 in a process that has just been started. -/
def Repairs (left left' : BitVec 32) (m : Memory) : Prop :=
  ∃ fixed fixed' s s', (ext2Checker left).runOn m = .done fixed s ∧ Repaired s.disk ∧
    (ext2Checker left').runOn s.disk = .done fixed' s' ∧ s'.disk = s.disk ∧ fixed' = 0

/-! ## Images that differ in the counts of the superblock -/

/-- Outside of the superblock and the group descriptor the images are the same, and so is what the tools
take from these two. -/
structure SameImage (m m' : Memory) : Prop where
  total : ∀ b, total m' b = total m b
  bitmapAt : ∀ b, bitmapAt m' b = bitmapAt m b
  tableAt : tableAt m' = tableAt m
  avail : ∀ b, word m' 2 (bgFreeCount b) = word m 2 (bgFreeCount b)
  disk : ∀ j, 3 * EXT2_BLOCK_SIZE ≤ j → m' j = m j

namespace SameImage

theorem refl (m : Memory) : SameImage m m := ⟨fun _ => rfl, fun _ => rfl, rfl, fun _ => rfl, fun _ _ => rfl⟩

variable (h : SameImage m m') (hlayout : Layout m)

include h hlayout

theorem usedOn : usedOn m' b n = Ext2.usedOn m b n := by
  have hb := (hlayout.bitmaps b).1
  rw [Ext2.usedOn, h.bitmapAt, used, h.disk _ (by omega), Ext2.usedOn, used]

theorem freeOn : freeOn m' b = Ext2.freeOn m b := by
  rw [Ext2.freeOn, h.total]
  exact List.filter_congr fun n _ => congrArg Bool.not (h.usedOn hlayout)

theorem inodeOn : inodeOn m' n = Ext2.inodeOn m n := by
  have htable := hlayout.table.1
  rw [Ext2.inodeOn, h.tableAt, Ext2.inodeOn]
  exact decodeInode_congr fun j h1 _ => h.disk j (by omega)

theorem directories : directories m' = Ext2.directories m := by
  simp only [Ext2.directories, inodesInUse, h.total, h.usedOn hlayout, h.inodeOn hlayout]

theorem layout : Layout m' :=
  hlayout.of_fields h.total h.bitmapAt h.tableAt fun b n h1 h10 => by
    rw [← h.bitmapAt]
    exact (h.usedOn hlayout).trans (hlayout.reserved b n h1 h10)

omit hlayout

theorem blockRefs (ht : i.indirect ≠ 0 → 3 ≤ i.indirect) : blockRefs m' i = Ext2.blockRefs m i := by
  rw [Ext2.blockRefs, Ext2.blockRefs]
  congr 1
  split
  · rename_i hi
    have h3 := Nat.mul_le_mul_right EXT2_BLOCK_SIZE (ht hi.2)
    have hword : ∀ k, word m' 4 (i.iBlock.getD INDIRECT_BLK_INDEX 0 * EXT2_BLOCK_SIZE + 4 * k) =
        word m 4 (i.iBlock.getD INDIRECT_BLK_INDEX 0 * EXT2_BLOCK_SIZE + 4 * k) := fun k =>
      word_congr fun j h1 _ => h.disk j (by rw [Inode.indirect] at h3; omega)
    simp only [hword]
  · rfl

theorem contentBlocks (ht : i.indirect ≠ 0 → 3 ≤ i.indirect) : contentBlocks m' i = Ext2.contentBlocks m i := by
  rw [Ext2.contentBlocks, h.blockRefs ht, Ext2.contentBlocks]

end SameImage

/-! ## Images to check -/

/-- The image is laid out as usual with more than the reserved inodes, `init_globals` finds what it looks
for, and indirect tables and blocks of directories lie behind the group descriptor, the latter with
entries for inodes of the table. -/
structure Checkable (m : Memory) : Prop where
  layout : Layout m
  numbers : EXT2_GOOD_OLD_FIRST_INO ≤ total m .ind
  starts : if freeOn m .ind = [] then (freeOn m .blk).length ≠ 1 else freeOn m .blk ≠ []
  tables : ∀ n ≤ total m .ind, (inodeOn m n).indirect ≠ 0 → 3 ≤ (inodeOn m n).indirect
  chains : ∀ d ∈ directories m, ∀ blk ∈ contentBlocks m (inodeOn m d),
    3 ≤ blk ∧ ∃ es, Block m blk es ∧ ∀ e ∈ es, e.inode ≤ total m .ind

/-- The image with the counts of the group descriptor in the superblock. -/
def recounted (m : Memory) : Memory :=
  Memory.store (Memory.store m sFreeBlocksCount (leBytes 4 (word m 2 bgFreeBlocksCount))) sFreeInodesCount
    (leBytes 4 (word m 2 bgFreeInodesCount))

theorem store_word : Memory.store m a (leBytes w (word m w a)) = m := by
  have hbytes := leBytes_ofLeBytes (Memory.load m a w)
  rw [Memory.length_load] at hbytes
  rw [word, hbytes, Memory.store_load]

theorem recounted_apply {j : Nat} (h : j < sFreeBlocksCount ∨ sFreeInodesCount + 4 ≤ j) :
    recounted m j = m j := by
  have hnext : sFreeInodesCount = sFreeBlocksCount + 4 := rfl
  rcases h with h | h
  · rw [recounted, Memory.store_of_lt (by omega), Memory.store_of_lt h]
  · rw [recounted, Memory.store_of_le (by rwa [length_leBytes]),
      Memory.store_of_le (by rw [length_leBytes]; omega)]

theorem word_recounted (h : a + w ≤ sFreeBlocksCount ∨ sFreeInodesCount + 4 ≤ a) :
    word (recounted m) w a = word m w a :=
  word_congr fun j h1 h2 => recounted_apply (by omega)

theorem run_fixCount (free : Nat) (ha : a + w ≤ s.size) :
    ∃ n, (fixCount w a free).run s = .done n { s with disk := Memory.store s.disk a (leBytes w free) } ∧
      (word s.disk w a = free → n = 0) := by
  rw [fixCount, run_loadWord_bind ha]
  by_cases h : word s.disk w a = free
  · rw [if_neg (not_not.mpr h), ← h, store_word]
    exact ⟨0, rfl, fun _ => rfl⟩
  · rw [if_pos h, run_storeWord_bind ha]
    exact ⟨_, rfl, fun heq => absurd heq h⟩

/-- After `init_globals` the counts of the group descriptor are taken to be right. -/
theorem run_checkFreeCounts (hsize : 3 * EXT2_BLOCK_SIZE ≤ s.size)
    (havail : ∀ b, (s.bmap b).numBitsAvail = word s.disk 2 (bgFreeCount b)) :
    ∃ n, checkFreeCounts.run s = .done n { s with disk := recounted s.disk } ∧
      ((∀ b, word s.disk 4 (sFreeCount b) = word s.disk 2 (bgFreeCount b)) → n = 0) := by
  have hin : ∀ k, k ≤ 3 * EXT2_BLOCK_SIZE → k ≤ s.size := fun k hk => hk.trans hsize
  have hind : s.indBmap.numBitsAvail = word s.disk 2 bgFreeInodesCount := havail .ind
  have hblk : s.blkBmap.numBitsAvail = word s.disk 2 bgFreeBlocksCount := havail .blk
  obtain ⟨n₁, hrun₁, hn₁⟩ := run_fixCount (s := s) (word s.disk 2 bgFreeBlocksCount)
    (hin (bgFreeBlocksCount + 2) (by decide))
  obtain ⟨n₂, hrun₂, hn₂⟩ := run_fixCount (s := s) (word s.disk 2 bgFreeInodesCount)
    (hin (bgFreeInodesCount + 2) (by decide))
  obtain ⟨n₃, hrun₃, hn₃⟩ := run_fixCount (s := s) (word s.disk 2 bgFreeBlocksCount)
    (hin (sFreeBlocksCount + 4) (by decide))
  obtain ⟨n₄, hrun₄, hn₄⟩ := run_fixCount
    (s := { s with disk := Memory.store s.disk sFreeBlocksCount (leBytes 4 (word s.disk 2 bgFreeBlocksCount)) })
    (word s.disk 2 bgFreeInodesCount)
    (hin (sFreeInodesCount + 4) (by decide))
  rw [store_word] at hrun₁ hrun₂
  refine ⟨n₁ + n₂ + n₃ + n₄, ?_, fun h => ?_⟩
  · rw [checkFreeCounts, run_get_bind, hind, hblk]
    dsimp only
    rw [bind_done hrun₁, bind_done hrun₂, bind_done hrun₃, bind_done hrun₄]
    rfl
  · have hword : word (Memory.store s.disk sFreeBlocksCount (leBytes 4 (word s.disk 2 bgFreeBlocksCount))) 4
        sFreeInodesCount = word s.disk 4 sFreeInodesCount :=
      word_congr fun j h1 _ => Memory.store_of_le (by
        rw [length_leBytes]
        exact h1)
    rw [hn₁ rfl, hn₂ rfl, hn₃ (h .blk), hn₄ (hword.trans (h .ind))]
    rfl

/-! ## A run where nothing is found -/

/-- After `init_globals` the checker sets the counts of the superblock, and goes on to the directories. -/
theorem exists_recounted (hinit : initGlobals.run (.boot m) = .done () s) (left : BitVec 32) :
    ∃ n, (ext2Checker left).runOn m =
        (checkDirEntries >>= fun n' => pure (left + n + n')).run { s with disk := recounted (zeroed m) } ∧
      ((∀ b, word m 4 (sFreeCount b) = word m 2 (bgFreeCount b)) → n = 0) := by
  have hmounted := mounted_of_initGlobals hinit
  have hcounts : ∀ b, word s.disk 4 (sFreeCount b) = word m 4 (sFreeCount b) ∧
      word s.disk 2 (bgFreeCount b) = word m 2 (bgFreeCount b) := by
    intro b
    rw [hmounted.disk]
    cases b <;> exact ⟨word_zeroed (.inl (by decide)), word_zeroed (.inl (by decide))⟩
  obtain ⟨n, hrun, hn⟩ := run_checkFreeCounts (s := s) (by rw [hmounted.size]; decide) fun b => by
    rw [hmounted.avail, (hcounts b).2]
  refine ⟨n, ?_, fun heq => hn fun b => ?_⟩
  · refine (bind_done hinit).trans ?_
    rw [ext2Checker, bind_done hrun, hmounted.disk]
  · rw [(hcounts b).1, (hcounts b).2, heq b]

/-- What the checker goes by for an entry is in its place: the inode behind is one of the table, its
blocks are numbers of the disk, and its indirect table is not written to and ends with a zero. -/
structure InPlace (m : Memory) (e : DirEntry) : Prop where
  inode : e.inode ≠ 0 ∧ e.inode < total m .ind
  numbers : ∀ n ∈ blocksBehind m e, n ≤ total m .blk
  table : (behind m e).indirect ≠ 0 → Behind m (behind m e).indirect ∧ (behind m e).indirect < 128 ∧
    (behind m e).indirect ∉ blocksChecked m (inodesChecked m) 0 ∧
    ∃ q < EXT2_BLOCK_SIZE / 4, word m 4 ((behind m e).indirect * EXT2_BLOCK_SIZE + 4 * q) = 0

/-- The checker goes over direct blocks of directories in use, which lie behind the bitmaps and the
table, and finds what it goes by for their entries in its place. -/
structure Tidy (m : Memory) : Prop where
  direct : ∀ n ∈ inodesChecked m, (inodeOn m n).Checked → (inodeOn m n).indirect = 0
  listed : ∀ blk ∈ blocksChecked m (inodesChecked m) 0, blk < 128 ∧ Behind m blk ∧
    ∃ d ∈ directories m, blk ∈ (inodeOn m d).blocks
  entries : ∀ blk ∈ blocksChecked m (inodesChecked m) 0, ∀ es, Block m blk es → ∀ e ∈ es, InPlace m e

variable {entriesOf : Nat → List DirEntry} {V : List Visit} {d : Memory} {es : List DirEntry} {p : Nat}

/-- The entries of the blocks that the checker goes over. -/
theorem Tidy.exists_charted (ht : Tidy m) (hm : Checkable m) : ∃ entriesOf, Charted m entriesOf := by
  have hchain : ∀ blk ∈ blocksChecked m (inodesChecked m) 0, 3 ≤ blk ∧ ∃ es, Block m blk es := by
    intro blk hblk
    obtain ⟨_, _, d, hd, hin⟩ := ht.listed blk hblk
    obtain ⟨h3, es, hblock, _⟩ := hm.chains d hd blk (List.mem_append_left _ hin)
    exact ⟨h3, es, hblock⟩
  choose! h3 entriesOf hblock using hchain
  exact ⟨entriesOf, ht.direct, fun blk hblk => ⟨h3 blk hblk, (ht.listed blk hblk).1, hblock blk hblk⟩⟩

/-- None of them is written over but for its type. -/
theorem Tidy.spaced (ht : Tidy m) (hm : Checkable m) (hcharted : Charted m entriesOf) :
    Spaced m (visits m entriesOf) := by
  have h1024 : EXT2_BLOCK_SIZE = 1024 := rfl
  have hat : ∀ v ∈ visits m entriesOf, ∃ blk ∈ blocksChecked m (inodesChecked m) 0,
      v ∈ placed (blk * EXT2_BLOCK_SIZE) (entriesOf blk) ∧ blk < 128 ∧ Behind m blk ∧ InPlace m v.2 ∧
        Block m blk (entriesOf blk) ∧ decodeEntry m v.1 = v.2 ∧ blk * EXT2_BLOCK_SIZE ≤ v.1 ∧
        v.1 + 8 ≤ blk * EXT2_BLOCK_SIZE + EXT2_BLOCK_SIZE := by
    intro v hv
    obtain ⟨blk, hblk, ⟨_, h128, hblock⟩, hin⟩ := hcharted.mem_visits hv
    obtain ⟨hmem, hread, hlen, hle, hend⟩ := mem_placed hblock.1 hin
    rw [hblock.2] at hend
    exact ⟨blk, hblk, hin, h128, (ht.listed blk hblk).2.1, ht.entries blk hblk _ hblock v.2 hmem, hblock, hread,
      hle, by omega⟩
  refine ⟨hm.layout, fun v hv => ?_, fun v hv => ?_, fun v hv => ?_, fun v hv v' hv' => ?_, fun v hv => ?_,
    fun v hv n hn => ?_, fun v hv hne => ?_⟩
  · obtain ⟨_, _, _, _, _, _, _, hread, _⟩ := hat v hv
    exact hread
  · obtain ⟨blk, _, _, _, ⟨hbitmap, htable⟩, _, _, _, hle, _⟩ := hat v hv
    exact ⟨fun b => (hbitmap b).trans hle, htable.trans hle⟩
  · obtain ⟨blk, _, _, h128, _, _, _, _, _, hend⟩ := hat v hv
    rw [h1024] at hend
    omega
  · obtain ⟨blk, _, hin, _, _, _, hblock, _, hle, hend⟩ := hat v hv
    obtain ⟨blk', _, hin', _, _, _, _, _, hle', hend'⟩ := hat v' hv'
    by_cases heq : blk' = blk
    · rw [heq] at hin'
      have hapart := placed_apart hblock.1 hin hin'
      omega
    · rcases Nat.lt_or_gt_of_ne heq with hlt | hgt
      · have hnext := block_le_of_lt hlt
        omega
      · have hnext := block_le_of_lt hgt
        omega
  · obtain ⟨_, _, _, _, _, hplace, _⟩ := hat v hv
    have h0 := hplace.inode.1
    exact ⟨by omega, hplace.inode.2⟩
  · obtain ⟨_, _, _, _, _, hplace, _⟩ := hat v hv
    exact (hplace.numbers n hn).trans (hm.layout.total .blk).1
  · obtain ⟨_, _, _, _, _, hplace, _⟩ := hat v hv
    obtain ⟨hbehind, h128, hnot, hzero⟩ := hplace.table hne
    refine ⟨hbehind, h128, fun v' hv' => ?_, hzero⟩
    obtain ⟨blk', hblk', _, _, _, _, _, _, hle', hend'⟩ := hat v' hv'
    rcases Nat.lt_or_gt_of_ne (fun heq : blk' = (behind m v.2).indirect => hnot (heq ▸ hblk')) with hlt | hgt
    · have hnext := block_le_of_lt hlt
      omega
    · have hnext := block_le_of_lt hgt
      omega

/-! ## A second run -/

/-- The image itself is near. -/
theorem Spaced.near (h : Spaced m V) : Near m V m :=
  ⟨fun _ _ => rfl, h.layout.reserved .blk 1 le_rfl (by decide), fun v hv => .inl (by rw [← h.entry v hv]; rfl)⟩

/-- The checker starts from a disk that is as near as the one it finds. -/
theorem Near.recounted (hd : Near m V d) (h : Spaced m V) : Near m V (recounted (zeroed d)) := by
  have hheader : sFreeBlocksCount ≤ sFreeInodesCount ∧ sFreeInodesCount + 4 ≤ 2 * EXT2_BLOCK_SIZE ∧
      bgFreeBlocksCount ≤ bgPad ∧ 2 * EXT2_BLOCK_SIZE ≤ bgFreeBlocksCount := by decide
  have hfront := (h.layout.bitmaps .blk).1
  have hsame : ∀ j, 3 * EXT2_BLOCK_SIZE ≤ j → Ext2.recounted (zeroed d) j = d j := fun j hj => by
    rw [recounted_apply (.inr (by omega)), zeroed_apply (.inr hj)]
  refine ⟨fun j hj => ?_, ?_, fun v hv => ?_⟩
  · refine Eq.trans ?_ (hd.spared j hj)
    rcases hj with hj | ⟨h1, h2⟩ | ⟨h1, _⟩
    · rw [recounted_apply (.inl hj), zeroed_apply (.inl (by omega))]
    · rw [recounted_apply (.inr (by omega)), zeroed_apply (.inl (by omega))]
    · exact hsame j h1
  · rw [← hd.one, used, used, hsame _ (by omega)]
  · have hlast := (h.behind v hv).1 .blk
    rw [typeAt_congr (hsame _ (by omega))]
    exact hd.types v hv

/-- What a run of the checker leaves behind, and what it reports. -/
theorem passing_of_runOn (hm : Checkable m) (hcharted : Charted m entriesOf) (h : Spaced m (visits m entriesOf))
    (hd : Near m (visits m entriesOf) d) (hrun : (ext2Checker left).runOn d = .done fixed s) :
    ∃ y z, fixed = left + y + z ∧
      ((∀ b, word d 4 (sFreeCount b) = word d 2 (bgFreeCount b)) → y = 0) ∧
      Passing m (visits m entriesOf) (recounted (zeroed d)) (visits m entriesOf) z s := by
  obtain ⟨_, s₁, hinit, _⟩ := bind_eq_done.mp hrun
  have hmounted := mounted_of_initGlobals hinit
  obtain ⟨y, hrest, hy⟩ := exists_recounted hinit left
  rw [hrest] at hrun
  obtain ⟨z, s₂, hentries, hpure⟩ := bind_eq_done.mp hrun
  cases hpure
  have hon : On m (visits m entriesOf) { s₁ with disk := recounted (zeroed d) } :=
    ⟨hmounted.size, hmounted.table.trans hd.tableAt_eq, fun b => by
      rw [State.bmap_disk, hmounted.sysBm, hd.bitmapAt_eq], hd.recounted h⟩
  have hstart : Passing m (visits m entriesOf) (recounted (zeroed d)) [] 0
      { s₁ with disk := recounted (zeroed d) } := by
    refine ⟨List.nil_subset _, hon, List.forall_mem_nil _, List.forall_mem_nil _, ⟨0, le_rfl, .nil, ?_⟩,
      ⟨0, Nat.zero_le _, .nil, rfl⟩⟩
    exact Nat.mod_eq_of_lt (word_lt _ 2 _)
  have hnumbers := hm.numbers
  have hpos : 0 < total m .ind := (by decide : 0 < EXT2_GOOD_OLD_FIRST_INO).trans_le hnumbers
  have htour := (tour_passing (recounted (zeroed d)) h hpos).run_checkDirEntries hm.layout hcharted hnumbers
  exact ⟨y, z, rfl, hy, htour.of_done hstart hentries⟩

/-- A run that changes nothing and reports nothing has found every number in order. -/
theorem tested_of_unchanged (hcharted : Charted m entriesOf) {x : BitVec 32}
    (hpass : Passing m (visits m entriesOf) (recounted (zeroed d)) (visits m entriesOf) x s) (hdisk : s.disk = d)
    (hx : x = 0) (v : Visit) (hv : v ∈ visits m entriesOf) :
    used d (bitmapAt m .ind) (v.2.inode + 1) = true ∧
      ∀ n ∈ blocksBehind m v.2, used d (bitmapAt m .blk) (n + 1) = true := by
  have hlen : (visits m entriesOf).length ≤ 11 * 1024 := hcharted.length_visits_le
  obtain ⟨k, hk, hinodes, hfree⟩ := hpass.inodes
  obtain ⟨c, hc, hblocks, hcount⟩ := hpass.blocks
  have hword : word (recounted (zeroed d)) 2 bgFreeInodesCount = word d 2 bgFreeInodesCount := by
    rw [word_recounted (.inr (by decide)), word_zeroed (.inl (by decide))]
  have hk0 : k = 0 := by
    have hlt := word_lt d 2 bgFreeInodesCount
    have h256 : 256 ^ 2 = 65536 := rfl
    rw [hdisk, hword] at hfree
    omega
  have hc0 : c = 0 := by
    have hlt : c < 2 ^ 32 := by
      refine (hc.trans (Nat.mul_le_mul_right _ hlen)).trans_lt ?_
      decide
    have hnat := congrArg BitVec.toNat (hcount.symm.trans hx)
    rwa [BitVec.toNat_ofNat, Nat.mod_eq_of_lt hlt] at hnat
  subst hk0 hc0
  rw [hdisk] at hinodes hblocks
  exact ⟨hinodes.of_zero.2 _ (List.mem_map.mpr ⟨v, hv, rfl⟩),
    fun n hn => hblocks.of_zero.2 n (List.mem_flatMap.mpr ⟨v, hv, hn⟩)⟩

/-- A directory of the image is one of a disk on which the bits of the inodes are as they were. -/
theorem Near.mem_directories (hd : Near m V d) (h : Spaced m V)
    (hused : ∀ j, bitmapAt m .ind ≤ j → j < bitmapAt m .ind + EXT2_BLOCK_SIZE → d j = m j)
    (hn : n ∈ directories m) :
    n ∈ directories d ∧ inodeOn d n = inodeOn m n := by
  obtain ⟨hin, hdir⟩ := List.mem_filter.mp hn
  obtain ⟨hbounds, hset, hmode⟩ := mem_inodesInUse.mp hin
  have htotal := (h.layout.total .ind).1
  have h1024 : EXT2_BLOCK_SIZE = 1024 := rfl
  have hinode : inodeOn d n = inodeOn m n := by
    rw [inodeOn, hd.tableAt_eq, hd.decodeInode_eq h (by omega)]
  refine ⟨List.mem_filter.mpr ⟨mem_inodesInUse.mpr ⟨?_, ?_, ?_⟩, ?_⟩, hinode⟩
  · rwa [hd.total_eq]
  · rw [usedOn, hd.bitmapAt_eq, used, hused _ (by omega) (by omega)]
    exact hset
  · rwa [hinode]
  · rwa [hinode]

/-- An entry that the checker comes to is not of an unknown type if the entries are true. -/
theorem Tidy.typeAt_ne_zero (ht : Tidy m) (hcharted : Charted m entriesOf) (h : Spaced m (visits m entriesOf))
    (hd : Near m (visits m entriesOf) d)
    (hused : ∀ j, bitmapAt m .ind ≤ j → j < bitmapAt m .ind + EXT2_BLOCK_SIZE → d j = m j) (htrue : EntriesTrue d)
    {v : Visit} (hv : v ∈ visits m entriesOf) : typeAt d v ≠ 0 := by
  intro h0
  obtain ⟨blk, hblk, ⟨_, _, hblock⟩, hin⟩ := hcharted.mem_visits hv
  obtain ⟨_, _, n, hn, hlisted⟩ := ht.listed blk hblk
  obtain ⟨hdir, hinode⟩ := hd.mem_directories h hused hn
  obtain ⟨es, hchain, hsizes, hall⟩ := exists_retyped hblock.1 fun v hv j h1 h2 =>
    hd.spared j (h.spared_entry (List.mem_flatMap.mpr ⟨blk, hblk, hv⟩) h1 h2)
  obtain ⟨e, he, hnum, htype⟩ := hall v hin
  have hcontent : blk ∈ contentBlocks d (inodeOn d n) := by
    rw [hinode]
    exact List.mem_append_left _ hlisted
  have hpos := (h.inode v hv).1
  have hentry := htrue n hdir blk hcontent es ⟨hchain, hsizes.trans hblock.2⟩ e he (by omega)
  rw [htype, h0] at hentry
  exact fileTypeOf_ne_unknown hentry.1.symm

/-- An entry passes if its type and all the bits are in order. -/
theorem Spaced.passes (h : Spaced m V) {v : Visit} (hv : v ∈ V)
    (htype : fileTypeOf (Ext2.behind m v.2).iMode = some v.2.fileType) (hends : EndsBehind m v.2)
    (hinode : usedOn m .ind (v.2.inode + 1) = true)
    (hblocks : ∀ n ∈ blocksBehind m v.2, usedOn m .blk (n + 1) = true) : Passes m v.2 := by
  have hlast := fun b => (h.layout.bitmaps b).2
  have htable := h.layout.table.2
  have h11 : EXT2_GOOD_OLD_FIRST_INO * EXT2_BLOCK_SIZE = 11 * 1024 := rfl
  have h1024 : EXT2_BLOCK_SIZE = 1024 := rfl
  have hmul : inodeSize * (v.2.inode + 1) ≤ inodeSize * total m .ind := Nat.mul_le_mul_left _ (h.inode v hv).2
  have hmapped : ∀ b n, n ≤ 128 → bitmapAt m b + n / 8 < 128 * 1024 := fun b n hn => by
    have hb := hlast b
    omega
  refine ⟨by omega, htype, ⟨hmapped _ _ (h.le_of_inode hv), hinode⟩, fun hne => ?_, hends,
    fun n hn => ⟨hmapped _ _ (h.numbers v hv n hn), hblocks n hn⟩⟩
  have hfirst := (h.layout.bitmaps .ind).1
  have hbehind := (h.tables v hv hne).1.1 .ind
  rw [h.blockAddrU_table hv hne]
  omega

/-- On a tidy image the checker repairs everything only if it finds nothing in the directories. -/
theorem Tidy.quiet (ht : Tidy m) (hm : Checkable m) (hrepairs : Repairs left 0 m) : Quiet m := by
  obtain ⟨entriesOf, hcharted⟩ := ht.exists_charted hm
  have h := ht.spaced hm hcharted
  obtain ⟨fixed, fixed', s, s', hfirst, hrepaired, hsecond, hsame, hzero⟩ := hrepairs
  obtain ⟨_, _, _, _, hpass⟩ := passing_of_runOn hm hcharted h h.near hfirst
  obtain ⟨y, z, hfixed, hy, hpass'⟩ := passing_of_runOn hm hcharted h hpass.on.near hsecond
  have hz : z = 0 := by
    have hcounts := hrepaired.counts
    rw [hy fun b => (hcounts.superblock b).trans (hcounts.group b).symm, hzero] at hfixed
    simpa using hfixed.symm
  -- What the second run has found in order, the first one did not toggle either.
  have htested := tested_of_unchanged hcharted hpass' hsame hz
  obtain ⟨k, _, hinodes, _⟩ := hpass.inodes
  obtain ⟨c, _, hblocks, _⟩ := hpass.blocks
  have hk : k = 0 := hinodes.eq_zero fun n hn => by
    obtain ⟨v, hv, rfl⟩ := List.mem_map.mp hn
    exact (htested v hv).1
  have hc : c = 0 := hblocks.eq_zero fun n hn => by
    obtain ⟨v, hv, hn⟩ := List.mem_flatMap.mp hn
    exact (htested v hv).2 n hn
  subst hk hc
  have hfront := fun b => (hm.layout.bitmaps b).1
  have hstart : ∀ b j, bitmapAt m b ≤ j → recounted (zeroed m) j = m j := fun b j hj => by
    have hb := hfront b
    have hheader : sFreeInodesCount + 4 ≤ 3 * EXT2_BLOCK_SIZE := by decide
    rw [recounted_apply (.inr (by omega)), zeroed_apply (.inr (by omega))]
  have hbits : ∀ b j, bitmapAt m b ≤ j → j < bitmapAt m b + EXT2_BLOCK_SIZE → s.disk j = m j := by
    intro b j h1 h2
    rw [← hstart b j h1]
    cases b with
    | ind => exact hinodes.of_zero.1 j h1 h2
    | blk => exact hblocks.of_zero.1 j h1 h2
  refine ⟨ht.direct, fun blk hblk => ?_⟩
  obtain ⟨h3, h128, hblock⟩ := hcharted.blocks blk hblk
  refine ⟨h3, h128, entriesOf blk, hblock, fun e he => ?_⟩
  obtain ⟨q, hq⟩ := @exists_mem_placed _ _ (blk * EXT2_BLOCK_SIZE) he
  have hv : (q, e) ∈ visits m entriesOf := List.mem_flatMap.mpr ⟨blk, hblk, hq⟩
  have hne := ht.typeAt_ne_zero hcharted h hpass.on.near (hbits .ind) hrepaired.entries hv
  have htype := (hpass.types _ hv).resolve_left hne
  rw [(hpass.on.near.types _ hv).resolve_right hne] at htype
  refine h.passes hv htype (hpass.ends _ hv) ?_ fun n hn => ?_
  · rw [usedOn, ← Drift.used_congr (h.le_of_inode hv) (hbits .ind)]
    exact (htested _ hv).1
  · rw [usedOn, ← Drift.used_congr (h.numbers _ hv n hn) (hbits .blk)]
    exact (htested _ hv).2 n hn

end Ext2

-- SUMMARY: Link counts over runs of the tools: they stay those of the entries as long as the entries that come and go name no regular file.
import OperatingSystems.Ext2.Copies
import OperatingSystems.Ext2.Counts
import OperatingSystems.Ext2.Unlinks

/-!
# Tallies

The tools change link counts in copies of inodes, and none of them reaches the disk. A regular file keeps
as many links as entries only while no entry that names it comes or goes.
-/

namespace Ext2

open Library Library.Process Library.Records Library.Run

variable {m m' D : Memory} {s s' s₁ : State} {b : Bm} {d i n x : Nat} {name : Name} {op : Op}
  {blks : List Nat} {es es' : List DirEntry}

/-! ## Counted links -/

/-- The blocks of directories are chains of entries, and each regular file has as many of them as links. -/
def LinksCounted (m : Memory) : Prop :=
  ∃ entriesOf : Nat → List DirEntry,
    (∀ d ∈ directories m, ∀ blk ∈ contentBlocks m (inodeOn m d), Block m blk (entriesOf blk)) ∧
    ∀ n ∈ inodesInUse m, IS_REG (inodeOn m n).iMode = true →
      (allEntries m entriesOf).countP (fun e => e.inode = n) = (inodeOn m n).iLinksCount

/-- An entry of a directory names the inode. -/
def Named (m : Memory) (n : Nat) : Prop :=
  ∃ d ∈ directories m, ∃ blk ∈ contentBlocks m (inodeOn m d), ∃ es, Block m blk es ∧ ∃ e ∈ es, e.inode = n

/-- Where the bit of an inode has been cleared, its last entry has been removed. -/
def ClearsUnnamed (m m' : Memory) : Prop :=
  ∀ n ∈ inodesInUse m, usedOn m' .ind n = false → Named m n ∧ ¬Named m' n

/-- The links are counted, and the blocks of directories are in use, no block twice. -/
structure Tallied (m : Memory) : Prop where
  layout : Layout m
  blocksUsed : ∀ d ∈ directories m, ∀ blk ∈ blockRefs m (inodeOn m d),
    Behind m blk ∧ blk < total m .blk ∧ usedOn m .blk blk = true
  blocksOnce : ((directories m).flatMap fun d => blockRefs m (inodeOn m d)).Nodup
  counted : LinksCounted m

theorem Consistent.tallied (h : Consistent m) : Tallied m where
  layout := h.layout
  blocksUsed d hd := h.blocksUsed d (List.mem_of_mem_filter hd)
  blocksOnce := h.blocksOnce.sublist (List.filter_sublist.flatMap _)
  counted := by
    obtain ⟨entriesOf, hblocks, _, hcount⟩ := h.chains
    exact ⟨entriesOf, hblocks, hcount⟩

/-! ## Blocks of directories -/

/-- The blocks referred to are those with contents and the table of indirect ones. -/
theorem indirect_not_mem {j : Inode} (hnodup : (blockRefs m j).Nodup)
    (hj : j.blocks.length = INDIRECT_BLK_INDEX ∧ j.iBlock.getD INDIRECT_BLK_INDEX 0 ≠ 0) :
    j.iBlock.getD INDIRECT_BLK_INDEX 0 ∈ blockRefs m j ∧
      j.iBlock.getD INDIRECT_BLK_INDEX 0 ∉ contentBlocks m j := by
  rw [contentBlocks]
  rw [blockRefs, if_pos hj] at hnodup ⊢
  obtain ⟨_, hrest, hdisjoint⟩ := List.nodup_append.mp hnodup
  refine ⟨by simp, fun hmem => ?_⟩
  rw [List.drop_append, List.drop_of_length_le (by omega), hj.1, List.nil_append] at hmem
  cases List.mem_append.mp hmem with
  | inl hin => exact hdisjoint _ hin _ List.mem_cons_self rfl
  | inr hin =>
    rw [Nat.add_sub_cancel_left, List.drop_one, List.tail_cons] at hin
    exact (List.nodup_cons.mp hrest).1 hin

theorem mem_blockRefs {j : Inode} (h : x ∈ contentBlocks m j) : x ∈ blockRefs m j := by
  cases List.mem_append.mp h with
  | inl hin => exact List.mem_append_left _ hin
  | inr hin => exact List.mem_of_mem_drop hin

/-- A block with the contents of a directory is no table of another. -/
theorem Tallied.ne_indirect (h : Tallied m) {d' : Nat} (hd : d ∈ directories m) (hd' : d' ∈ directories m)
    (hx : x ∈ contentBlocks m (inodeOn m d'))
    (hj : (inodeOn m d).blocks.length = INDIRECT_BLK_INDEX ∧
      (inodeOn m d).iBlock.getD INDIRECT_BLK_INDEX 0 ≠ 0) :
    (inodeOn m d).iBlock.getD INDIRECT_BLK_INDEX 0 ≠ x := by
  rintro rfl
  obtain ⟨heach, hpair⟩ := List.nodup_flatMap.mp h.blocksOnce
  obtain ⟨hmem, hnot⟩ := indirect_not_mem (heach d hd) hj
  by_cases hdd : d = d'
  · subst hdd
    exact hnot hx
  · have hsymm : Std.Symm (Function.onFun List.Disjoint fun d => blockRefs m (inodeOn m d)) :=
      ⟨fun _ _ hdisjoint => hdisjoint.symm⟩
    exact hpair.forall hd hd' hdd hmem (mem_blockRefs hx)

/-- Other entries of a block, as many of which meet a condition, do not change how many of all entries do. -/
theorem countP_allEntries_update {entriesOf : Nat → List DirEntry} {p : DirEntry → Bool}
    (hcount : es'.countP p = (entriesOf x).countP p) :
    (allEntries m (Function.update entriesOf x es')).countP p = (allEntries m entriesOf).countP p := by
  have hsame : ∀ blk, (Function.update entriesOf x es' blk).countP p = (entriesOf blk).countP p := fun blk => by
    by_cases hblkx : blk = x
    · subst hblkx
      rw [Function.update_self, hcount]
    · rw [Function.update_of_ne hblkx]
  rw [allEntries, allEntries, List.countP_flatMap, List.countP_flatMap]
  refine congrArg List.sum (List.map_congr_left fun d _ => ?_)
  simp only [Function.comp_apply, List.countP_flatMap]
  exact congrArg List.sum (List.map_congr_left fun blk _ => hsame blk)

/-! ## Editing an image -/

/-- Nothing has changed but what `init_globals` zeroes, bits that have been set, and the contents of some blocks and
of free ones. The inodes whose bits have been set are those of no file and no directory. -/
structure Edited (m m' : Memory) (blks : List Nat) : Prop where
  kept : ∀ a, a < bgPad ∨ 3 * EXT2_BLOCK_SIZE ≤ a →
    (∀ b, a < bitmapAt m b ∨ bitmapAt m b + EXT2_BLOCK_SIZE ≤ a) →
    (∀ v ∈ blks ++ freeOn m .blk, a < v * EXT2_BLOCK_SIZE ∨ v * EXT2_BLOCK_SIZE + EXT2_BLOCK_SIZE ≤ a) →
    m' a = m a
  marked : ∀ b n, 1 ≤ n → n ≤ 8 * EXT2_BLOCK_SIZE → usedOn m b n = true → used m' (bitmapAt m b) n = true
  taken : ∀ n ∈ freeOn m .ind, used m' (bitmapAt m .ind) n = true →
    IS_REG (inodeOn m n).iMode = false ∧ IS_DIR (inodeOn m n).iMode = false

namespace Edited

/-- After `init_globals` nothing has been edited yet. -/
theorem of_mounted (hlayout : Layout m) (hmounted : Mounted m s) : Edited m s.disk [] where
  kept a ha _ _ := by rw [hmounted.disk, zeroed_apply ha]
  marked b n _ _ hused := by
    have hsame := hmounted.used (b := b) (n := n) hlayout
    rwa [State.used, hmounted.sysBm, hused] at hsame
  taken n hn hused := by
    have hsame := hmounted.used (b := .ind) (n := n) hlayout
    rw [State.used, hmounted.sysBm, hused, usedOn, (mem_free.mp hn).2] at hsame
    cases hsame

/-- A block behind the bitmaps may change as well. -/
theorem store (hlayout : Layout m) (h : Edited m D []) (hx : Behind m x)
    (hm : ∀ a, a < x * EXT2_BLOCK_SIZE ∨ x * EXT2_BLOCK_SIZE + EXT2_BLOCK_SIZE ≤ a → m' a = D a) :
    Edited m m' [x] := by
  have hbits : ∀ b n, 1 ≤ n → n ≤ 8 * EXT2_BLOCK_SIZE →
      used m' (bitmapAt m b) n = used D (bitmapAt m b) n := by
    intro b n h1 hn
    have hbehind := hx.1 b
    have h1024 : EXT2_BLOCK_SIZE = 1024 := rfl
    rw [used, hm _ (.inl (by omega)), used]
  constructor
  · intro a ha hbitmaps hblks
    rw [hm a (hblks x (by simp)), h.kept a ha hbitmaps fun v hv => hblks v (List.mem_append_right _ hv)]
  · intro b n h1 hn hused
    rw [hbits b n h1 hn]
    exact h.marked b n h1 hn hused
  · intro n hn hused
    obtain ⟨⟨h1, hN⟩, _⟩ := mem_free.mp hn
    rw [hbits .ind n h1 (hN.trans ((hlayout.total .ind).1.trans (by decide)))] at hused
    exact h.taken n hn hused

/-- The contents of a free block may change. -/
theorem of_free {v : Nat} (h : Edited m m' [v]) (hv : v ∈ freeOn m .blk) : Edited m m' [] where
  kept a ha hbitmaps hblks := h.kept a ha hbitmaps fun u hu => by
    rcases List.mem_append.mp hu with hu | hu
    · exact hblks u (List.mem_singleton.mp hu ▸ hv)
    · exact hblks u hu
  marked := h.marked
  taken := h.taken

/-- A free number may be marked, unless it is the one of a file or directory. -/
theorem mark {k : Nat} (hlayout : Layout m) (h : Edited m D []) (hk : k ∈ freeOn m b)
    (hblank : b = .ind → IS_REG (inodeOn m k).iMode = false ∧ IS_DIR (inodeOn m k).iMode = false) :
    Edited m (flips D (bitmapAt m b) [k]) [] := by
  obtain ⟨⟨hk1, hkN⟩, _⟩ := mem_free.mp hk
  have hN := fun b => (hlayout.total b).1
  have hkN := hkN.trans (hN b)
  have h1024 : EXT2_BLOCK_SIZE = 1024 := rfl
  have hapart := hlayout.apart
  -- In both bitmaps the bits of other numbers stay.
  have hbits : ∀ b' n, 1 ≤ n → n ≤ 8 * EXT2_BLOCK_SIZE → b' ≠ b ∨ n ≠ k →
      used (flips D (bitmapAt m b) [k]) (bitmapAt m b') n = used D (bitmapAt m b') n := by
    intro b' n h1 hn hne
    by_cases hb : b' = b
    · subst hb
      have hnk : n ≠ k := hne.resolve_left (fun h => h rfl)
      rw [used_flips (by simp) (by simpa using hk1) h1, decide_eq_false (by simpa using hnk), Bool.xor_false]
    · have hout : bitmapAt m b' + EXT2_BLOCK_SIZE ≤ bitmapAt m b ∨
          bitmapAt m b + EXT2_BLOCK_SIZE ≤ bitmapAt m b' := by
        cases b <;> cases b' <;> first | exact absurd rfl hb | omega
      rw [used, flips_of_forall_ne (by simp; omega), used]
  constructor
  · intro a ha hbitmaps hblks
    rw [flips_of_forall_ne (by have := hbitmaps b; simp; omega), h.kept a ha hbitmaps hblks]
  · intro b' n h1 hn hused
    rw [hbits b' n h1 hn, h.marked b' n h1 hn hused]
    refine not_and_or.mp ?_
    rintro ⟨rfl, rfl⟩
    exact ne_of_free hused hk rfl
  · intro n hn hused
    by_cases hsame : Bm.ind = b ∧ n = k
    · obtain ⟨rfl, rfl⟩ := hsame
      exact hblank rfl
    · obtain ⟨⟨h1, hnN⟩, _⟩ := mem_free.mp hn
      rw [hbits .ind n h1 (hnN.trans ((hN .ind).trans (by decide))) (not_and_or.mp hsame)] at hused
      exact h.taken n hn hused

end Edited

namespace Tallied

section

variable (h : Tallied m) (hedit : Edited m m' blks) (hx : ∀ v ∈ blks, Behind m v)

include h hedit hx

theorem fields_edited : ∀ i < bgPad, m' i = m i := by
  intro i hi
  have hbitmaps := fun b => (h.layout.bitmaps b).1
  have hpad : bgPad ≤ 3 * EXT2_BLOCK_SIZE := by decide
  refine hedit.kept i (.inl hi) (fun b => .inl (by have := hbitmaps b; omega)) fun v hv => .inl ?_
  rcases List.mem_append.mp hv with hv | hv
  · have hbehind := (hx v hv).1 .blk
    have := hbitmaps .blk
    omega
  · have hle := Nat.mul_le_mul_right EXT2_BLOCK_SIZE (h.layout.le_of_mem_freeOn hv)
    have hpad' : bgPad ≤ EXT2_GOOD_OLD_FIRST_INO * EXT2_BLOCK_SIZE := by decide
    omega

theorem inodeOn_edited (hn : 1 ≤ n ∧ n ≤ total m .ind) : inodeOn m' n = inodeOn m n := by
  have htable := h.layout.table
  have haddr := inodeSize_le hn
  rw [inodeOn, inodeOn, tableAt_congr (h.fields_edited hedit hx)]
  refine decodeInode_congr fun i h1 h2 => hedit.kept i (.inr (by omega)) (fun b => ?_) fun v hv => .inl ?_
  · rcases h.layout.tableApart b with hb | hb
    · exact .inr (by omega)
    · exact .inl (by omega)
  · rcases List.mem_append.mp hv with hv | hv
    · have := (hx v hv).2
      omega
    · have hle := Nat.mul_le_mul_right EXT2_BLOCK_SIZE (h.layout.le_of_mem_freeOn hv)
      omega

omit hx in
/-- The other blocks in use are as they were. -/
theorem block_edited {v : Nat} (hv : Behind m v) (hused : usedOn m .blk v = true) (hne : v ∉ blks) :
    ∀ i, v * EXT2_BLOCK_SIZE ≤ i → i < v * EXT2_BLOCK_SIZE + EXT2_BLOCK_SIZE → m' i = m i := by
  intro i h1 h2
  have hbitmaps := (h.layout.bitmaps .blk).1
  have hbehind := hv.1 .blk
  refine hedit.kept i (.inr (by omega)) (fun b => .inr ((hv.1 b).trans h1)) fun u hu => ?_
  refine outside_of_ne ?_ h1 h2
  rcases List.mem_append.mp hu with hu | hu
  · rintro rfl
    exact hne hu
  · exact ne_of_free hused hu

theorem usedOn_edited (h1 : 1 ≤ n) (hn : n ≤ 8 * EXT2_BLOCK_SIZE) (hused : usedOn m b n = true) :
    usedOn m' b n = true := by
  rw [usedOn, bitmapAt_congr (h.fields_edited hedit hx)]
  exact hedit.marked b n h1 hn hused

/-- Files and directories are in use exactly if they have been. -/
theorem usedOn_iff_edited (hn : 1 ≤ n ∧ n ≤ total m .ind)
    (hmode : IS_REG (inodeOn m n).iMode = true ∨ IS_DIR (inodeOn m n).iMode = true) :
    usedOn m' .ind n = true ↔ usedOn m .ind n = true := by
  have hN := (h.layout.total .ind).1
  have h1024 : EXT2_BLOCK_SIZE = 1024 := rfl
  refine ⟨fun hused => ?_, h.usedOn_edited hedit hx hn.1 (by omega)⟩
  by_contra hfree
  rw [usedOn, bitmapAt_congr (h.fields_edited hedit hx)] at hused
  obtain ⟨hreg, hdir⟩ := hedit.taken n (mem_free.mpr ⟨hn, by simpa [usedOn] using hfree⟩) hused
  simp [hreg, hdir] at hmode

theorem directories_edited : directories m' = directories m := by
  rw [directories, directories, inodesInUse, inodesInUse, List.filter_filter, List.filter_filter,
    total_congr (h.fields_edited hedit hx)]
  refine List.filter_congr fun n hn => ?_
  have hrange := List.mem_range'_1.mp hn
  have hn : 1 ≤ n ∧ n ≤ total m .ind := by omega
  rw [h.inodeOn_edited hedit hx hn]
  cases hdir : IS_DIR (inodeOn m n).iMode with
  | false => simp
  | true => simp [h.usedOn_iff_edited hedit hx hn (.inr hdir)]

end

section

variable (h : Tallied m) (hedit : Edited m m' [x])

include h hedit

/-- The blocks that a directory refers to stay, if the one that has changed is no table of them. -/
theorem blockRefs_edited (hd : d ∈ directories m) {d' : Nat} (hd' : d' ∈ directories m)
    (hmem : x ∈ contentBlocks m (inodeOn m d')) :
    blockRefs m' (inodeOn m d) = blockRefs m (inodeOn m d) := by
  by_cases hj : (inodeOn m d).blocks.length = INDIRECT_BLK_INDEX ∧
      (inodeOn m d).iBlock.getD INDIRECT_BLK_INDEX 0 ≠ 0
  · have hin : (inodeOn m d).iBlock.getD INDIRECT_BLK_INDEX 0 ∈ blockRefs m (inodeOn m d) := by
      rw [blockRefs, if_pos hj]
      simp
    obtain ⟨hbehind, _, hused⟩ := h.blocksUsed d hd _ hin
    have hsame := h.block_edited hedit hbehind hused (by simpa using h.ne_indirect hd hd' hmem hj)
    have hwords : ∀ k ∈ List.range (EXT2_BLOCK_SIZE / 4),
        word m' 4 ((inodeOn m d).iBlock.getD INDIRECT_BLK_INDEX 0 * EXT2_BLOCK_SIZE + 4 * k) =
          word m 4 ((inodeOn m d).iBlock.getD INDIRECT_BLK_INDEX 0 * EXT2_BLOCK_SIZE + 4 * k) := fun k hk => by
      have hk := List.mem_range.mp hk
      have h1024 : EXT2_BLOCK_SIZE = 1024 := rfl
      exact word_congr fun i h1 h2 => hsame i (by omega) (by omega)
    rw [blockRefs, blockRefs, if_pos hj, if_pos hj]
    dsimp only
    rw [List.map_congr_left hwords]
  · rw [blockRefs, blockRefs, if_neg hj, if_neg hj]

theorem contentBlocks_edited (hd : d ∈ directories m) {d' : Nat} (hd' : d' ∈ directories m)
    (hmem : x ∈ contentBlocks m (inodeOn m d')) :
    contentBlocks m' (inodeOn m d) = contentBlocks m (inodeOn m d) := by
  rw [contentBlocks, contentBlocks, h.blockRefs_edited hedit hd hd' hmem]

/-- If the entries of a block of a directory have changed, but as many as before name each regular file, then
the links are those of the entries again. -/
theorem edited (hd : d ∈ directories m) (hmem : x ∈ contentBlocks m (inodeOn m d)) (hblock : Block m x es)
    (hblock' : Block m' x es')
    (hcount : ∀ n ∈ inodesInUse m, IS_REG (inodeOn m n).iMode = true →
      es'.countP (fun e => e.inode = n) = es.countP (fun e => e.inode = n)) : Tallied m' := by
  have hx : ∀ v ∈ [x], Behind m v := by
    simpa using (h.blocksUsed d hd x (mem_blockRefs hmem)).1
  have hfields := h.fields_edited hedit hx
  have hdirs := h.directories_edited hedit hx
  have hinode : ∀ d' ∈ directories m, inodeOn m' d' = inodeOn m d' := fun d' hd' =>
    h.inodeOn_edited hedit hx (bounds_of_directories hd')
  have hrefs : ∀ d' ∈ directories m, blockRefs m' (inodeOn m' d') = blockRefs m (inodeOn m d') := fun d' hd' => by
    rw [hinode d' hd', h.blockRefs_edited hedit hd' hd hmem]
  have hcontents : ∀ d' ∈ directories m, contentBlocks m' (inodeOn m' d') = contentBlocks m (inodeOn m d') :=
    fun d' hd' => by rw [hinode d' hd', h.contentBlocks_edited hedit hd' hd hmem]
  constructor
  case layout =>
    refine h.layout.congr hfields fun b n h1 h10 => ?_
    exact hedit.marked b n h1 (h10.trans (by decide)) (h.layout.reserved b n h1 h10)
  case blocksUsed =>
    intro d' hd' blk hblk
    rw [hdirs] at hd'
    rw [hrefs d' hd'] at hblk
    obtain ⟨hbehind, hlt, hused⟩ := h.blocksUsed d' hd' blk hblk
    have hN := (h.layout.total .blk).1
    have h1024 : EXT2_BLOCK_SIZE = 1024 := rfl
    have hpos : 1 ≤ blk := Nat.pos_of_ne_zero fun h0 => by
      have := hbehind.1 .blk
      rw [h0] at this
      omega
    rw [Behind, total_congr hfields, total_congr hfields, tableAt_congr hfields]
    simp only [bitmapAt_congr hfields]
    exact ⟨hbehind, hlt, h.usedOn_edited hedit hx hpos (by omega) hused⟩
  case blocksOnce =>
    rw [hdirs, List.flatMap_congr hrefs]
    exact h.blocksOnce
  case counted =>
    obtain ⟨entriesOf, hblocks, hlinks⟩ := h.counted
    obtain rfl := hblock.unique (hblocks d hd x hmem)
    refine ⟨Function.update entriesOf x es', fun d' hd' blk hblk => ?_, fun n hn hreg => ?_⟩
    · rw [hdirs] at hd'
      rw [hcontents d' hd'] at hblk
      by_cases hblkx : blk = x
      · subst hblkx
        rw [Function.update_self]
        exact hblock'
      · rw [Function.update_of_ne hblkx]
        obtain ⟨hbehind, _, hused⟩ := h.blocksUsed d' hd' blk (mem_blockRefs hblk)
        exact (hblocks d' hd' blk hblk).congr (h.block_edited hedit hbehind hused (by simpa using hblkx))
    · obtain ⟨hrange, hused, hmode⟩ := mem_inodesInUse.mp hn
      rw [total_congr hfields] at hrange
      rw [h.inodeOn_edited hedit hx hrange] at hreg hmode ⊢
      have hn : n ∈ inodesInUse m :=
        mem_inodesInUse.mpr ⟨hrange, (h.usedOn_iff_edited hedit hx hrange (.inl hreg)).mp hused, hmode⟩
      have hentries : ∀ f, allEntries m' f = allEntries m f := fun f => by
        rw [allEntries, allEntries, hdirs]
        exact List.flatMap_congr fun d' hd' => by rw [hcontents d' hd']
      rw [← hlinks n hn hreg, hentries, countP_allEntries_update (hcount n hn hreg)]

end

end Tallied

/-! ## Taking the numbers of a soft link -/

theorem markedAt_eq {bm : Bitmap} (hcursor : bm = bm.withCursor (some n))
    (hclear : (m (bm.sysBm + bm.availByteIndex)).getLsbD bm.availBitIndex = false) :
    markedAt m bm = flips m bm.sysBm [n] := by
  have hbyte : bm.availByteIndex = (n - 1) / 8 := by rw [hcursor]; rfl
  have hbit : bm.availBitIndex = (n - 1) % 8 := by rw [hcursor]; rfl
  rw [hbyte, hbit] at hclear
  rw [markedAt, hbyte, hbit, or_bitMask (Nat.mod_lt _ (by decide)) hclear]
  rfl

/-- What `find_free` gives is the lowest free number. -/
theorem findFree_done {k : Nat} (hlayout : Layout m) (hmounted : Mounted m s) (b : Bm)
    (hk : (freeOn m b).head? = some k) (h : (findFree (s.bmap b)).run s = .done n s') : n = k := by
  by_cases havail : 1 ≤ (s.bmap b).numBitsAvail
  · rw [run_findFree_lowest hlayout hmounted b havail hk] at h
    cases h
    rfl
  · rw [findFree, if_pos (by omega)] at h
    cases h

/-- With the cursor at a number, `set_used_bit` marks it. -/
theorem setUsedBit_cursor (hcursor : s.bmap b = (s.bmap b).withCursor (some n))
    (h : (setUsedBit b).run s = .done () s') :
    Unmoved s s' ∧ s'.disk = flips s.disk (s.bmap b).sysBm [n] ∧ ∀ b' ≠ b, s'.bmap b' = s.bmap b' := by
  obtain ⟨hclear, bm, hbm, rfl⟩ := setUsedBit_done h
  refine ⟨Unmoved.disk.trans (.setBmap ?_), ?_, fun b' hb => ?_⟩
  · exact hbm.trans (congrArg Bitmap.sysBm State.bmap_disk.symm)
  · rw [State.disk_setBmap, markedAt_eq hcursor hclear]
  · rw [State.bmap_setBmap_of_ne hb, State.bmap_disk]

/-- What `mk_new_symlink_inode` has done once it is done: it has marked the lowest free inode and block, and
written to that block. -/
theorem mkNewSymlinkInode_done {nb y : Nat} {linkPath : Name} (hlayout : Layout m) (hmounted : Mounted m s)
    (hcursor : ∀ b, s.bmap b = (s.bmap b).withCursor (freeOn m b).head?)
    (hi : (freeOn m .ind).head? = some i) (hnb : (freeOn m .blk).head? = some nb)
    (h : (mkNewSymlinkInode y d linkPath).run s = .done () s') :
    Unmoved s s' ∧ s'.disk = flips (flips (Function.update s.disk (nb * EXT2_BLOCK_SIZE)
      (linkPath.chars.headD 0)) (bitmapAt m .ind) [i]) (bitmapAt m .blk) [nb] := by
  have hsysBm := hmounted.sysBm
  have hnbN := (mem_free.mp (List.mem_of_head? hnb)).1.2.trans (hlayout.total .blk).1
  rw [mkNewSymlinkInode, run_get_bind] at h
  obtain ⟨newBlockNum, s₁, hfind, h₁⟩ := bind_eq_done.mp h
  obtain rfl := (readOnly_findFree _).of_done hfind
  obtain rfl := findFree_done hlayout hmounted .blk hnb hfind
  obtain ⟨_, s₂, hstore, h₂⟩ := bind_eq_done.mp h₁
  obtain ⟨_, rfl⟩ := storeByte_done hstore
  rw [blockAddrU_of_lt (by unfold EXT2_BLOCK_SIZE; omega)] at h₂
  obtain ⟨_, s₃, hlook, h₃⟩ := bind_eq_done.mp h₂
  obtain rfl := (readOnly_indTableAt _).of_done hlook
  obtain ⟨_, s₄, hlook', h₄⟩ := bind_eq_done.mp h₃
  obtain rfl := (readOnly_indTableAt _).of_done hlook'
  -- Marking the inode leaves the cursor of the other bitmap where it is.
  obtain ⟨_, s₅, hind, hblk⟩ := bind_eq_done.mp h₄
  obtain ⟨hmoved, hdisk, hother⟩ := setUsedBit_cursor (n := i)
    (by rw [State.bmap_disk, ← hi]; exact hcursor .ind) hind
  rw [State.bmap_disk] at hdisk
  have hsame : s₅.bmap .blk = s₁.bmap .blk := (hother .blk (by decide)).trans State.bmap_disk
  obtain ⟨hmoved', hdisk', _⟩ := setUsedBit_cursor (n := newBlockNum)
    (by rw [hsame, ← hnb]; exact hcursor .blk) hblk
  refine ⟨Unmoved.disk.trans (hmoved.trans hmoved'), ?_⟩
  rw [hdisk', hdisk, hsame, hsysBm, hsysBm]

/-! ## Adding an entry -/

/-- A directory with direct blocks only, with room for an entry behind the last one. -/
structure RoomIn (m : Memory) (d : Nat) (name : Name) : Prop where
  directory : d ∈ directories m
  ne_nil : (inodeOn m d).blocks ≠ []
  direct : (inodeOn m d).iBlock =
    (inodeOn m d).blocks ++ List.replicate (15 - (inodeOn m d).blocks.length) 0
  length : name.chars.length < 2 ^ 8
  room : ∃ ess, Listing m (inodeOn m d).blocks ess ∧ HasRoom ess.flatten name.chars.length

theorem RoomIn.directDir (h : Tallied m) (hroom : RoomIn m d name) (hsize : s.size = 128 * 1024)
    (htable : s.indTable = tableAt m) (hedit : Edited m s.disk []) :
    DirectDir s d (inodeOn m d).blocks := by
  have hd := bounds_of_directories hroom.directory
  have hN := h.layout.total
  have hend : tableAt m + inodeSize * total m .ind ≤ 11 * 1024 := h.layout.table.2
  have haddr := inodeSize_le hd
  have hinode : inodeOf s d = inodeOn m d := by
    rw [← h.inodeOn_edited hedit (by simp) hd, inodeOf, inodeAddr, htable, inodeOn,
      tableAt_congr (h.fields_edited hedit (by simp))]
  have hused : ∀ b ∈ (inodeOn m d).blocks, Behind m b ∧ b < total m .blk ∧ usedOn m .blk b = true :=
    fun b hb => h.blocksUsed d hroom.directory b (List.mem_append_left _ hb)
  constructor
  case num => have := hN .ind; omega
  case size => omega
  case table =>
    rw [inodeAddr, htable]
    omega
  case iBlock =>
    rw [hinode]
    exact hroom.direct
  case ne_nil => exact hroom.ne_nil
  case length_le => exact (inodeOn m d).length_blocks_le
  case nodup =>
    have hrefs := (List.nodup_flatMap.mp h.blocksOnce).1 d hroom.directory
    exact hrefs.sublist (List.sublist_append_left _ _)
  case behind =>
    intro b hb
    have := (hused b hb).1.2
    rw [inodeAddr, htable]
    omega
  case mapped =>
    intro b hb
    have hlt := (hused b hb).2.1
    have := hN .blk
    have hle : b * EXT2_BLOCK_SIZE + EXT2_BLOCK_SIZE ≤ 128 * EXT2_BLOCK_SIZE := block_le_of_lt (by omega)
    have h1024 : EXT2_BLOCK_SIZE = 1024 := rfl
    omega

/-- An entry that names no regular file leaves the links those of the entries. -/
theorem Tallied.mkEntryFor_done {fileType : Nat} (h : Tallied m) (hroom : RoomIn m d name)
    (hsize : s.size = 128 * 1024) (htable : s.indTable = tableAt m) (hedit : Edited m s.disk []) (hn : n < 2 ^ 32)
    (htype : fileType < 256) (hfile : ∀ k ∈ inodesInUse m, IS_REG (inodeOn m k).iMode = true → k ≠ n)
    (hrun : (mkEntryFor d n fileType name).run s = .done () s') :
    ∃ x, Behind m x ∧ Edited m s'.disk [x] ∧ Tallied s'.disk := by
  have hdir := hroom.directDir h hsize htable hedit
  obtain ⟨ess, hlist, e', hlast, hshort, hrec⟩ := hroom.room
  obtain ⟨pre, x, preEss, es, e, hblocks, rfl, _, hblock⟩ := hlist.split hroom.ne_nil
  obtain rfl : e = e' := by simpa using hlast
  have hx : x ∈ (inodeOn m d).blocks := by simp [hblocks]
  obtain ⟨hbehind, _, hused⟩ := h.blocksUsed d hroom.directory x (List.mem_append_left _ hx)
  have hblock₁ : Block s.disk x (es ++ [e]) := hblock.congr (h.block_edited hedit hbehind hused (by simp))
  have hpad : TRUE_FILE_SIZE e.nameLen + TRUE_FILE_SIZE name.chars.length ≤ e.recLen := by
    have h12 : TRUE_FILE_SIZE e.nameLen = 12 := if_pos (by omega)
    have := TRUE_FILE_SIZE_le_max name.chars.length
    omega
  rw [hblocks] at hdir
  rw [mkEntryFor, Nat.mod_eq_of_lt hroom.length, run_mkDirEntry_split hdir hblock₁ rfl hpad] at hrun
  obtain ⟨_, rfl⟩ := hrun
  have hedit' : Edited m (afterSplit s.disk (x * EXT2_BLOCK_SIZE + sizes entries es) e n fileType name) [x] :=
    hedit.store h.layout hbehind fun a ha => afterSplit_apply hblock₁ hshort hrec ha
  refine ⟨x, hbehind, hedit', h.edited hedit' hroom.directory (List.mem_append_left _ hx) hblock
    (block_afterSplit hblock₁ rfl hshort hrec hn htype hroom.length) fun k hk hreg => ?_⟩
  have hne : n ≠ k := (hfile k hk hreg).symm
  simp [List.countP_append, List.countP_cons, hne]

/-! ## Operations -/

/-- Of the lowest free inode the table has neither a file nor a directory. -/
def NextInodeBlank (m : Memory) : Prop :=
  ∃ i, (freeOn m .ind).head? = some i ∧ IS_REG (inodeOn m i).iMode = false ∧ IS_DIR (inodeOn m i).iMode = false

/-- The inode after the directory is a directory as well, and the search in its blocks stops at an entry that
names no regular file, and is not the first one of its block. -/
def FindsOther (m : Memory) (d : Nat) (name : Name) : Prop :=
  d + 1 ∈ directories m ∧ ∃ s xs xss x ps r e qs, initGlobals.run (.boot m) = .done () s ∧
    Searched s (inodeOn m (d + 1)) name (xs ++ [x]) (xss ++ [ps ++ r :: e :: qs]) ∧
    x ∈ (inodeOn m (d + 1)).blocks ∧ (∀ f ∈ ps ++ [r], ¬name.Matches f) ∧ name.Matches e ∧
    IS_REG (inodeOn m e.inode).iMode = false

/-- The operation is a link or a removal, and the entry that it adds or removes names no regular file. The directory
has room for a new entry. -/
def Op.SparesFiles : Op → Memory → Prop
  | .ln src linkParent lpath false _, m =>
    (∀ y, Resolves m src y → IS_REG (inodeOn m y).iMode = false) ∧
      ∀ d, Resolves m linkParent d → RoomIn m d lpath
  | .ln _ linkParent lpath true _, m => NextInodeBlank m ∧ ∀ d, Resolves m linkParent d → RoomIn m d lpath
  | .rm p f, m => ∀ d, Resolves m p d → FindsOther m d f
  | _, _ => False

namespace Tallied

theorem hardLink {src linkParent : List Name} {lpath absPath : Name} (h : Tallied m)
    (hop : (Op.ln src linkParent lpath false absPath).SparesFiles m)
    (hinit : initGlobals.run (.boot m) = .done () s) (hmounted : Mounted m s)
    (hrun : (ext2Ln src linkParent lpath false absPath).run s = .done () s') :
    ∃ x, Behind m x ∧ Edited m s'.disk [x] ∧ Tallied s'.disk := by
  obtain ⟨hsrcOp, hlinkOp⟩ := hop
  obtain ⟨srcInodeNum, linkInodeNum, srcInode, hsrc, hlink, _, hinode, hrun⟩ := ext2Ln_done hrun
  obtain ⟨_, hin, _⟩ := indTableAt_done hinode
  have h128 : (inodeSize : Int) = 128 := rfl
  rw [hmounted.size, h128] at hin
  refine h.mkEntryFor_done (hlinkOp _ ⟨s, hinit, hlink⟩) hmounted.size hmounted.table
    (.of_mounted h.layout hmounted) (by omega) (by decide) (fun k _ hreg heq => ?_) hrun
  rw [heq, hsrcOp _ ⟨s, hinit, hsrc⟩] at hreg
  cases hreg

theorem softLink {src linkParent : List Name} {lpath absPath : Name} (h : Tallied m)
    (hop : (Op.ln src linkParent lpath true absPath).SparesFiles m)
    (hinit : initGlobals.run (.boot m) = .done () s) (hmounted : Mounted m s)
    (hrun : (ext2Ln src linkParent lpath true absPath).run s = .done () s') :
    ∃ x, Behind m x ∧ Edited m s'.disk [x] ∧ Tallied s'.disk := by
  obtain ⟨⟨i, hi, hblank⟩, hlinkOp⟩ := hop
  have hiMem := List.mem_of_head? hi
  obtain ⟨hne, hcursor⟩ := cursors_of_initGlobals h.layout hinit (List.ne_nil_of_mem hiMem)
  obtain ⟨nb, rest, hnbs⟩ := List.exists_cons_of_ne_nil hne
  have hnb : (freeOn m .blk).head? = some nb := by rw [hnbs, List.head?_cons]
  have hnbMem := List.mem_of_head? hnb
  obtain ⟨srcInodeNum, linkInodeNum, srcInode, _, hlink, _, _, hrun⟩ := ext2Ln_done hrun
  rw [if_pos rfl, run_get_bind] at hrun
  obtain ⟨newInodeNum, s₁, hfind, h₁⟩ := bind_eq_done.mp hrun
  obtain rfl := (readOnly_findFree _).of_done hfind
  obtain rfl := findFree_done h.layout hmounted .ind hi hfind
  obtain ⟨_, s₂, hsymlink, h₂⟩ := bind_eq_done.mp h₁
  obtain ⟨hmoved, hdisk⟩ := mkNewSymlinkInode_done h.layout hmounted hcursor hi hnb hsymlink
  have hpos : 0 < EXT2_BLOCK_SIZE := by decide
  have hwritten : Edited m (Function.update s₁.disk (nb * EXT2_BLOCK_SIZE) (absPath.chars.headD 0)) [nb] :=
    (Edited.of_mounted h.layout hmounted).store h.layout (h.layout.behind_of_free hnbMem)
      fun a ha => Function.update_of_ne (by omega) _ _
  have hedit := ((hwritten.of_free hnbMem).mark h.layout hiMem fun _ => hblank).mark h.layout hnbMem (by simp)
  rw [← hdisk] at hedit
  have hbounds := (mem_free.mp hiMem).1
  have hN := (h.layout.total .ind).1
  refine h.mkEntryFor_done (hlinkOp _ ⟨s₁, hinit, hlink⟩) (hmoved.size.trans hmounted.size)
    (hmoved.table.trans hmounted.table) hedit (by omega) (by decide) (fun k _ hreg heq => ?_) h₂
  rw [heq, hblank.1] at hreg
  cases hreg

theorem removal {p : List Name} {f : Name} (h : Tallied m) (hop : (Op.rm p f).SparesFiles m)
    (hinit : initGlobals.run (.boot m) = .done () s) (hmounted : Mounted m s)
    (hrun : (ext2Rm p f).run s = .done () s') :
    ∃ x, Behind m x ∧ Edited m s'.disk [x] ∧ Tallied s'.disk := by
  obtain ⟨parentInodeNum, fileInodeNum, s₁, hparent, hentry, hrun⟩ := ext2Rm_done hrun
  obtain ⟨hd, s₂, xs, xss, x, ps, r, e, qs, hinit', hsearched, hx, hno, hmatch, hfile⟩ :=
    hop parentInodeNum ⟨s, hinit, hparent⟩
  rw [hinit] at hinit'
  cases hinit'
  have hbounds := bounds_of_directories hd
  have hedit := Edited.of_mounted h.layout hmounted
  obtain ⟨hbehind, _, hused⟩ := h.blocksUsed _ hd x (List.mem_append_left _ hx)
  obtain ⟨entriesOf, hblocks, _⟩ := h.counted
  have hblock := hblocks _ hd x (List.mem_append_left _ hx)
  have hblock₁ : Block s.disk x (ps ++ r :: e :: qs) := hsearched.listing.last.2
  obtain heq : ps ++ r :: e :: qs = entriesOf x :=
    (hblock.congr (h.block_edited hedit hbehind hused (by simp))).unique hblock₁
  have htable : s.indTable + inodeSize * (parentInodeNum + 1) ≤ s.size := by
    have hend : tableAt m + inodeSize * total m .ind ≤ 11 * 1024 := h.layout.table.2
    have hle := Nat.mul_le_mul_left inodeSize hbounds.2
    rw [hmounted.table, hmounted.size]
    omega
  rw [← hmounted.inodeOf h.layout.table.1] at hsearched
  rw [run_rmDirEntry_merged (by rw [hmounted.size]; decide) htable hsearched hno hmatch] at hentry
  have hread : ReadOnly (do
      let currentInode ← indTableAt e.inode
      if currentInode.iLinksCount = 1 then loadWord 4 (x * EXT2_BLOCK_SIZE + sizes entries ps + r.recLen)
      else pure 0 : Tool Nat) :=
    .bind (readOnly_indTableAt _) fun _ => .ite (readOnly_loadWord _ _) (.pure _)
  obtain rfl := hread.of_done hentry
  split at hrun
  · exact absurd hrun (rmInode_not_done (by
      change s.size ≤ _
      rw [hmounted.size]
      decide))
  · cases hrun
    have hsizes := hblock₁.2
    have hvalid : 8 + r.nameLen ≤ r.recLen := hblock₁.1.valid r (by simp)
    rw [sizes_append, sizes_cons, size_entries] at hsizes
    have hedit' : Edited m (merged s x ps r e).disk [x] :=
      hedit.store h.layout hbehind fun a ha => setRecLen_apply (by omega)
    refine ⟨x, hbehind, hedit', h.edited hedit' hd (List.mem_append_left _ hx) hblock (block_merge hblock₁)
      fun k _ hreg => ?_⟩
    have hne : e.inode ≠ k := by
      rintro rfl
      rw [hfile] at hreg
      cases hreg
    rw [← heq]
    simp [List.countP_append, List.countP_cons, hne, DirEntry.merge]

/-- A step that spares files edits a block of a directory, and leaves the links those of the entries. -/
theorem step (h : Tallied m) (hop : op.SparesFiles m) (hrun : complete op m = .ok m') :
    ∃ x, Behind m x ∧ Edited m m' [x] ∧ Tallied m' := by
  obtain ⟨s', hdone, rfl⟩ := complete_eq_ok.mp hrun
  obtain ⟨s, hinit, hmounted, hrun⟩ := runOn_eq_done hdone
  cases op with
  | mkdir p dpath => exact hop.elim
  | cp p fpath file => exact hop.elim
  | ln src linkParent lpath isSoftlink absPath =>
    cases isSoftlink with
    | true => exact h.softLink hop hinit hmounted hrun
    | false => exact h.hardLink hop hinit hmounted hrun
  | rm p f => exact h.removal hop hinit hmounted hrun
  | restore p f => exact hop.elim

/-- Such a step clears no bit of an inode. -/
theorem clearsUnnamed (h : Tallied m) (hx : Behind m x) (hedit : Edited m m' [x]) : ClearsUnnamed m m' := by
  intro n hn hcleared
  obtain ⟨⟨h1, hle⟩, hused, _⟩ := mem_inodesInUse.mp hn
  have hn : n ≤ 8 * EXT2_BLOCK_SIZE := hle.trans ((h.layout.total .ind).1.trans (by decide))
  rw [h.usedOn_edited hedit (by simpa using hx) h1 hn hused] at hcleared
  cases hcleared

end Tallied

/-- Over a run of links and removals whose entries name no regular file, the links of each file stay its
entries, and no file loses its inode before its last entry. -/
theorem runs_keep_links {ops : List Op} (h : Tallied m) (hops : Along complete Op.SparesFiles ops m) :
    Along complete (fun op m => ∀ m', complete op m = .ok m' → LinksCounted m' ∧ ClearsUnnamed m m') ops m := by
  refine hops.of_invariant h (fun op m m' h hop hrun => ?_) fun op m h hop m' hrun => ?_
  · obtain ⟨x, _, _, htallied⟩ := h.step hop hrun
    exact htallied
  · obtain ⟨x, hx, hedit, htallied⟩ := h.step hop hrun
    exact ⟨htallied.counted, h.clearsUnnamed hx hedit⟩

/-! ## Links to the file in the root directory -/

theorem roomIn_fileDisk : RoomIn fileDisk 2 .otherLetter where
  directory := by
    rw [directories_fileDisk]
    decide
  ne_nil := by decide +kernel
  direct := by decide +kernel
  length := by decide
  room := by
    have hblocks : (inodeOn fileDisk 2).blocks = [9] := by decide +kernel
    exact ⟨_, hblocks ▸ listing_withFile, ⟨12, 980, 1, EXT2_FT_REG_FILE, Name.letter.chars⟩, by decide⟩

/-- One more name of a single character. -/
def Name.thirdLetter : Name := { chars := [0x63], noNul := by decide }

/-- The entries of the root directory once there is a soft link to the file. -/
def softEntries : List DirEntry :=
  [⟨2, 12, 1, EXT2_FT_DIR, [0x2E]⟩, ⟨2, 12, 2, EXT2_FT_DIR, [0x2E, 0x2E]⟩,
    ⟨11, 20, 10, EXT2_FT_DIR, lostFound⟩, ⟨12, 12, 1, EXT2_FT_REG_FILE, Name.letter.chars⟩,
    ⟨13, 968, 1, EXT2_FT_SYMLINK, Name.otherLetter.chars⟩]

/-- Two soft links take the next two inodes, and the file keeps its only link. -/
theorem runs_keep_links_softLinks :
    ∃ m' m'', complete (.ln [.letter] [] .otherLetter true .letter) fileDisk = .ok m' ∧
      complete (.ln [.letter] [] .thirdLetter true .letter) m' = .ok m'' ∧ LinksCounted m'' ∧
      ClearsUnnamed fileDisk m' ∧ ClearsUnnamed m' m'' := by
  obtain ⟨m', hfirst, hdir, hblocks, hdirect, hblock, hnext, hsecond⟩ :=
    @exists_of_ok (complete (.ln [.letter] [] .otherLetter true .letter) fileDisk)
      (fun m' => 2 ∈ directories m' ∧ (inodeOn m' 2).blocks = [9] ∧
        (inodeOn m' 2).iBlock = [9] ++ List.replicate 14 0 ∧ Block m' 9 softEntries ∧
        ((freeOn m' .ind).head? = some 14 ∧ IS_REG (inodeOn m' 14).iMode = false ∧
          IS_DIR (inodeOn m' 14).iMode = false) ∧
        (complete (.ln [.letter] [] .thirdLetter true .letter) m').toBool = true) _ (by decide +kernel)
  obtain ⟨m'', hm''⟩ := exists_of_toBool hsecond
  have hroot : ∀ {m d} {name : Name}, RoomIn m 2 name → Resolves m [] d → RoomIn m d name := by
    rintro m d name hm ⟨s, _, hd⟩
    cases hd
    exact hm
  have hroom : RoomIn m' 2 .thirdLetter := by
    refine ⟨hdir, by rw [hblocks]; decide, by rw [hdirect, hblocks]; rfl, by decide, ?_⟩
    exact ⟨[softEntries], hblocks ▸ .cons hblock .nil,
      ⟨13, 968, 1, EXT2_FT_SYMLINK, Name.otherLetter.chars⟩, by decide⟩
  have hspares : Along complete Op.SparesFiles [.ln [.letter] [] .otherLetter true .letter,
      .ln [.letter] [] .thirdLetter true .letter] fileDisk := by
    refine along_cons.mpr ⟨⟨⟨13, by decide +kernel⟩, fun d => hroot roomIn_fileDisk⟩, fun m₁ hm₁ => ?_⟩
    rw [hfirst] at hm₁
    cases hm₁
    exact along_cons.mpr ⟨⟨⟨14, hnext⟩, fun d => hroot hroom⟩, fun _ _ => trivial⟩
  have hall := along_cons.mp (runs_keep_links consistent_fileDisk.tallied hspares)
  have hrest := along_cons.mp (hall.2 m' hfirst)
  obtain ⟨hcounted, hclears⟩ := hrest.1 m'' hm''
  exact ⟨m', m'', hfirst, hm'', hcounted, (hall.1 m' hfirst).2, hclears⟩

/-- The entries of the root directory once the file has been linked again. -/
def linkedEntries : List DirEntry :=
  [⟨2, 12, 1, EXT2_FT_DIR, [0x2E]⟩, ⟨2, 12, 2, EXT2_FT_DIR, [0x2E, 0x2E]⟩,
    ⟨11, 20, 10, EXT2_FT_DIR, lostFound⟩, ⟨12, 12, 1, EXT2_FT_REG_FILE, Name.letter.chars⟩,
    ⟨12, 968, 1, EXT2_FT_REG_FILE, Name.otherLetter.chars⟩]

/-- After a hard link the file has two entries, and one link as before. -/
theorem not_linksCounted_hardLink :
    Consistent fileDisk ∧ LinksCounted fileDisk ∧
      ∃ m', complete (.ln [.letter] [] .otherLetter false .letter) fileDisk = .ok m' ∧ ¬LinksCounted m' := by
  refine ⟨consistent_fileDisk, consistent_fileDisk.tallied.counted, ?_⟩
  obtain ⟨m', hrun, hdirs, hroot, hlost, hblock, hblock', hin, hreg, hlinks⟩ :=
    @exists_of_ok (complete (.ln [.letter] [] .otherLetter false .letter) fileDisk)
      (fun m' => directories m' = [2, 11] ∧ contentBlocks m' (inodeOn m' 2) = [9] ∧
        contentBlocks m' (inodeOn m' 11) = [10] ∧ Block m' 9 linkedEntries ∧ Block m' 10 (fileDiskEntries 10) ∧
        12 ∈ inodesInUse m' ∧ IS_REG (inodeOn m' 12).iMode = true ∧ (inodeOn m' 12).iLinksCount = 1) _
      (by decide +kernel)
  refine ⟨m', hrun, ?_⟩
  rintro ⟨entriesOf, hblocks, hcount⟩
  have h9 := hblock.unique (hblocks 2 (by simp [hdirs]) 9 (by simp [hroot]))
  have h10 := hblock'.unique (hblocks 11 (by simp [hdirs]) 10 (by simp [hlost]))
  have hcount := hcount 12 hin hreg
  rw [hlinks, allEntries, hdirs] at hcount
  simp only [List.flatMap_cons, List.flatMap_nil, hroot, hlost, h9, h10] at hcount
  exact absurd hcount (by decide)

end Ext2

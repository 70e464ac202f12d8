-- SUMMARY: The four counts of free numbers over runs of the tools: which operations leave them true.
import OperatingSystems.Ext2.Restoration

/-!
# Counts

No tool writes to the counts on the disk. A tool that takes a number therefore leaves them wrong, while
hard links and removals, which only edit the entries of a directory, leave them true.
-/

namespace Ext2

open Library Library.Process Library.Run

variable {m m' : Memory} {s s' : State} {b : Bm} {n E N : Nat} {inode : Inode}

/-! ## What the counts depend on -/

/-- The end of the bitmaps, each of which takes up a block. -/
def bitmapsEnd (m : Memory) : Nat := max (bitmapAt m .ind) (bitmapAt m .blk) + EXT2_BLOCK_SIZE

/-- The counts are true, the bitmaps and the table lie behind the group descriptor, the blocks up to the
end of the bitmaps are marked as used, and the boot block is blank. -/
structure Accounted (m : Memory) : Prop where
  counts : CountsTrue m
  inodes : total m .ind ≤ 8 * EXT2_BLOCK_SIZE
  blocks : total m .blk ≤ 128 ∧ total m .blk % 8 = 0
  bitmaps : ∀ b, 3 * EXT2_BLOCK_SIZE ≤ bitmapAt m b
  table : 3 * EXT2_BLOCK_SIZE ≤ tableAt m
  mapped : bitmapsEnd m ≤ 128 * 1024
  reserved : ∀ n, 1 ≤ n → n ≤ 10 ∨ n * EXT2_BLOCK_SIZE < bitmapsEnd m → usedOn m .blk n = true
  boot : ∀ i, i < EXT2_BLOCK_SIZE → m i = 0

/-- Below an address, and apart from what `init_globals` zeroes, the images agree. -/
def AgreeBelow (E : Nat) (m m' : Memory) : Prop :=
  ∀ i, i < E → i < bgPad ∨ 3 * EXT2_BLOCK_SIZE ≤ i → m' i = m i

theorem bitmapAt_le (b : Bm) : bitmapAt m b + EXT2_BLOCK_SIZE ≤ bitmapsEnd m := by
  unfold bitmapsEnd
  cases b with
  | ind => exact Nat.add_le_add_right (Nat.le_max_left _ _) _
  | blk => exact Nat.add_le_add_right (Nat.le_max_right _ _) _

namespace Accounted

theorem total_le (h : Accounted m) (b : Bm) : total m b ≤ 8 * EXT2_BLOCK_SIZE := by
  cases b with
  | ind => exact h.inodes
  | blk => exact h.blocks.1.trans (by decide)

theorem three_le (h : Accounted m) : 3 * EXT2_BLOCK_SIZE ≤ bitmapsEnd m :=
  (h.bitmaps .blk).trans ((Nat.le_add_right _ _).trans (bitmapAt_le .blk))

section

variable (h : Accounted m) (hm : AgreeBelow (bitmapsEnd m) m m')

include h hm

theorem fields_congr : ∀ i < bgPad, m' i = m i := by
  have hend := h.three_le
  have hpad : bgPad ≤ 3 * EXT2_BLOCK_SIZE := by decide
  exact fun i hi => hm i (by omega) (.inl hi)

theorem bitmapsEnd_congr : bitmapsEnd m' = bitmapsEnd m := by
  have hfields := h.fields_congr hm
  rw [bitmapsEnd, bitmapAt_congr hfields, bitmapAt_congr hfields, bitmapsEnd]

theorem usedOn_congr (hn : n ≤ 8 * EXT2_BLOCK_SIZE) (b : Bm) : usedOn m' b n = usedOn m b n := by
  have hb := h.bitmaps b
  have hle := bitmapAt_le (m := m) b
  have h1024 : EXT2_BLOCK_SIZE = 1024 := rfl
  rw [usedOn, usedOn, bitmapAt_congr (h.fields_congr hm), used, used, hm _ (by omega) (.inr (by omega))]

theorem freeOn_congr (b : Bm) : freeOn m' b = freeOn m b := by
  rw [freeOn, freeOn, free, free, total_congr (h.fields_congr hm)]
  refine List.filter_congr fun n hn => congrArg Bool.not (h.usedOn_congr hm ?_ b)
  have := (List.mem_range'_1.mp hn).2
  have := h.total_le b
  omega

/-- Nothing else of an image matters. -/
theorem congr : Accounted m' where
  counts :=
    { superblock := fun b => by
        rw [h.freeOn_congr hm, ← h.counts.superblock]
        cases b <;> exact field_congr (h.fields_congr hm) (by decide)
      group := fun b => by
        rw [h.freeOn_congr hm, ← h.counts.group]
        cases b <;> exact field_congr (h.fields_congr hm) (by decide) }
  inodes := (total_congr (h.fields_congr hm) .ind).le.trans h.inodes
  blocks := by
    rw [total_congr (h.fields_congr hm)]
    exact h.blocks
  bitmaps b := by
    rw [bitmapAt_congr (h.fields_congr hm)]
    exact h.bitmaps b
  table := h.table.trans (tableAt_congr (h.fields_congr hm)).ge
  mapped := (h.bitmapsEnd_congr hm).le.trans h.mapped
  reserved n h1 hn := by
    rw [h.bitmapsEnd_congr hm] at hn
    have hmapped := h.mapped
    have hn1024 : n ≤ 8 * EXT2_BLOCK_SIZE := by
      have h1024 : EXT2_BLOCK_SIZE = 1024 := rfl
      rw [h1024] at hn ⊢
      omega
    rw [h.usedOn_congr hm hn1024]
    exact h.reserved n h1 hn
  boot i hi := by
    have hend := h.three_le
    have hpad : EXT2_BLOCK_SIZE ≤ bgPad := by decide
    rw [hm i (by omega) (.inl (by omega)), h.boot i hi]

end

end Accounted

/-! ## Where `mk_dir_entry` writes -/

theorem lastBlockIndex_some {k v : Nat} (h : lastBlockIndex inode n = some (k, v)) :
    v ∈ inode.iBlock ∧ v ≠ 0 := by
  induction n with
  | zero => cases h
  | succ n ih =>
    rw [lastBlockIndex] at h
    split at h
    · rename_i hne
      cases h
      refine ⟨?_, hne⟩
      rw [List.getD_eq_getElem?_getD] at hne ⊢
      cases hget : inode.iBlock[k]? with
      | none => exact absurd (by rw [hget]; rfl) hne
      | some v => exact List.mem_of_getElem? hget
    · exact ih h

/-- The search for the last entry of a block goes on from its beginning. -/
theorem lastEntry_done {b a : Nat} (h : (lastEntry b).run s = .done a s') :
    b * EXT2_BLOCK_SIZE ≤ a := by
  obtain ⟨start, s₁, haddr, h₁⟩ := bind_eq_done.mp h
  rw [blockAddr] at haddr
  split at haddr
  · cases haddr
    obtain ⟨recLen, s₂, _, h₂⟩ := bind_eq_done.mp h₁
    have htriple : Triple (fun _ => b * EXT2_BLOCK_SIZE ≤ b * EXT2_BLOCK_SIZE)
        (loop .diverges lastEntryRound chainRounds ((EXT2_BLOCK_SIZE : Int) - recLen, b * EXT2_BLOCK_SIZE))
        (fun a _ => b * EXT2_BLOCK_SIZE ≤ a) fun _ _ => True := by
      refine .loop (I := fun (p : Int × Nat) _ => b * EXT2_BLOCK_SIZE ≤ p.2) (fun p => ?_)
        (fun _ _ _ => trivial) chainRounds ((EXT2_BLOCK_SIZE : Int) - recLen, b * EXT2_BLOCK_SIZE)
      intro s hp
      cases hround : (lastEntryRound p).run s with
      | halted e s' => trivial
      | done r s' =>
        rw [lastEntryRound] at hround
        split at hround
        · obtain ⟨recLen, s₃, _, h₃⟩ := bind_eq_done.mp hround
          obtain ⟨recLen', s₄, _, h₄⟩ := bind_eq_done.mp h₃
          cases h₄
          exact hp.trans (Nat.le_add_right _ _)
        · cases hround
          exact hp
    exact htriple.of_done le_rfl h₂
  · cases haddr

/-- In a blank block the search does not get to an end. -/
theorem lastEntry_blank (h0 : word s.disk 2 4 = 0) : (lastEntry 0).run s ≠ .done n s' := by
  intro h
  rw [lastEntry, blockAddr, if_pos (by decide), pure_bind] at h
  obtain ⟨recLen, s₂, hload, h₂⟩ := bind_eq_done.mp h
  obtain ⟨_, rfl, rfl⟩ := loadWord_done hload
  have hrec : word s₂.disk 2 (0 * EXT2_BLOCK_SIZE + 4) = 0 := h0
  rw [hrec] at h₂
  have htriple : Triple (fun s => ((EXT2_BLOCK_SIZE : Int), 0) = ((EXT2_BLOCK_SIZE : Int), 0) ∧ s = s₂)
      (loop .diverges lastEntryRound chainRounds ((EXT2_BLOCK_SIZE : Int), 0))
      (fun _ _ => False) fun _ _ => True := by
    refine .loop (I := fun (p : Int × Nat) s => p = ((EXT2_BLOCK_SIZE : Int), 0) ∧ s = s₂) (fun p => ?_)
      (fun _ _ _ => trivial) _ _
    rintro s ⟨rfl, rfl⟩
    cases hround : (lastEntryRound ((EXT2_BLOCK_SIZE : Int), 0)).run s with
    | halted e s' => trivial
    | done r s' =>
      rw [lastEntryRound, if_pos (by decide)] at hround
      obtain ⟨recLen, s₃, hload, h₃⟩ := bind_eq_done.mp hround
      obtain ⟨_, hrecLen, rfl⟩ := loadWord_done hload
      have hzero : recLen = 0 := hrecLen.trans h0
      subst hzero
      obtain ⟨recLen', s₄, hload', h₄⟩ := bind_eq_done.mp h₃
      obtain ⟨_, hrecLen', rfl⟩ := loadWord_done hload'
      have hzero' : recLen' = 0 := hrecLen'.trans h0
      subst hzero'
      cases h₄
      exact ⟨rfl, rfl⟩
  exact htriple.of_done ⟨rfl, rfl⟩ h₂

/-- If the blocks of the directory and the block at hand lie behind an address, then `mk_dir_entry` leaves
everything before it as it is. -/
theorem mkDirEntry_kept {dirInode nameLen fileType namelen : Nat} {name : Name} (hN : N ≤ 128)
    (hmap : Mapped N .blk s) (hlen : s.blkBmap.numBitsAvail ≤
      (freeFrom s.disk s.blkBmap.sysBm N EXT2_GOOD_OLD_FIRST_INO).length)
    (hcurr : 1 ≤ s.blkBmap.numBitsAvail →
      s.blkBmap.currAvailNum ≤ N ∧ E ≤ s.blkBmap.currAvailNum * EXT2_BLOCK_SIZE)
    (hboot : word s.disk 2 4 = 0) (hdir : 1 ≤ dirInode ∧ dirInode < 2 ^ 31)
    (hblocks : ∀ v ∈ (inodeOf s dirInode).iBlock, v ≠ 0 → E ≤ v * EXT2_BLOCK_SIZE)
    (h : (mkDirEntry dirInode n nameLen fileType name namelen).run s = .done () s') :
    ∀ i < E, s'.disk i = s.disk i := by
  obtain ⟨parentInode, s₁, hparent, h₁⟩ := bind_eq_done.mp h
  obtain rfl := (readOnly_indTableAt _).of_done hparent
  obtain ⟨_, _, hinode⟩ := indTableAt_done hparent
  have haddr : (s₁.indTable + inodeSize * (signed dirInode - 1) : Int).toNat = inodeAddr s₁ dirInode := by
    rw [signed_of_lt hdir.2, inodeAddr, ← Int.natCast_one, ← Int.natCast_sub hdir.1, ← Int.natCast_mul,
      ← Int.natCast_add, Int.toNat_natCast]
  rw [haddr] at hinode
  have hparentInode : parentInode = inodeOf s₁ dirInode := hinode
  rw [← hparentInode] at hblocks
  dsimp only at h₁
  split at h₁
  · cases h₁
  obtain ⟨dirEnt, s₂, hlast, h₂⟩ := bind_eq_done.mp h₁
  obtain rfl := (readOnly_lastEntry _).of_done hlast
  have hbehind : E ≤ dirEnt := by
    cases hindex : lastBlockIndex parentInode (INDIRECT_BLK_INDEX + 2) with
    | none =>
      rw [hindex] at hlast
      exact absurd hlast (lastEntry_blank hboot)
    | some p =>
      obtain ⟨hmem, hne⟩ := lastBlockIndex_some hindex
      rw [hindex] at hlast
      exact (hblocks _ hmem hne).trans (lastEntry_done hlast)
  obtain ⟨lastNameLen, s₃, hload, h₃⟩ := bind_eq_done.mp h₂
  obtain ⟨_, _, rfl⟩ := loadWord_done hload
  obtain ⟨lastRecLen, s₄, hload', h₄⟩ := bind_eq_done.mp h₃
  obtain ⟨_, _, rfl⟩ := loadWord_done hload'
  split at h₄
  · -- The entry goes to a new block.
    obtain ⟨memBlk, s₅, hnew, h₅⟩ := bind_eq_done.mp h₄
    obtain ⟨havail, hblk, hs₅⟩ := newBlock_done hN hmap hlen (fun h => (hcurr h).1) hnew
    have hfront : ∀ t, s₄.blkBmap.currAvailNum ≤ t → E ≤ t * EXT2_BLOCK_SIZE := fun t ht =>
      (hcurr havail).2.trans (Nat.mul_le_mul_right _ ht)
    obtain ⟨a, s₆, haddr, h₆⟩ := bind_eq_done.mp h₅
    rw [blockAddr] at haddr
    split at haddr
    · cases haddr
      obtain ⟨_, rfl⟩ := storeBytes_done h₆
      intro i hi
      have hput := hfront memBlk hblk
      refine (Memory.store_of_lt (by omega)).trans ?_
      rcases hs₅ with rfl | ⟨t, ht, rfl⟩
      · rfl
      · have htable := hfront t ht
        exact Memory.store_of_lt (by omega)
    · cases haddr
  · obtain ⟨_, s₅, hstore, h₅⟩ := bind_eq_done.mp h₄
    obtain ⟨_, rfl⟩ := storeBytes_done hstore
    obtain ⟨_, rfl⟩ := storeBytes_done h₅
    intro i hi
    exact (Memory.store_of_lt (by omega)).trans (Memory.store_of_lt (by omega))

/-! ## Where `rm_dir_entry` writes -/

theorem readOnly_rmSearchRound (name : Name) (e : EntrySearch) : ReadOnly (rmSearchRound name e) := by
  refine .ite (.bind (readOnly_loadWord _ _) fun nameLen => .bind (readOnly_strncmpEq _ _ _) fun eq => ?_)
    (.pure _)
  refine .ite (.pure _) (.bind (readOnly_loadWord _ _) fun recLen => ?_)
  exact .bind (readOnly_loadWord _ _) fun _ => .pure _

/-- The search through a block stays behind its beginning. -/
theorem rmSearch_behind {name : Name} {prev : Option Nat} {a : Nat} (ha : E ≤ a)
    (hprev : ∀ p ∈ prev, E ≤ p) {found : Bool} {e : EntrySearch}
    (h : (loop .diverges (rmSearchRound name) chainRounds
      { memToCheck := EXT2_BLOCK_SIZE, prevDirEnt := prev, currDirEnt := a }).run s =
        .done (found, e) s') : ∀ p ∈ e.prevDirEnt, E ≤ p := by
  have htriple : Triple (fun _ => E ≤ a ∧ ∀ p ∈ prev, E ≤ p)
      (loop .diverges (rmSearchRound name) chainRounds
        { memToCheck := EXT2_BLOCK_SIZE, prevDirEnt := prev, currDirEnt := a })
      (fun r _ => ∀ p ∈ r.2.prevDirEnt, E ≤ p) fun _ _ => True := by
    refine .loop (I := fun (e : EntrySearch) _ => E ≤ e.currDirEnt ∧ ∀ p ∈ e.prevDirEnt, E ≤ p)
      (fun e => ?_) (fun _ _ _ => trivial) chainRounds
      { memToCheck := EXT2_BLOCK_SIZE, prevDirEnt := prev, currDirEnt := a }
    rintro s ⟨hcurr, hprev⟩
    cases hround : (rmSearchRound name e).run s with
    | halted e s' => trivial
    | done r s' =>
      rw [rmSearchRound] at hround
      split at hround
      · obtain ⟨nameLen, s₁, _, h₁⟩ := bind_eq_done.mp hround
        obtain ⟨eq, s₂, _, h₂⟩ := bind_eq_done.mp h₁
        split at h₂
        · cases h₂
          exact hprev
        · obtain ⟨recLen, s₃, _, h₃⟩ := bind_eq_done.mp h₂
          obtain ⟨recLen', s₄, _, h₄⟩ := bind_eq_done.mp h₃
          cases h₄
          refine ⟨hcurr.trans (Nat.le_add_right _ _), fun p hp => ?_⟩
          cases hp
          exact hcurr
      · cases hround
        exact hprev
  exact htriple.of_done ⟨ha, hprev⟩ h

/-- In a blank block the search ends at once. -/
theorem rmSearch_blank {name : Name} {prev : Option Nat} (h0 : word s.disk 1 6 = 0) {found : Bool}
    {e : EntrySearch} (h : (loop .diverges (rmSearchRound name) chainRounds
      { memToCheck := EXT2_BLOCK_SIZE, prevDirEnt := prev, currDirEnt := 0 }).run s =
        .done (found, e) s') : e.prevDirEnt = prev := by
  rw [chainRounds, loop] at h
  obtain ⟨r, s₁, hround, h₁⟩ := bind_eq_done.mp h
  rw [rmSearchRound, if_pos (show (EXT2_BLOCK_SIZE : Int) > 0 by decide)] at hround
  obtain ⟨nameLen, s₂, hload, h₂⟩ := bind_eq_done.mp hround
  obtain ⟨_, hlen, rfl⟩ := loadWord_done hload
  have hzero : nameLen = 0 := hlen.trans h0
  subst hzero
  obtain ⟨eq, s₃, heq, h₃⟩ := bind_eq_done.mp h₂
  rw [strncmpEq] at heq
  cases heq
  cases h₃
  cases h₁
  rfl

/-- The pointer that the search through a directory leaves to the previous entry lies behind an address,
if the blocks of the directory do. -/
theorem dirSearch_behind {name : Name} {curr prev : Nat} (h0 : word s.disk 1 6 = 0)
    (hblocks : ∀ v ∈ inode.iBlock, v ≠ 0 → E ≤ blockAddrU v)
    (h : (dirSearch inode (rmSearchRound name)).run s = .done (some prev, curr) s') : E ≤ prev := by
  have htriple : Triple (fun s' => s' = s ∧ (inode.iBlock.getD 0 0 ≠ 0 → E ≤ blockAddrU (inode.iBlock.getD 0 0)) ∧
        ∀ p ∈ (none : Option Nat), E ≤ p)
      (dirSearch inode (rmSearchRound name)) (fun r _ => ∀ p ∈ r.1, E ≤ p) fun _ _ => True := by
    refine .loop (I := fun (d : DirSearch) s' => s' = s ∧ (d.blockNum ≠ 0 → E ≤ blockAddrU d.blockNum) ∧
        ∀ p ∈ d.prevDirEnt, E ≤ p) (fun d => ?_) (fun _ _ _ => trivial) 16
      { found := false, iBlockIndex := 0, blockNum := inode.iBlock.getD 0 0, prevDirEnt := none,
        currDirEnt := 0 }
    rintro s₀ ⟨rfl, hblock, hprev⟩
    cases hround : (dirSearchRound inode (rmSearchRound name) d).run s₀ with
    | halted e s' => trivial
    | done r s' =>
      rw [dirSearchRound] at hround
      split at hround
      · obtain ⟨⟨found, e⟩, s₁, hsearch, h₁⟩ := bind_eq_done.mp hround
        obtain rfl := (ReadOnly.loop (readOnly_rmSearchRound name) _ _).of_done hsearch
        have hprev' : ∀ p ∈ e.prevDirEnt, E ≤ p := by
          by_cases hzero : d.blockNum = 0
          · rw [hzero] at hsearch
            rw [rmSearch_blank h0 hsearch]
            exact hprev
          · exact rmSearch_behind (hblock hzero) hprev hsearch
        obtain ⟨blockNum, s₂, hnext, h₂⟩ := bind_eq_done.mp h₁
        obtain rfl := (readOnly_iBlockAt _ _).of_done hnext
        cases h₂
        refine ⟨rfl, fun hne => hblocks _ ?_ hne, hprev'⟩
        rw [iBlockAt] at hnext
        split at hnext
        · rename_i hget
          cases hnext
          exact List.mem_of_getElem? hget
        · cases hnext
      · cases hround
        exact hprev
  refine htriple.of_done ⟨rfl, fun hne => hblocks _ ?_ hne, by simp⟩ h prev rfl
  rw [List.getD_eq_getElem?_getD] at hne ⊢
  cases hget : inode.iBlock[0]? with
  | none => exact absurd (by rw [hget]; rfl) hne
  | some v => exact List.mem_of_getElem? hget

/-- If the blocks of the directory lie behind an address, then `rm_dir_entry` leaves everything before it
as it is. -/
theorem rmDirEntry_kept {parentInodeNum : Nat} {name : Name} (h0 : word s.disk 1 6 = 0)
    (hblocks : ∀ v ∈ (inodeOf s (parentInodeNum + 1)).iBlock, v ≠ 0 → E ≤ blockAddrU v)
    (h : (rmDirEntry parentInodeNum name).run s = .done n s') :
    s'.size = s.size ∧ ∀ i < E, s'.disk i = s.disk i := by
  obtain ⟨parentInode, s₁, hparent, h₁⟩ := bind_eq_done.mp h
  obtain rfl := (readOnly_indTableAt _).of_done hparent
  have hinode := (indTableAt_done hparent).2.2
  rw [← Int.natCast_mul, ← Int.natCast_add, Int.toNat_natCast] at hinode
  have hparentInode : parentInode = inodeOf s₁ (parentInodeNum + 1) := hinode
  rw [← hparentInode] at hblocks
  obtain ⟨⟨prev, curr⟩, s₂, hsearch, h₂⟩ := bind_eq_done.mp h₁
  obtain rfl := (readOnly_dirSearch (readOnly_rmSearchRound name)).of_done hsearch
  cases prev with
  | none => cases h₂
  | some prev =>
    have hbehind := dirSearch_behind h0 hblocks hsearch
    dsimp only at h₂
    obtain ⟨prevRecLen, s₃, hload, h₃⟩ := bind_eq_done.mp h₂
    obtain ⟨_, _, rfl⟩ := loadWord_done hload
    obtain ⟨recLen, s₄, hload', h₄⟩ := bind_eq_done.mp h₃
    obtain ⟨_, _, rfl⟩ := loadWord_done hload'
    obtain ⟨_, s₅, hstore, h₅⟩ := bind_eq_done.mp h₄
    obtain ⟨_, rfl⟩ := storeBytes_done hstore
    obtain ⟨num, s₆, hnum, h₆⟩ := bind_eq_done.mp h₅
    obtain ⟨_, _, rfl⟩ := loadWord_done hnum
    obtain ⟨currentInode, s₇, hcurrent, h₇⟩ := bind_eq_done.mp h₆
    obtain rfl := (readOnly_indTableAt _).of_done hcurrent
    have hread : ReadOnly (if currentInode.iLinksCount = 1 then loadWord 4 curr else pure 0) :=
      .ite (readOnly_loadWord _ _) (.pure _)
    obtain rfl := hread.of_done h₇
    exact ⟨rfl, fun i hi => Memory.store_of_lt (by omega)⟩

/-! ## Operations -/

/-- The inode number that a path stands for. -/
def Resolves (m : Memory) (path : List Name) (d : Nat) : Prop :=
  ∃ s, initGlobals.run (.boot m) = .done () s ∧ (dirEntryExists path 0).run s = .done d s

/-- The blocks that an inode lists lie behind the bitmaps. -/
def BlocksBehind (m : Memory) (n : Nat) : Prop :=
  ∀ v ∈ (inodeOn m n).iBlock, v ≠ 0 → bitmapsEnd m ≤ blockAddrU v

instance : Decidable (BlocksBehind m n) :=
  inferInstanceAs (Decidable (∀ v ∈ (inodeOn m n).iBlock, v ≠ 0 → bitmapsEnd m ≤ blockAddrU v))

/-- The operation takes no number, and the directory that it edits lies behind the bitmaps. For a removal
this is the directory of the next inode. -/
def Op.Spares : Op → Memory → Prop
  | .ln _ linkParent _ false _, m => ∀ d, Resolves m linkParent d → d < 2 ^ 31 ∧ BlocksBehind m d
  | .rm p _, m => ∀ d, Resolves m p d → BlocksBehind m (d + 1)
  | .restore _ _, _ => True
  | _, _ => False

theorem blockAddrU_le (v : Nat) : blockAddrU v ≤ v * EXT2_BLOCK_SIZE := Nat.mod_le _ _

namespace Accounted

theorem blank (h : Accounted m) (hmounted : Mounted m s) {w a : Nat} (ha : a + w ≤ EXT2_BLOCK_SIZE) :
    word s.disk w a = 0 := by
  have hpad : EXT2_BLOCK_SIZE ≤ bgPad := by decide
  have hzero : word s.disk w a = word (fun _ => 0) w a := word_congr fun i _ h2 => by
    rw [hmounted.disk, zeroed_apply (.inl (by omega)), h.boot i (by omega)]
  rw [hzero, word]
  clear hzero ha
  induction w generalizing a with
  | zero => rfl
  | succ w ih =>
    rw [Memory.load, ofLeBytes, ih]
    rfl

/-- What a tool leaves as it is up to the end of the bitmaps, it has found there. -/
theorem of_kept (h : Accounted m) (hmounted : Mounted m s)
    (hkept : ∀ i < bitmapsEnd m, s'.disk i = s.disk i) : Accounted s'.disk :=
  h.congr fun i hi hout => by rw [hkept i hi, hmounted.disk, zeroed_apply hout]

/-- While there is a free block, the one at hand lies behind the bitmaps. -/
theorem behind_of_free (h : Accounted m) (hinit : initGlobals.run (.boot m) = .done () s)
    (hmounted : Mounted m s) (havail : 1 ≤ s.blkBmap.numBitsAvail) :
    s.blkBmap.currAvailNum ≤ total m .blk ∧
      bitmapsEnd m ≤ s.blkBmap.currAvailNum * EXT2_BLOCK_SIZE := by
  have hcount : s.blkBmap.numBitsAvail = (freeOn m .blk).length :=
    (hmounted.avail .blk).trans (h.counts.group .blk)
  have hne : freeOn m .blk ≠ [] := by
    intro hnil
    rw [hcount, hnil, List.length_nil] at havail
    omega
  have hmem := curr_mem_freeOn h.total_le (fun b => (bitmapAt_le b).trans h.mapped) h.blocks.2
    (h.bitmaps .blk) (fun n h1 h10 => h.reserved n h1 (.inl h10)) hinit hne
  obtain ⟨⟨h1, hN⟩, _⟩ := mem_free.mp hmem
  exact ⟨hN, Nat.le_of_not_lt fun hlt => ne_of_free (h.reserved _ h1 (.inr hlt)) hmem rfl⟩

/-- A hard link keeps the counts true. -/
theorem mkEntryFor (h : Accounted m) (hinit : initGlobals.run (.boot m) = .done () s)
    (hmounted : Mounted m s) {dirInode fileType : Nat} {name : Name}
    (hdir : 1 ≤ dirInode ∧ dirInode < 2 ^ 31) (hblocks : BlocksBehind m dirInode)
    (hrun : (mkEntryFor dirInode n fileType name).run s = .done () s') : Accounted s'.disk := by
  have hbitmap := h.bitmaps .blk
  have hend := bitmapAt_le (m := m) .blk
  have hmapped := h.mapped
  have hN := h.blocks.1
  have h1024 : EXT2_BLOCK_SIZE = 1024 := rfl
  have hfrom : freeFrom s.disk s.blkBmap.sysBm (total m .blk) EXT2_GOOD_OLD_FIRST_INO = freeOn m .blk := by
    rw [freeFrom_of_forall_used (by decide), ← hmounted.free hbitmap]
    · rfl
    · intro i h1 h2
      have hused := hmounted.used_of_le (n := i) hbitmap
      rw [h.reserved i h1 (.inl (by have : EXT2_GOOD_OLD_FIRST_INO = 11 := rfl; omega))] at hused
      exact hused
  refine h.of_kept hmounted (mkDirEntry_kept hN ?_ ?_ (h.behind_of_free hinit hmounted)
    (h.blank hmounted (by decide)) hdir ?_ hrun)
  · rw [Mapped, hmounted.sysBm, hmounted.size]
    omega
  · rw [hfrom, ← h.counts.group .blk]
    exact (hmounted.avail .blk).le
  · intro v hv hne
    rw [hmounted.inodeOf h.table] at hv
    exact (hblocks v hv hne).trans (blockAddrU_le v)

/-- A step that takes no number keeps the counts true. -/
theorem step {op : Op} (h : Accounted m) (hop : op.Spares m) (hrun : complete op m = .ok m') :
    Accounted m' := by
  obtain ⟨s', hdone, rfl⟩ := complete_eq_ok.mp hrun
  obtain ⟨s, hinit, hmounted, hrun⟩ := runOn_eq_done hdone
  cases op with
  | mkdir p dpath => exact hop.elim
  | cp p fpath file => exact hop.elim
  | ln src linkParent lpath isSoftlink absPath =>
    cases isSoftlink with
    | true => exact hop.elim
    | false =>
      obtain ⟨srcInodeNum, linkInodeNum, srcInode, _, hlink, hne, _, hrun⟩ := ext2Ln_done hrun
      obtain ⟨hlt, hblocks⟩ := hop linkInodeNum ⟨s, hinit, hlink⟩
      exact h.mkEntryFor hinit hmounted ⟨by omega, hlt⟩ hblocks hrun
  | rm p fpath =>
    obtain ⟨parentInodeNum, fileInodeNum, s₁, hparent, hentry, hrun⟩ := ext2Rm_done hrun
    have hblocks := hop parentInodeNum ⟨s, hinit, hparent⟩
    obtain ⟨hsize, hkept⟩ := rmDirEntry_kept (h.blank hmounted (by decide)) (by
      rw [hmounted.inodeOf h.table]
      exact hblocks) hentry
    split at hrun
    · exact absurd hrun (rmInode_not_done (by rw [hsize, hmounted.size]; decide))
    · cases hrun
      exact h.of_kept hmounted hkept
  | restore p fpath => exact absurd hdone ext2Restore_runOn_not_done

end Accounted

/-- Over a run whose operations are hard links and removals, in directories behind the bitmaps, the four
counts stay true. -/
theorem runs_keep_counts {ops : List Op} (h : Accounted m) (hops : Along complete Op.Spares ops m) :
    Along complete (fun op m => ∀ m', complete op m = .ok m' → CountsTrue m') ops m :=
  hops.of_invariant h (fun _ _ _ h hop hrun => h.step hop hrun)
    fun _ _ h hop _ hrun => (h.step hop hrun).counts

/-! ## Two operations on the empty disk -/

theorem countsTrue_emptyDisk : CountsTrue emptyDisk where
  superblock b := by cases b <;> decide +kernel
  group b := by cases b <;> decide +kernel

theorem accounted_emptyDisk : Accounted emptyDisk where
  counts := countsTrue_emptyDisk
  inodes := by decide +kernel
  blocks := by decide +kernel
  bitmaps b := by cases b <;> decide +kernel
  table := by decide +kernel
  mapped := by decide +kernel
  reserved n h1 hn := by
    have hend : bitmapsEnd emptyDisk = 5 * EXT2_BLOCK_SIZE := by decide +kernel
    have h10 : n ≤ 10 := by
      have h1024 : EXT2_BLOCK_SIZE = 1024 := rfl
      rw [hend, h1024] at hn
      omega
    interval_cases n <;> decide +kernel
  boot := by decide +kernel

/-- What can be decided of the image that a run leaves. -/
theorem exists_of_ok {x : Except Halt Memory} {P : Memory → Prop} [DecidablePred P]
    (h : (match x with | .ok m' => decide (P m') | .error _ => false) = true) : ∃ m', x = .ok m' ∧ P m' := by
  cases x with
  | error e => cases h
  | ok m' => exact ⟨m', rfl, of_decide_eq_true h⟩

theorem exists_of_toBool {x : Except Halt Memory} (h : x.toBool = true) : ∃ m', x = .ok m' := by
  cases x with
  | error e => cases h
  | ok m' => exact ⟨m', rfl⟩

/-- Two hard links in the root directory. -/
theorem runs_keep_counts_links : ∃ m' m'', complete (.ln [] [] .letter false .letter) emptyDisk = .ok m' ∧
    complete (.ln [] [] .otherLetter false .letter) m' = .ok m'' ∧ CountsTrue m' ∧ CountsTrue m'' := by
  obtain ⟨m', hfirst, hbehind, hsecond⟩ := @exists_of_ok (complete (.ln [] [] .letter false .letter) emptyDisk)
    (fun m' => BlocksBehind m' 2 ∧ (complete (.ln [] [] .otherLetter false .letter) m').toBool = true) _
    (by decide +kernel)
  obtain ⟨m'', hm''⟩ := exists_of_toBool hsecond
  have hroot : ∀ {m d}, BlocksBehind m 2 → Resolves m [] d → d < 2 ^ 31 ∧ BlocksBehind m d := by
    rintro m d hm ⟨s, _, hd⟩
    cases hd
    exact ⟨by decide, hm⟩
  have hspares : Along complete Op.Spares [.ln [] [] .letter false .letter, .ln [] [] .otherLetter false .letter]
      emptyDisk := by
    refine along_cons.mpr ⟨fun d => hroot (by decide +kernel), fun m₁ hm₁ => ?_⟩
    rw [hfirst] at hm₁
    cases hm₁
    exact along_cons.mpr ⟨fun d => hroot hbehind, fun _ _ => trivial⟩
  have hall := along_cons.mp (runs_keep_counts accounted_emptyDisk hspares)
  have hrest := along_cons.mp (hall.2 m' hfirst)
  exact ⟨m', m'', hfirst, hm'', hall.1 m' hfirst, hrest.1 m'' hm''⟩

/-- A copy of an empty file takes an inode and two blocks, and the counts do not change. -/
theorem not_countsTrue_copy :
    CountsTrue emptyDisk ∧
      ∃ m', complete (.cp [] .letter (some 0)) emptyDisk = .ok m' ∧ ¬CountsTrue m' := by
  refine ⟨countsTrue_emptyDisk, ?_⟩
  obtain ⟨m', hrun, hcount⟩ := @exists_of_ok (complete (.cp [] .letter (some 0)) emptyDisk)
    (fun m' => word m' 4 (sFreeCount .ind) ≠ (freeOn m' .ind).length) _ (by decide +kernel)
  exact ⟨m', hrun, fun h => hcount (h.superblock .ind)⟩

end Ext2

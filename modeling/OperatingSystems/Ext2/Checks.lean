-- SUMMARY: What the checker goes over, and that it changes nothing where its checks find nothing.
import OperatingSystems.Ext2.Tours

/-!
# Checks

The checker goes over the entries in some of the directories. For each entry it looks at the inode
behind that of the entry, and at the bits behind those of the inode and of the blocks of this next
inode. Where all of them are as they should be, it leaves the disk as it is and counts nothing.
-/

namespace Ext2

open Library Library.Process Library.Records

variable {m : Memory} {s : State} {b : Bm} {e : DirEntry} {es : List DirEntry} {inode : Inode}
  {blk fuel index k n p : Nat}

/-! ## What the checker goes over -/

/-- The type that an entry is to have for the mode of its inode. -/
def fileTypeOf (mode : Nat) : Option Nat :=
  if mode / 2 ^ 12 = EXT2_S_IFLNK / 2 ^ 12 then some EXT2_FT_SYMLINK
  else if mode / 2 ^ 12 = EXT2_S_IFREG / 2 ^ 12 then some EXT2_FT_REG_FILE
  else if mode / 2 ^ 12 = EXT2_S_IFDIR / 2 ^ 12 then some EXT2_FT_DIR
  else none

theorem fileTypeOf_ne_unknown {mode : Nat} : fileTypeOf mode ≠ some EXT2_FT_UNKNOWN := by
  rw [fileTypeOf]
  split_ifs <;> decide

/-- The bit that `check_bit` tests for a number, which is that of the next one, is set. -/
def Tested (m : Memory) (b : Bm) (n : Nat) : Prop :=
  bitmapAt m b + n / 8 < 128 * 1024 ∧ usedOn m b (n + 1) = true

instance : Decidable (Tested m b n) := inferInstanceAs (Decidable (_ ∧ _))

instance EndsFrom.decidable {size : Nat} : (fuel : Nat) → (w : MarkWalk) → Decidable (EndsFrom m size inode fuel w)
  | 0, _ => .isFalse id
  | fuel + 1, w =>
    if h0 : w.blockNum = 0 then .isTrue (by rw [EndsFrom, if_pos h0]; trivial)
    else match hv : w.numAt m size inode with
      | none => .isFalse (by rw [EndsFrom, if_neg h0, hv]; exact id)
      | some v =>
        have : Decidable (EndsFrom m size inode fuel (w.at v)) := EndsFrom.decidable fuel (w.at v)
        decidable_of_iff (EndsFrom m size inode fuel (w.at v)) (by rw [EndsFrom, if_neg h0, hv])

/-- The inode that the checker takes for that of an entry. -/
def behind (m : Memory) (e : DirEntry) : Inode := inodeOn m (e.inode + 1)

/-- The blocks that the checker goes over for an entry. -/
def blocksBehind (m : Memory) (e : DirEntry) : List Nat :=
  numsFrom m (128 * 1024) (behind m e) (128 * 1024 + 14) (.start (behind m e))

/-- The walk over them comes to an end. -/
def EndsBehind (m : Memory) (e : DirEntry) : Prop :=
  EndsFrom m (128 * 1024) (behind m e) (128 * 1024 + 14) (.start (behind m e))

instance : Decidable (EndsBehind m e) := inferInstanceAs (Decidable (EndsFrom _ _ _ _ _))

/-- What the checker looks at for an entry is in order, and the walk over the blocks ends. -/
structure Passes (m : Memory) (e : DirEntry) : Prop where
  mapped : tableAt m + inodeSize * (e.inode + 1) ≤ 128 * 1024
  type : fileTypeOf (behind m e).iMode = some e.fileType
  inode : Tested m .ind e.inode
  table : (behind m e).indirect ≠ 0 → 3 * EXT2_BLOCK_SIZE ≤ blockAddrU (behind m e).indirect
  ends : EndsBehind m e
  blocks : ∀ n ∈ blocksBehind m e, Tested m .blk n

instance : Decidable (Passes m e) :=
  decidable_of_iff (tableAt m + inodeSize * (e.inode + 1) ≤ 128 * 1024 ∧
      fileTypeOf (behind m e).iMode = some e.fileType ∧ Tested m .ind e.inode ∧
      ((behind m e).indirect ≠ 0 → 3 * EXT2_BLOCK_SIZE ≤ blockAddrU (behind m e).indirect) ∧
      EndsBehind m e ∧ ∀ n ∈ blocksBehind m e, Tested m .blk n)
    ⟨fun ⟨h1, h2, h3, h4, h5, h6⟩ => ⟨h1, h2, h3, h4, h5, h6⟩,
      fun ⟨h1, h2, h3, h4, h5, h6⟩ => ⟨h1, h2, h3, h4, h5, h6⟩⟩

/-- The checker finds nothing in the directories: none that it goes over has an indirect block, and all
their entries pass. -/
structure Quiet (m : Memory) : Prop where
  direct : ∀ n ∈ inodesChecked m, (inodeOn m n).Checked → (inodeOn m n).indirect = 0
  blocks : ∀ blk ∈ blocksChecked m (inodesChecked m) 0,
    3 ≤ blk ∧ blk < 128 ∧ ∃ es, Block m blk es ∧ ∀ e ∈ es, Passes m e

/-- Then the entries of its blocks are known. -/
theorem Quiet.exists_charted (h : Quiet m) :
    ∃ entriesOf, Charted m entriesOf ∧ ∀ pe ∈ visits m entriesOf, Passes m pe.2 := by
  have hblocks := h.blocks
  choose! h3 h128 entriesOf hblock hpass using hblocks
  refine ⟨entriesOf, ⟨h.direct, fun blk hblk => ⟨h3 blk hblk, h128 blk hblk, hblock blk hblk⟩⟩, fun pe hpe => ?_⟩
  obtain ⟨blk, hblk, hin⟩ := List.mem_flatMap.mp hpe
  exact hpass blk hblk pe.2 (mem_placed (hblock blk hblk).1 hin).1

/-! ## A tool on an image -/

/-- A tool has an image mapped, of which the superblock and the group descriptor may have changed. -/
structure OnImage (m : Memory) (s : State) : Prop where
  size : s.size = 128 * 1024
  table : s.indTable = tableAt m
  sysBm : ∀ b, (s.bmap b).sysBm = bitmapAt m b
  disk : ∀ i, 3 * EXT2_BLOCK_SIZE ≤ i → s.disk i = m i

namespace OnImage

theorem used (h : OnImage m s) (hlayout : Layout m) : s.used b n = usedOn m b n := by
  have hb := (hlayout.bitmaps b).1
  rw [State.used, h.sysBm, Ext2.used, h.disk _ (by omega), usedOn, Ext2.used]

theorem inodeOf (h : OnImage m s) (hlayout : Layout m) : Ext2.inodeOf s n = inodeOn m n := by
  have htable := hlayout.table.1
  rw [Ext2.inodeOf, inodeAddr, h.table, inodeOn]
  exact decodeInode_congr fun i h1 _ => h.disk i (by omega)

theorem run_checkBit (h : OnImage m s) (hlayout : Layout m) (hn : Tested m b n) :
    (checkBit (s.bmap b) n).run s = .done true s := by
  have hused : s.used b (n + 1) = true := (h.used hlayout).trans hn.2
  rw [checkBit_run (by rw [h.sysBm, h.size]; exact hn.1)]
  rw [State.used] at hused
  rw [hused]

/-- An entry of the type of an inode passes the comparison of the two. -/
theorem run_getTypes {mode t : Nat} (h : fileTypeOf mode = some t) (s : State) :
    ∃ u, (getDirectoryEntryType t).run s = .done u s ∧ (getInodeType mode).run s = .done u s := by
  rw [fileTypeOf] at h
  rw [getInodeType]
  split at h
  · rename_i hmode
    cases h
    exact ⟨.link, rfl, by rw [if_pos hmode, run_pure]⟩
  · rename_i hlink
    rw [if_neg hlink]
    split at h
    · rename_i hmode
      cases h
      exact ⟨.file, rfl, by rw [if_pos hmode, run_pure]⟩
    · rename_i hfile
      rw [if_neg hfile]
      split at h
      · rename_i hmode
        cases h
        exact ⟨.dir, rfl, by rw [if_pos hmode, run_pure]⟩
      · cases h

theorem run_indTableAt (h : OnImage m s) (hlayout : Layout m)
    (hn : tableAt m + inodeSize * (n + 1) ≤ 128 * 1024) :
    (indTableAt (n : Int)).run s = .done (inodeOn m (n + 1)) s := by
  rw [run_indTableAt_next (by rw [h.table, h.size]; exact hn), h.inodeOf hlayout]

/-! ## The checks of an entry -/

/-- An entry is there. -/
structure At (s : State) (p : Nat) (e : DirEntry) : Prop where
  mapped : p + 8 ≤ s.size
  entry : decodeEntry s.disk p = e

namespace At

variable (hp : At s p e)

include hp

theorem run_inode : (loadWord 4 p).run s = .done e.inode s := by
  have hmapped := hp.mapped
  rw [run_loadWord (by omega), ← hp.entry]
  rfl

theorem run_fileType : (loadWord 1 (p + 7)).run s = .done e.fileType s := by
  have hmapped := hp.mapped
  rw [run_loadWord (by omega), ← hp.entry]
  rfl

end At

section

variable (h : OnImage m s) (hlayout : Layout m)

include h hlayout

section

variable (hp : At s p e) (he : Passes m e)

include hp he

theorem run_checkMatchingTypes : (checkMatchingTypes p).run s = .done () s := by
  obtain ⟨t, hentry, hinode⟩ := run_getTypes he.type s
  rw [behind] at hinode
  rw [checkMatchingTypes, bind_done hp.run_inode, bind_done (h.run_indTableAt hlayout he.mapped),
    bind_done hp.run_fileType, bind_done hentry, bind_done hinode, if_neg (not_not.mpr rfl), run_pure]

theorem run_checkInodeBitmap : (checkInodeBitmap p).run s = .done () s := by
  have htest : (checkBit s.indBmap e.inode).run s = .done true s := h.run_checkBit hlayout he.inode
  rw [checkInodeBitmap, run_get_bind, bind_done hp.run_inode, bind_done htest, if_pos rfl, run_pure]

theorem run_checkInodeDtime : (checkInodeDtime p).run s = .done () s := by
  rw [checkInodeDtime, bind_done hp.run_inode, bind_done (h.run_indTableAt hlayout he.mapped), run_pure]

omit hp he in
/-- A walk that comes to numbers in order only counts nothing. -/
theorem loop_markRound_tested {w : MarkWalk}
    (htable : inode.indirect ≠ 0 → 3 * EXT2_BLOCK_SIZE ≤ blockAddrU inode.indirect)
    (hends : EndsFrom m s.size inode fuel w) (hnums : ∀ n ∈ numsFrom m s.size inode fuel w, Tested m .blk n) :
    (loop .diverges (markRound inode) fuel w).run s = .done w.blockCount s := by
  induction fuel generalizing w with
  | zero => exact absurd hends id
  | succ fuel ih =>
    rw [EndsFrom] at hends
    rw [numsFrom] at hnums
    by_cases h0 : w.blockNum = 0
    · refine loop_of_stop ?_
      rw [markRound, if_neg (not_not.mpr h0), run_pure]
    rw [if_neg h0] at hends hnums
    rw [loop_markRound h0, numAt_congr htable h.disk]
    cases hv : w.numAt m s.size inode with
    | none =>
      rw [hv] at hends
      exact absurd hends id
    | some v =>
      rw [hv] at hends hnums
      dsimp only at hends hnums ⊢
      have htested : Tested m .blk v ∧ ∀ n ∈ numsFrom m s.size inode fuel (w.at v), Tested m .blk n := by
        by_cases hv0 : v = 0
        · -- The bit tested for the zero at the end is that of the first number.
          subst hv0
          have hbitmap := (hlayout.bitmaps .blk).2
          have h10 : EXT2_GOOD_OLD_FIRST_INO * EXT2_BLOCK_SIZE = 11 * 1024 := rfl
          have hnil : numsFrom m s.size inode fuel (w.at 0) = [] := by
            cases fuel with
            | zero => rfl
            | succ fuel => rw [numsFrom, if_pos blockNum_at]
          refine ⟨⟨by omega, hlayout.reserved .blk 1 le_rfl (by decide)⟩, ?_⟩
          simp [hnil]
        · rw [if_neg hv0] at hnums
          exact ⟨hnums v List.mem_cons_self, fun n hn => hnums n (List.mem_cons_of_mem _ hn)⟩
      have htest : (checkBit s.blkBmap v).run s = .done true s := h.run_checkBit hlayout htested.1
      rw [bind_done htest, if_pos rfl, ih hends htested.2, blockCount_at]

theorem run_checkDataBlockBitmap : (checkDataBlockBitmap p).run s = .done 0 s := by
  have hends := he.ends
  have hblocks := he.blocks
  rw [EndsBehind, ← h.size] at hends
  rw [blocksBehind, ← h.size] at hblocks
  have hloop := h.loop_markRound_tested hlayout he.table hends hblocks
  rw [checkDataBlockBitmap, bind_done hp.run_inode, bind_done (h.run_indTableAt hlayout he.mapped),
    run_get_bind]
  exact bind_done hloop

theorem run_checkEntry : (checkEntry p).run s = .done 0 s := by
  rw [checkEntry, bind_done (h.run_checkMatchingTypes hlayout hp he),
    bind_done (h.run_checkInodeBitmap hlayout hp he), bind_done (h.run_checkInodeDtime hlayout hp he),
    h.run_checkDataBlockBitmap hlayout hp he]

end

/-- Where all entries pass, nothing changes and nothing is counted. -/
theorem tour (hcharted : Charted m entriesOf) (hpass : ∀ pe ∈ visits m entriesOf, Passes m pe.2)
    (hcount : word s.disk 4 sInodesCount = total m .ind) :
    Tour m (visits m entriesOf) (fun _ x s' => x = 0 ∧ s' = s) fun _ _ => False := by
  -- An entry that the checker comes to is on the disk as it is on the image.
  have hat : ∀ pe ∈ visits m entriesOf, At s pe.1 pe.2 := by
    intro pe hpe
    obtain ⟨blk, _, ⟨h3, h128, hblock⟩, hin⟩ := hcharted.mem_visits hpe
    obtain ⟨_, hread, hlen, hle, hend⟩ := mem_placed hblock.1 hin
    have hpos : 3 * EXT2_BLOCK_SIZE ≤ pe.1 := (Nat.mul_le_mul_right _ h3).trans hle
    have hlast : blk * EXT2_BLOCK_SIZE + EXT2_BLOCK_SIZE ≤ 128 * 1024 := by
      rw [show EXT2_BLOCK_SIZE = 1024 from rfl]
      omega
    have hvalid : entries.Valid (decodeEntry m pe.1) := by rwa [hread]
    rw [hblock.2] at hend
    refine ⟨by rw [h.size]; omega, ?_⟩
    rw [← hread]
    exact entries.congr hvalid fun i h1 _ => h.disk i (hpos.trans h1)
  refine ⟨?_, ?_⟩
  · rintro _ _ s' ⟨_, rfl⟩
    exact ⟨h.size, h.table, hcount, fun n _ => h.inodeOf hlayout, fun pe hpe =>
      congrArg DirEntry.recLen (hat pe hpe).entry⟩
  · rintro _ x p e hpe s' ⟨rfl, rfl⟩
    rw [h.run_checkEntry hlayout (hat _ hpe) (hpass _ hpe)]
    exact ⟨rfl, rfl⟩

/-- Over directories in which there is nothing to find, the checker changes nothing and counts nothing. -/
theorem run_checkDirEntries (hquiet : Quiet m) (hcount : word s.disk 4 sInodesCount = total m .ind)
    (hnumbers : EXT2_GOOD_OLD_FIRST_INO ≤ total m .ind) : checkDirEntries.run s = .done 0 s := by
  obtain ⟨entriesOf, hcharted, hpass⟩ := hquiet.exists_charted
  have htour := (h.tour hlayout hcharted hpass hcount).run_checkDirEntries hlayout hcharted hnumbers
  cases hrun : checkDirEntries.run s with
  | done x s' =>
    obtain ⟨rfl, rfl⟩ := htour.of_done ⟨rfl, rfl⟩ hrun
    rfl
  | halted r s' => exact (htour.of_halted ⟨rfl, rfl⟩ hrun).elim

end

end OnImage

end Ext2

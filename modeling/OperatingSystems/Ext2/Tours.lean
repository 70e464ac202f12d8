-- SUMMARY: The entries that the checker comes to, and the rule for what its checks do to all of them.
import Mathlib.Data.List.GetD
import OperatingSystems.Ext2.Walks

/-!
# Tours

The checker goes over the entries in the blocks of some of the inodes. Where it finds the chains and the
inodes as they are on the image, it comes to the same entries whatever its checks do. What the checks of
each entry keep then holds at the end, for all of them.
-/

namespace Ext2

open Library Library.Process Library.Records

/-- An entry, with its address. -/
abbrev Visit := Nat × DirEntry

variable {m : Memory} {s : State} {e : DirEntry} {es : List DirEntry} {inode : Inode} {blks ns : List Nat}
  {entriesOf : Nat → List DirEntry} {V done : List Visit} {blk fuel index k n p : Nat} {x y : BitVec 32}

/-! ## What the checker goes over -/

/-- The inode is taken for one of a directory to go over. -/
def Inode.Checked (inode : Inode) : Prop := inode.iCtime ≠ 0 ∧ IS_DIR inode.iMode = true

instance {inode : Inode} : Decidable inode.Checked := inferInstanceAs (Decidable (_ ∧ _))

/-- The inodes among which the checker looks for directories. -/
def inodesChecked (m : Memory) : List Nat :=
  List.range' (EXT2_GOOD_OLD_FIRST_INO + 1) (total m .ind - EXT2_GOOD_OLD_FIRST_INO - EXT2_GOOD_OLD_FIRST_INO)

/-- The blocks of a directory that it goes over, from a place in `i_block` on. -/
def blocksAt (inode : Inode) (k : Nat) : List Nat := (inode.iBlock.drop k).takeWhile (· ≠ 0)

/-- The blocks that it goes over in the directories among some inodes. It begins in each directory at the
place in `i_block` where it has stopped in the one before. -/
def blocksChecked (m : Memory) : List Nat → Nat → List Nat
  | [], _ => []
  | n :: ns, k =>
    if (inodeOn m n).Checked then
      blocksAt (inodeOn m n) k ++ blocksChecked m ns (k + (blocksAt (inodeOn m n) k).length)
    else blocksChecked m ns k

/-- The entries of a chain, with their addresses. -/
def placed : Nat → List DirEntry → List Visit
  | _, [] => []
  | p, e :: es => (p, e) :: placed (p + e.recLen) es

/-- The entries in some blocks. -/
def entriesIn (entriesOf : Nat → List DirEntry) (blks : List Nat) : List Visit :=
  blks.flatMap fun blk => placed (blk * EXT2_BLOCK_SIZE) (entriesOf blk)

/-- All entries that the checker comes to. -/
def visits (m : Memory) (entriesOf : Nat → List DirEntry) : List Visit :=
  entriesIn entriesOf (blocksChecked m (inodesChecked m) 0)

/-- The directories that it goes over have direct blocks only, which are chains of entries. -/
structure Charted (m : Memory) (entriesOf : Nat → List DirEntry) : Prop where
  direct : ∀ n ∈ inodesChecked m, (inodeOn m n).Checked → (inodeOn m n).indirect = 0
  blocks : ∀ blk ∈ blocksChecked m (inodesChecked m) 0, 3 ≤ blk ∧ blk < 128 ∧ Block m blk (entriesOf blk)

/-- An entry of a chain, where it is. -/
theorem mem_placed {pe : Visit} (hchain : Chain entries m p es) (h : pe ∈ placed p es) :
    pe.2 ∈ es ∧ decodeEntry m pe.1 = pe.2 ∧ 8 + pe.2.nameLen ≤ pe.2.recLen ∧ p ≤ pe.1 ∧
      pe.1 + pe.2.recLen ≤ p + sizes entries es := by
  induction es generalizing p with
  | nil => cases h
  | cons e es ih =>
    obtain ⟨hread, hvalid, hrest⟩ := hchain
    have hlen : 8 + e.nameLen ≤ e.recLen := hvalid
    rw [sizes_cons, size_entries]
    cases List.mem_cons.mp h with
    | inl heq =>
      subst heq
      exact ⟨List.mem_cons_self, hread, hlen, le_rfl, by dsimp only; omega⟩
    | inr hin =>
      obtain ⟨hmem, hread, hlen, hle, hend⟩ := ih (p := p + e.recLen) hrest hin
      exact ⟨List.mem_cons_of_mem _ hmem, hread, hlen, by omega, by omega⟩

theorem exists_mem_placed (he : e ∈ es) : ∃ q, (q, e) ∈ placed p es := by
  induction es generalizing p with
  | nil => cases he
  | cons e' es ih =>
    cases List.mem_cons.mp he with
    | inl heq => exact ⟨p, heq ▸ List.mem_cons_self⟩
    | inr hin =>
      obtain ⟨q, hq⟩ := ih (p := p + e'.recLen) hin
      exact ⟨q, List.mem_cons_of_mem _ hq⟩

/-- The entries of a chain do not lie over each other. -/
theorem placed_apart {v v' : Visit} (hchain : Chain entries m p es) (hv : v ∈ placed p es)
    (hv' : v' ∈ placed p es) : v'.1 + 8 ≤ v.1 ∨ v.1 ≤ v'.1 := by
  induction es generalizing p with
  | nil => cases hv
  | cons e es ih =>
    obtain ⟨_, hvalid, hrest⟩ := hchain
    have hlen : 8 + e.nameLen ≤ e.recLen := hvalid
    have hafter : ∀ v ∈ placed (p + e.recLen) es, p + e.recLen ≤ v.1 := fun v hv =>
      (mem_placed (p := p + e.recLen) hrest hv).2.2.2.1
    cases List.mem_cons.mp hv with
    | inl heq =>
      cases List.mem_cons.mp hv' with
      | inl heq' => exact .inr (by rw [heq, heq'])
      | inr hin' =>
        have hle := hafter v' hin'
        refine .inr ?_
        rw [heq]
        omega
    | inr hin =>
      cases List.mem_cons.mp hv' with
      | inl heq' =>
        have hle := hafter v hin
        refine .inl ?_
        rw [heq']
        dsimp only
        omega
      | inr hin' => exact ih (p := p + e.recLen) hrest hin hin'

theorem length_placed : (placed p es).length = es.length := by
  induction es generalizing p with
  | nil => rfl
  | cons e es ih => rw [placed, List.length_cons, List.length_cons, ih]

/-- In a directory of direct blocks the checker stops before the indirect one. -/
theorem length_blocksAt (hlen : inode.iBlock.length = 15) (hzero : inode.indirect = 0)
    (hk : k ≤ INDIRECT_BLK_INDEX) : k + (blocksAt inode k).length ≤ INDIRECT_BLK_INDEX := by
  have h11 : INDIRECT_BLK_INDEX = 11 := rfl
  by_contra hlt
  have hstart : blocksAt inode k <+: inode.iBlock.drop k := List.takeWhile_prefix _
  have hi : INDIRECT_BLK_INDEX - k < (blocksAt inode k).length := by omega
  have hget : (blocksAt inode k)[INDIRECT_BLK_INDEX - k] = 0 := by
    rw [hstart.getElem hi, List.getElem_drop, ← hzero, Inode.indirect, List.getD_eq_getElem _ 0 (by omega)]
    congr 1
    omega
  have hne := List.all_eq_true.mp List.all_takeWhile _ (List.getElem_mem hi)
  rw [hget] at hne
  cases hne

theorem length_blocksChecked (hdirect : ∀ n ∈ ns, (inodeOn m n).Checked → (inodeOn m n).indirect = 0)
    (hk : k ≤ INDIRECT_BLK_INDEX) : (blocksChecked m ns k).length + k ≤ INDIRECT_BLK_INDEX := by
  induction ns generalizing k with
  | nil =>
    rw [blocksChecked, List.length_nil]
    omega
  | cons n ns ih =>
    have hrest := fun n hn => hdirect n (List.mem_cons_of_mem _ hn)
    rw [blocksChecked]
    split
    · rename_i hchecked
      have hle := length_blocksAt (by simp [inodeOn, decodeInode]) (hdirect n List.mem_cons_self hchecked) hk
      have hlen := ih hrest hle
      rw [List.length_append]
      omega
    · exact ih hrest hk

/-- The checker comes to at most as many entries as there are bytes in eleven blocks. -/
theorem Charted.length_visits_le (h : Charted m entriesOf) :
    (visits m entriesOf).length ≤ INDIRECT_BLK_INDEX * EXT2_BLOCK_SIZE := by
  have hlen := length_blocksChecked h.direct (Nat.zero_le INDIRECT_BLK_INDEX)
  have hsum : ∀ blks, (∀ blk ∈ blks, Block m blk (entriesOf blk)) →
      (entriesIn entriesOf blks).length ≤ blks.length * EXT2_BLOCK_SIZE := by
    intro blks hblks
    induction blks with
    | nil => exact Nat.zero_le _
    | cons blk blks ih =>
      have hblock := hblks blk List.mem_cons_self
      have hle := hblock.1.length_le_sizes
      have hrest := ih fun blk hblk => hblks blk (List.mem_cons_of_mem _ hblk)
      rw [hblock.2] at hle
      rw [entriesIn] at hrest
      rw [entriesIn, List.flatMap_cons, List.length_append, length_placed, List.length_cons, Nat.succ_mul]
      omega
  exact (hsum _ fun blk hblk => (h.blocks blk hblk).2.2).trans (Nat.mul_le_mul_right _ (by omega))

/-- An entry that the checker comes to is one of a block that it goes over. -/
theorem Charted.mem_visits {pe : Visit} (h : Charted m entriesOf) (hpe : pe ∈ visits m entriesOf) :
    ∃ blk ∈ blocksChecked m (inodesChecked m) 0, (3 ≤ blk ∧ blk < 128 ∧ Block m blk (entriesOf blk)) ∧
      pe ∈ placed (blk * EXT2_BLOCK_SIZE) (entriesOf blk) := by
  obtain ⟨blk, hblk, hin⟩ := List.mem_flatMap.mp hpe
  exact ⟨blk, hblk, h.blocks blk hblk, hin⟩

/-! ## The rule for all entries -/

/-- The checks of an entry. -/
def checkEntry (dirEnt : Nat) : Tool (BitVec 32) := do
  checkMatchingTypes dirEnt
  checkInodeBitmap dirEnt
  checkInodeDtime dirEnt
  checkDataBlockBitmap dirEnt

theorem checkBlockRound_eq (rest : Int) (p : Nat) (x : BitVec 32) : checkBlockRound (rest, p, x) =
    if rest > 0 then do
      let n ← checkEntry p
      let recLen ← loadWord 2 (p + 4)
      let recLen' ← loadWord 2 (p + 4)
      pure (.next (rest - recLen, p + recLen', x + n))
    else pure (.stop x) := by
  simp only [checkBlockRound, checkEntry, bind_assoc]

/-- What the checker reads on its way, it finds as it is on the image. -/
structure Readable (m : Memory) (V : List Visit) (s : State) : Prop where
  size : s.size = 128 * 1024
  table : s.indTable = tableAt m
  count : word s.disk 4 sInodesCount = total m .ind
  inodes : ∀ n ≤ total m .ind, inodeOf s n = inodeOn m n
  recLens : ∀ pe ∈ V, word s.disk 2 (pe.1 + 4) = pe.2.recLen

/-- `I` holds of the entries that have been checked, of what has been counted, and of the state. -/
structure Tour (m : Memory) (V : List Visit) (I : List Visit → BitVec 32 → State → Prop)
    (E : Halt → State → Prop) : Prop where
  readable : ∀ done x s, I done x s → Readable m V s
  entry : ∀ done x p e, (p, e) ∈ V → Triple (I done x) (checkEntry p) (fun y => I (done ++ [(p, e)]) (x + y)) E

namespace Tour

variable {I : List Visit → BitVec 32 → State → Prop} {E : Halt → State → Prop} (h : Tour m V I E)

include h

/-- A chain of entries. -/
theorem loop_checkBlockRound (done : List Visit) (x z : BitVec 32) (hchain : Chain entries m p es)
    (hsub : placed p es ⊆ V) (hmapped : p + sizes entries es ≤ 128 * 1024) (hfuel : es.length < fuel) :
    Triple (I done x) (loop .diverges checkBlockRound fuel ((sizes entries es : Int), p, z))
      (fun y s => ∃ z', y = z + z' ∧ I (done ++ placed p es) (x + z') s) E := by
  obtain ⟨fuel, rfl⟩ := Nat.exists_eq_succ_of_ne_zero (Nat.ne_zero_of_lt hfuel)
  induction es generalizing p fuel done x z with
  | nil =>
    intro s hI
    rw [loop_of_stop (by rw [checkBlockRound, if_neg (by simp), run_pure])]
    refine ⟨0#32, (BitVec.add_zero z).symm, ?_⟩
    rw [placed, List.append_nil, BitVec.add_zero]
    exact hI
  | cons e es ih =>
    obtain ⟨_, hvalid, hrest⟩ := hchain
    have hlen : 8 + e.nameLen ≤ e.recLen := hvalid
    obtain ⟨hmem, hsub'⟩ := List.cons_subset.mp hsub
    rw [sizes_cons, size_entries] at hmapped ⊢
    rw [List.length_cons] at hfuel
    obtain ⟨fuel, rfl⟩ := Nat.exists_eq_succ_of_ne_zero (n := fuel) (by omega)
    intro s hI
    have hround : (checkBlockRound (((e.recLen + sizes entries es : Nat) : Int), p, z)).run s =
        (checkEntry p >>= fun y => do
          let recLen ← loadWord 2 (p + 4)
          let recLen' ← loadWord 2 (p + 4)
          pure (.next (((e.recLen + sizes entries es : Nat) : Int) - recLen, p + recLen', z + y))).run s := by
      rw [checkBlockRound_eq, if_pos (by omega)]
    cases hentry : (checkEntry p).run s with
    | halted r s' =>
      rw [bind_halted hentry] at hround
      rw [loop_of_halted hround]
      exact (h.entry done x p e hmem).of_halted hI hentry
    | done y s' =>
      have hI' := (h.entry done x p e hmem).of_done hI hentry
      have hread := h.readable _ _ _ hI'
      have hload : (loadWord 2 (p + 4)).run s' = .done e.recLen s' := by
        rw [run_loadWord (by rw [hread.size]; omega), hread.recLens _ hmem]
      have hleft : ((e.recLen + sizes entries es : Nat) : Int) - e.recLen = sizes entries es := by omega
      rw [bind_done hentry, bind_done hload, bind_done hload, run_pure, hleft] at hround
      rw [loop_of_next hround]
      have hloop := ih (done ++ [(p, e)]) (x + y) (z + y) (p := p + e.recLen) hrest hsub' (by omega) fuel
        (by omega)
      refine hloop.weaken (fun _ h => h) (fun y' s'' hend => ?_) (fun _ _ h => h) s' hI'
      obtain ⟨z', rfl, hend⟩ := hend
      refine ⟨y + z', BitVec.add_assoc _ _ _, ?_⟩
      rw [placed, ← BitVec.add_assoc]
      rwa [List.append_assoc, List.singleton_append] at hend

/-- A block. -/
theorem run_checkBlock (done : List Visit) (x : BitVec 32) (hblk : blk < 128)
    (hblock : Block m blk es) (hsub : placed (blk * EXT2_BLOCK_SIZE) es ⊆ V) :
    Triple (I done x) (checkBlock blk)
      (fun y => I (done ++ placed (blk * EXT2_BLOCK_SIZE) es) (x + y)) E := by
  have h1024 : EXT2_BLOCK_SIZE = 1024 := rfl
  have hlen := hblock.1.length_le_sizes
  rw [hblock.2] at hlen
  have haddr : blockAddrU blk = blk * EXT2_BLOCK_SIZE := blockAddrU_of_lt (by rw [h1024]; omega)
  have hmapped : blk * EXT2_BLOCK_SIZE + sizes entries es ≤ 128 * 1024 := by
    rw [hblock.2, h1024]
    omega
  have hfuel : es.length < chainRounds := by
    rw [chainRounds]
    omega
  have hloop := h.loop_checkBlockRound done x 0#32 hblock.1 hsub hmapped hfuel
  rw [hblock.2, ← haddr] at hloop
  refine hloop.weaken (fun _ h => h) (fun y s hy => ?_) fun _ _ h => h
  obtain ⟨z', rfl, hI⟩ := hy
  rw [haddr] at hI
  rwa [BitVec.zero_add]

/-- The blocks of a directory, from a place in `i_block` on. -/
theorem loop_dirBlocksRound (done : List Visit) (fuel : Nat) {w : DirWalk}
    (hlen : inode.iBlock.length = 15) (hzero : inode.indirect = 0) (hw : w.iBlockIndex ≤ INDIRECT_BLK_INDEX)
    (hblks : blocksAt inode w.iBlockIndex = blks)
    (hblocks : ∀ blk ∈ blks, blk < 128 ∧ Block m blk (entriesOf blk)) (hsub : entriesIn entriesOf blks ⊆ V)
    (hfuel : blks.length < fuel) :
    Triple (I done w.fixed) (loop .diverges (dirBlocksRound inode) fuel (w, inode.iBlock.getD w.iBlockIndex 0))
      (fun w' s => w'.iBlockIndex = w.iBlockIndex + blks.length ∧ w'.iBlockIndex ≤ INDIRECT_BLK_INDEX ∧
        I (done ++ entriesIn entriesOf blks) w'.fixed s) E := by
  have h11 : INDIRECT_BLK_INDEX = 11 := rfl
  obtain ⟨fuel, rfl⟩ := Nat.exists_eq_succ_of_ne_zero (Nat.ne_zero_of_lt hfuel)
  have hin : w.iBlockIndex < inode.iBlock.length := by omega
  have hget : inode.iBlock.getD w.iBlockIndex 0 = inode.iBlock[w.iBlockIndex] := List.getD_eq_getElem _ 0 hin
  induction blks generalizing w done fuel with
  | nil =>
    have h0 : inode.iBlock.getD w.iBlockIndex 0 = 0 := by
      rw [blocksAt, List.drop_eq_getElem_cons hin, List.takeWhile_cons, ← hget] at hblks
      by_contra hne
      rw [if_pos (decide_eq_true hne)] at hblks
      cases hblks
    intro s hI
    rw [loop_of_stop (by rw [dirBlocksRound, if_neg (not_not.mpr h0), run_pure])]
    exact ⟨rfl, hw, by rwa [entriesIn, List.flatMap_nil, List.append_nil]⟩
  | cons blk blks ih =>
    rw [blocksAt, List.drop_eq_getElem_cons hin, List.takeWhile_cons, ← hget] at hblks
    split at hblks
    case isFalse => cases hblks
    case isTrue hne =>
      have hne' : inode.iBlock.getD w.iBlockIndex 0 ≠ 0 := of_decide_eq_true hne
      obtain ⟨hblk, hblks⟩ := List.cons.inj hblks
      have hlt : w.iBlockIndex < INDIRECT_BLK_INDEX := by
        refine lt_of_le_of_ne hw fun heq => hne' ?_
        rw [heq]
        exact hzero
      have hnext := iBlockAt_of_lt (show w.iBlockIndex + 1 < inode.iBlock.length by omega)
      rw [entriesIn, List.flatMap_cons] at hsub ⊢
      obtain ⟨hfirst, hrest⟩ := List.append_subset.mp hsub
      obtain ⟨h128, hblock⟩ := hblocks blk List.mem_cons_self
      rw [List.length_cons] at hfuel
      obtain ⟨fuel, rfl⟩ := Nat.exists_eq_succ_of_ne_zero (n := fuel) (by omega)
      intro s hI
      have hround : (dirBlocksRound inode (w, inode.iBlock.getD w.iBlockIndex 0)).run s =
          (checkBlock blk >>= fun y => Pure.pure (.next (
            { w with fixed := w.fixed + y, iBlockIndex := w.iBlockIndex + 1 },
            inode.iBlock.getD (w.iBlockIndex + 1) 0))).run s := by
        rw [dirBlocksRound, if_pos hne', hblk]
        dsimp only
        simp only [if_neg hlt.ne, hnext, Process.pure_bind]
      cases hcheck : (checkBlock blk).run s with
      | halted r s' =>
        rw [bind_halted hcheck] at hround
        rw [loop_of_halted hround]
        exact (h.run_checkBlock done w.fixed h128 hblock hfirst).of_halted hI hcheck
      | done y s' =>
        have hI' := (h.run_checkBlock done w.fixed h128 hblock hfirst).of_done hI hcheck
        rw [bind_done hcheck, run_pure] at hround
        rw [loop_of_next hround]
        have hloop := ih (done ++ placed (blk * EXT2_BLOCK_SIZE) (entriesOf blk))
          (w := { w with fixed := w.fixed + y, iBlockIndex := w.iBlockIndex + 1 }) hlt hblks
          (fun blk hblk => hblocks blk (List.mem_cons_of_mem _ hblk)) hrest fuel (by omega)
        refine (hloop (by dsimp only; omega) ?_).weaken (fun _ h => h) (fun w' s'' hend => ?_) (fun _ _ h => h)
          s' hI'
        · exact List.getD_eq_getElem _ 0 (by dsimp only; omega)
        · obtain ⟨hindex, hle, hend⟩ := hend
          rw [List.append_assoc] at hend
          rw [List.length_cons]
          exact ⟨by rw [hindex]; dsimp only; omega, hle, hend⟩

/-- The rest of the inodes. -/
theorem run_checkDirEntriesFrom (hlayout : Layout m) (done : List Visit) (n index : Nat) (w : DirWalk)
    (hw : w.iBlockIndex ≤ INDIRECT_BLK_INDEX) (hindex : index + n ≤ total m .ind)
    (hdirect : ∀ i ∈ List.range' (index + 1) n, (inodeOn m i).Checked → (inodeOn m i).indirect = 0)
    (hblocks : ∀ blk ∈ blocksChecked m (List.range' (index + 1) n) w.iBlockIndex,
      blk < 128 ∧ Block m blk (entriesOf blk))
    (hsub : entriesIn entriesOf (blocksChecked m (List.range' (index + 1) n) w.iBlockIndex) ⊆ V) :
    Triple (I done w.fixed) (checkDirEntriesFrom n index w)
      (I (done ++ entriesIn entriesOf (blocksChecked m (List.range' (index + 1) n) w.iBlockIndex))) E := by
  induction n generalizing index w done with
  | zero =>
    intro s hI
    rwa [List.range'_zero, blocksChecked, entriesIn, List.flatMap_nil, List.append_nil]
  | succ n ih =>
    have h11 : INDIRECT_BLK_INDEX = 11 := rfl
    rw [List.range'_succ, blocksChecked] at hblocks hsub ⊢
    rw [List.range'_succ] at hdirect
    have hdirect' := fun i hi => hdirect i (List.mem_cons_of_mem _ hi)
    intro s hI
    have hread := h.readable _ _ _ hI
    have hmapped : s.indTable + inodeSize * (index + 1) ≤ s.size := by
      have htable := hlayout.table.2
      have hmul : inodeSize * (index + 1) ≤ inodeSize * total m .ind := Nat.mul_le_mul_left _ (by omega)
      have h10 : EXT2_GOOD_OLD_FIRST_INO * EXT2_BLOCK_SIZE = 11 * 1024 := rfl
      rw [hread.table, hread.size]
      omega
    rw [checkDirEntriesFrom, bind_done (run_indTableAt_next hmapped), hread.inodes _ (by omega)]
    by_cases hchecked : (inodeOn m (index + 1)).Checked
    · rw [if_pos hchecked] at hblocks hsub ⊢
      have hzero := hdirect _ List.mem_cons_self hchecked
      have hlen : (inodeOn m (index + 1)).iBlock.length = 15 := by simp [inodeOn, decodeInode]
      have hshort := (List.takeWhile_prefix (p := fun v : Nat => decide (v ≠ 0))
        (l := (inodeOn m (index + 1)).iBlock.drop w.iBlockIndex)).length_le
      rw [← blocksAt, List.length_drop] at hshort
      rw [entriesIn, List.flatMap_append] at hsub ⊢
      obtain ⟨hfirst, hrest⟩ := List.append_subset.mp hsub
      have hget := iBlockAt_of_lt (show w.iBlockIndex < (inodeOn m (index + 1)).iBlock.length by omega)
      have hcond : (inodeOn m (index + 1)).iCtime ≠ 0 ∧ IS_DIR (inodeOn m (index + 1)).iMode = true := hchecked
      have htable : (inodeOn m (index + 1)).iBlock.getD INDIRECT_BLK_INDEX 0 = 0 := hzero
      have hloop := h.loop_dirBlocksRound done (s.size + 14) hlen hzero hw rfl
        (fun blk hblk => hblocks blk (List.mem_append_left _ hblk)) hfirst (by rw [hread.size]; omega)
      rw [if_pos hcond]
      dsimp only
      rw [htable, if_neg (by simp), hget, Process.pure_bind, run_get_bind]
      cases hrun : (loop .diverges (dirBlocksRound (inodeOn m (index + 1))) (s.size + 14)
          (w, (inodeOn m (index + 1)).iBlock.getD w.iBlockIndex 0)).run s with
      | halted r s' =>
        rw [bind_halted hrun]
        exact hloop.of_halted hI hrun
      | done w' s' =>
        rw [bind_done hrun]
        obtain ⟨hnext, hle, hI'⟩ := hloop.of_done hI hrun
        rw [← hnext] at hrest ⊢
        rw [← List.append_assoc]
        exact ih _ _ _ hle (by omega) hdirect'
          (fun blk hblk => hblocks blk (List.mem_append_right _ (hnext ▸ hblk))) hrest s' hI'
    · rw [if_neg hchecked] at hblocks hsub ⊢
      have hcond : ¬((inodeOn m (index + 1)).iCtime ≠ 0 ∧ IS_DIR (inodeOn m (index + 1)).iMode = true) := hchecked
      rw [if_neg hcond]
      exact ih done _ w hw (by omega) hdirect' hblocks hsub s hI

end Tour

/-- All checks, from the first entry to the last. -/
theorem Tour.run_checkDirEntries {I : List Visit → BitVec 32 → State → Prop} {E : Halt → State → Prop}
    (h : Tour m (visits m entriesOf) I E) (hlayout : Layout m) (hcharted : Charted m entriesOf)
    (hnumbers : EXT2_GOOD_OLD_FIRST_INO ≤ total m .ind) :
    Triple (I [] 0) checkDirEntries (I (visits m entriesOf)) E := by
  have h11 : EXT2_GOOD_OLD_FIRST_INO = 11 := rfl
  intro s hI
  have hread := h.readable _ _ _ hI
  have hmapped : sInodesCount + 4 ≤ s.size := by
    rw [hread.size]
    decide
  rw [checkDirEntries, bind_done (run_loadWord hmapped), hread.count]
  dsimp only
  rw [sub32_of_le hnumbers]
  have hrun := h.run_checkDirEntriesFrom hlayout []
    (total m .ind - EXT2_GOOD_OLD_FIRST_INO - EXT2_GOOD_OLD_FIRST_INO) EXT2_GOOD_OLD_FIRST_INO
    { iBlockIndex := 0, indirectBlockIndex := 0, indirectBlks := none, fixed := 0 }
    (Nat.zero_le _) (by omega) hcharted.direct (fun blk hblk => (hcharted.blocks blk hblk).2) (List.Subset.refl _)
  exact hrun s hI

end Ext2

-- SUMMARY: The walks over the blocks of an inode: they collect every block but the first, and the zero behind the last one.
import OperatingSystems.Ext2.Marks
import OperatingSystems.Library.Loops

/-!
# Walks

An inode refers to its blocks by eleven direct entries, an indirect block and the table in it. Read one
after the other, these numbers end with a zero. `rm_inode` and `restore_inode` go on to the next number
before they take one, and so leave out the first and take the zero.
-/

namespace Ext2

open Library Library.Process

variable {α : Type} {m : Memory} {s s' : State} {inode : Inode} {blocks bs : List Nat} {b : Bm} {i j k n v : Nat}

/-! ## The numbers in an inode -/

/-- The block that `i_block` has as the indirect one. -/
def Inode.indirect (inode : Inode) : Nat := inode.iBlock.getD INDIRECT_BLK_INDEX 0

/-- The numbers that an inode has, one after the other: the direct ones, the indirect block, and those
in the table. -/
def numIn (m : Memory) (inode : Inode) (j : Nat) : Nat :=
  if j ≤ INDIRECT_BLK_INDEX then inode.iBlock.getD j 0
  else word m 4 (inode.indirect * EXT2_BLOCK_SIZE + 4 * (j - (INDIRECT_BLK_INDEX + 1)))

/-- The table of an inode that uses its indirect block lies in the mapping, and has a zero. -/
def TableEnds (s : State) (inode : Inode) : Prop :=
  inode.blocks.length = INDIRECT_BLK_INDEX → inode.indirect ≠ 0 →
    inode.indirect * EXT2_BLOCK_SIZE + EXT2_BLOCK_SIZE ≤ s.size ∧
      ∃ q < EXT2_BLOCK_SIZE / 4, word s.disk 4 (inode.indirect * EXT2_BLOCK_SIZE + 4 * q) = 0

/-- The numbers of an inode end with a zero, and can be read up to there. -/
structure EndsAt (s : State) (inode : Inode) (k : Nat) : Prop where
  ne_zero : ∀ j < k, numIn s.disk inode j ≠ 0
  zero : numIn s.disk inode k = 0
  mapped : INDIRECT_BLK_INDEX < k →
    inode.indirect * EXT2_BLOCK_SIZE + 4 * (k - (INDIRECT_BLK_INDEX + 1)) + 4 ≤ s.size
  length : inode.iBlock.length = 15

/-- The values of a function, up to the first zero. -/
theorem takeWhile_map_range {f : Nat → Nat} (hk : k ≤ n) (hne : ∀ j < k, f j ≠ 0) (hzero : k < n → f k = 0) :
    ((List.range n).map f).takeWhile (· ≠ 0) = (List.range k).map f := by
  obtain ⟨r, rfl⟩ := Nat.exists_eq_add_of_le hk
  rw [List.range_add, List.map_append, List.takeWhile_append_of_pos]
  · cases r with
    | zero => simp
    | succ r =>
      have h0 := hzero (by omega)
      rw [List.range_succ_eq_map]
      simp [h0]
  · intro v hv
    obtain ⟨j, hj, rfl⟩ := List.mem_map.mp hv
    simpa using hne j (List.mem_range.mp hj)

theorem take_iBlock (hlen : inode.iBlock.length = 15) : inode.iBlock.take INDIRECT_BLK_INDEX =
    (List.range INDIRECT_BLK_INDEX).map (numIn m inode) := by
  have h11 : INDIRECT_BLK_INDEX = 11 := rfl
  refine List.ext_getElem (by simp; omega) fun j h1 h2 => ?_
  have hj : j < INDIRECT_BLK_INDEX := by simpa using h2
  rw [List.getElem_take, List.getElem_map, List.getElem_range, numIn, if_pos hj.le,
    List.getD_eq_getElem?_getD, List.getElem?_eq_getElem (by omega), Option.getD_some]

/-- The blocks that an inode refers to are its numbers up to the zero. -/
theorem EndsAt.blockRefs (h : EndsAt s inode k) (hk : k ≤ INDIRECT_BLK_INDEX + EXT2_BLOCK_SIZE / 4) :
    blockRefs s.disk inode = (List.range k).map (numIn s.disk inode) := by
  have h11 : INDIRECT_BLK_INDEX = 11 := rfl
  rw [Ext2.blockRefs, Inode.blocks, take_iBlock h.length]
  by_cases hle : k ≤ INDIRECT_BLK_INDEX
  · rw [takeWhile_map_range hle h.ne_zero fun _ => h.zero, if_neg, List.append_nil]
    rintro ⟨hlen, hne⟩
    obtain rfl : k = INDIRECT_BLK_INDEX := by simpa using hlen
    have hzero := h.zero
    rw [numIn, if_pos le_rfl] at hzero
    exact hne hzero
  · have hind := h.ne_zero INDIRECT_BLK_INDEX (by omega)
    rw [numIn, if_pos le_rfl] at hind
    rw [takeWhile_map_range le_rfl (fun j hj => h.ne_zero j (by omega)) (by omega),
      if_pos ⟨by simp, hind⟩]
    obtain ⟨r, rfl⟩ := Nat.exists_eq_add_of_le (show INDIRECT_BLK_INDEX + 1 ≤ k by omega)
    have hword : (fun q => word s.disk 4 (inode.iBlock.getD INDIRECT_BLK_INDEX 0 * EXT2_BLOCK_SIZE + 4 * q)) =
        fun q => numIn s.disk inode (INDIRECT_BLK_INDEX + 1 + q) := by
      funext q
      rw [numIn, if_neg (by omega), Nat.add_sub_cancel_left, Inode.indirect]
    dsimp only
    rw [hword]
    rw [takeWhile_map_range (by omega) (fun q hq => h.ne_zero _ (by omega)) fun _ => h.zero]
    rw [List.range_add, List.map_append, List.range_succ, List.map_append, List.append_assoc]
    simp [numIn, Inode.indirect]

/-- Where the numbers of an inode end. -/
theorem exists_endsAt (hlen : inode.iBlock.length = 15) (h : TableEnds s inode) :
    ∃ k ≤ INDIRECT_BLK_INDEX + EXT2_BLOCK_SIZE / 4, EndsAt s inode k := by
  have h11 : INDIRECT_BLK_INDEX = 11 := rfl
  have h256 : EXT2_BLOCK_SIZE / 4 = 256 := rfl
  -- If the direct numbers and the indirect block are all there, the zero is in the table.
  have hexists : ∃ k, k ≤ INDIRECT_BLK_INDEX + EXT2_BLOCK_SIZE / 4 ∧ numIn s.disk inode k = 0 ∧
      (INDIRECT_BLK_INDEX < k → inode.indirect * EXT2_BLOCK_SIZE + EXT2_BLOCK_SIZE ≤ s.size) := by
    by_cases hall : ∀ j ≤ INDIRECT_BLK_INDEX, inode.iBlock.getD j 0 ≠ 0
    · have hblocks : inode.blocks.length = INDIRECT_BLK_INDEX := by
        rw [Inode.blocks, @take_iBlock s.disk inode hlen, takeWhile_map_range le_rfl (fun j hj => ?_) (by omega)]
        · simp
        · rw [numIn, if_pos hj.le]
          exact hall j hj.le
      obtain ⟨hin, q, hq, hzero⟩ := h hblocks (hall _ le_rfl)
      refine ⟨INDIRECT_BLK_INDEX + 1 + q, by omega, ?_, fun _ => hin⟩
      rw [numIn, if_neg (by omega), Nat.add_sub_cancel_left, hzero]
    · push Not at hall
      obtain ⟨j, hj, hzero⟩ := hall
      refine ⟨j, by omega, ?_, fun _ => by omega⟩
      rw [numIn, if_pos hj, hzero]
  obtain ⟨k₀, hk₀, hzero₀, hin⟩ := hexists
  have hex : ∃ k, numIn s.disk inode k = 0 := ⟨k₀, hzero₀⟩
  have hle : Nat.find hex ≤ k₀ := Nat.find_le hzero₀
  refine ⟨Nat.find hex, by omega, fun j hj => Nat.find_min hex hj, Nat.find_spec hex, fun hlt => ?_, hlen⟩
  have hin' := hin (by omega)
  have h1024 : EXT2_BLOCK_SIZE = 1024 := rfl
  omega

/-! ## The walk of `rm_inode` and `restore_inode` -/

/-- The walk at a number of the inode. -/
def walkAt (m : Memory) (inode : Inode) (acc : List Nat) (j : Nat) : BlockWalk where
  iBlockIndex := min j INDIRECT_BLK_INDEX
  indirectBlockIndex := j - INDIRECT_BLK_INDEX
  blockNum := numIn m inode j
  blocks := acc

/-- Before the zero, the walk goes to the next number. -/
theorem EndsAt.run_next (h : EndsAt s inode k) (hsize : s.size ≤ 2 ^ 32) (hj : j < k) :
    ((walkAt s.disk inode bs j).next inode).run s = .done (walkAt s.disk inode bs (j + 1)) s := by
  have h11 : INDIRECT_BLK_INDEX = 11 := rfl
  rw [BlockWalk.next]
  by_cases hlt : j < INDIRECT_BLK_INDEX
  · have hi : (walkAt s.disk inode bs j).iBlockIndex = j := Nat.min_eq_left hlt.le
    have hget : iBlockAt inode (j + 1) = pure (numIn s.disk inode (j + 1)) := by
      have hlen := h.length
      rw [iBlockAt_of_lt (by omega), numIn, if_pos (by omega)]
    have hmin : min (j + 1) INDIRECT_BLK_INDEX = j + 1 := Nat.min_eq_left hlt
    have hsub : j + 1 - INDIRECT_BLK_INDEX = j - INDIRECT_BLK_INDEX := by omega
    rw [hi, if_neg (by omega), hget, Process.pure_bind, run_pure, walkAt, walkAt, hmin, hsub]
  · have hi : (walkAt s.disk inode bs j).iBlockIndex = INDIRECT_BLK_INDEX := Nat.min_eq_right (by omega)
    have hmapped := h.mapped (by omega)
    have haddr : blockAddrU (inode.iBlock.getD INDIRECT_BLK_INDEX 0) = inode.indirect * EXT2_BLOCK_SIZE := by
      refine blockAddrU_of_lt ?_
      rw [← Inode.indirect]
      omega
    have hind : (walkAt s.disk inode bs j).indirectBlockIndex = j - INDIRECT_BLK_INDEX := rfl
    rw [hi, if_pos rfl, haddr, hind, run_loadWord_bind (by omega), run_pure]
    have hmin : min (j + 1) INDIRECT_BLK_INDEX = INDIRECT_BLK_INDEX := by omega
    have hsub : j + 1 - INDIRECT_BLK_INDEX = j - INDIRECT_BLK_INDEX + 1 := by omega
    have hnum : numIn s.disk inode (j + 1) =
        word s.disk 4 (inode.indirect * EXT2_BLOCK_SIZE + 4 * (j - INDIRECT_BLK_INDEX)) := by
      rw [numIn, if_neg (by omega), Nat.add_sub_add_right]
    rw [walkAt, walkAt, hmin, hsub, hnum]

/-- From a number on, the walk collects those after it, and the zero. -/
theorem EndsAt.loop_collectRound {fuel : Nat} (h : EndsAt s inode k) (hsize : s.size ≤ 2 ^ 32) (hj : j ≤ k)
    (hfuel : k - j < fuel) :
    (loop .diverges (collectRound inode) fuel (walkAt s.disk inode bs j)).run s =
      .done (bs ++ (List.range' (j + 1) (k - j)).map (numIn s.disk inode)) s := by
  induction fuel generalizing j bs with
  | zero => omega
  | succ fuel ih =>
    by_cases hjk : j = k
    · subst hjk
      have hstop : (collectRound inode (walkAt s.disk inode bs j)).run s = .done (.stop bs) s := by
        have h0 : (walkAt s.disk inode bs j).blockNum = 0 := h.zero
        rw [collectRound, if_neg (not_not.mpr h0)]
        rfl
      rw [loop_of_stop hstop]
      simp
    · have hlt : j < k := by omega
      have hround : (collectRound inode (walkAt s.disk inode bs j)).run s =
          .done (.next (walkAt s.disk inode (bs ++ [numIn s.disk inode (j + 1)]) (j + 1))) s := by
        have hne : (walkAt s.disk inode bs j).blockNum ≠ 0 := h.ne_zero j hlt
        rw [collectRound, if_pos hne, bind_done (h.run_next hsize hlt)]
        rfl
      have hlen : k - j = k - (j + 1) + 1 := by omega
      rw [loop_of_next hround, ih (by omega) (by omega), hlen, List.range'_succ, List.map_cons,
        List.append_assoc, List.singleton_append]

/-- What `rm_inode` and `restore_inode` collect: all blocks but the first, and a zero. -/
theorem EndsAt.run_collect (h : EndsAt s inode k) (hsize : s.size ≤ 2 ^ 32)
    (hk : k ≤ INDIRECT_BLK_INDEX + EXT2_BLOCK_SIZE / 4) :
    (collect inode).run s = .done ((Ext2.blockRefs s.disk inode ++ [0]).tail) s := by
  have h11 : INDIRECT_BLK_INDEX = 11 := rfl
  have hstart : BlockWalk.start inode = walkAt s.disk inode [] 0 := rfl
  have hfuel : k - 0 < s.size + 13 := by
    by_cases hlt : INDIRECT_BLK_INDEX < k
    · have hmapped := h.mapped hlt
      omega
    · omega
  have hnums : Ext2.blockRefs s.disk inode ++ [0] = (List.range (k + 1)).map (numIn s.disk inode) := by
    rw [h.blockRefs hk, List.range_succ, List.map_append, List.map_singleton, h.zero]
  rw [collect, run_get_bind, hstart, h.loop_collectRound hsize (Nat.zero_le k) hfuel, List.nil_append, hnums,
    ← List.map_tail, List.range_eq_range', List.tail_range', Nat.add_sub_cancel,
    Nat.sub_zero]

/-! ## What the walks toggle and test -/

/-- Of the bits for blocks exactly those of the numbers are toggled, and the process does not go to a bit
outside the mapping, as that of 0 is. -/
def TogglesExactly (x : Tool α) (s : State) (bs : List Nat) : Prop :=
  (∀ s', x.run s ≠ .halted .fault s') ∧
    ∀ n, 1 ≤ n → n ≤ s.blksCount → (x.run s).state.used .blk n = (s.used .blk n ^^ decide (n ∈ bs))

/-- The walk of `check_data_block_bitmap` tests the bit for a number. -/
def Tests (s : State) (inode : Inode) (n : Nat) : Prop :=
  ∃ w w' s₁ s₂, Rounds (markRound inode) (.start inode) s w s₁ ∧ w.blockNum ≠ 0 ∧
    (w.next inode).run s₁ = .done w' s₂ ∧ w'.blockNum = n

/-- The walks go over exactly the blocks of the inode at an index of the table. -/
structure WalksExactly (s : State) (i : Nat) : Prop where
  rm : TogglesExactly (rmInode i) s (blockRefs s.disk (inodeOf s (i + 1)))
  restore : (∀ n ∈ blockRefs s.disk (inodeOf s (i + 1)), s.used .blk n = false) →
    TogglesExactly (restoreInode i) s (blockRefs s.disk (inodeOf s (i + 1)))
  check : ∀ dirEnt, dirEnt + 4 ≤ s.size → word s.disk 4 dirEnt = i →
    (∃ r s', (checkDataBlockBitmap dirEnt).run s = .done r s') ∧
      ∀ n, Tests s (inodeOf s (i + 1)) n ↔ n ∈ blockRefs s.disk (inodeOf s (i + 1))

/-- The bits can only be toggled up to one outside the mapping. -/
theorem toggleBits_halted {sysBm : Nat} {e : Halt} (h : (toggleBits sysBm bs).run s = .halted e s') :
    e = .fault := by
  induction bs generalizing s with
  | nil => cases h
  | cons n bs ih =>
    rcases bind_eq_halted.mp h with h | ⟨_, s₁, _, h⟩
    · rcases bind_eq_halted.mp h with h | ⟨byte, s₁, _, h⟩
      · rw [loadByte, run_get_bind] at h
        split at h
        · cases h
        · cases h
          rfl
      · rw [storeByte, run_get_bind] at h
        split at h
        · cases h
        · cases h
          rfl
    · exact ih h

/-- Among the numbers there must be no zero. -/
theorem setNToggleBit_zero (b : Bm) (bs : List Nat) (setFlag : Nat) (hsize : s.size ≤ 2 ^ 29 - 1) :
    ∃ s', (setNToggleBit b (bs ++ [0]) setFlag).run s = .halted .fault s' := by
  rw [setNToggleBit, List.getLast?_concat]
  dsimp only
  rw [run_get_bind]
  cases h : (toggleBits (s.bmap b).sysBm (bs ++ [0])).run s with
  | done _ s' => exact absurd h (toggleBits_zero (by simp) hsize)
  | halted e s' =>
    rw [bind_halted h, toggleBits_halted h]
    exact ⟨s', rfl⟩

theorem togglesExactly_nil {x : Tool α} {e : Halt} (h : x.run s = .halted e s) (he : e ≠ .fault) :
    TogglesExactly x s [] := by
  rw [TogglesExactly, h]
  refine ⟨fun s' hfault => ?_, fun n _ _ => ?_⟩
  · cases hfault
    exact he rfl
  · simp [Outcome.state]

section

variable (hsize : s.size ≤ 2 ^ 29 - 1) (hmapped : s.indTable + inodeSize * (i + 1) ≤ s.size)
  (hends : TableEnds s (inodeOf s (i + 1)))

include hsize hmapped hends

/-- `rm_inode` of an inode with blocks goes to the bit of 0. -/
theorem run_rmInode_fault (hne : blockRefs s.disk (inodeOf s (i + 1)) ≠ []) :
    ∃ s', (rmInode i).run s = .halted .fault s' := by
  obtain ⟨k, hk, h⟩ := exists_endsAt length_iBlock hends
  have hcollect := h.run_collect (by omega) hk
  rw [List.tail_append_of_ne_nil hne] at hcollect
  obtain ⟨s', hfault⟩ := setNToggleBit_zero .blk (blockRefs s.disk (inodeOf s (i + 1))).tail 0 hsize
  refine ⟨s', ?_⟩
  rw [rmInode, bind_done (run_indTableAt_next hmapped), bind_done hcollect, bind_halted hfault]

/-- An inode without blocks: none of the walks does anything. -/
theorem walksExactly_of_nil (hnil : blockRefs s.disk (inodeOf s (i + 1)) = []) : WalksExactly s i := by
  obtain ⟨k, hk, h⟩ := exists_endsAt length_iBlock hends
  have hrefs := h.blockRefs hk
  have hzero : (inodeOf s (i + 1)).iBlock.getD 0 0 = 0 := by
    have hk0 : k = 0 := by
      rw [hnil] at hrefs
      simpa using hrefs.symm
    have hnum := h.zero
    rwa [hk0, numIn, if_pos (Nat.zero_le _)] at hnum
  have hcollect := h.run_collect (by omega) hk
  rw [hnil] at hcollect
  have hassert : ∀ setFlag, (setNToggleBit .blk [] setFlag).run s = .halted .assertion s := fun _ => rfl
  refine ⟨?_, fun _ => ?_, fun dirEnt hentry hnum => ?_⟩
  · rw [hnil]
    refine togglesExactly_nil (e := .assertion) ?_ (by simp)
    rw [rmInode, bind_done (run_indTableAt_next hmapped), bind_done hcollect]
    exact bind_halted (hassert 0)
  · rw [hnil]
    have hcheck : ∀ fuel, (loop .diverges (checkFreeRound (inodeOf s (i + 1))) (fuel + 1)
        (.start (inodeOf s (i + 1)))).run s = .done true s := by
      intro fuel
      have hstart : (BlockWalk.start (inodeOf s (i + 1))).blockNum = 0 := hzero
      refine loop_of_stop ?_
      rw [checkFreeRound, if_neg (not_not.mpr hstart), run_pure]
    refine togglesExactly_nil (e := .assertion) ?_ (by simp)
    rw [restoreInode, bind_done (run_indTableAt_next hmapped), run_get_bind, bind_done (hcheck _), if_pos rfl,
      bind_done hcollect]
    exact bind_halted (hassert 1)
  · have hstart : (MarkWalk.start (inodeOf s (i + 1))).blockNum = 0 := hzero
    constructor
    · subst hnum
      rw [run_checkDataBlockBitmap hentry hmapped]
      have hstop : (loop .diverges (markRound (nextInode s dirEnt)) (s.size + 13 + 1)
          (.start (nextInode s dirEnt))).run s = .done 0 s := by
        have hstart : (MarkWalk.start (nextInode s dirEnt)).blockNum = 0 := hzero
        refine loop_of_stop ?_
        rw [markRound, if_neg (not_not.mpr hstart)]
        rfl
      exact ⟨_, _, bind_done hstop⟩
    · intro n
      rw [hnil]
      refine iff_of_false ?_ (List.not_mem_nil)
      rintro ⟨w, w', s₁, s₂, hrounds, hne, _⟩
      -- The walk ends before its first round.
      have hsame := hrounds.invariant (I := fun w _ => w.blockNum = 0) hstart fun w s w' s' hw hround => by
        rw [markRound, if_neg (not_not.mpr hw)] at hround
        cases hround
      exact hne hsame

/-- The walks go over exactly the blocks of an inode if and only if it has none. -/
theorem walksExactly_iff : WalksExactly s i ↔ blockRefs s.disk (inodeOf s (i + 1)) = [] := by
  refine ⟨fun h => ?_, walksExactly_of_nil hsize hmapped hends⟩
  by_contra hne
  obtain ⟨s', hfault⟩ := run_rmInode_fault hsize hmapped hends hne
  exact h.rm.1 s' hfault

end

/-! ## Two inodes of a disk with a file -/

/-- The inode at index 12 has no blocks. -/
theorem walksExactly_withFile : WalksExactly .withFile 12 ∧ blockRefs fileDisk (inodeOf .withFile 13) = [] := by
  have hiff := @walksExactly_iff .withFile 12 (by decide) (by decide) fun h => absurd h (by decide +kernel)
  have hnil : blockRefs fileDisk (inodeOf .withFile 13) = [] := by decide +kernel
  exact ⟨hiff.mpr hnil, hnil⟩

/-- The file, at index 11, has a single block. `rm_inode` collects the zero behind it alone. -/
theorem not_walksExactly_withFile :
    blockRefs fileDisk (inodeOf .withFile 12) = [11] ∧ TableEnds .withFile (inodeOf .withFile 12) ∧
      (collect (inodeOf .withFile 12)).run .withFile = .done [0] .withFile ∧ ¬WalksExactly .withFile 11 := by
  have hrefs : blockRefs fileDisk (inodeOf .withFile 12) = [11] := by decide +kernel
  have hends : TableEnds .withFile (inodeOf .withFile 12) := fun h => absurd h (by decide +kernel)
  refine ⟨hrefs, hends, ?_, fun h => ?_⟩
  · obtain ⟨k, hk, hat⟩ := exists_endsAt length_iBlock hends
    have hcollect := hat.run_collect (by decide) hk
    have hrefs' : blockRefs State.withFile.disk (inodeOf .withFile 12) = [11] := hrefs
    rwa [hrefs'] at hcollect
  · obtain ⟨s', hfault⟩ := @run_rmInode_fault .withFile 11 (by decide) (by decide) hends fun hnil => by
      have hrefs' : blockRefs State.withFile.disk (inodeOf .withFile 12) = [11] := hrefs
      rw [hrefs'] at hnil
      cases hnil
    exact h.rm.1 s' hfault

end Ext2

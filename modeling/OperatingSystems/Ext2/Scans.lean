-- SUMMARY: When the walks along the entries of a block end and stay in it: exactly if no rec_len on the way is zero or leads to the block's last bytes.
import OperatingSystems.Ext2.Lookups
import OperatingSystems.Ext2.Marks
import OperatingSystems.Library.Loops

/-!
# Scans

Each walk goes from entry to entry by what the block says about their sizes. A size of zero keeps it at
its entry forever, and a size that leads to the last bytes of the block makes it read beyond them. The
checker changes the types of entries on its way.
-/

namespace Ext2

open Library Library.Process Library.Records

variable {α : Type} {m : Memory} {s s' s₀ : State} {b : Bm} {base blk p q n : Nat} {inode : Inode}

/-! ## Parts that do not run forever -/

theorem fault_ne_diverges : Halt.fault ≠ .diverges := by simp

theorem assertion_ne_diverges : Halt.assertion ≠ .diverges := by simp

theorem exit_ne_diverges {e : Nat} : Halt.exit e ≠ .diverges := by simp

theorem never_loadWord (w a : Nat) : Never .diverges (loadWord w a) :=
  .bind (.bind .get fun _ => .ite (.pure _) (.halt fault_ne_diverges)) fun _ => .pure _

theorem never_storeWord (w a v : Nat) : Never .diverges (storeWord w a v) :=
  .bind .get fun _ => .ite (.modify _) (.halt fault_ne_diverges)

theorem never_loadByte (a : Nat) : Never .diverges (loadByte a) :=
  .bind .get fun _ => .ite (.pure _) (.halt fault_ne_diverges)

theorem never_storeByte (a : Nat) (v : Byte) : Never .diverges (storeByte a v) :=
  .bind .get fun _ => .ite (.modify _) (.halt fault_ne_diverges)

theorem never_testBit (sysBm i j : Nat) : Never .diverges (testBit sysBm i j) :=
  .bind (never_loadByte _) fun _ => .pure _

theorem never_indTableAt (i : Int) : Never .diverges (indTableAt i) :=
  .bind .get fun _ => .ite (.pure _) (.halt fault_ne_diverges)

theorem never_iBlockAt (inode : Inode) (i : Nat) : Never .diverges (iBlockAt inode i) := by
  rw [iBlockAt]
  cases inode.iBlock[i]? with
  | none => exact .halt fault_ne_diverges
  | some v => exact .pure _

theorem never_strncmpEq (bs : List Byte) (a n : Nat) : Never .diverges (strncmpEq bs a n) := by
  induction n generalizing bs a with
  | zero =>
    rw [strncmpEq]
    exact .pure _
  | succ n ih =>
    cases bs with
    | nil => exact .bind (never_loadByte _) fun _ => .pure _
    | cons b bs => exact .bind (never_loadByte _) fun _ => .ite (ih _ _) (.pure _)

theorem never_toggleBits (sysBm : Nat) (ns : List Nat) : Never .diverges (toggleBits sysBm ns) := by
  induction ns with
  | nil => exact .pure _
  | cons n ns ih => exact .bind (.bind (never_loadByte _) fun _ => never_storeByte _ _) fun _ => ih

/-- The search for a free number leaves the mapping at the latest. -/
theorem never_findFree (bm : Bitmap) : Never .diverges (findFree bm) := by
  refine .ite (.halt exit_ne_diverges) fun s s' => ?_
  rw [run_get_bind, Cursor.start_eq]
  refine loop_ne_halted (I := fun (p : Cursor × Nat) s₁ => s₁ = s ∧ 1 ≤ p.2 ∧ p.1 = .ofNum p.2)
    (d := fun p => 8 * s.size + 1 - p.2) (fun p s₁ hI => ?_) ⟨rfl, by decide, rfl⟩ ?_
  · obtain ⟨rfl, h1, hcursor⟩ := hI
    refine ⟨Never.bind (never_testBit _ _ _) (fun _ => .ite (.pure _) (.pure _)) _, fun p' s₂ hround => ?_⟩
    obtain ⟨used, s₃, htest, h₂⟩ := bind_eq_done.mp hround
    obtain ⟨byte, s₄, hload, hbit⟩ := bind_eq_done.mp htest
    obtain ⟨hin, _, rfl⟩ := loadByte_done hload
    cases hbit
    rw [hcursor] at hin
    have hin' : bm.sysBm + (p.2 - 1) / 8 < s₃.size := hin
    have hless : 8 * s₃.size + 1 - (p.2 + 1) < 8 * s₃.size + 1 - p.2 := by omega
    split at h₂
    · cases h₂
      refine ⟨⟨rfl, by omega, ?_⟩, hless⟩
      rw [hcursor, Cursor.next_ofNum h1]
    · cases h₂
  · have h11 : EXT2_GOOD_OLD_FIRST_INO = 11 := rfl
    omega

theorem never_updateCursor (b : Bm) : Never .diverges (updateCursor b) :=
  .bind .get fun _ => .ite (.bind (never_findFree _) fun _ => .modify _) (.modify _)

theorem never_setNToggleBit (b : Bm) (ns : List Nat) (setFlag : Nat) :
    Never .diverges (setNToggleBit b ns setFlag) := by
  rw [setNToggleBit]
  cases ns.getLast? with
  | none => exact .halt assertion_ne_diverges
  | some n =>
    refine .bind .get fun _ => .bind (never_toggleBits _ _) fun _ => .ite ?_ (.halt assertion_ne_diverges)
    exact .bind (.modify _) fun _ => never_updateCursor b

theorem never_next (inode : Inode) (w : MarkWalk) : Never .diverges (w.next inode) := by
  refine .ite (.bind (never_iBlockAt _ _) fun table => .ite (.halt fault_ne_diverges) ?_) ?_
  · exact .bind (never_loadWord _ _) fun _ => .pure _
  · exact .bind (never_iBlockAt _ _) fun _ => .pure _

/-! ## The parts of the check of an entry -/

/-- Outside the block at an address, and at a byte of it, the disk may have changed. -/
def Kept (base a : Nat) (s₀ s : State) : Prop :=
  Unmoved s₀ s ∧ ∀ j, base ≤ j → j < base + EXT2_BLOCK_SIZE → j ≠ a → s.disk j = s₀.disk j

theorem Kept.refl {a : Nat} (s : State) : Kept base a s s := ⟨.refl s, fun _ _ _ _ => rfl⟩

/-- What is known while an entry is checked: how it may end is left open. -/
abbrev Keeps (base a : Nat) (s₀ : State) (x : Tool α) : Prop :=
  Triple (Kept base a s₀) x (fun _ => Kept base a s₀) fun _ _ => True

section

variable {a w v : Nat}

theorem keeps_of_readOnly {x : Tool α} (h : ReadOnly x) : Keeps base a s₀ x :=
  Triple.of_readOnly h fun _ _ _ => trivial

theorem keeps_storeWord {k : Nat} (h : ∀ j, k ≤ j → j < k + w → j < base ∨ base + EXT2_BLOCK_SIZE ≤ j ∨ j = a) :
    Keeps base a s₀ (storeWord w k v) := by
  intro s hs
  by_cases hin : k + w ≤ s.size
  · rw [run_storeWord hin]
    refine ⟨hs.1.trans .disk, fun j h1 h2 hne => ?_⟩
    rw [← hs.2 j h1 h2 hne]
    refine if_neg fun hj => ?_
    rw [length_leBytes] at hj
    rcases h j hj.1 hj.2 with hlt | hge | heq
    · omega
    · omega
    · exact hne heq
  · rw [storeWord, run_storeBytes_fault (by rwa [length_leBytes])]
    trivial

theorem keeps_assignAll {vs : List Nat} : Keeps base a s₀ (assignAll a vs) := by
  induction vs with
  | nil => exact .pure fun _ h => h
  | cons v vs ih => exact .bind (keeps_storeWord fun j _ _ => by omega) fun _ => ih

theorem keeps_setNToggleBit (hsize : s₀.size ≤ 2 ^ 29 - 1)
    (hapart : (s₀.bmap b).sysBm + 16 ≤ base ∨ base + EXT2_BLOCK_SIZE ≤ (s₀.bmap b).sysBm) :
    Keeps base a s₀ (setNToggleBit b [n] 1) := by
  intro s hs
  have hsingle := @setNToggleBit_single s b n (by rwa [hs.1.size]) 1
  cases h : (setNToggleBit b [n] 1).run s with
  | halted e s' => trivial
  | done _ s' =>
    obtain ⟨hrange, hdisk, hs'⟩ := hsingle.of_done rfl h
    refine ⟨hs.1.trans hs', fun j h1 h2 hne => ?_⟩
    have hsysBm := hs.1.sysBm b
    rw [hdisk, ← hs.2 j h1 h2 hne]
    refine Function.update_of_ne ?_ _ _
    omega

/-- Of the block, the check of the types changes the type at most. -/
theorem keeps_checkMatchingTypes : Keeps base (p + 7) s₀ (checkMatchingTypes p) := by
  refine .bind (keeps_of_readOnly (readOnly_loadWord _ _)) fun inode => ?_
  refine .bind (keeps_of_readOnly (readOnly_indTableAt _)) fun currentInode => ?_
  refine .bind (keeps_of_readOnly (readOnly_loadWord _ _)) fun fileType => ?_
  refine .bind (keeps_of_readOnly (readOnly_getDirectoryEntryType _)) fun dirEntType => ?_
  refine .bind (keeps_of_readOnly (readOnly_getInodeType _)) fun inodeType => ?_
  split
  · exact keeps_assignAll
  · exact .pure fun _ h => h

/-- What the walks rely on: the mapping is an image, the block lies in it, behind the group descriptor
and beside the bitmaps. -/
structure Placed (s : State) (blk : Nat) : Prop where
  size : s.size = 128 * EXT2_BLOCK_SIZE
  mapped : 3 ≤ blk ∧ blk < 128
  apart : ∀ b, (s.bmap b).sysBm + 16 ≤ blk * EXT2_BLOCK_SIZE ∨
    (blk + 1) * EXT2_BLOCK_SIZE ≤ (s.bmap b).sysBm

theorem Placed.bounds (h : Placed s blk) :
    3 * 1024 ≤ blk * EXT2_BLOCK_SIZE ∧ blk * EXT2_BLOCK_SIZE + EXT2_BLOCK_SIZE ≤ s.size ∧ s.size = 131072 := by
  have hmapped := h.mapped
  have hsize := h.size
  unfold EXT2_BLOCK_SIZE at hsize ⊢
  omega

theorem Placed.toggle (h : Placed s₀ blk) :
    Keeps (blk * EXT2_BLOCK_SIZE) a s₀ (setNToggleBit b [n] 1) := by
  have hbase := h.bounds
  have hapart := h.apart b
  rw [Nat.add_mul, Nat.one_mul] at hapart
  exact keeps_setNToggleBit (by omega) hapart

theorem keeps_checkInodeBitmap (h : Placed s₀ blk) :
    Keeps (blk * EXT2_BLOCK_SIZE) a s₀ (checkInodeBitmap p) := by
  have hbase := h.bounds
  have h3072 : ∀ w k, k + w ≤ 3 * 1024 → ∀ v, Keeps (blk * EXT2_BLOCK_SIZE) a s₀ (storeWord w k v) :=
    fun w k hw v => keeps_storeWord fun j _ _ => by omega
  refine .bind (keeps_of_readOnly .get) fun s => .bind (keeps_of_readOnly (readOnly_loadWord _ _)) fun inode => ?_
  refine .bind (keeps_of_readOnly (readOnly_checkBit _ _)) fun used => ?_
  split
  · exact .pure fun _ h => h
  · refine .bind h.toggle fun _ => .bind (keeps_of_readOnly (readOnly_loadWord _ _)) fun bgFreeInodes => ?_
    refine .bind (h3072 _ _ (by decide) _) fun _ => .bind (keeps_of_readOnly (readOnly_loadWord _ _)) fun _ => ?_
    exact h3072 _ _ (by decide) _

theorem keeps_checkInodeDtime : Keeps base a s₀ (checkInodeDtime p) :=
  .bind (keeps_of_readOnly (readOnly_loadWord _ _)) fun _ =>
    .bind (keeps_of_readOnly (readOnly_indTableAt _)) fun _ => .pure fun _ h => h

theorem readOnly_markNext (inode : Inode) (w : MarkWalk) : ReadOnly (w.next inode) := by
  refine .ite (.bind (readOnly_iBlockAt _ _) fun table => .ite (.halt _) ?_) ?_
  · exact .bind (readOnly_loadWord _ _) fun _ => .pure _
  · exact .bind (readOnly_iBlockAt _ _) fun _ => .pure _

theorem keeps_markRound (h : Placed s₀ blk) (w : MarkWalk) :
    Keeps (blk * EXT2_BLOCK_SIZE) a s₀ (markRound inode w) := by
  rw [markRound]
  split
  · refine .bind (keeps_of_readOnly (readOnly_markNext _ _)) fun w => .bind (keeps_of_readOnly .get) fun s => ?_
    refine .bind (keeps_of_readOnly (readOnly_checkBit _ _)) fun used => ?_
    split
    · exact .pure fun _ h => h
    · exact .bind h.toggle fun _ => .pure fun _ h => h
  · exact .pure fun _ h => h

theorem keeps_checkDataBlockBitmap (h : Placed s₀ blk) :
    Keeps (blk * EXT2_BLOCK_SIZE) a s₀ (checkDataBlockBitmap p) := by
  refine .bind (keeps_of_readOnly (readOnly_loadWord _ _)) fun inode => ?_
  refine .bind (keeps_of_readOnly (readOnly_indTableAt _)) fun currentInode => ?_
  refine .bind (keeps_of_readOnly .get) fun s => .bind ?_ fun blockCount => .pure fun _ h => h
  refine Triple.loop (I := fun _ => Kept (blk * EXT2_BLOCK_SIZE) a s₀) (fun w => ?_)
    (fun _ _ _ => trivial) _ _
  exact (keeps_markRound h w).weaken (fun _ h => h) (fun r s h => by cases r <;> exact h) fun _ _ h => h

/-! ## The check of an entry ends -/

theorem never_assignAll {vs : List Nat} : Never .diverges (assignAll a vs) := by
  induction vs with
  | nil => exact .pure _
  | cons v vs ih => exact .bind (never_storeWord _ _ _) fun _ => ih

theorem never_checkMatchingTypes : Never .diverges (checkMatchingTypes p) := by
  refine .bind (never_loadWord _ _) fun inode => .bind (never_indTableAt _) fun currentInode => ?_
  refine .bind (never_loadWord _ _) fun fileType => .bind ?_ fun dirEntType => .bind ?_ fun inodeType => ?_
  · exact .ite (.pure _) (.ite (.pure _) (.ite (.pure _) (.ite (.pure _) (.halt exit_ne_diverges))))
  · exact .ite (.pure _) (.ite (.pure _) (.ite (.pure _) (.halt exit_ne_diverges)))
  · exact .ite never_assignAll (.pure _)

theorem never_checkInodeBitmap : Never .diverges (checkInodeBitmap p) := by
  refine .bind .get fun s => .bind (never_loadWord _ _) fun inode => .bind (never_testBit _ _ _) fun used => ?_
  refine .ite (.pure _) (.bind (never_setNToggleBit _ _ _) fun _ => .bind (never_loadWord _ _) fun _ => ?_)
  exact .bind (never_storeWord _ _ _) fun _ => .bind (never_loadWord _ _) fun _ => never_storeWord _ _ _

theorem never_checkInodeDtime : Never .diverges (checkInodeDtime p) :=
  .bind (never_loadWord _ _) fun _ => .bind (never_indTableAt _) fun _ => .pure _

theorem never_markRound (w : MarkWalk) : Never .diverges (markRound inode w) := by
  refine .ite (.bind (never_next _ _) fun w => .bind .get fun s => .bind (never_testBit _ _ _) fun used => ?_)
    (.pure _)
  exact .ite (.pure _) (.bind (never_setNToggleBit _ _ _) fun _ => .pure _)

/-- What is left of the walk over the blocks of an inode. -/
def MarkWalk.left (size : Nat) (w : MarkWalk) : Nat :=
  INDIRECT_BLK_INDEX - w.iBlockIndex + (size + 1 - w.indirectBlockIndex)

theorem left_at {size v : Nat} {w : MarkWalk} (h : w.iBlockIndex ≤ INDIRECT_BLK_INDEX)
    (hv : w.numAt m size inode = some v) :
    (w.at v).iBlockIndex ≤ INDIRECT_BLK_INDEX ∧ (w.at v).left size < w.left size := by
  rw [MarkWalk.numAt] at hv
  rw [MarkWalk.at]
  by_cases hi : w.iBlockIndex = INDIRECT_BLK_INDEX
  · rw [if_pos hi] at hv ⊢
    dsimp only at hv
    split at hv
    · refine ⟨h, ?_⟩
      simp only [MarkWalk.left]
      omega
    · cases hv
  · rw [if_neg hi]
    refine ⟨by simp only; omega, ?_⟩
    simp only [MarkWalk.left]
    omega

/-- A round of the walk goes to the next number, in a mapping of the same size. -/
theorem markRound_next (hsize : s.size ≤ 2 ^ 29 - 1) {w w' : MarkWalk}
    (h : (markRound inode w).run s = .done (.next w') s') :
    s'.size = s.size ∧ ∃ v k, w.numAt s.disk s.size inode = some v ∧ w' = { w.at v with blockCount := k } := by
  rw [markRound] at h
  split at h
  · obtain ⟨w₁, s₁, hnext, h₁⟩ := bind_eq_done.mp h
    rw [run_next] at hnext
    cases hv : w.numAt s.disk s.size inode with
    | none =>
      rw [hv] at hnext
      cases hnext
    | some v =>
      rw [hv] at hnext
      cases hnext
      rw [run_get_bind] at h₁
      obtain ⟨u, s₂, htest, h₂⟩ := bind_eq_done.mp h₁
      obtain ⟨_, rfl⟩ := checkBit_done htest
      split at h₂
      · cases h₂
        exact ⟨rfl, v, _, rfl, rfl⟩
      · obtain ⟨_, s₃, htoggle, h₃⟩ := bind_eq_done.mp h₂
        cases h₃
        obtain ⟨_, _, hs⟩ := (setNToggleBit_single hsize).of_done rfl htoggle
        exact ⟨hs.size, v, _, rfl, rfl⟩
  · cases h

theorem checkDataBlockBitmap_ne_diverges (hsize : s.size ≤ 2 ^ 29 - 1) :
    (checkDataBlockBitmap p).run s ≠ .halted .diverges s' := by
  intro h
  rcases bind_eq_halted.mp h with h | ⟨num, s₁, hload, h₁⟩
  · exact never_loadWord _ _ _ _ h
  rcases bind_eq_halted.mp h₁ with h | ⟨currentInode, s₂, htable, h₂⟩
  · exact never_indTableAt _ _ _ h
  obtain rfl := (readOnly_loadWord _ _).of_done hload
  obtain rfl := (readOnly_indTableAt _).of_done htable
  rw [run_get_bind] at h₂
  rcases bind_eq_halted.mp h₂ with h | ⟨_, _, _, h⟩
  · refine loop_ne_halted (I := fun (w : MarkWalk) s₁ => s₁.size = s₂.size ∧ w.iBlockIndex ≤ INDIRECT_BLK_INDEX)
      (d := MarkWalk.left s₂.size) (fun w s₁ hI => ⟨never_markRound w s₁, fun w' s₃ hround => ?_⟩)
      ⟨rfl, Nat.zero_le _⟩ ?_ h
    · obtain ⟨hsize', v, k, hv, rfl⟩ := markRound_next (by omega) hround
      rw [hI.1] at hv hsize'
      exact ⟨⟨hsize', (left_at hI.2 hv).1⟩, (left_at hI.2 hv).2⟩
    · have h11 : INDIRECT_BLK_INDEX = 11 := rfl
      simp only [MarkWalk.left]
      omega
  · cases h

end

/-! ## The walks along a block -/

/-- `rec_len` of the entry at an address. -/
def recLenAt (m : Memory) (p : Nat) : Nat := word m 2 (p + 4)

/-- The entries that a walk comes to before it has gone over a block. -/
inductive Visited (m : Memory) (base : Nat) : Nat → Prop where
  | start : Visited m base base
  | next {p : Nat} (h : Visited m base p) (hlt : p + recLenAt m p < base + EXT2_BLOCK_SIZE) :
      Visited m base (p + recLenAt m p)

/-- The header of an entry lies in the block. -/
def Inside (base p : Nat) : Prop := base ≤ p ∧ p + 8 ≤ base + EXT2_BLOCK_SIZE

/-- The walks end, and each entry that one of them has yet to look at has its header in the block. -/
structure Scans (s : State) (blk : Nat) : Prop where
  lookupEnds : ∀ name s', (checkBlockForDir blk name).run s ≠ .halted .diverges s'
  lookupInside : ∀ name q s',
    Rounds (checkBlockForDirRound name) ((EXT2_BLOCK_SIZE : Int), blk * EXT2_BLOCK_SIZE) s q s' →
      q.1 > 0 → Inside (blk * EXT2_BLOCK_SIZE) q.2
  lastEnds : ∀ s', (lastEntry blk).run s ≠ .halted .diverges s'
  lastInside : ∀ q s', Rounds lastEntryRound ((EXT2_BLOCK_SIZE : Int) - recLenAt s.disk (blk * EXT2_BLOCK_SIZE),
      blk * EXT2_BLOCK_SIZE) s q s' →
    q.1 > 0 → Inside (blk * EXT2_BLOCK_SIZE) q.2 ∧
      Inside (blk * EXT2_BLOCK_SIZE) (q.2 + recLenAt s'.disk q.2)
  checkEnds : ∀ s', (checkBlock blk).run s ≠ .halted .diverges s'
  checkInside : ∀ q s', Rounds checkBlockRound ((EXT2_BLOCK_SIZE : Int), blk * EXT2_BLOCK_SIZE, 0) s q s' →
    q.1 > 0 → Inside (blk * EXT2_BLOCK_SIZE) q.2.1

/-- Each entry on the way has its header in the block, and a size other than zero. -/
def InOrder (m : Memory) (base : Nat) : Prop :=
  ∀ p, Visited m base p → p + 8 ≤ base + EXT2_BLOCK_SIZE ∧ recLenAt m p ≠ 0

/-- The type of no entry on the way is part of the size of another one. -/
def TypesApart (m : Memory) (base : Nat) : Prop :=
  ∀ p q, Visited m base p → Visited m base q → p + 7 ≠ q + 4 ∧ p + 7 ≠ q + 5

theorem Visited.le (h : Visited m base p) : base ≤ p := by
  induction h with
  | start => exact le_rfl
  | next _ _ ih => omega

/-- A walk is at an entry on the way, or has gone over the block. -/
def OnWay (m : Memory) (base : Nat) (rest : Int) (p : Nat) : Prop :=
  rest = (base : Int) + EXT2_BLOCK_SIZE - p ∧ (rest > 0 → Visited m base p)

theorem OnWay.start : OnWay m base EXT2_BLOCK_SIZE base := ⟨by omega, fun _ => .start⟩

/-- From an entry in order, a walk comes nearer to the end of the block. -/
theorem OnWay.step {rest : Int} (h : OnWay m base rest p) (horder : InOrder m base) (hrest : rest > 0) :
    Inside base p ∧ OnWay m base (rest - recLenAt m p) (p + recLenAt m p) ∧
      base + EXT2_BLOCK_SIZE - (p + recLenAt m p) < base + EXT2_BLOCK_SIZE - p := by
  have hvisited := h.2 hrest
  obtain ⟨hin, hne⟩ := horder p hvisited
  have heq := h.1
  refine ⟨⟨hvisited.le, hin⟩, ⟨by push_cast; omega, fun _ => .next hvisited (by omega)⟩, by omega⟩

section

variable (hplaced : Placed s blk)

include hplaced

theorem Placed.blockAddr : (blockAddr blk).run s = .done (blk * EXT2_BLOCK_SIZE) s := by
  have hmapped := hplaced.mapped
  rw [Ext2.blockAddr, if_pos (by omega), run_pure]

theorem Placed.blockAddrU : blockAddrU blk = blk * EXT2_BLOCK_SIZE := by
  have hbounds := hplaced.bounds
  exact blockAddrU_of_lt (by omega)

end

theorem checkBlockForDirRound_next {name : Name} {q q' : Int × Nat}
    (h : (checkBlockForDirRound name q).run s = .done (.next q') s') :
    s' = s ∧ q.1 > 0 ∧ q' = (q.1 - recLenAt s.disk q.2, q.2 + recLenAt s.disk q.2) := by
  rw [checkBlockForDirRound] at h
  split at h
  · rename_i hrest
    obtain ⟨nameLen, s₁, hlen, h₁⟩ := bind_eq_done.mp h
    obtain ⟨eq, s₂, heq, h₂⟩ := bind_eq_done.mp h₁
    obtain rfl := (readOnly_loadWord _ _).of_done hlen
    obtain rfl := (readOnly_strncmpEq _ _ _).of_done heq
    split at h₂
    · obtain ⟨_, _, _, h₃⟩ := bind_eq_done.mp h₂
      cases h₃
    · obtain ⟨recLen, s₃, hrec, h₃⟩ := bind_eq_done.mp h₂
      obtain ⟨_, rfl, rfl⟩ := loadWord_done hrec
      cases h₃
      exact ⟨rfl, hrest, rfl⟩
  · cases h

theorem never_checkBlockForDirRound {name : Name} (q : Int × Nat) :
    Never .diverges (checkBlockForDirRound name q) := by
  refine .ite (.bind (never_loadWord _ _) fun _ => .bind (never_strncmpEq _ _ _) fun _ => .ite ?_ ?_) (.pure _)
  · exact .bind (never_loadWord _ _) fun _ => .pure _
  · exact .bind (never_loadWord _ _) fun _ => .pure _

theorem lastEntryRound_next {q q' : Int × Nat} (h : (lastEntryRound q).run s = .done (.next q') s') :
    s' = s ∧ q.1 > 0 ∧
      q' = (q.1 - recLenAt s.disk (q.2 + recLenAt s.disk q.2), q.2 + recLenAt s.disk q.2) := by
  rw [lastEntryRound] at h
  split at h
  · rename_i hrest
    obtain ⟨recLen, s₁, hload, h₁⟩ := bind_eq_done.mp h
    obtain ⟨recLen', s₂, hload', h₂⟩ := bind_eq_done.mp h₁
    obtain ⟨_, rfl, rfl⟩ := loadWord_done hload
    obtain ⟨_, rfl, rfl⟩ := loadWord_done hload'
    cases h₂
    exact ⟨rfl, hrest, rfl⟩
  · cases h

theorem run_lastEntryRound {q : Int × Nat} (hrest : q.1 > 0) (h : q.2 + 6 ≤ s.size)
    (h' : q.2 + recLenAt s.disk q.2 + 6 ≤ s.size) :
    (lastEntryRound q).run s = .done (.next (q.1 - recLenAt s.disk (q.2 + recLenAt s.disk q.2),
      q.2 + recLenAt s.disk q.2)) s := by
  rw [recLenAt] at h'
  rw [lastEntryRound, if_pos hrest, run_loadWord_bind (by omega), run_loadWord_bind (by omega), run_pure]
  rfl

theorem never_lastEntryRound (q : Int × Nat) : Never .diverges (lastEntryRound q) :=
  .ite (.bind (never_loadWord _ _) fun _ => .bind (never_loadWord _ _) fun _ => .pure _) (.pure _)

/-- What the first three checks of an entry change of the block. -/
theorem Placed.kept {s₁ s₂ : State} (hplaced : Placed s blk) (htypes : (checkMatchingTypes p).run s = .done () s₁)
    (hinode : (checkInodeBitmap p).run s₁ = .done () s₂) (hdtime : (checkInodeDtime p).run s₂ = .done () s') :
    Kept (blk * EXT2_BLOCK_SIZE) (p + 7) s s' := by
  have hkept₁ : Kept (blk * EXT2_BLOCK_SIZE) (p + 7) s s₁ :=
    keeps_checkMatchingTypes.of_done (.refl s) htypes
  have hkept₂ := (keeps_checkInodeBitmap hplaced).of_done hkept₁ hinode
  exact keeps_checkInodeDtime.of_done hkept₂ hdtime

/-- A round of the check goes on by the size that the entry has then. Of the block, the type of the
entry has changed at most. -/
theorem Placed.checkBlockRound_next (hplaced : Placed s blk) {q q' : Int × Nat × BitVec 32}
    (h : (checkBlockRound q).run s = .done (.next q') s') :
    Kept (blk * EXT2_BLOCK_SIZE) (q.2.1 + 7) s s' ∧ q.1 > 0 ∧
      ∃ n, q' = (q.1 - recLenAt s'.disk q.2.1, q.2.1 + recLenAt s'.disk q.2.1, n) := by
  rw [checkBlockRound] at h
  split at h
  · rename_i hrest
    obtain ⟨_, s₁, htypes, h₁⟩ := bind_eq_done.mp h
    obtain ⟨_, s₂, hinode, h₂⟩ := bind_eq_done.mp h₁
    obtain ⟨_, s₃, hdtime, h₃⟩ := bind_eq_done.mp h₂
    obtain ⟨n, s₄, hblocks, h₄⟩ := bind_eq_done.mp h₃
    obtain ⟨recLen, s₅, hload, h₅⟩ := bind_eq_done.mp h₄
    obtain ⟨recLen', s₆, hload', h₆⟩ := bind_eq_done.mp h₅
    have hkept := hplaced.kept htypes hinode hdtime
    have hkept' := (keeps_checkDataBlockBitmap hplaced).of_done hkept hblocks
    obtain ⟨_, rfl, rfl⟩ := loadWord_done hload
    obtain ⟨_, rfl, rfl⟩ := loadWord_done hload'
    cases h₆
    exact ⟨hkept', hrest, _, rfl⟩
  · cases h

/-- No round of the check runs forever. -/
theorem Placed.checkBlockRound_ne_diverges (hplaced : Placed s blk) {q : Int × Nat × BitVec 32} :
    (checkBlockRound q).run s ≠ .halted .diverges s' := by
  intro h
  rw [checkBlockRound] at h
  split at h
  · rcases bind_eq_halted.mp h with h | ⟨_, s₁, htypes, h₁⟩
    · exact never_checkMatchingTypes _ _ h
    rcases bind_eq_halted.mp h₁ with h | ⟨_, s₂, hinode, h₂⟩
    · exact never_checkInodeBitmap _ _ h
    rcases bind_eq_halted.mp h₂ with h | ⟨_, s₃, hdtime, h₃⟩
    · exact never_checkInodeDtime _ _ h
    have hkept := hplaced.kept htypes hinode hdtime
    have hsize := hkept.1.size
    have hbounds := hplaced.bounds
    rcases bind_eq_halted.mp h₃ with h | ⟨n, s₄, hblocks, h₄⟩
    · exact checkDataBlockBitmap_ne_diverges (by omega) h
    · exact Never.bind (never_loadWord _ _) (fun _ => .bind (never_loadWord _ _) fun _ => .pure _) _ _ h₄
  · cases h

/-! ## When the walks end in the block -/

theorem Placed.unmoved (h : Placed s blk) (hs : Unmoved s s') : Placed s' blk :=
  ⟨hs.size.trans h.size, h.mapped, fun b => by rw [hs.sysBm b]; exact h.apart b⟩

/-- The sizes of the entries on the way are those of the block at first. -/
def SameWay (m : Memory) (base : Nat) (s : State) : Prop := ∀ p, Visited m base p → recLenAt s.disk p = recLenAt m p

theorem SameWay.kept (h : SameWay m base s) (horder : InOrder m base) (hapart : TypesApart m base)
    (hp : Visited m base p) (hs : Kept base (p + 7) s s') : SameWay m base s' := by
  intro q hq
  rw [← h q hq]
  refine word_congr fun j h1 h2 => hs.2 j (by have := hq.le; omega) ?_ ?_
  · have := (horder q hq).1
    omega
  · have := hapart p q hp hq
    omega

/-- A search for a name is on the way. -/
def LookupWay (s : State) (base : Nat) (q : Int × Nat) (s' : State) : Prop :=
  s' = s ∧ OnWay s.disk base q.1 q.2

/-- A search for the last entry is one entry behind. -/
def LastWay (s : State) (base : Nat) (q : Int × Nat) (s' : State) : Prop :=
  s' = s ∧ OnWay s.disk base (q.1 + recLenAt s.disk q.2) q.2

/-- A check is on the way, and has changed no size. -/
def CheckWay (m : Memory) (blk : Nat) (q : Int × Nat × BitVec 32) (s : State) : Prop :=
  Placed s blk ∧ SameWay m (blk * EXT2_BLOCK_SIZE) s ∧ OnWay m (blk * EXT2_BLOCK_SIZE) q.1 q.2.1

/-- How far it is to the end of a block. -/
def toEnd (base p : Nat) : Nat := base + EXT2_BLOCK_SIZE - p

theorem toEnd_lt_chainRounds : toEnd base base < chainRounds := by
  simp only [toEnd, chainRounds]
  omega

theorem LookupWay.step {name : Name} {s₁ s₂ : State} {q q' : Int × Nat} (h : LookupWay s base q s₁)
    (horder : InOrder s.disk base) (hround : (checkBlockForDirRound name q).run s₁ = .done (.next q') s₂) :
    LookupWay s base q' s₂ ∧ toEnd base q'.2 < toEnd base q.2 := by
  obtain ⟨rfl, hway⟩ := h
  obtain ⟨rfl, hrest, rfl⟩ := checkBlockForDirRound_next hround
  obtain ⟨_, hway', hless⟩ := hway.step horder hrest
  exact ⟨⟨rfl, hway'⟩, hless⟩

theorem LastWay.inside {s₁ : State} {q : Int × Nat} (h : LastWay s base q s₁) (horder : InOrder s.disk base)
    (hrest : q.1 > 0) : Inside base q.2 ∧ Inside base (q.2 + recLenAt s₁.disk q.2) := by
  obtain ⟨rfl, hway⟩ := h
  obtain ⟨hin, hway', _⟩ := hway.step horder (by omega)
  rw [Int.add_sub_cancel] at hway'
  exact ⟨hin, (hway'.step horder hrest).1⟩

theorem LastWay.step {s₁ s₂ : State} {q q' : Int × Nat} (h : LastWay s base q s₁)
    (horder : InOrder s.disk base) (hround : (lastEntryRound q).run s₁ = .done (.next q') s₂) :
    LastWay s base q' s₂ ∧ toEnd base q'.2 < toEnd base q.2 := by
  obtain ⟨rfl, hway⟩ := h
  obtain ⟨rfl, hrest, rfl⟩ := lastEntryRound_next hround
  obtain ⟨_, hway', hless⟩ := hway.step horder (by omega)
  refine ⟨⟨rfl, ?_⟩, hless⟩
  rw [Int.add_sub_cancel] at hway'
  rwa [Int.sub_add_cancel]

theorem CheckWay.step {q q' : Int × Nat × BitVec 32} (h : CheckWay m blk q s)
    (horder : InOrder m (blk * EXT2_BLOCK_SIZE)) (hapart : TypesApart m (blk * EXT2_BLOCK_SIZE))
    (hround : (checkBlockRound q).run s = .done (.next q') s') :
    CheckWay m blk q' s' ∧ toEnd (blk * EXT2_BLOCK_SIZE) q'.2.1 < toEnd (blk * EXT2_BLOCK_SIZE) q.2.1 := by
  obtain ⟨hplaced, hsame, hway⟩ := h
  obtain ⟨hkept, hrest, n, rfl⟩ := hplaced.checkBlockRound_next hround
  have hvisited := hway.2 hrest
  have hsame' := hsame.kept horder hapart hvisited hkept
  obtain ⟨_, hway', hless⟩ := hway.step horder hrest
  rw [← hsame' _ hvisited] at hway' hless
  exact ⟨⟨hplaced.unmoved hkept.1, hsame', hway'⟩, hless⟩

/-- On a block in order all walks end, and stay in the block. -/
theorem scans_of_inOrder (hplaced : Placed s blk) (horder : InOrder s.disk (blk * EXT2_BLOCK_SIZE))
    (hapart : TypesApart s.disk (blk * EXT2_BLOCK_SIZE)) : Scans s blk where
  lookupEnds name s' := by
    rw [checkBlockForDir, bind_done hplaced.blockAddr]
    exact loop_ne_halted (I := LookupWay s (blk * EXT2_BLOCK_SIZE)) (d := fun q => toEnd (blk * EXT2_BLOCK_SIZE) q.2)
      (fun q s₁ hI => ⟨never_checkBlockForDirRound q s₁, fun _ _ h => hI.step horder h⟩) ⟨rfl, .start⟩
      toEnd_lt_chainRounds
  lookupInside name q s' h hrest := by
    have hI := h.invariant (I := LookupWay s (blk * EXT2_BLOCK_SIZE)) ⟨rfl, .start⟩
      fun _ _ _ _ hI h => (hI.step horder h).1
    exact (hI.2.step horder hrest).1
  lastEnds s' := by
    have hbounds := hplaced.bounds
    have h1024 : EXT2_BLOCK_SIZE = 1024 := rfl
    rw [lastEntry, bind_done hplaced.blockAddr, run_loadWord_bind (by omega)]
    exact loop_ne_halted (I := LastWay s (blk * EXT2_BLOCK_SIZE)) (d := fun q => toEnd (blk * EXT2_BLOCK_SIZE) q.2)
      (fun q s₁ hI => ⟨never_lastEntryRound q s₁, fun _ _ h => hI.step horder h⟩)
      ⟨rfl, by rw [← recLenAt, Int.sub_add_cancel]; exact .start⟩ toEnd_lt_chainRounds
  lastInside q s' h hrest := by
    have hI := h.invariant (I := LastWay s (blk * EXT2_BLOCK_SIZE))
      ⟨rfl, by rw [Int.sub_add_cancel]; exact .start⟩ fun _ _ _ _ hI h => (hI.step horder h).1
    exact hI.inside horder hrest
  checkEnds s' := by
    rw [checkBlock, hplaced.blockAddrU]
    exact loop_ne_halted (I := CheckWay s.disk blk) (d := fun q => toEnd (blk * EXT2_BLOCK_SIZE) q.2.1)
      (fun q s₁ hI => ⟨fun _ => hI.1.checkBlockRound_ne_diverges, fun _ _ h => hI.step horder hapart h⟩)
      ⟨hplaced, fun _ _ => rfl, .start⟩ toEnd_lt_chainRounds
  checkInside q s' h hrest := by
    have hI := h.invariant (I := CheckWay s.disk blk) ⟨hplaced, fun _ _ => rfl, .start⟩
      fun _ _ _ _ hI h => (hI.step horder hapart h).1
    exact (hI.2.2.step horder hrest).1

/-! ## When they do not -/

/-- The search for the last entry comes to each entry on the way. -/
theorem Scans.rounds (h : Scans s blk) (hplaced : Placed s blk) (hp : Visited s.disk (blk * EXT2_BLOCK_SIZE) p) :
    Inside (blk * EXT2_BLOCK_SIZE) p ∧
      Rounds lastEntryRound ((EXT2_BLOCK_SIZE : Int) - recLenAt s.disk (blk * EXT2_BLOCK_SIZE),
        blk * EXT2_BLOCK_SIZE) s
        ((blk * EXT2_BLOCK_SIZE : Nat) + (EXT2_BLOCK_SIZE : Int) - p - recLenAt s.disk p, p) s := by
  have h1024 : EXT2_BLOCK_SIZE = 1024 := rfl
  induction hp with
  | start =>
    refine ⟨⟨le_rfl, by omega⟩, ?_⟩
    rw [add_sub_cancel_left]
    exact .refl
  | @next p hp hlt ih =>
    obtain ⟨hin, hrounds⟩ := ih
    have hbounds := hplaced.bounds
    have hnext := h.lastInside _ _ hrounds (by simp only; omega)
    obtain ⟨_, hin₁⟩ := hnext.1
    obtain ⟨_, hin₂⟩ := hnext.2
    have hround := run_lastEntryRound (q := ((blk * EXT2_BLOCK_SIZE : Nat) + (EXT2_BLOCK_SIZE : Int) - p -
      recLenAt s.disk p, p)) (s := s) (by simp only; omega) (by simp only at hin₁ ⊢; omega)
      (by simp only at hin₂ ⊢; omega)
    refine ⟨hnext.2, .next hrounds ?_⟩
    rw [hround]
    have hrest : ((blk * EXT2_BLOCK_SIZE : Nat) + (EXT2_BLOCK_SIZE : Int) - p - recLenAt s.disk p) =
        (blk * EXT2_BLOCK_SIZE : Nat) + (EXT2_BLOCK_SIZE : Int) - (p + recLenAt s.disk p : Nat) := by
      omega
    simp only [hrest]

/-- If the search for the last entry ends and stays in the block, the block is in order. -/
theorem Scans.inOrder (h : Scans s blk) (hplaced : Placed s blk) : InOrder s.disk (blk * EXT2_BLOCK_SIZE) := by
  intro p hp
  obtain ⟨hin, hrounds⟩ := h.rounds hplaced hp
  refine ⟨hin.2, fun h0 => ?_⟩
  have hbounds := hplaced.bounds
  have h1024 : EXT2_BLOCK_SIZE = 1024 := rfl
  have hin' := hin.2
  have hround := run_lastEntryRound (q := ((blk * EXT2_BLOCK_SIZE : Nat) + (EXT2_BLOCK_SIZE : Int) - p -
    recLenAt s.disk p, p)) (s := s) (by simp only; omega) (by simp only; omega) (by simp only; omega)
  -- An entry of size zero is its own next one.
  have hstuck : (lastEntryRound ((blk * EXT2_BLOCK_SIZE : Nat) + (EXT2_BLOCK_SIZE : Int) - p -
      recLenAt s.disk p, p)).run s = .done (.next ((blk * EXT2_BLOCK_SIZE : Nat) + (EXT2_BLOCK_SIZE : Int) - p -
      recLenAt s.disk p, p)) s := by
    simp only [h0, Nat.add_zero, Nat.cast_zero, sub_zero] at hround ⊢
    exact hround
  obtain ⟨s', hloop⟩ := loop_of_stuck (e := Halt.diverges) (n := chainRounds) hrounds hstuck
  refine h.lastEnds s' ?_
  rw [lastEntry, bind_done hplaced.blockAddr, run_loadWord_bind (by omega)]
  exact hloop

/-- On a block in order all walks end, and stay in the block; and only then, up to entries whose types
are part of the sizes of others. -/
theorem scans_up_to_types (hplaced : Placed s blk) :
    (InOrder s.disk (blk * EXT2_BLOCK_SIZE) ∧ TypesApart s.disk (blk * EXT2_BLOCK_SIZE) → Scans s blk) ∧
      (Scans s blk → InOrder s.disk (blk * EXT2_BLOCK_SIZE)) :=
  ⟨fun h => scans_of_inOrder hplaced h.1 h.2, fun h => h.inOrder hplaced⟩

/-! ## Blocks that are chains of entries -/

/-- A walk over a block that is a chain comes to its entries only. -/
theorem Visited.split {es : List DirEntry} (hblock : Block m blk es) (h : Visited m (blk * EXT2_BLOCK_SIZE) p) :
    ∃ es₁ e es₂, es = es₁ ++ e :: es₂ ∧ p = blk * EXT2_BLOCK_SIZE + sizes entries es₁ := by
  induction h with
  | start =>
    obtain ⟨e, es₂, rfl⟩ := List.exists_cons_of_ne_nil hblock.ne_nil
    exact ⟨[], e, es₂, rfl, (Nat.add_zero _).symm⟩
  | @next p _ hlt ih =>
    obtain ⟨es₁, e, es₂, rfl, rfl⟩ := ih
    obtain ⟨_, hread, _, _⟩ := Chain.append.mp hblock.1
    have hrec : recLenAt m (blk * EXT2_BLOCK_SIZE + sizes entries es₁) = e.recLen :=
      congrArg DirEntry.recLen hread
    have hsizes := hblock.2
    rw [hrec] at hlt ⊢
    rw [sizes_append, sizes_cons, size_entries] at hsizes
    cases es₂ with
    | nil =>
      rw [sizes_nil] at hsizes
      omega
    | cons e' es₂ =>
      refine ⟨es₁ ++ [e], e', es₂, by simp, ?_⟩
      rw [sizes_append, sizes_cons, sizes_nil, size_entries]
      omega

/-- What a walk over a chain knows of the entry it is at. -/
theorem Visited.recLen {es : List DirEntry} (hblock : Block m blk es)
    (h : Visited m (blk * EXT2_BLOCK_SIZE) p) :
    8 ≤ recLenAt m p ∧ p + recLenAt m p ≤ blk * EXT2_BLOCK_SIZE + EXT2_BLOCK_SIZE := by
  obtain ⟨es₁, e, es₂, rfl, rfl⟩ := h.split hblock
  obtain ⟨_, hread, hvalid, _⟩ := Chain.append.mp hblock.1
  have hrec : recLenAt m (blk * EXT2_BLOCK_SIZE + sizes entries es₁) = e.recLen :=
    congrArg DirEntry.recLen hread
  have hvalid' : 8 + e.nameLen ≤ e.recLen := hvalid
  have hsizes := hblock.2
  rw [sizes_append, sizes_cons, size_entries] at hsizes
  omega

theorem inOrder_of_block {es : List DirEntry} (h : Block m blk es) : InOrder m (blk * EXT2_BLOCK_SIZE) := by
  intro p hp
  have hrec := hp.recLen h
  omega

/-- The entries that a walk over a chain comes to lie a header apart. -/
theorem Visited.apart {es : List DirEntry} (h : Block m blk es) (hp : Visited m (blk * EXT2_BLOCK_SIZE) p)
    (hq : Visited m (blk * EXT2_BLOCK_SIZE) q) (hlt : p < q) : p + 8 ≤ q := by
  have hrec := (hp.recLen h).1
  obtain ⟨es₁, e, es₂, rfl, rfl⟩ := hp.split h
  obtain ⟨fs₁, f, fs₂, heq, rfl⟩ := hq.split h
  obtain ⟨_, hread, _, _⟩ := Chain.append.mp h.1
  have hsize : recLenAt m (blk * EXT2_BLOCK_SIZE + sizes entries es₁) = e.recLen :=
    congrArg DirEntry.recLen hread
  rcases List.append_eq_append_iff.mp heq with ⟨as, rfl, htail⟩ | ⟨as, rfl, _⟩
  · cases as with
    | nil => simp at hlt
    | cons a as =>
      obtain ⟨rfl, _⟩ := List.cons.inj htail
      rw [sizes_append, sizes_cons, size_entries]
      omega
  · rw [sizes_append] at hlt
    omega

theorem typesApart_of_block {es : List DirEntry} (h : Block m blk es) :
    TypesApart m (blk * EXT2_BLOCK_SIZE) := by
  intro p q hp hq
  rcases Nat.lt_trichotomy p q with hlt | rfl | hgt
  · have hapart := hp.apart h hq hlt
    omega
  · omega
  · omega

theorem placed_empty (h : 6 ≤ blk ∧ blk < 128) : Placed .empty blk where
  size := rfl
  mapped := by omega
  apart b := by
    have hsysBm : (State.empty.bmap b).sysBm ≤ 4096 := by cases b <;> decide
    unfold EXT2_BLOCK_SIZE
    omega

/-- The walks over the block of the root directory end, and stay in it. -/
theorem scans_root : Scans .empty 9 ∧ InOrder emptyDisk (9 * EXT2_BLOCK_SIZE) := by
  have hblock : Block emptyDisk 9 rootEntries := (List.forall₂_cons.mp listing_root).1
  have hiff := scans_up_to_types (@placed_empty 9 (by decide))
  have hscans := hiff.1 ⟨inOrder_of_block hblock, typesApart_of_block hblock⟩
  exact ⟨hscans, hiff.2 hscans⟩

/-! ## A block as `ext2_mkdir` leaves it -/

/-- The empty disk with the two entries that `mk_new_dir_inode` writes to the first free block. -/
def State.madeDir : State :=
  { State.empty with
    disk := Memory.store (Memory.store emptyDisk (11 * EXT2_BLOCK_SIZE)
        (entryBytes 2 (TRUE_FILE_SIZE 2) 2 EXT2_FT_REG_FILE [0x2E, 0x2E])) (11 * EXT2_BLOCK_SIZE + TRUE_FILE_SIZE 2)
      (entryBytes 12 (TRUE_FILE_SIZE 1) 1 EXT2_FT_REG_FILE [0x2E]) }

theorem placed_madeDir : Placed .madeDir 11 where
  size := rfl
  mapped := by decide
  apart b := (@placed_empty 11 (by decide)).apart b

/-- Behind the two entries, the size of the next one is zero. -/
theorem not_scans_madeDir : Placed .madeDir 11 ∧ ¬Scans .madeDir 11 := by
  refine ⟨placed_madeDir, fun h => ?_⟩
  have hstart : Visited State.madeDir.disk (11 * EXT2_BLOCK_SIZE) (11 * EXT2_BLOCK_SIZE) := .start
  have hnext := hstart.next (by decide +kernel)
  have hlast := hnext.next (by decide +kernel)
  exact (h.inOrder placed_madeDir _ hlast).2 (by decide +kernel)

end Ext2

-- SUMMARY: Numbers tested one after the other: either nothing is toggled, or a free one is left behind.
import OperatingSystems.Ext2.Checks

/-!
# Drifts

The checker toggles a number if the next one is free. This next one is then free until another number is
toggled. So where it has toggled any number at all, it would do so again in a second run. This holds over
all checks of all entries, as long as none of them writes over what the others go by.
-/

namespace Ext2

open Library Library.Process Library.Records

variable {m d d' d₀ : Memory} {a k n : Nat} {ns ws : List Nat}

/-! ## Numbers of a bitmap -/

/-- Numbers have been tested in the bitmap at an address, and `k` of them toggled. If there are none of
these, all the numbers were found in order, and else one has been tested whose next number is free. -/
def Drift (a : Nat) (d₀ : Memory) (ns : List Nat) (k : Nat) (d : Memory) : Prop :=
  (k = 0 ∧ (∀ j, a ≤ j → j < a + EXT2_BLOCK_SIZE → d j = d₀ j) ∧ ∀ n ∈ ns, used d a (n + 1) = true) ∨
    0 < k ∧ ∃ n ∈ ns, used d a (n + 1) = false

namespace Drift

theorem nil : Drift a d [] 0 d := .inl ⟨rfl, fun _ _ _ => rfl, fun _ h => absurd h List.not_mem_nil⟩

theorem used_congr (hn : n ≤ 128) (hd : ∀ j, a ≤ j → j < a + EXT2_BLOCK_SIZE → d' j = d j) :
    used d' a (n + 1) = used d a (n + 1) := by
  have h1024 : EXT2_BLOCK_SIZE = 1024 := rfl
  rw [used, used, hd _ (by omega) (by omega)]

/-- What happens outside of the bitmap does not matter. -/
theorem congr (h : Drift a d₀ ns k d) (hns : ∀ n ∈ ns, n ≤ 128)
    (hd : ∀ j, a ≤ j → j < a + EXT2_BLOCK_SIZE → d' j = d j) : Drift a d₀ ns k d' := by
  rcases h with ⟨rfl, hsame, hused⟩ | ⟨hpos, n, hn, hfree⟩
  · refine .inl ⟨rfl, fun j h1 h2 => (hd j h1 h2).trans (hsame j h1 h2), fun n hn => ?_⟩
    rw [used_congr (hns n hn) hd]
    exact hused n hn
  · refine .inr ⟨hpos, n, hn, ?_⟩
    rw [used_congr (hns n hn) hd]
    exact hfree

theorem test (h : Drift a d₀ ns k d) (hused : used d a (n + 1) = true) : Drift a d₀ (ns ++ [n]) k d := by
  rcases h with ⟨rfl, hsame, hall⟩ | ⟨hpos, n', hn', hfree⟩
  · exact .inl ⟨rfl, hsame, List.forall_mem_append.mpr ⟨hall, by simpa using hused⟩⟩
  · exact .inr ⟨hpos, n', List.mem_append_left _ hn', hfree⟩

theorem toggle (h : used d a (n + 1) = false) (hn : 1 ≤ n) : Drift a d₀ (ns ++ [n]) (k + 1) (flip d a n) := by
  refine .inr ⟨Nat.succ_pos k, n, List.mem_append_right _ (List.mem_singleton_self n), ?_⟩
  rw [used_flip hn (by omega), h, decide_eq_false (by omega)]
  rfl

/-- A walk over numbers, which all can be toggled. -/
theorem walk (h : Drift a d₀ ns k d) (hrange : ∀ n ∈ toggledBy d a ws, 9 ≤ n ∧ n ≤ 128) :
    Drift a d₀ (ns ++ ws) (k + (toggledBy d a ws).length) (flips d a (toggledBy d a ws)) := by
  induction ws generalizing ns k d with
  | nil => simpa [toggledBy] using h
  | cons w ws ih =>
    rw [List.append_cons]
    rw [toggledBy] at hrange ⊢
    cases hused : used d a (w + 1) with
    | true =>
      rw [hused, if_pos rfl] at hrange
      rw [if_pos rfl]
      exact ih (h.test hused) hrange
    | false =>
      rw [hused, if_neg (by decide)] at hrange
      have hw := hrange w List.mem_cons_self
      rw [if_pos hw] at hrange
      rw [if_neg (by decide), if_pos hw, List.length_cons, flips_cons, Nat.add_comm _ 1, ← Nat.add_assoc]
      exact ih (toggle hused (by omega)) fun n hn => hrange n (List.mem_cons_of_mem _ hn)

/-- Without a number to toggle, all of them are found in order, and the bitmap is as it was. -/
theorem of_zero (h : Drift a d₀ ns 0 d) :
    (∀ j, a ≤ j → j < a + EXT2_BLOCK_SIZE → d j = d₀ j) ∧ ∀ n ∈ ns, used d a (n + 1) = true := by
  rcases h with ⟨_, hsame, hused⟩ | ⟨hpos, _⟩
  · exact ⟨hsame, hused⟩
  · cases hpos

/-- What has been found in order is not toggled. -/
theorem eq_zero (h : Drift a d₀ ns k d) (hused : ∀ n ∈ ns, used d a (n + 1) = true) : k = 0 := by
  rcases h with ⟨rfl, _⟩ | ⟨_, n, hn, hfree⟩
  · rfl
  · rw [hused n hn] at hfree
    cases hfree

end Drift

theorem length_toggledBy_le : (toggledBy d a ws).length ≤ ws.length := by
  induction ws generalizing d with
  | nil => exact le_rfl
  | cons w ws ih =>
    rw [toggledBy, List.length_cons]
    split
    · exact ih.trans (Nat.le_succ _)
    · rw [List.length_cons]
      split
      · exact Nat.succ_le_succ ih
      · exact Nat.succ_le_succ (Nat.zero_le _)

theorem flips_apply {j : Nat} (hns : ∀ n ∈ ns, n ≤ 128) (hj : j < a ∨ a + EXT2_BLOCK_SIZE ≤ j) :
    flips d a ns j = d j := by
  have h1024 : EXT2_BLOCK_SIZE = 1024 := rfl
  induction ns generalizing d with
  | nil => rfl
  | cons n ns ih =>
    have hn := hns n List.mem_cons_self
    rw [flips_cons, ih fun n hn => hns n (List.mem_cons_of_mem _ hn)]
    exact Function.update_of_ne (by omega) _ _

/-! ## What the checks of an entry do -/

variable {s s' : State} {V done : List Visit} {v : Visit} {es : List DirEntry} {inode : Inode} {b : Bm}
  {u : FileType} {x : BitVec 32} {mode p t : Nat}

/-- The last value is the one that stays. -/
theorem run_assignAll {vs : List Nat} (ha : a + 1 ≤ s.size) :
    ∃ d, (assignAll a (vs ++ [0])).run s = .done () { s with disk := d } ∧ d a = 0 ∧
      ∀ j, j ≠ a → d j = s.disk j := by
  have hstore : ∀ (d : Memory) w j, j ≠ a → Memory.store d a (leBytes 1 w) j = d j := by
    intro d w j hj
    rcases Nat.lt_or_gt_of_ne hj with hlt | hgt
    · exact Memory.store_of_lt hlt
    · exact Memory.store_of_le (by rw [length_leBytes]; omega)
  induction vs generalizing s with
  | nil =>
    refine ⟨_, run_storeWord_bind ha, ?_, hstore _ 0⟩
    rw [store_zeros, if_pos (by omega)]
  | cons w vs ih =>
    obtain ⟨d, hrun, hzero, hkeep⟩ := ih (s := { s with disk := Memory.store s.disk a (leBytes 1 w) }) ha
    refine ⟨d, (run_storeWord_bind ha).trans hrun, hzero, fun j hj => (hkeep j hj).trans (hstore _ w j hj)⟩

/-- Each case of the switch falls through to the last one. -/
theorem exists_assigned (u : FileType) : ∃ vs, assigned u = vs ++ [0] := by
  cases u with
  | unknown => exact ⟨[], rfl⟩
  | file => exact ⟨[EXT2_FT_REG_FILE, EXT2_FT_DIR], rfl⟩
  | dir => exact ⟨[EXT2_FT_DIR], rfl⟩
  | link => exact ⟨[EXT2_FT_SYMLINK, EXT2_FT_REG_FILE, EXT2_FT_DIR], rfl⟩

/-- Where an entry and an inode are of one type, this is the one that the entry is to have. -/
theorem fileTypeOf_of_types (hentry : (getDirectoryEntryType t).run s = .done u s)
    (hinode : (getInodeType mode).run s = .done u s) : fileTypeOf mode = some t := by
  -- The first value that the switch assigns for a type is the one that stands for it.
  have hfirst : (assigned u).head? = some t := by
    rw [getDirectoryEntryType] at hentry
    split_ifs at hentry with h0 h1 h2 h7 <;> cases hentry
    · rw [h0, assigned, List.head?_cons]
    · rw [h1, assigned, List.head?_cons]
    · rw [h2, assigned, List.head?_cons]
    · rw [h7, assigned, List.head?_cons]
  have hmode : fileTypeOf mode = (assigned u).head? := by
    rw [getInodeType] at hinode
    rw [fileTypeOf]
    split_ifs at hinode ⊢ <;> cases hinode <;> rfl
  rw [hmode, hfirst]

/-- The entry is of the type of the inode behind, or its type is set to unknown. -/
theorem checkMatchingTypes_done (h : (checkMatchingTypes p).run s = .done () s') (hentry : p + 8 ≤ s.size)
    (hnum : word s.disk 4 p = n) (hmapped : s.indTable + inodeSize * (n + 1) ≤ s.size) :
    s' = s ∧ fileTypeOf (inodeOf s (n + 1)).iMode = some (word s.disk 1 (p + 7)) ∨
      ∃ d, s' = { s with disk := d } ∧ d (p + 7) = 0 ∧ ∀ j, j ≠ p + 7 → d j = s.disk j := by
  rw [checkMatchingTypes, run_loadWord_bind (by omega), hnum, bind_done (run_indTableAt_next hmapped),
    run_loadWord_bind (by omega)] at h
  obtain ⟨u, s₁, hu, hrest⟩ := bind_eq_done.mp h
  obtain rfl := (readOnly_getDirectoryEntryType _).of_done hu
  obtain ⟨u', s₂, hu', hassign⟩ := bind_eq_done.mp hrest
  obtain rfl := (readOnly_getInodeType _).of_done hu'
  split at hassign
  · obtain ⟨vs, hvs⟩ := exists_assigned u'
    obtain ⟨d, hrun, hzero, hkeep⟩ := @run_assignAll (p + 7) s₂ vs (by omega)
    rw [hvs, hrun] at hassign
    cases hassign
    exact .inr ⟨d, rfl, hzero, hkeep⟩
  · rename_i hsame
    obtain rfl := not_not.mp hsame
    cases hassign
    exact .inl ⟨rfl, fileTypeOf_of_types hu hu'⟩

/-- The next number is in use, or the number of the inode is toggled and the counts are lowered. -/
theorem checkInodeBitmap_done (h : (checkInodeBitmap p).run s = .done () s') (hsize : s.size ≤ 2 ^ 29 - 1)
    (hentry : p + 4 ≤ s.size) (hnum : word s.disk 4 p = n) :
    s' = s ∧ used s.disk s.indBmap.sysBm (n + 1) = true ∨
      used s.disk s.indBmap.sysBm (n + 1) = false ∧ (9 ≤ n ∧ n ≤ 128) ∧ Unmoved s s' ∧
        ∃ y, s'.disk = Memory.store (Memory.store (flip s.disk s.indBmap.sysBm n) bgFreeInodesCount
          (leBytes 2 (sub32 (word (flip s.disk s.indBmap.sysBm n) 2 bgFreeInodesCount) 1)))
          sFreeInodesCount (leBytes 4 y) := by
  rw [checkInodeBitmap, run_get_bind, run_loadWord_bind hentry, hnum] at h
  obtain ⟨u, s₁, htest, h⟩ := bind_eq_done.mp h
  obtain ⟨hused, rfl⟩ := checkBit_done htest
  cases u with
  | true =>
    cases h
    exact .inl ⟨rfl, hused.symm⟩
  | false =>
    rw [if_neg (by decide)] at h
    obtain ⟨_, s₂, htoggle, h⟩ := bind_eq_done.mp h
    obtain ⟨hrange, hdisk, hs₂⟩ := (setNToggleBit_single hsize).of_done rfl htoggle
    obtain ⟨_, s₃, hload, h⟩ := bind_eq_done.mp h
    obtain ⟨_, rfl, rfl⟩ := loadWord_done hload
    obtain ⟨_, s₄, hstore, h⟩ := bind_eq_done.mp h
    obtain ⟨_, rfl⟩ := storeBytes_done hstore
    obtain ⟨_, s₅, hload', h⟩ := bind_eq_done.mp h
    obtain ⟨_, rfl, rfl⟩ := loadWord_done hload'
    obtain ⟨_, rfl⟩ := storeBytes_done h
    have hdisk' : s₃.disk = flip s₁.disk s₁.indBmap.sysBm n := hdisk
    rw [← hdisk']
    exact .inr ⟨hused.symm, hrange, hs₂.trans .disk, _, rfl⟩

theorem length_numsFrom_le {size fuel : Nat} {w : MarkWalk} : (numsFrom m size inode fuel w).length ≤ fuel := by
  induction fuel generalizing w with
  | zero => exact le_rfl
  | succ fuel ih =>
    rw [numsFrom]
    split
    · exact Nat.zero_le _
    · split
      · exact Nat.zero_le _
      · split
        · exact Nat.zero_le _
        · exact Nat.succ_le_succ ih

/-- The walk over the blocks of an inode is the same if the indirect table is, up to a zero in it. -/
theorem walk_congr {q size fuel : Nat} {w : MarkWalk}
    (htable : inode.indirect ≠ 0 → word m 4 (blockAddrU inode.indirect + 4 * q) = 0 ∧
      ∀ j, blockAddrU inode.indirect ≤ j → j < blockAddrU inode.indirect + 4 * q + 4 → d j = m j)
    (hw : w.indirectBlockIndex ≤ q) :
    numsFrom d size inode fuel w = numsFrom m size inode fuel w ∧
      (EndsFrom d size inode fuel w ↔ EndsFrom m size inode fuel w) := by
  induction fuel generalizing w with
  | zero => exact ⟨rfl, Iff.rfl⟩
  | succ fuel ih =>
    have hnum : w.numAt d size inode = w.numAt m size inode := by
      rw [MarkWalk.numAt, MarkWalk.numAt]
      refine if_ctx_congr Iff.rfl (fun _ => if_ctx_congr Iff.rfl (fun h => ?_) fun _ => rfl) fun _ => rfl
      have hsame := (htable h.1).2
      rw [Inode.indirect] at hsame
      rw [word_congr fun j h1 h2 => hsame j (by omega) (by omega)]
    rw [numsFrom, numsFrom, EndsFrom, EndsFrom, hnum]
    by_cases h0 : w.blockNum = 0
    · simp only [if_pos h0, and_self]
    simp only [if_neg h0]
    cases hv : w.numAt m size inode with
    | none => exact ⟨rfl, Iff.rfl⟩
    | some v =>
      dsimp only
      by_cases hv0 : v = 0
      · rw [if_pos hv0, if_pos hv0, hv0]
        refine ⟨rfl, ?_⟩
        cases fuel with
        | zero => rfl
        | succ fuel => rw [EndsFrom, EndsFrom, if_pos blockNum_at, if_pos blockNum_at]
      · have hw' : (w.at v).indirectBlockIndex ≤ q := by
          rw [MarkWalk.at]
          split
          · rename_i hi
            -- At the zero the walk would have ended.
            refine Nat.lt_of_le_of_ne hw fun heq => hv0 ?_
            rw [MarkWalk.numAt, if_pos hi, heq] at hv
            dsimp only at hv
            split at hv
            · rename_i h
              exact (Option.some.inj hv).symm.trans (htable h.1).1
            · cases hv
          · exact hw
        obtain ⟨hnums, hends⟩ := ih hw'
        rw [if_neg hv0, if_neg hv0, hnums]
        exact ⟨rfl, hends⟩

/-! ## Entries apart from what is written -/

/-- The type that an entry has now. -/
def typeAt (d : Memory) (v : Visit) : Nat := word d 1 (v.1 + 7)

/-- The checks write to none of the bytes that they go by: the entries lie behind the bitmaps and the
table, in the mapping, and not over each other, name inodes of the table before the last one, and the
inodes behind have blocks of the disk and an indirect table with a zero that is apart from the types. -/
structure Spaced (m : Memory) (V : List Visit) : Prop where
  layout : Layout m
  entry : ∀ v ∈ V, decodeEntry m v.1 = v.2
  behind : ∀ v ∈ V, (∀ b, bitmapAt m b + EXT2_BLOCK_SIZE ≤ v.1) ∧ tableAt m + inodeSize * total m .ind ≤ v.1
  mapped : ∀ v ∈ V, v.1 + 8 ≤ 128 * 1024
  apart : ∀ v ∈ V, ∀ v' ∈ V, v'.1 + 7 < v.1 ∨ v.1 ≤ v'.1
  inode : ∀ v ∈ V, 1 ≤ v.2.inode ∧ v.2.inode < total m .ind
  numbers : ∀ v ∈ V, ∀ n ∈ blocksBehind m v.2, n ≤ 128
  tables : ∀ v ∈ V, (Ext2.behind m v.2).indirect ≠ 0 →
    Behind m (Ext2.behind m v.2).indirect ∧ (Ext2.behind m v.2).indirect < 128 ∧
      (∀ v' ∈ V, v'.1 + 7 < (Ext2.behind m v.2).indirect * EXT2_BLOCK_SIZE ∨
        (Ext2.behind m v.2).indirect * EXT2_BLOCK_SIZE + EXT2_BLOCK_SIZE ≤ v'.1) ∧
      ∃ q < EXT2_BLOCK_SIZE / 4, word m 4 ((Ext2.behind m v.2).indirect * EXT2_BLOCK_SIZE + 4 * q) = 0

/-- A byte that the checks do not write: one of the fields before the counts, or one behind the group
descriptor that is neither in a bitmap nor the type of one of the entries. -/
def Spared (m : Memory) (V : List Visit) (j : Nat) : Prop :=
  j < sFreeBlocksCount ∨ (2 * EXT2_BLOCK_SIZE ≤ j ∧ j < bgFreeBlocksCount) ∨
    3 * EXT2_BLOCK_SIZE ≤ j ∧ (∀ b, j < bitmapAt m b ∨ bitmapAt m b + EXT2_BLOCK_SIZE ≤ j) ∧
      ∀ v ∈ V, j ≠ v.1 + 7

/-- The disk is the image as far as the checks go by it, and a type is the one of the image or unknown. -/
structure Near (m : Memory) (V : List Visit) (d : Memory) : Prop where
  spared : ∀ j, Spared m V j → d j = m j
  one : used d (bitmapAt m .blk) 1 = true
  types : ∀ v ∈ V, typeAt d v = v.2.fileType ∨ typeAt d v = 0

namespace Spaced

variable (h : Spaced m V)

include h

theorem spared_entry (hv : v ∈ V) {j : Nat} (h1 : v.1 ≤ j) (h2 : j < v.1 + 7) : Spared m V j := by
  obtain ⟨hbitmap, htable⟩ := h.behind v hv
  have hfront := (h.layout.bitmaps .ind).1
  refine .inr (.inr ⟨by have := hbitmap .ind; omega, fun b => .inr ((hbitmap b).trans h1), fun v' hv' => ?_⟩)
  have hapart := h.apart v hv v' hv'
  omega

theorem spared_inode {j : Nat} (h1 : tableAt m ≤ j) (h2 : j < tableAt m + inodeSize * total m .ind) :
    Spared m V j := by
  have hfront := h.layout.table.1
  refine .inr (.inr ⟨hfront.trans h1, fun b => ?_, fun v' hv' => ?_⟩)
  · have hapart := h.layout.tableApart b
    omega
  · have hbehind := (h.behind v' hv').2
    omega

theorem spared_table (hv : v ∈ V) (hne : (Ext2.behind m v.2).indirect ≠ 0) {j : Nat}
    (h1 : (Ext2.behind m v.2).indirect * EXT2_BLOCK_SIZE ≤ j)
    (h2 : j < (Ext2.behind m v.2).indirect * EXT2_BLOCK_SIZE + EXT2_BLOCK_SIZE) : Spared m V j := by
  obtain ⟨⟨hbitmap, _⟩, _, hapart, _⟩ := h.tables v hv hne
  have hfront := (h.layout.bitmaps .ind).1
  refine .inr (.inr ⟨by have := hbitmap .ind; omega, fun b => .inr ((hbitmap b).trans h1), fun v' hv' => ?_⟩)
  have := hapart v' hv'
  omega

/-- The indirect table of an inode behind is in the mapping. -/
theorem blockAddrU_table (hv : v ∈ V) (hne : (Ext2.behind m v.2).indirect ≠ 0) :
    blockAddrU (Ext2.behind m v.2).indirect = (Ext2.behind m v.2).indirect * EXT2_BLOCK_SIZE := by
  have h128 := (h.tables v hv hne).2.1
  have h1024 : EXT2_BLOCK_SIZE = 1024 := rfl
  exact blockAddrU_of_lt (by rw [h1024]; omega)

end Spaced

namespace Near

variable (hd : Near m V d)

include hd

theorem word_eq {w : Nat} (ha : ∀ j, a ≤ j → j < a + w → Spared m V j) : word d w a = word m w a :=
  word_congr fun j h1 h2 => hd.spared j (ha j h1 h2)

theorem total_eq : total d b = total m b :=
  hd.word_eq fun j _ h2 => .inl (by
    have hfree : sCount b + 4 ≤ sFreeBlocksCount := by cases b <;> decide
    omega)

theorem bitmapAt_eq : bitmapAt d b = bitmapAt m b :=
  congrArg blockAddrU (hd.word_eq fun j h1 h2 => .inr (.inl (by
    have hfront : 2 * EXT2_BLOCK_SIZE ≤ bgBitmap b := by cases b <;> decide
    have hfree : bgBitmap b + 4 ≤ bgFreeBlocksCount := by cases b <;> decide
    omega)))

theorem tableAt_eq : tableAt d = tableAt m :=
  congrArg blockAddrU (hd.word_eq fun j h1 h2 => .inr (.inl (by
    have hfront : 2 * EXT2_BLOCK_SIZE ≤ bgInodeTable := by decide
    have hfree : bgInodeTable + 4 ≤ bgFreeBlocksCount := by decide
    omega)))

variable (h : Spaced m V)

include h

theorem inode_eq (hv : v ∈ V) : word d 4 v.1 = v.2.inode := by
  rw [hd.word_eq fun j h1 h2 => h.spared_entry hv h1 (by omega), ← h.entry v hv]
  rfl

theorem recLen_eq (hv : v ∈ V) : word d 2 (v.1 + 4) = v.2.recLen := by
  rw [hd.word_eq fun j h1 h2 => h.spared_entry hv (by omega) (by omega), ← h.entry v hv]
  rfl

theorem decodeInode_eq (hn : n - 1 < total m .ind) :
    decodeInode d (tableAt m + inodeSize * (n - 1)) = inodeOn m n := by
  have hmul : inodeSize * (n - 1 + 1) ≤ inodeSize * total m .ind := Nat.mul_le_mul_left _ (by omega)
  rw [Nat.mul_add] at hmul
  exact decodeInode_congr fun j h1 h2 => hd.spared j (h.spared_inode (by omega) (by omega))

/-- The checker comes to the blocks that it comes to on the image. -/
theorem walk_eq (hv : v ∈ V) :
    numsFrom d (128 * 1024) (behind m v.2) (128 * 1024 + 14) (.start (behind m v.2)) = blocksBehind m v.2 ∧
      (EndsFrom d (128 * 1024) (behind m v.2) (128 * 1024 + 14) (.start (behind m v.2)) ↔ EndsBehind m v.2) := by
  have h256 : EXT2_BLOCK_SIZE / 4 = 256 := rfl
  have h1024 : EXT2_BLOCK_SIZE = 1024 := rfl
  by_cases hne : (behind m v.2).indirect ≠ 0
  · obtain ⟨_, _, _, q, hq, hzero⟩ := h.tables v hv hne
    refine walk_congr (q := q) (fun _ => ?_) (Nat.zero_le _)
    rw [h.blockAddrU_table hv hne]
    exact ⟨hzero, fun j h1 h2 => hd.spared j (h.spared_table hv hne h1 (by omega))⟩
  · exact walk_congr (q := 0) (fun hne' => absurd hne' hne) (Nat.zero_le _)

end Near

/-! ## What the checks leave behind -/

/-- A tool has a disk that is near the image mapped. -/
structure On (m : Memory) (V : List Visit) (s : State) : Prop where
  size : s.size = 128 * 1024
  table : s.indTable = tableAt m
  sysBm : ∀ b, (s.bmap b).sysBm = bitmapAt m b
  near : Near m V s.disk

theorem On.readable (hs : On m V s) (h : Spaced m V) (htotal : 0 < total m .ind) : Readable m V s := by
  refine ⟨hs.size, hs.table, hs.near.total_eq (b := .ind), fun n hn => ?_, fun v hv => hs.near.recLen_eq h hv⟩
  rw [inodeOf, inodeAddr, hs.table]
  exact hs.near.decodeInode_eq h (by omega)

/-- The inode behind that of an entry can be read. -/
theorem On.behind (hs : On m V s) (h : Spaced m V) (hv : v ∈ V) :
    s.indTable + inodeSize * (v.2.inode + 1) ≤ s.size ∧ inodeOf s (v.2.inode + 1) = behind m v.2 := by
  have hinode := (h.inode v hv).2
  have htable := h.layout.table.2
  have hmul : inodeSize * (v.2.inode + 1) ≤ inodeSize * total m .ind := Nat.mul_le_mul_left _ (by omega)
  have h10 : EXT2_GOOD_OLD_FIRST_INO * EXT2_BLOCK_SIZE = 11 * 1024 := rfl
  rw [hs.table, hs.size, inodeOf, inodeAddr, hs.table]
  exact ⟨by omega, hs.near.decodeInode_eq h (by omega)⟩

/-- The entries had the type of the inode behind, or are of an unknown type now. -/
def TypesPass (m : Memory) (done : List Visit) (d : Memory) : Prop :=
  ∀ v ∈ done, typeAt d v = 0 ∨ fileTypeOf (behind m v.2).iMode = some (typeAt d v)

/-- The numbers of the inodes have been tested, and as many as were toggled are missing from the count. -/
def InodesDrift (m d₀ : Memory) (done : List Visit) (d : Memory) : Prop :=
  ∃ k ≤ done.length, Drift (bitmapAt m .ind) d₀ (done.map fun v => v.2.inode) k d ∧
    (word d 2 bgFreeInodesCount + k) % 2 ^ 16 = word d₀ 2 bgFreeInodesCount

/-- The numbers of the blocks have been tested, and as many as were toggled have been counted. -/
def BlocksDrift (m d₀ : Memory) (done : List Visit) (x : BitVec 32) (d : Memory) : Prop :=
  ∃ k ≤ done.length * (128 * 1024 + 14),
    Drift (bitmapAt m .blk) d₀ (done.flatMap fun v => blocksBehind m v.2) k d ∧ x = BitVec.ofNat 32 k

/-- Some of the entries have been checked, from the disk `d₀` on. -/
structure Passing (m : Memory) (V : List Visit) (d₀ : Memory) (done : List Visit) (x : BitVec 32) (s : State) :
    Prop where
  sub : done ⊆ V
  on : On m V s
  types : TypesPass m done s.disk
  ends : ∀ v ∈ done, EndsBehind m v.2
  inodes : InodesDrift m d₀ done s.disk
  blocks : BlocksDrift m d₀ done x s.disk

theorem typeAt_congr (h : d' (v.1 + 7) = d (v.1 + 7)) : typeAt d' v = typeAt d v := by
  refine word_congr fun j h1 h2 => ?_
  obtain rfl : j = v.1 + 7 := by omega
  exact h

theorem typeAt_zero (h : d (v.1 + 7) = 0) : typeAt d v = 0 := by
  rw [typeAt, word, Memory.load, h]
  rfl

/-- If the entries of the blocks have been changed in their types only, the blocks are chains still. -/
theorem exists_retyped (hchain : Chain entries m p es)
    (hd : ∀ v ∈ placed p es, ∀ j, v.1 ≤ j → j < v.1 + 7 → d j = m j) :
    ∃ es', Chain entries d p es' ∧ sizes entries es' = sizes entries es ∧
      ∀ v ∈ placed p es, ∃ e ∈ es', e.inode = v.2.inode ∧ e.fileType = typeAt d v := by
  induction es generalizing p with
  | nil => exact ⟨[], trivial, rfl, fun v hv => absurd hv List.not_mem_nil⟩
  | cons e es ih =>
    obtain ⟨hread, hvalid, hrest⟩ := hchain
    have hlen : 8 + e.nameLen ≤ e.recLen := hvalid
    obtain ⟨es', hchain', hsizes, hall⟩ := ih (p := p + e.recLen) hrest fun v hv =>
      hd v (List.mem_cons_of_mem _ hv)
    have hfirst := hd (p, e) List.mem_cons_self
    dsimp only at hfirst
    have hinode : (decodeEntry d p).inode = e.inode := by
      rw [← show decodeEntry m p = e from hread]
      exact word_congr fun j h1 h2 => hfirst j h1 (by omega)
    have hrec : (decodeEntry d p).recLen = e.recLen := by
      rw [← show decodeEntry m p = e from hread]
      exact word_congr fun j h1 h2 => hfirst j (by omega) (by omega)
    have hname : (decodeEntry d p).nameLen = e.nameLen := by
      rw [← show decodeEntry m p = e from hread]
      exact word_congr fun j h1 h2 => hfirst j (by omega) (by omega)
    refine ⟨decodeEntry d p :: es', ⟨rfl, ?_, ?_⟩, ?_, List.forall_mem_cons.mpr ⟨?_, fun v hv => ?_⟩⟩
    · change 8 + (decodeEntry d p).nameLen ≤ (decodeEntry d p).recLen
      rwa [hname, hrec]
    · rwa [size_entries, hrec]
    · rw [sizes_cons, sizes_cons, hsizes, size_entries, size_entries, hrec]
    · exact ⟨_, List.mem_cons_self, hinode, rfl⟩
    · obtain ⟨e', he', heq⟩ := hall v hv
      exact ⟨e', List.mem_cons_of_mem _ he', heq⟩

theorem TypesPass.congr (h : TypesPass m done d) (hd : ∀ v ∈ done, typeAt d' v = typeAt d v ∨ typeAt d' v = 0) :
    TypesPass m done d' := by
  intro v hv
  rcases hd v hv with heq | h0
  · rw [heq]
    exact h v hv
  · exact .inl h0

section

variable (h : Spaced m V) (hsub : done ⊆ V)

include h

theorem Spaced.le_of_inode (hv : v ∈ V) : v.2.inode ≤ 128 := by
  have htotal := (h.layout.total .ind).1
  have hinode := h.inode v hv
  omega

include hsub

theorem InodesDrift.congr (hdrift : InodesDrift m d₀ done d)
    (hcount : word d' 2 bgFreeInodesCount = word d 2 bgFreeInodesCount)
    (hd : ∀ j, bitmapAt m .ind ≤ j → j < bitmapAt m .ind + EXT2_BLOCK_SIZE → d' j = d j) :
    InodesDrift m d₀ done d' := by
  obtain ⟨k, hk, hdrift, hfree⟩ := hdrift
  refine ⟨k, hk, hdrift.congr (fun n hn => ?_) hd, by rw [hcount, hfree]⟩
  obtain ⟨v, hv, rfl⟩ := List.mem_map.mp hn
  exact h.le_of_inode (hsub hv)

theorem BlocksDrift.congr (hdrift : BlocksDrift m d₀ done x d)
    (hd : ∀ j, bitmapAt m .blk ≤ j → j < bitmapAt m .blk + EXT2_BLOCK_SIZE → d' j = d j) :
    BlocksDrift m d₀ done x d' := by
  obtain ⟨k, hk, hdrift, hx⟩ := hdrift
  refine ⟨k, hk, hdrift.congr (fun n hn => ?_) hd, hx⟩
  obtain ⟨v, hv, hn⟩ := List.mem_flatMap.mp hn
  exact h.numbers v (hsub hv) n hn

end

/-! ## One entry after the other -/

section

variable (hs : On m V s) (h : Spaced m V) (hv : v ∈ V)

include hs h hv

/-- The check of the type writes nothing before the entry. -/
theorem On.checkMatchingTypes_done (hpass : TypesPass m done s.disk) (hsub : done ⊆ V)
    (hrun : (checkMatchingTypes v.1).run s = .done () s') :
    On m V s' ∧ TypesPass m (done ++ [v]) s'.disk ∧ ∀ j < v.1, s'.disk j = s.disk j := by
  obtain ⟨hmapped, hbehind⟩ := hs.behind h hv
  have hin := h.mapped v hv
  rw [← hs.size] at hin
  obtain ⟨hbitmap, _⟩ := h.behind v hv
  have hfront := fun b => (h.layout.bitmaps b).1
  rcases Ext2.checkMatchingTypes_done hrun hin (hs.near.inode_eq h hv) hmapped with
    ⟨rfl, htype⟩ | ⟨d, rfl, hzero, hkeep⟩
  · rw [hbehind] at htype
    exact ⟨hs, List.forall_mem_append.mpr ⟨hpass, List.forall_mem_singleton.mpr (.inr htype)⟩, fun _ _ => rfl⟩
  · have htypes : ∀ v' ∈ V, typeAt d v' = typeAt s.disk v' ∨ typeAt d v' = 0 := by
      intro v' hv'
      by_cases heq : v'.1 = v.1
      · exact .inr (typeAt_zero (by rw [heq, hzero]))
      · exact .inl (typeAt_congr (hkeep _ (by omega)))
    refine ⟨⟨hs.size, hs.table, fun b => ?_, ?_, ?_, fun v' hv' => ?_⟩, ?_, fun j hj => hkeep j (by omega)⟩
    · rw [State.bmap_disk, hs.sysBm]
    · intro j hj
      refine (hkeep j ?_).trans (hs.near.spared j hj)
      have hlast := hbitmap .ind
      have hb := hfront .ind
      have hcount : sFreeBlocksCount ≤ 3 * EXT2_BLOCK_SIZE ∧ bgFreeBlocksCount ≤ 3 * EXT2_BLOCK_SIZE := by decide
      rcases hj with hj | ⟨_, hj⟩ | ⟨_, _, hj⟩
      · omega
      · omega
      · exact hj v hv
    · rw [← hs.near.one]
      have hlast := hbitmap .blk
      have h1024 : EXT2_BLOCK_SIZE = 1024 := rfl
      rw [used, used]
      dsimp only
      rw [hkeep _ (by omega)]
    · rcases htypes v' hv' with heq | h0
      · dsimp only
        rw [heq]
        exact hs.near.types v' hv'
      · exact .inr h0
    · exact List.forall_mem_append.mpr ⟨hpass.congr fun v' hv' => htypes v' (hsub hv'),
        List.forall_mem_singleton.mpr (.inl (typeAt_zero hzero))⟩

/-- The check of the inode writes to the bitmap of inodes and to the counts. -/
theorem On.checkInodeBitmap_done (hdrift : InodesDrift m d₀ done s.disk) (hsub : done ⊆ V)
    (hrun : (checkInodeBitmap v.1).run s = .done () s') :
    On m V s' ∧ InodesDrift m d₀ (done ++ [v]) s'.disk ∧ ∀ j, 3 * EXT2_BLOCK_SIZE ≤ j →
      (j < bitmapAt m .ind ∨ bitmapAt m .ind + EXT2_BLOCK_SIZE ≤ j) → s'.disk j = s.disk j := by
  have h1024 : EXT2_BLOCK_SIZE = 1024 := rfl
  have hin := h.mapped v hv
  rw [← hs.size] at hin
  have hsysBm : s.indBmap.sysBm = bitmapAt m .ind := hs.sysBm .ind
  have hfront := fun b => (h.layout.bitmaps b).1
  obtain ⟨k, hk, hdrift, hfree⟩ := hdrift
  rcases Ext2.checkInodeBitmap_done hrun (by rw [hs.size]; decide) (by omega) (hs.near.inode_eq h hv) with
    ⟨rfl, hused⟩ | ⟨hclear, hrange, hs', y, hdisk⟩
  · rw [hsysBm] at hused
    refine ⟨hs, ⟨k, by rw [List.length_append]; omega, ?_, hfree⟩, fun _ _ _ => rfl⟩
    rw [List.map_append]
    exact hdrift.test hused
  · rw [hsysBm] at hclear hdisk
    have hheader : sFreeInodesCount + 4 ≤ 2 * EXT2_BLOCK_SIZE ∧ sFreeBlocksCount ≤ sFreeInodesCount ∧
        bgFreeBlocksCount ≤ bgFreeInodesCount ∧ bgFreeInodesCount + 2 ≤ 3 * EXT2_BLOCK_SIZE ∧
        2 * EXT2_BLOCK_SIZE ≤ bgFreeInodesCount := by decide
    have hflip : ∀ j, (j < bitmapAt m .ind ∨ bitmapAt m .ind + EXT2_BLOCK_SIZE ≤ j) →
        flip s.disk (bitmapAt m .ind) v.2.inode j = s.disk j := fun j hj =>
      Function.update_of_ne (by omega) _ _
    have hout : ∀ j, (j < sFreeInodesCount ∨ sFreeInodesCount + 4 ≤ j) →
        (j < bgFreeInodesCount ∨ bgFreeInodesCount + 2 ≤ j) →
        s'.disk j = flip s.disk (bitmapAt m .ind) v.2.inode j := by
      intro j h1 h2
      rw [hdisk]
      rcases h1 with h1 | h1
      · rw [Memory.store_of_lt h1]
        rcases h2 with h2 | h2
        · exact Memory.store_of_lt h2
        · exact Memory.store_of_le (by rwa [length_leBytes])
      · rw [Memory.store_of_le (by rwa [length_leBytes])]
        rcases h2 with h2 | h2
        · exact Memory.store_of_lt h2
        · exact Memory.store_of_le (by rwa [length_leBytes])
    have hfar : ∀ j, 3 * EXT2_BLOCK_SIZE ≤ j →
        (j < bitmapAt m .ind ∨ bitmapAt m .ind + EXT2_BLOCK_SIZE ≤ j) → s'.disk j = s.disk j := fun j h1 h2 =>
      (hout j (by omega) (by omega)).trans (hflip j h2)
    have hi := hfront .ind
    refine ⟨⟨hs'.size.trans hs.size, hs'.table.trans hs.table, fun b => (hs'.sysBm b).trans (hs.sysBm b), ?_, ?_,
      fun v' hv' => ?_⟩, ⟨k + 1, ?_, ?_, ?_⟩, hfar⟩
    · intro j hj
      refine Eq.trans ?_ (hs.near.spared j hj)
      rcases hj with hj | ⟨h1, h2⟩ | ⟨h1, h2, _⟩
      · exact (hout j (by omega) (by omega)).trans (hflip j (by omega))
      · exact (hout j (by omega) (by omega)).trans (hflip j (by omega))
      · exact hfar j h1 (h2 .ind)
    · have hapart := h.layout.apart
      have hb := hfront .blk
      rw [← hs.near.one, used, used, hfar _ (by omega) (by omega)]
    · have hlast := (h.behind v' hv').1 .ind
      rw [typeAt_congr (hfar _ (by omega) (by omega))]
      exact hs.near.types v' hv'
    · rw [List.length_append, List.length_singleton]
      omega
    · rw [List.map_append]
      refine (Drift.toggle hclear (by omega)).congr (fun n hn => ?_) fun j h1 _ => hout j (by omega) (by omega)
      rcases List.mem_append.mp hn with hn | hn
      · obtain ⟨v', hv', rfl⟩ := List.mem_map.mp hn
        exact h.le_of_inode (hsub hv')
      · rw [List.mem_singleton.mp hn]
        exact h.le_of_inode hv
    · have hword : word s'.disk 2 bgFreeInodesCount = sub32 (word s.disk 2 bgFreeInodesCount) 1 % 256 ^ 2 := by
        have hsame : word (flip s.disk (bitmapAt m .ind) v.2.inode) 2 bgFreeInodesCount =
            word s.disk 2 bgFreeInodesCount := word_congr fun j _ h2 => hflip j (by omega)
        rw [hdisk, ← hsame, ← word_store (m := flip s.disk (bitmapAt m .ind) v.2.inode)]
        exact word_congr fun j h1 _ => Memory.store_of_le (by rw [length_leBytes]; omega)
      have hlt := word_lt s.disk 2 bgFreeInodesCount
      have h256 : 256 ^ 2 = 65536 := rfl
      rw [hword, ← hfree, sub32]
      split <;> omega

/-- The check of the blocks writes to the bitmap of blocks. -/
theorem On.checkDataBlockBitmap_done {y : BitVec 32} (hdrift : BlocksDrift m d₀ done x s.disk)
    (hrun : (checkDataBlockBitmap v.1).run s = .done y s') :
    On m V s' ∧ EndsBehind m v.2 ∧ BlocksDrift m d₀ (done ++ [v]) (x + y) s'.disk ∧
      ∀ j, (j < bitmapAt m .blk ∨ bitmapAt m .blk + EXT2_BLOCK_SIZE ≤ j) → s'.disk j = s.disk j := by
  have h1024 : EXT2_BLOCK_SIZE = 1024 := rfl
  have hin := h.mapped v hv
  rw [← hs.size] at hin
  have hsysBm : s.blkBmap.sysBm = bitmapAt m .blk := hs.sysBm .blk
  have hfront := (h.layout.bitmaps .blk).1
  have hnum := hs.near.inode_eq h hv
  obtain ⟨hmapped, hbehind⟩ := hs.behind h hv
  rw [← hnum] at hmapped
  rw [run_checkDataBlockBitmap (by omega) hmapped, nextInode, hnum, hbehind] at hrun
  obtain ⟨r, s₁, hloop, hpure⟩ := bind_eq_done.mp hrun
  cases hpure
  have hwalkable : Walkable s.disk (Ext2.behind m v.2) s := by
    refine ⟨by rw [hs.size]; decide, ?_, fun hne => ?_, fun _ _ => rfl⟩
    · rw [State.used, hs.sysBm]
      exact hs.near.one
    · have hlast := (h.tables v hv hne).1.1 .blk
      rw [← Inode.indirect, h.blockAddrU_table hv hne, hsysBm]
      omega
  obtain ⟨hends, ⟨hr, hrange⟩, hdisk, hs'⟩ := (markLoop_run hwalkable).of_done rfl hloop
  obtain ⟨hnums, hiff⟩ := hs.near.walk_eq h hv
  rw [hs.size] at hends hr hrange hdisk
  rw [hsysBm, hnums] at hr hrange hdisk
  have hfar : ∀ j, (j < bitmapAt m .blk ∨ bitmapAt m .blk + EXT2_BLOCK_SIZE ≤ j) → s'.disk j = s.disk j :=
    fun j hj => by rw [hdisk, flips_apply (fun n hn => (hrange n hn).2) hj]
  obtain ⟨k, hk, hdrift, rfl⟩ := hdrift
  refine ⟨⟨hs'.size.trans hs.size, hs'.table.trans hs.table, fun b => (hs'.sysBm b).trans (hs.sysBm b), ?_, ?_,
    fun v' hv' => ?_⟩, hiff.mp hends, ⟨k + r, ?_, ?_, ?_⟩, hfar⟩
  · intro j hj
    refine (hfar j ?_).trans (hs.near.spared j hj)
    have hheader : sFreeBlocksCount ≤ 3 * EXT2_BLOCK_SIZE ∧ bgFreeBlocksCount ≤ 3 * EXT2_BLOCK_SIZE := by decide
    rcases hj with hj | ⟨_, hj⟩ | ⟨_, hj, _⟩
    · omega
    · omega
    · exact hj .blk
  · rw [← hs.near.one, hdisk]
    exact used_flips_of_not_mem (fun n hn => by have := (hrange n hn).1; omega) le_rfl fun h1 => by
      have := (hrange 1 h1).1
      omega
  · have hlast := (h.behind v' hv').1 .blk
    rw [typeAt_congr (hfar _ (by omega))]
    exact hs.near.types v' hv'
  · have hle := @length_toggledBy_le s.disk (bitmapAt m .blk) (blocksBehind m v.2)
    have hle' : (blocksBehind m v.2).length ≤ 128 * 1024 + 14 := length_numsFrom_le
    have hzero : (MarkWalk.start (Ext2.behind m v.2)).blockCount = 0 := rfl
    rw [List.length_append, List.length_singleton, Nat.add_mul]
    omega
  · have hzero : (MarkWalk.start (Ext2.behind m v.2)).blockCount = 0 := rfl
    rw [List.flatMap_append, List.flatMap_singleton, hr, hzero, Nat.zero_add, hdisk]
    exact hdrift.walk hrange
  · exact (BitVec.ofNat_add k r).symm

end

theorem readOnly_checkInodeDtime : ReadOnly (checkInodeDtime p) :=
  .bind (readOnly_loadWord _ _) fun _ => .bind (readOnly_indTableAt _) fun _ => .pure _

/-- The checks of all entries, one after the other. -/
theorem tour_passing (d₀ : Memory) (h : Spaced m V) (htotal : 0 < total m .ind) :
    Tour m V (Passing m V d₀) fun _ _ => True := by
  refine ⟨fun done x s hs => hs.on.readable h htotal, fun done x p e hv s hs => ?_⟩
  cases hrun : (checkEntry p).run s with
  | halted r s' => trivial
  | done y s₄ =>
    obtain ⟨_, s₁, htypes, hrest⟩ := bind_eq_done.mp hrun
    obtain ⟨_, s₂, hinode, hrest⟩ := bind_eq_done.mp hrest
    obtain ⟨_, s₃, hdtime, hblocks⟩ := bind_eq_done.mp hrest
    obtain rfl := readOnly_checkInodeDtime.of_done hdtime
    have hsub : done ++ [(p, e)] ⊆ V := List.append_subset.mpr ⟨hs.sub, by simpa using hv⟩
    have hbehind : ∀ v ∈ done ++ [(p, e)], ∀ b, bitmapAt m b + EXT2_BLOCK_SIZE ≤ v.1 := fun v hv =>
      (h.behind v (hsub hv)).1
    have hp := hbehind (p, e) (List.mem_append_right _ (List.mem_singleton_self _))
    have hind := (h.layout.bitmaps .ind).1
    have hblk := (h.layout.bitmaps .blk).1
    have hapart := h.layout.apart
    have hheader : bgFreeInodesCount + 2 ≤ 3 * EXT2_BLOCK_SIZE := by decide
    obtain ⟨hon₁, hpass₁, hkeep₁⟩ := hs.on.checkMatchingTypes_done h hv hs.types hs.sub htypes
    have hinodes₁ := hs.inodes.congr h hs.sub
      (word_congr fun j _ h2 => hkeep₁ j (by have := hp .ind; dsimp only at this ⊢; omega))
      fun j _ h2 => hkeep₁ j (h2.trans_le (hp .ind))
    have hblocks₁ := hs.blocks.congr h hs.sub fun j _ h2 => hkeep₁ j (h2.trans_le (hp .blk))
    obtain ⟨hon₂, hinodes₂, hkeep₂⟩ := hon₁.checkInodeBitmap_done h hv hinodes₁ hs.sub hinode
    have hpass₂ := hpass₁.congr fun v hv => .inl (typeAt_congr (hkeep₂ _
      (by have := hbehind v hv .ind; omega) (.inr ((hbehind v hv .ind).trans (Nat.le_add_right _ _)))))
    have hblocks₂ := hblocks₁.congr h hs.sub fun j h1 h2 => hkeep₂ j (hblk.trans h1) (by omega)
    obtain ⟨hon₃, hends, hblocks₃, hkeep₃⟩ := hon₂.checkDataBlockBitmap_done h hv hblocks₂ hblocks
    refine ⟨hsub, hon₃, hpass₂.congr fun v hv => .inl (typeAt_congr (hkeep₃ _
      (.inr ((hbehind v hv .blk).trans (Nat.le_add_right _ _))))), ?_, ?_, hblocks₃⟩
    · exact List.forall_mem_append.mpr ⟨hs.ends, List.forall_mem_singleton.mpr hends⟩
    · exact hinodes₂.congr h hsub (word_congr fun j _ h2 => hkeep₃ j (.inl (by omega)))
        fun j h1 h2 => hkeep₃ j (by omega)

end Ext2

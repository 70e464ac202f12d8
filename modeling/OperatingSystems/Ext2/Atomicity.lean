-- SUMMARY: Operations that fail: when the image is left as it was, and when numbers have been taken by then.
import Mathlib.Data.List.TakeWhile
import OperatingSystems.Ext2.Exits

/-!
# Atomicity

The tools that create something take an inode and blocks first, and look for room for the entry
afterwards. If the last block of the directory is full and no blocks are left for it, they exit with the
numbers taken.
-/

namespace Ext2

open Library Library.Process

variable {m D : Memory} {s s' s₁ : State} {b : Bm} {d k n e taken : Nat} {name : Name} {op : Op}

/-- If the operation ends with an error exit, the disk is as it was after `init_globals`. -/
def Atomic (m : Memory) (op : Op) : Prop :=
  ∀ e s, op.tool.runOn m = .halted (.exit e) s → s.disk = zeroed m

/-! ## When there are not enough blocks -/

/-- The last entry of the last block of a directory, and the index of that block. The block is in use. -/
def LastEntry (m : Memory) (d k : Nat) (x : DirEntry) : Prop :=
  (1 ≤ d ∧ d ≤ total m .ind) ∧ ∃ v es,
    lastBlockIndex (inodeOn m d) (INDIRECT_BLK_INDEX + 2) = some (k, v) ∧ Behind m v ∧ v < 128 ∧
      usedOn m .blk v = true ∧ Block m v (es ++ [x])

/-- Without pointers behind its blocks, the last block of an inode has the highest index. -/
theorem lastBlockIndex_blocks {i : Inode} {pre : List Nat} {v : Nat} (hv : i.blocks = pre ++ [v])
    (hdirect : ∀ j, i.blocks.length ≤ j → j < INDIRECT_BLK_INDEX + 2 → i.iBlock.getD j 0 = 0) :
    lastBlockIndex i (INDIRECT_BLK_INDEX + 2) = some (pre.length, v) := by
  have hprefix : i.blocks <+: i.iBlock := (List.takeWhile_prefix _).trans (List.take_prefix _ _)
  have hlen := i.length_blocks_le
  have hmem : v ∈ i.blocks := by simp [hv]
  obtain ⟨rest, hrest⟩ := hprefix
  rw [hv, List.length_append, List.length_singleton] at hlen hdirect
  rw [hv] at hrest
  refine lastBlockIndex_eq (by omega) ?_ ?_ fun j h1 h2 => hdirect j (by omega) h2
  · rw [← hrest]
    simp
  · have hnonzero := List.mem_takeWhile_imp hmem
    simpa using hnonzero

/-- In a consistent image every directory with direct blocks only has a last entry. -/
theorem Consistent.lastEntry (h : Consistent m) (hd : d ∈ directories m)
    (hne : (inodeOn m d).blocks ≠ [])
    (hdirect : ∀ j, (inodeOn m d).blocks.length ≤ j → j < INDIRECT_BLK_INDEX + 2 →
      (inodeOn m d).iBlock.getD j 0 = 0) : ∃ k x, LastEntry m d k x := by
  have hin : d ∈ inodesInUse m := List.mem_of_mem_filter hd
  obtain ⟨entriesOf, hblocks, _⟩ := h.chains
  obtain ⟨pre, v, hv⟩ := List.eq_nil_or_concat (inodeOn m d).blocks |>.resolve_left hne
  rw [List.concat_eq_append] at hv
  have hmem : v ∈ (inodeOn m d).blocks := by simp [hv]
  obtain ⟨hbehind, hlt, hused⟩ := h.blocksUsed d hin v (List.mem_append_left _ hmem)
  have hblock := hblocks d hd v (List.mem_append_left _ hmem)
  obtain ⟨es, x, hes⟩ := List.eq_nil_or_concat (entriesOf v) |>.resolve_left hblock.ne_nil
  rw [List.concat_eq_append] at hes
  rw [hes] at hblock
  exact ⟨pre.length, x, bounds_of_inodesInUse hin, v, es, lastBlockIndex_blocks hv hdirect, hbehind,
    by have := (h.layout.total .blk).1; omega, hused, hblock⟩

/-- The last entry leaves no room for one with this name. -/
def Full (x : DirEntry) (name : Name) : Prop :=
  (x.recLen : Int) - TRUE_FILE_SIZE x.nameLen < TRUE_FILE_SIZE (name.chars.length % 2 ^ 8)

instance {x : DirEntry} : Decidable (Full x name) := inferInstanceAs (Decidable ((_ : Int) < _))

/-- The number of blocks that follow the block with index `k`: the first indirect one needs a table. -/
def blocksAfter (k : Nat) : Nat := if k + 1 = INDIRECT_BLK_INDEX then 2 else 1

/-- Once `taken` blocks are taken, too few are left for an entry that the last block has no room for. Of
what is no directory with a last entry, nothing is known but that two blocks are enough. -/
def Short (m : Memory) (d taken : Nat) (name : Name) : Prop :=
  (freeOn m .blk).length < taken + 2 ∧ ∀ k x, LastEntry m d k x →
    k ≠ INDIRECT_BLK_INDEX ∧ Full x name ∧ (freeOn m .blk).length < taken + blocksAfter k

/-- The blocks to take are on the disk, given the free numbers. The second of two numbers is counted on
from the first one. -/
def Grants (fs : List Nat) : Nat → Prop
  | 1 => ∃ k rest, fs = k :: rest ∧ k < 128
  | 2 => ∃ k k' rest, fs = k :: k' :: rest ∧ k + (k' - 11) ≤ 128
  | _ => False

/-- The checks of the operation pass. It is about to take an inode and `taken` blocks for an entry with
the name in the directory `d`. -/
inductive Op.Reaches (s : State) : Op → Nat → Nat → Name → Prop where
  | mkdir {p dpath d x} (hparent : (dirEntryExists p EXT2_ROOT_INO).run s = .done d s) (hd : d ≠ 0)
      (hexisting : (dirEntryExists [dpath] d).run s = .done x s) (hx : x ≠ 0) :
      Reaches s (.mkdir p dpath) d 1 dpath
  | cp {p fpath d size} (hparent : (dirEntryExists p 0).run s = .done d s) (hd : d ≠ 0)
      (hexisting : (dirEntryExists [fpath] d).run s = .done 0 s) (hsize : size % 2 ^ 32 = 0) :
      Reaches s (.cp p fpath (some size)) d 2 fpath
  | softLink {src linkParent lpath absPath d x inode} (hsrc : (dirEntryExists src 0).run s = .done x s)
      (hparent : (dirEntryExists linkParent 0).run s = .done d s) (hx : x ≠ 0) (hd : d ≠ 0)
      (hexisting : (dirEntryExists [lpath] d).run s = .done 0 s)
      (hinode : (indTableAt x).run s = .done inode s) (hdir : IS_DIR inode.iMode = false) :
      Reaches s (.ln src linkParent lpath true absPath) d 1 lpath

/-- The operation takes numbers and then lacks blocks for the entry. -/
def Starved (m : Memory) (op : Op) : Prop :=
  ∃ s d taken name, initGlobals.run (.boot m) = .done () s ∧ op.Reaches s d taken name ∧
    freeOn m .ind ≠ [] ∧ Grants (freeOn m .blk) taken ∧ Short m d taken name

/-! ## Numbers that are taken -/

/-- The state after an inode and some blocks have been taken: everything in use stays as it is. -/
structure Taken (m : Memory) (taken : Nat) (s s₁ : State) : Prop where
  unmoved : Unmoved s s₁
  avail : s₁.blkBmap.numBitsAvail + taken = s.blkBmap.numBitsAvail
  block : ∀ v, Behind m v → usedOn m .blk v = true → ∀ i, v * EXT2_BLOCK_SIZE ≤ i →
    i < v * EXT2_BLOCK_SIZE + EXT2_BLOCK_SIZE → s₁.disk i = s.disk i
  table : ∀ i, tableAt m ≤ i → i < tableAt m + inodeSize * total m .ind → s₁.disk i = s.disk i
  changed : s₁.disk ≠ s.disk

theorem flips_of_forall_ne {sysBm a : Nat} {ns : List Nat} (h : ∀ n ∈ ns, a ≠ sysBm + (n - 1) / 8) :
    flips D sysBm ns a = D a := by
  induction ns generalizing D with
  | nil => rfl
  | cons n ns ih =>
    rw [flips_cons, ih fun n' hn' => h n' (List.mem_cons_of_mem _ hn')]
    exact Function.update_of_ne (h n List.mem_cons_self) _ _

section

variable {N : Nat} (hN : N ≤ 8 * EXT2_BLOCK_SIZE) (hb : s'.bmap b = s.bmap b)
  (hm : ∀ i, (s.bmap b).sysBm ≤ i → i < (s.bmap b).sysBm + EXT2_BLOCK_SIZE → s'.disk i = s.disk i)

include hb hm

theorem State.used_congr (hn : n ≤ 8 * EXT2_BLOCK_SIZE) : s'.used b n = s.used b n := by
  have h1024 : EXT2_BLOCK_SIZE = 1024 := rfl
  rw [State.used, hb, Ext2.used, hm _ (by omega) (by omega), State.used, Ext2.used]

include hN

theorem State.free_congr : s'.free b N = s.free b N :=
  List.filter_congr fun n hn => congrArg Bool.not (State.used_congr hb hm (by
    have := (List.mem_range'_1.mp hn).2
    omega))

/-- A bitmap in order is so wherever its bytes and its globals are the same. -/
theorem Good.congr (h : Good N b s) : Good N b s' where
  reserved n h1 h10 := (State.used_congr hb hm (h10.trans (by decide))).trans (h.reserved n h1 h10)
  avail := by rw [hb, State.free_congr hN hb hm, h.avail]
  cursor := by rw [hb, State.free_congr hN hb hm, ← h.cursor]

end

section

variable (hlayout : Layout m) (hmounted : Mounted m s) (hgood : ∀ b, Good (total m b) b s)

include hlayout hmounted

theorem mapped_of_layout (b : Bm) : Mapped (total m b) b s := by
  have htotal := hlayout.total b
  have hbitmap : bitmapAt m b + EXT2_BLOCK_SIZE ≤ 11 * 1024 := (hlayout.bitmaps b).2
  have h1024 : EXT2_BLOCK_SIZE = 1024 := rfl
  rw [Mapped, hmounted.sysBm, hmounted.size]
  omega

include hgood

/-- It is enough that nothing but the bitmaps and a free block changes, and that an inode is marked. -/
theorem Taken.of_kept {i nb : Nat} (hmoved : Unmoved s s₁)
    (havail : s₁.blkBmap.numBitsAvail + taken = s.blkBmap.numBitsAvail) (hi : i ∈ freeOn m .ind)
    (hnb : nb ∈ freeOn m .blk) (hmarked : used s₁.disk (bitmapAt m .ind) i = true)
    (hkept : ∀ a, (∀ b, a < bitmapAt m b ∨ bitmapAt m b + EXT2_BLOCK_SIZE ≤ a) →
      a < nb * EXT2_BLOCK_SIZE ∨ nb * EXT2_BLOCK_SIZE + EXT2_BLOCK_SIZE ≤ a → s₁.disk a = s.disk a) :
    Taken m taken s s₁ where
  unmoved := hmoved
  avail := havail
  block v hbehind hused a h1 h2 := by
    refine hkept a (fun b => .inr ((hbehind.1 b).trans h1)) ?_
    -- The block is in use, so it is not the free one.
    exact outside_of_ne (ne_of_free hused hnb) h1 h2
  table a h1 h2 := by
    have htable : tableAt m + inodeSize * total m .ind ≤ 11 * 1024 := hlayout.table.2
    have h11 := ((hgood .blk).le_of_mem_free
      ((hmounted.free (hlayout.bitmaps .blk).1).symm ▸ hnb)).1
    have hle := Nat.mul_le_mul_right EXT2_BLOCK_SIZE h11
    have h1024 : EXT2_BLOCK_SIZE = 1024 := rfl
    refine hkept a (fun b => ?_) (.inl (by omega))
    rcases hlayout.tableApart b with h | h
    · exact .inr (by omega)
    · exact .inl (by omega)
  changed heq := by
    have hfree := (mem_free.mp hi).2
    have hbm := (hlayout.bitmaps .ind).1
    rw [heq, hmounted.disk, used, zeroed_apply (.inr (by omega))] at hmarked
    rw [used, hmarked] at hfree
    cases hfree

/-- After the contents of a free block, both numbers are taken. -/
theorem run_takeOne {i nb : Nat} (hi : (freeOn m .ind).head? = some i)
    (hnb : (freeOn m .blk).head? = some nb)
    (hD : ∀ a, a < nb * EXT2_BLOCK_SIZE ∨ nb * EXT2_BLOCK_SIZE + EXT2_BLOCK_SIZE ≤ a → D a = s.disk a) :
    ∃ s₁, (setUsedBit .ind >>= fun _ => setUsedBit .blk).run { s with disk := D } = .done () s₁ ∧
      Taken m 1 s s₁ ∧ Good (total m .blk) .blk s₁ ∧
      s₁.disk = flips (flips D (bitmapAt m .ind) [i]) (bitmapAt m .blk) [nb] := by
  have hN : ∀ b, total m b ≤ 8 * EXT2_BLOCK_SIZE := fun b => (hlayout.total b).1.trans (by decide)
  have hbitmap : ∀ b, bitmapAt m b + EXT2_BLOCK_SIZE ≤ 11 * 1024 := fun b => (hlayout.bitmaps b).2
  have h1024 : EXT2_BLOCK_SIZE = 1024 := rfl
  have hfree : ∀ b, s.free b (total m b) = freeOn m b := fun b => hmounted.free (hlayout.bitmaps b).1
  have hsysBm := hmounted.sysBm
  have hiMem := List.mem_of_head? hi
  have hnbMem := List.mem_of_head? hnb
  obtain ⟨h11, hnbN⟩ := (hgood .blk).le_of_mem_free ((hfree .blk).symm ▸ hnbMem)
  obtain ⟨hi11, hiN⟩ := (hgood .ind).le_of_mem_free ((hfree .ind).symm ▸ hiMem)
  have hi128 := hiN.trans (hlayout.total .ind).1
  have hnb128 := hnbN.trans (hlayout.total .blk).1
  -- The contents lie behind both bitmaps.
  have hfront : ∀ a, a < 11 * 1024 → D a = s.disk a := fun a ha =>
    hD a (.inl (by have := Nat.mul_le_mul_right EXT2_BLOCK_SIZE h11; omega))
  have hind : ∀ a, (s.bmap .ind).sysBm ≤ a → a < (s.bmap .ind).sysBm + EXT2_BLOCK_SIZE → D a = s.disk a :=
    fun a _ h2 => hfront a (by have := hbitmap .ind; rw [hsysBm] at h2; omega)
  have hgood₁ : Good (total m .ind) .ind { s with disk := D } := (hgood .ind).congr (hN _) (by rfl) hind
  have hhead₁ : (State.free { s with disk := D } .ind (total m .ind)).head? = some i := by
    rw [State.free_congr (hN _) (by rfl) hind, hfree, hi]
  have hrun₁ := run_setUsedBit (s := { s with disk := D }) (mapped_of_layout hlayout hmounted .ind) hgood₁
    hhead₁
  generalize hs₂ : State.toggled { s with disk := D } .ind (total m .ind) [i] = s₂ at hrun₁
  have hdisk₂ : s₂.disk = flips D (bitmapAt m .ind) [i] := by
    rw [← hs₂, disk_toggled, ← hsysBm]
    rfl
  have hbmap₂ : s₂.bmap .blk = s.bmap .blk := by
    rw [← hs₂, bmap_toggled_of_ne (by decide)]
    rfl
  have hmoved₂ : Unmoved s s₂ := hs₂ ▸ Unmoved.disk.trans .toggled
  -- The bits of inodes are not among those of blocks.
  have hapart := hlayout.apart
  have hblk₂ : ∀ a, (s.bmap .blk).sysBm ≤ a → a < (s.bmap .blk).sysBm + EXT2_BLOCK_SIZE →
      s₂.disk a = s.disk a := fun a h1 h2 => by
    rw [hsysBm] at h1 h2
    rw [hdisk₂, flips_of_forall_ne (by simp; omega)]
    exact hfront a (by have := hbitmap .blk; omega)
  have hgood₂ : Good (total m .blk) .blk s₂ := (hgood .blk).congr (hN _) hbmap₂ hblk₂
  have hfree₂ : s₂.free .blk (total m .blk) = freeOn m .blk := by
    rw [State.free_congr (hN _) hbmap₂ hblk₂, hfree]
  have hmap₂ : Mapped (total m .blk) .blk s₂ := by
    rw [Mapped, hbmap₂, hmoved₂.size]
    exact mapped_of_layout hlayout hmounted .blk
  have hrun₂ := run_setUsedBit hmap₂ hgood₂ (by rw [hfree₂, hnb])
  have hdisk₃ : (s₂.toggled .blk (total m .blk) [nb]).disk =
      flips (flips D (bitmapAt m .ind) [i]) (bitmapAt m .blk) [nb] := by
    rw [disk_toggled, hbmap₂, hsysBm, hdisk₂]
  refine ⟨_, (bind_done hrun₁).trans hrun₂, .of_kept hlayout hmounted hgood
    (hmoved₂.trans .toggled) ?_ hiMem hnbMem ?_ fun a hout hblock => ?_,
    hgood₂.toggled (List.nodup_singleton nb) (by simpa using h11), hdisk₃⟩
  · have hlen := @length_free_flips_of_free s₂.disk (s₂.bmap .blk).sysBm (total m .blk) [nb] (by simp)
      (fun n hn => by
        have hmem : nb ∈ s₂.free .blk (total m .blk) := hfree₂.symm ▸ hnbMem
        exact List.mem_singleton.mp hn ▸ hmem)
    have havail := (hgood .blk).avail
    rw [hfree, ← hfree₂] at havail
    have hcount : ((s₂.toggled .blk (total m .blk) [nb]).bmap .blk).numBitsAvail =
        (free (flips s₂.disk (s₂.bmap .blk).sysBm [nb]) (s₂.bmap .blk).sysBm (total m .blk)).length := by
      simp [State.toggled]
    exact (congrArg (· + 1) hcount).trans (hlen.trans havail.symm)
  · have hfreeOn := (mem_free.mp hiMem).2
    have hclear : used D (bitmapAt m .ind) i = false := by
      have hb := (hlayout.bitmaps .ind).1
      rw [used, hfront _ (by have := hbitmap .ind; omega), hmounted.disk, zeroed_apply (.inr (by omega))]
      exact hfreeOn
    rw [hdisk₃, used, flips_of_forall_ne (by simp; omega), ← used, used_flips (by simp) (by simp; omega)
      (by omega), hclear]
    simp
  · rw [hdisk₃, flips_of_forall_ne (by have := hout .blk; simp; omega),
      flips_of_forall_ne (by have := hout .ind; simp; omega), hD a hblock]

end

/-! ## The end of all three tools -/

theorem newBlock_exit (h : (newBlock k).run s = .halted (.exit e) s') :
    s.blkBmap.numBitsAvail < if k = INDIRECT_BLK_INDEX then 2 else 1 := by
  rw [newBlock] at h
  split at h
  · rename_i hk
    rw [if_pos hk]
    rw [run_get_bind] at h
    rcases bind_eq_halted.mp h with hfind | ⟨ns, s₁, _, hrest⟩
    · exact findNFree_exit hfind
    · split at hrest
      · exact absurd hrest (NeverExits.ne (.bind (neverExits_storeWord _ _ _) fun _ => .pure _))
      · cases hrest
  · rename_i hk
    rw [if_neg hk]
    rw [findFreeBlock, run_get_bind] at h
    split at h
    · assumption
    · cases h

theorem newBlock_short (h : s.blkBmap.numBitsAvail < if k = INDIRECT_BLK_INDEX then 2 else 1) :
    (newBlock k).run s = .halted (.exit ENOSPC) s := by
  rw [newBlock]
  split
  · rename_i hk
    rw [if_pos hk] at h
    have hfind : (findNFree s.blkBmap 2).run s = .halted (.exit ENOSPC) s := by
      rw [findNFree, if_pos h, run_halt]
    rw [run_get_bind, bind_halted hfind]
  · rename_i hk
    rw [if_neg hk] at h
    rw [findFreeBlock, run_get_bind, if_pos h, run_halt]

section

variable {inode fileType nameLen namelen : Nat}

/-- With two blocks left, `mk_dir_entry` does not exit. -/
theorem mkDirEntry_exit (h : (mkDirEntry d inode nameLen fileType name namelen).run s = .halted (.exit e) s') :
    s.blkBmap.numBitsAvail < 2 := by
  rcases bind_eq_halted.mp h with hparent | ⟨parentInode, s₁, hparent, h₁⟩
  · exact absurd hparent (neverExits_indTableAt _).ne
  obtain rfl := (readOnly_indTableAt _).of_done hparent
  dsimp only at h₁
  split at h₁
  · cases h₁
  rcases bind_eq_halted.mp h₁ with hlast | ⟨dirEnt, s₂, hlast, h₂⟩
  · exact absurd hlast (neverExits_lastEntry _).ne
  obtain rfl := (readOnly_lastEntry _).of_done hlast
  rcases bind_eq_halted.mp h₂ with hload | ⟨lastNameLen, s₃, hload, h₃⟩
  · exact absurd hload (neverExits_loadWord _ _).ne
  obtain rfl := (readOnly_loadWord _ _).of_done hload
  rcases bind_eq_halted.mp h₃ with hload' | ⟨lastRecLen, s₄, hload', h₄⟩
  · exact absurd hload' (neverExits_loadWord _ _).ne
  obtain rfl := (readOnly_loadWord _ _).of_done hload'
  split at h₄
  · rcases bind_eq_halted.mp h₄ with hnew | ⟨memBlk, s₅, _, h₅⟩
    · have hlt := newBlock_exit hnew
      split at hlt <;> omega
    · exact absurd h₅ (NeverExits.ne (.bind (neverExits_blockAddr _) fun _ => neverExits_storeBytes _ _))
  · exact absurd h₄ (NeverExits.ne (.bind (neverExits_storeWord _ _ _) fun _ => neverExits_storeBytes _ _))

end

section

variable (hlayout : Layout m) (hmounted : Mounted m s) (hgood : ∀ b, Good (total m b) b s)
  (htaken : Taken m taken s s₁)

include hlayout hmounted htaken

/-- The table of inodes is the same once the numbers are taken. -/
theorem Taken.inodeOf_eq (hd : 1 ≤ d ∧ d ≤ total m .ind) :
    inodeOf s₁ d = inodeOn m d ∧ (1 ≤ d ∧ d < 2 ^ 31) ∧ inodeAddr s₁ d + inodeSize ≤ s₁.size := by
  have hsize : s₁.size = 128 * 1024 := htaken.unmoved.size.trans hmounted.size
  have htable : s₁.indTable = tableAt m := htaken.unmoved.table.trans hmounted.table
  have hend : tableAt m + inodeSize * total m .ind ≤ 11 * 1024 := hlayout.table.2
  have hstart := hlayout.table.1
  have htotal := (hlayout.total .ind).1
  have haddr := inodeSize_le hd
  refine ⟨?_, by omega, by rw [inodeAddr, htable]; omega⟩
  rw [← hmounted.inodeOf hstart, inodeOf, inodeOf, inodeAddr, inodeAddr, htable, hmounted.table]
  exact decodeInode_congr fun i h1 h2 => htaken.table i (by omega) (by omega)

/-- A block in use has the same entries once the numbers are taken. -/
theorem Taken.block_eq {v : Nat} {es : List DirEntry} (hbehind : Behind m v) (hused : usedOn m .blk v = true)
    (hblock : Block m v es) : Block s₁.disk v es :=
  hblock.congr fun i h1 h2 => by
    have hb := (hlayout.bitmaps .blk).1
    have := hbehind.1 .blk
    rw [htaken.block v hbehind hused i h1 h2, hmounted.disk, zeroed_apply (.inr (by omega))]

/-- What is known of the last entry of a directory still holds once the numbers are taken. -/
theorem Taken.run_mkEntryFor {x : DirEntry} {fileType : Nat} (hlast : LastEntry m d k x)
    (hk : k ≠ INDIRECT_BLK_INDEX) : ∃ a sz : Nat, (mkEntryFor d n fileType name).run s₁ =
      (if Full x name then do
        let memBlk ← newBlock (k + 1)
        let a ← blockAddr memBlk
        putDirEntry a n EXT2_BLOCK_SIZE (name.chars.length % 2 ^ 8) fileType
          (name.chars.take name.chars.length)
      else do
        storeWord 2 (a + 4) sz
        putDirEntry (a + sz) n ((x.recLen : Int) - sz).toNat (name.chars.length % 2 ^ 8) fileType
          (name.chars.take name.chars.length)).run s₁ := by
  obtain ⟨hd, v, es, hindex, hbehind, hv, hused, hblock⟩ := hlast
  obtain ⟨hinode, hnum, htable⟩ := htaken.inodeOf_eq hlayout hmounted hd
  have hblock₁ := htaken.block_eq hlayout hmounted hbehind hused hblock
  rw [← hinode] at hindex
  exact ⟨_, _, run_mkDirEntry_last hnum htable hindex hk hblock₁ (by omega)
    (by rw [htaken.unmoved.size, hmounted.size]; exact block_le_of_lt hv)⟩

/-- With an indirect block, the walk over its table does not get to an end. -/
theorem Taken.mkEntryFor_diverges {fileType v : Nat} (hd : 1 ≤ d ∧ d ≤ total m .ind)
    (hindex : lastBlockIndex (inodeOn m d) (INDIRECT_BLK_INDEX + 2) = some (INDIRECT_BLK_INDEX, v)) :
    (mkEntryFor d n fileType name).run s₁ = .halted .diverges s₁ := by
  obtain ⟨hinode, hnum, htable⟩ := htaken.inodeOf_eq hlayout hmounted hd
  rw [← hinode] at hindex
  rw [mkEntryFor, mkDirEntry, bind_done (run_indTableAt hnum htable)]
  simp only [hindex, Option.map_some, if_true, run_halt]

include hgood

theorem Taken.avail_eq : s₁.blkBmap.numBitsAvail + taken = (freeOn m .blk).length := by
  rw [htaken.avail, ← hmounted.free (hlayout.bitmaps .blk).1]
  exact (hgood .blk).avail

/-- An exit at the end means that too few blocks were left. -/
theorem Taken.short {fileType : Nat} (h : (mkEntryFor d n fileType name).run s₁ = .halted (.exit e) s') :
    Short m d taken name := by
  have havail := htaken.avail_eq hlayout hmounted hgood
  have htwo := mkDirEntry_exit h
  refine ⟨by omega, fun k x hlast => ?_⟩
  by_cases hk : k = INDIRECT_BLK_INDEX
  · subst hk
    obtain ⟨hd, v, es, hindex, _⟩ := hlast
    rw [htaken.mkEntryFor_diverges hlayout hmounted hd hindex] at h
    cases h
  · obtain ⟨a, sz, hrun⟩ := htaken.run_mkEntryFor hlayout hmounted (n := n) hlast hk
    rw [hrun] at h
    by_cases hfull : Full x name
    · rw [if_pos hfull] at h
      refine ⟨hk, hfull, ?_⟩
      rcases bind_eq_halted.mp h with hnew | ⟨memBlk, s₂, _, hrest⟩
      · have hlt := newBlock_exit hnew
        rw [blocksAfter]
        omega
      · exact absurd hrest
          (NeverExits.ne (.bind (neverExits_blockAddr _) fun _ => neverExits_storeBytes _ _))
    · rw [if_neg hfull] at h
      exact absurd h (NeverExits.ne (.bind (neverExits_storeWord _ _ _) fun _ => neverExits_storeBytes _ _))

/-- If too few blocks are left behind a last entry, the tool exits. -/
theorem Taken.exits_of_short {fileType : Nat} {x : DirEntry} (hshort : Short m d taken name)
    (hlast : LastEntry m d k x) :
    (mkEntryFor d n fileType name).run s₁ = .halted (.exit ENOSPC) s₁ := by
  have havail := htaken.avail_eq hlayout hmounted hgood
  obtain ⟨hk, hfull, hlt⟩ := hshort.2 k x hlast
  obtain ⟨a, sz, hrun⟩ := htaken.run_mkEntryFor hlayout hmounted (n := n) hlast hk
  rw [hrun, if_pos hfull, bind_halted (newBlock_short ?_)]
  rw [blocksAfter] at hlt
  omega

end

/-! ## Taking the numbers -/

/-- `find_free` gives the lowest number. -/
theorem run_findFree_lowest (hlayout : Layout m) (hmounted : Mounted m s) (b : Bm)
    (havail : 1 ≤ (s.bmap b).numBitsAvail) (h : (freeOn m b).head? = some k) :
    (findFree (s.bmap b)).run s = .done k s := by
  have h11 := hlayout.le_of_mem_freeOn (List.mem_of_head? h)
  have hmap := mapped_of_layout hlayout hmounted b
  rw [← hmounted.free (hlayout.bitmaps b).1] at h
  obtain ⟨hmem, hlow⟩ := head?_free h
  obtain ⟨⟨_, hN⟩, hfree⟩ := mem_free.mp hmem
  rw [Mapped] at hmap
  exact run_findFree havail h11 (fun j h1 h2 => hlow j (le_trans (by decide) h1) h2) hfree (by omega)

/-- The part of a tool that takes the numbers: it exits only before it has taken any, and once it is done
they are taken. -/
structure Takes (m : Memory) (taken : Nat) (s : State) (x : Tool Unit) : Prop where
  exit : ∀ e s', x.run s = .halted (.exit e) s' → s' = s
  done : ∀ s₁, x.run s = .done () s₁ → Grants (freeOn m .blk) taken ∧ Taken m taken s s₁

section

variable (hlayout : Layout m) (hmounted : Mounted m s) (hgood : ∀ b, Good (total m b) b s)

include hlayout hmounted hgood

theorem Takes.exit_or_short {x : Tool Unit} {fileType : Nat} (hx : Takes m taken s x)
    (h : (x >>= fun _ => mkEntryFor d n fileType name).run s = .halted (.exit e) s') :
    s' = s ∨ Grants (freeOn m .blk) taken ∧ Short m d taken name := by
  rcases bind_eq_halted.mp h with hexit | ⟨_, s₁, hdone, hexit⟩
  · exact .inl (hx.exit e s' hexit)
  · obtain ⟨hgrants, htaken⟩ := hx.done s₁ hdone
    exact .inr ⟨hgrants, htaken.short hlayout hmounted hgood hexit⟩

theorem Takes.exits_of_short {x : Tool Unit} {fileType : Nat} {y : DirEntry} (hx : Takes m taken s x)
    (hdone : x.run s = .done () s₁) (hshort : Short m d taken name) (hlast : LastEntry m d k y) :
    ∃ s', (x >>= fun _ => mkEntryFor d n fileType name).run s = .halted (.exit ENOSPC) s' ∧
      s'.disk ≠ s.disk := by
  have htaken := (hx.done s₁ hdone).2
  exact ⟨s₁, (bind_done hdone).trans (htaken.exits_of_short hlayout hmounted hgood hshort hlast),
    htaken.changed⟩

theorem curr_eq_of_head (b : Bm) (h : (freeOn m b).head? = some k) : (s.bmap b).currAvailNum = k := by
  have hcursor := (hgood b).cursor
  rw [hmounted.free (hlayout.bitmaps b).1, h] at hcursor
  rw [hcursor]
  rfl

theorem avail_eq_length (b : Bm) : (s.bmap b).numBitsAvail = (freeOn m b).length := by
  rw [(hgood b).avail, hmounted.free (hlayout.bitmaps b).1]

theorem bounds_of_head (b : Bm) (h : (freeOn m b).head? = some k) : 11 ≤ k ∧ k ≤ 128 := by
  have hmem : k ∈ s.free b (total m b) := by
    rw [hmounted.free (hlayout.bitmaps b).1]
    exact List.mem_of_head? h
  obtain ⟨h11, hN⟩ := (hgood b).le_of_mem_free hmem
  exact ⟨h11, hN.trans (hlayout.total b).1⟩

theorem run_findFree_head (b : Bm) (h : (freeOn m b).head? = some k) :
    (findFree (s.bmap b)).run s = .done k s := by
  refine run_findFree_lowest hlayout hmounted b ?_ h
  rw [avail_eq_length hlayout hmounted hgood]
  exact List.length_pos_of_mem (List.mem_of_head? h)

/-- Two looks at the table, and the numbers are taken. -/
theorem takes_after_contents {i nb : Nat} {j j' : Int} (hi : (freeOn m .ind).head? = some i)
    (hnb : (freeOn m .blk).head? = some nb)
    (hD : ∀ a, a < nb * EXT2_BLOCK_SIZE ∨ nb * EXT2_BLOCK_SIZE + EXT2_BLOCK_SIZE ≤ a → D a = s.disk a) :
    Triple (fun s' => s' = { s with disk := D })
      (indTableAt j >>= fun _ => indTableAt j' >>= fun _ => setUsedBit .ind >>= fun _ => setUsedBit .blk)
      (fun _ s₁ => Taken m 1 s s₁) fun h _ => ∀ e, h ≠ .exit e := by
  refine .bind ((neverExits_indTableAt _).triple (readOnly_indTableAt _)) fun _ => ?_
  refine .bind ((neverExits_indTableAt _).triple (readOnly_indTableAt _)) fun _ => ?_
  rintro _ rfl
  obtain ⟨s₁, hrun, htaken, _⟩ := run_takeOne hlayout hmounted hgood hi hnb hD
  rw [hrun]
  exact htaken

/-- The memory with the two entries of a new directory in a block. -/
def newDirBlock (D : Memory) (nb n d : Nat) : Memory :=
  Memory.store (Memory.store D (nb * EXT2_BLOCK_SIZE)
      (entryBytes d (TRUE_FILE_SIZE 2) 2 EXT2_FT_REG_FILE [0x2E, 0x2E]))
    (nb * EXT2_BLOCK_SIZE + TRUE_FILE_SIZE 2) (entryBytes n (TRUE_FILE_SIZE 1) 1 EXT2_FT_REG_FILE [0x2E])

/-- A part that fills in the free block first, if that is on the disk. -/
def FillsBlock (s : State) (nb : Nat) (j j' : Int) (x : Tool Unit) : Prop :=
  ∃ D : Memory, (∀ a, a < nb * EXT2_BLOCK_SIZE ∨ nb * EXT2_BLOCK_SIZE + EXT2_BLOCK_SIZE ≤ a →
      D a = s.disk a) ∧
    x.run s = if nb < 128 then
      (indTableAt j >>= fun _ => indTableAt j' >>= fun _ => setUsedBit .ind >>= fun _ => setUsedBit .blk).run
        { s with disk := D }
      else .halted .fault s

omit hlayout hmounted hgood in
theorem grants_one {nb : Nat} (hnb : (freeOn m .blk).head? = some nb) :
    Grants (freeOn m .blk) 1 ↔ nb < 128 := by
  obtain ⟨rest, hrest⟩ := List.head?_eq_some_iff.mp hnb
  rw [hrest]
  constructor
  · rintro ⟨k, rest', heq, hlt⟩
    cases heq
    exact hlt
  · intro hlt
    exact ⟨nb, rest, rfl, hlt⟩

theorem takes_of_fillsBlock {x : Tool Unit} {i nb : Nat} {j j' : Int} (hi : (freeOn m .ind).head? = some i)
    (hnb : (freeOn m .blk).head? = some nb) (hx : FillsBlock s nb j j' x) : Takes m 1 s x := by
  obtain ⟨D, hD, hrun⟩ := hx
  have htriple := @takes_after_contents _ _ _ hlayout hmounted hgood _ _ j j' hi hnb hD
  constructor
  · intro e s' hexit
    rw [hrun] at hexit
    split at hexit
    · exact absurd rfl (htriple.of_halted rfl hexit e)
    · cases hexit
  · intro s₁ hdone
    rw [hrun] at hdone
    split at hdone
    · rename_i hlt
      exact ⟨(grants_one hnb).mpr hlt, htriple.of_done rfl hdone⟩
    · cases hdone

omit hlayout hmounted hgood in
theorem indTableAt_mapped {j : Int} (h0 : 0 ≤ j) (h : (s.indTable : Int) + inodeSize * (j + 1) ≤ s.size) :
    ∃ inode, (indTableAt j).run s = .done inode s := by
  have h128 : (inodeSize : Int) = 128 := rfl
  rw [h128] at h
  rw [indTableAt, run_get_bind]
  dsimp only
  rw [h128, if_pos (by omega)]
  exact ⟨_, rfl⟩

theorem done_of_fillsBlock {x : Tool Unit} {i nb : Nat} {j j' : Int} (hi : (freeOn m .ind).head? = some i)
    (hnb : (freeOn m .blk).head? = some nb) (hlt : nb < 128)
    (hj : 0 ≤ j ∧ (tableAt m : Int) + inodeSize * (j + 1) ≤ 128 * 1024)
    (hj' : 0 ≤ j' ∧ (tableAt m : Int) + inodeSize * (j' + 1) ≤ 128 * 1024)
    (hx : FillsBlock s nb j j' x) : ∃ s₁, x.run s = .done () s₁ := by
  obtain ⟨D, hD, hrun⟩ := hx
  obtain ⟨s₁, htake, _⟩ := run_takeOne hlayout hmounted hgood hi hnb hD
  rw [← hmounted.table] at hj hj'
  obtain ⟨inode, hinode⟩ := indTableAt_mapped (s := { s with disk := D }) hj.1 (by
    rw [hmounted.size]
    exact hj.2)
  obtain ⟨inode', hinode'⟩ := indTableAt_mapped (s := { s with disk := D }) hj'.1 (by
    rw [hmounted.size]
    exact hj'.2)
  exact ⟨s₁, by rw [hrun, if_pos hlt, bind_done hinode, bind_done hinode', htake]⟩

omit hlayout hmounted hgood in
theorem newDirBlock_apply {nb a : Nat}
    (ha : a < nb * EXT2_BLOCK_SIZE ∨ nb * EXT2_BLOCK_SIZE + EXT2_BLOCK_SIZE ≤ a) :
    newDirBlock D nb n d a = D a := by
  have h1024 : EXT2_BLOCK_SIZE = 1024 := rfl
  have h12 : TRUE_FILE_SIZE 2 = 12 := rfl
  rcases ha with ha | ha
  · rw [newDirBlock, Memory.store_of_lt (by omega), Memory.store_of_lt ha]
  · rw [newDirBlock, Memory.store_of_le (by rw [length_entryBytes, h12, List.length_singleton]; omega),
      Memory.store_of_le (by rw [length_entryBytes, List.length_cons, List.length_singleton]; omega)]

/-- The first free block gets both entries, if it is on the disk. -/
theorem run_mkNewDirInode {nb : Nat} (hnb : (freeOn m .blk).head? = some nb) :
    (mkNewDirInode n d).run s = if nb < 128 then
      (indTableAt (signed n - 1) >>= fun _ => indTableAt (signed d - 1) >>= fun _ => setUsedBit .ind >>= fun _ =>
        setUsedBit .blk).run { s with disk := newDirBlock s.disk nb n d }
      else .halted .fault s := by
  obtain ⟨h11, h128⟩ := bounds_of_head hlayout hmounted hgood .blk hnb
  have hcurr := curr_eq_of_head hlayout hmounted hgood .blk hnb
  have havail := avail_eq_length hlayout hmounted hgood .blk
  have hpos : 0 < (freeOn m .blk).length := List.length_pos_of_mem (List.mem_of_head? hnb)
  have hfind : findFreeBlock.run s = .done nb s := by
    rw [findFreeBlock, run_get_bind]
    change (if (s.bmap .blk).numBitsAvail < 1 then _ else _ : Tool Nat).run s = _
    rw [if_neg (by omega), run_pure]
    exact congrArg (Outcome.done · s) hcurr
  have h1024 : EXT2_BLOCK_SIZE = 1024 := rfl
  have h12 : TRUE_FILE_SIZE 2 = 12 := rfl
  have hsize := hmounted.size
  rw [mkNewDirInode, bind_done hfind, blockAddr, if_pos (by omega), pure_bind]
  split
  · have hle : nb * EXT2_BLOCK_SIZE + EXT2_BLOCK_SIZE ≤ 128 * EXT2_BLOCK_SIZE := block_le_of_lt ‹_›
    rw [bind_done (run_putDirEntry (by rw [List.length_cons, List.length_singleton]; omega)),
      bind_done (run_putDirEntry (by rw [List.length_singleton, h12]; dsimp only; omega))]
    rfl
  · have h128' : nb = 128 := by omega
    subst h128'
    rw [putDirEntry, bind_halted (run_storeBytes_fault (by rw [length_entryBytes, hsize]; decide))]

theorem fillsBlock_mkNewDirInode {nb : Nat} (hnb : (freeOn m .blk).head? = some nb) :
    FillsBlock s nb (signed n - 1) (signed d - 1) (mkNewDirInode n d) :=
  ⟨_, fun _ => newDirBlock_apply, run_mkNewDirInode hlayout hmounted hgood hnb⟩

theorem fillsBlock_mkNewSymlinkInode {nb : Nat} {linkPath : Name} (hnb : (freeOn m .blk).head? = some nb) :
    FillsBlock s nb ((d : Int) - 1) ((n : Int) - 1) (mkNewSymlinkInode n d linkPath) := by
  obtain ⟨h11, h128⟩ := bounds_of_head hlayout hmounted hgood .blk hnb
  have hfind := run_findFree_head hlayout hmounted hgood .blk hnb
  have h1024 : EXT2_BLOCK_SIZE = 1024 := rfl
  have hsize := hmounted.size
  have haddr := @blockAddrU_of_lt nb (by rw [h1024]; omega)
  refine ⟨Function.update s.disk (nb * EXT2_BLOCK_SIZE) (linkPath.chars.headD 0), fun a ha => ?_, ?_⟩
  · exact Function.update_of_ne (by omega) _ _
  · have hfind' : (findFree s.blkBmap).run s = .done nb s := hfind
    rw [mkNewSymlinkInode, run_get_bind, bind_done hfind', haddr]
    split
    · have hle : nb * EXT2_BLOCK_SIZE + EXT2_BLOCK_SIZE ≤ 128 * EXT2_BLOCK_SIZE := block_le_of_lt ‹_›
      rw [bind_done (run_storeByte (by omega))]
    · have h128' : nb = 128 := by omega
      subst h128'
      have hfault : (storeByte (128 * EXT2_BLOCK_SIZE) (linkPath.chars.headD 0)).run s = .halted .fault s := by
        rw [storeByte, run_get_bind, if_neg (by rw [hsize]; decide), run_halt]
      rw [bind_halted hfault]

end

/-! ### The numbers of a file -/

theorem toggleBits_done {sysBm : Nat} {ns : List Nat} (hpos : ∀ n ∈ ns, 1 ≤ n)
    (h : (toggleBits sysBm ns).run s = .done () s') : s' = { s with disk := flips s.disk sysBm ns } := by
  induction ns generalizing s with
  | nil =>
    cases h
    rfl
  | cons n ns ih =>
    obtain ⟨_, s₁, htoggle, hrest⟩ := bind_eq_done.mp h
    obtain ⟨byte, s₂, hload, hstore⟩ := bind_eq_done.mp htoggle
    obtain ⟨_, rfl, rfl⟩ := loadByte_done hload
    obtain ⟨_, rfl⟩ := storeByte_done hstore
    have h1 := hpos n List.mem_cons_self
    rw [ih (fun n' hn' => hpos n' (List.mem_cons_of_mem _ hn')) hrest, flips_cons, flip, BYTE_INDEX_eq h1,
      BIT_INDEX_eq h1]

theorem updateCursor_done (h : (updateCursor b).run s = .done () s') :
    ∃ bm, s' = s.setBmap b bm ∧ bm.sysBm = (s.bmap b).sysBm ∧
      bm.numBitsAvail = (s.bmap b).numBitsAvail := by
  rw [updateCursor, run_get_bind] at h
  split at h
  · obtain ⟨num, s₁, hfind, hset⟩ := bind_eq_done.mp h
    obtain rfl := (readOnly_findFree _).of_done hfind
    cases hset
    exact ⟨_, rfl, rfl, rfl⟩
  · cases h
    exact ⟨_, rfl, rfl, rfl⟩

/-- What `set_n_toggle_bit` has done once it is done. -/
theorem setNToggleBit_done {ns : List Nat} (hpos : ∀ n ∈ ns, 1 ≤ n)
    (h : (setNToggleBit b ns 1).run s = .done () s') :
    (∃ last, ns.getLast? = some last ∧ 1 ≤ BYTE_INDEX last ∧ BYTE_INDEX last ≤ 15) ∧
      ∃ bm, s' = { s with disk := flips s.disk (s.bmap b).sysBm ns }.setBmap b bm ∧
        bm.sysBm = (s.bmap b).sysBm ∧ bm.numBitsAvail = sub32 (s.bmap b).numBitsAvail ns.length := by
  rw [setNToggleBit] at h
  split at h
  · cases h
  · rename_i last hlast
    rw [run_get_bind] at h
    obtain ⟨_, s₁, htoggle, h₁⟩ := bind_eq_done.mp h
    obtain rfl := toggleBits_done hpos htoggle
    split at h₁
    · rename_i hbyte
      rw [run_modify_bind] at h₁
      obtain ⟨bm, rfl, hsysBm, havail⟩ := updateCursor_done h₁
      refine ⟨⟨last, hlast, hbyte⟩, bm, ?_, ?_, ?_⟩
      · cases b <;> rfl
      · rw [hsysBm, State.bmap_setBmap, State.bmap_disk]
      · rw [havail, State.bmap_setBmap, State.bmap_disk, if_pos rfl]
    · cases h₁

/-- The search for the next number ends if there is one. -/
theorem updateCursor_ends {N : Nat} (hmap : Mapped N b s)
    (hclear : (s.bmap b).numBitsAvail > 0 → ∃ n, 11 ≤ n ∧ n ≤ N ∧ s.used b n = false) :
    ∃ s', (updateCursor b).run s = .done () s' := by
  rw [updateCursor, run_get_bind]
  by_cases hpos : (s.bmap b).numBitsAvail > 0
  · rw [if_pos hpos]
    have hex : ∃ n, 11 ≤ n ∧ s.used b n = false := by
      obtain ⟨n, h11, _, hused⟩ := hclear hpos
      exact ⟨n, h11, hused⟩
    obtain ⟨k, h11, hN, hused⟩ := hclear hpos
    have hle : Nat.find hex ≤ k := Nat.find_min' hex ⟨h11, hused⟩
    obtain ⟨hfind11, hfind⟩ := Nat.find_spec hex
    have hrun := @run_findFree _ s (s.bmap b) hpos hfind11 (fun j h1 h2 => by
      by_contra hj
      exact Nat.find_min hex h2 ⟨h1, by simpa [State.used] using hj⟩) hfind
      (by unfold Mapped at hmap; omega)
    rw [bind_done hrun]
    exact ⟨_, rfl⟩
  · rw [if_neg hpos]
    exact ⟨_, rfl⟩

/-- Toggling two bits leaves one of three free numbers free. -/
theorem exists_clear_of_two {sysBm N n' : Nat} (hn : 1 ≤ n) (hlt : n < n')
    (hlen : 2 < (free D sysBm N).length) :
    ∃ j ∈ free D sysBm N, used (flips D sysBm [n, n']) sysBm j = false := by
  have hex : ∃ j ∈ free D sysBm N, j ∉ [n, n'] := by
    by_contra hall
    have hsub : free D sysBm N ⊆ [n, n'] := fun j hj => by_contra fun hout => hall ⟨j, hj, hout⟩
    have hle := ((free_nodup D sysBm N).subperm hsub).length_le
    rw [List.length_cons, List.length_singleton] at hle
    omega
  obtain ⟨j, hj, hout⟩ := hex
  obtain ⟨⟨h1, _⟩, hfree⟩ := mem_free.mp hj
  refine ⟨j, hj, ?_⟩
  rw [used_flips (by simp; omega) (by simp; omega) h1, hfree, decide_eq_false hout]
  rfl

section

variable (hlayout : Layout m) (hmounted : Mounted m s) (hgood : ∀ b, Good (total m b) b s)

include hlayout hmounted hgood

/-- After bits of blocks have been toggled, the inode is taken. -/
theorem run_takeInode {i nb : Nat} {ns : List Nat} {bm : Bitmap} (hi : (freeOn m .ind).head? = some i)
    (hnb : nb ∈ freeOn m .blk) (hns : ∀ n ∈ ns, n ≤ 128) (hsysBm : bm.sysBm = s.blkBmap.sysBm)
    (havail : bm.numBitsAvail + taken = s.blkBmap.numBitsAvail) :
    ∃ s₁, (setUsedBit .ind).run ({ s with disk := flips s.disk s.blkBmap.sysBm ns }.setBmap .blk bm) =
      .done () s₁ ∧ Taken m taken s s₁ := by
  have hN : total m .ind ≤ 8 * EXT2_BLOCK_SIZE := (hlayout.total .ind).1.trans (by decide)
  have h1024 : EXT2_BLOCK_SIZE = 1024 := rfl
  have hblkBm : s.blkBmap.sysBm = bitmapAt m .blk := hmounted.sysBm .blk
  have hindBm := hmounted.sysBm .ind
  have hfree := hmounted.free (s := s) (hlayout.bitmaps .ind).1
  have hapart := hlayout.apart
  obtain ⟨hi11, hi128⟩ := bounds_of_head hlayout hmounted hgood .ind hi
  rw [hblkBm]
  -- Toggling the bits of blocks leaves those of inodes as they are.
  have hout : ∀ a, a < bitmapAt m .blk ∨ bitmapAt m .blk + EXT2_BLOCK_SIZE ≤ a →
      flips s.disk (bitmapAt m .blk) ns a = s.disk a := fun a ha =>
    flips_of_forall_ne fun n hn => by
      have := hns n hn
      omega
  generalize hs₂ : State.setBmap { s with disk := flips s.disk (bitmapAt m .blk) ns } .blk bm = s₂
  have hdisk₂ : s₂.disk = flips s.disk (bitmapAt m .blk) ns := by rw [← hs₂, State.disk_setBmap]
  have hbmap₂ : s₂.bmap .ind = s.bmap .ind := by
    rw [← hs₂]
    rfl
  have hmoved₂ : Unmoved s s₂ := hs₂ ▸ Unmoved.disk.trans (.setBmap hsysBm)
  have hind₂ : ∀ a, (s.bmap .ind).sysBm ≤ a → a < (s.bmap .ind).sysBm + EXT2_BLOCK_SIZE →
      s₂.disk a = s.disk a := fun a h1 h2 => by
    rw [hindBm] at h1 h2
    rw [hdisk₂, hout a (by omega)]
  have hgood₂ : Good (total m .ind) .ind s₂ := (hgood .ind).congr hN hbmap₂ hind₂
  have hmap₂ : Mapped (total m .ind) .ind s₂ := by
    rw [Mapped, hbmap₂, hmoved₂.size]
    exact mapped_of_layout hlayout hmounted .ind
  have hrun := run_setUsedBit hmap₂ hgood₂ (by rw [State.free_congr hN hbmap₂ hind₂, hfree, hi])
  have hdisk₃ : (s₂.toggled .ind (total m .ind) [i]).disk =
      flips (flips s.disk (bitmapAt m .blk) ns) (bitmapAt m .ind) [i] := by
    rw [disk_toggled, hbmap₂, hindBm, hdisk₂]
  refine ⟨_, hrun, .of_kept hlayout hmounted hgood (hmoved₂.trans .toggled) ?_ (List.mem_of_head? hi) hnb ?_
    fun a ha _ => ?_⟩
  · have hbmap₃ : (s₂.toggled .ind (total m .ind) [i]).bmap .blk = bm := by
      rw [bmap_toggled_of_ne (by decide), ← hs₂, State.bmap_setBmap]
    exact (congrArg (fun bm : Bitmap => bm.numBitsAvail + taken) hbmap₃).trans havail
  · have hclear : used (flips s.disk (bitmapAt m .blk) ns) (bitmapAt m .ind) i = false := by
      have hused := State.used_congr hbmap₂ hind₂ (n := i) (by omega)
      rw [State.used, hbmap₂, hindBm, hdisk₂] at hused
      rw [hused, hmounted.used hlayout]
      exact (mem_free.mp (List.mem_of_head? hi)).2
    rw [hdisk₃, used_flips (by simp) (by simp; omega) (by omega), hclear]
    simp
  · rw [hdisk₃, flips_of_forall_ne (by have := ha .ind; simp; omega), hout a (ha .blk)]

/-- The numbers that a file takes: two are counted on from the first free one. -/
theorem run_findNFree_two : (∃ k k' rest, freeOn m .blk = k :: k' :: rest ∧ 11 ≤ k ∧ k < k' ∧ k' ≤ 128 ∧
      (findNFree s.blkBmap 2).run s = .done [k + (k - 11), k + (k' - 11)] s) ∨
    (freeOn m .blk).length < 2 ∧ (findNFree s.blkBmap 2).run s = .halted (.exit ENOSPC) s := by
  have havail := avail_eq_length hlayout hmounted hgood .blk
  have hfree := hmounted.free (s := s) (hlayout.bitmaps .blk).1
  by_cases hlen : 2 ≤ (freeOn m .blk).length
  · left
    have hrun := fun n h => (hgood .blk).run_findNFree (n := n) (hlayout.total .blk).1
      (mapped_of_layout hlayout hmounted .blk) (havail.symm ▸ hlen) h
    have hsorted : (freeOn m .blk).Pairwise (· < ·) := free_sorted _ _ _
    have hbound : ∀ k ∈ freeOn m .blk, 11 ≤ k ∧ k ≤ 128 := fun k hk => by
      obtain ⟨h11, hN⟩ := (hgood .blk).le_of_mem_free (hfree.symm ▸ hk)
      exact ⟨h11, hN.trans (hlayout.total .blk).1⟩
    rw [hfree] at hrun
    obtain ⟨k, rest, hk⟩ := List.exists_cons_of_length_pos (by omega : 0 < (freeOn m .blk).length)
    obtain ⟨k', rest, rfl⟩ := List.exists_cons_of_length_pos (l := rest) (by
      rw [hk, List.length_cons] at hlen
      omega)
    rw [hk] at hrun hsorted hbound
    have hlt := (List.pairwise_cons.mp hsorted).1 k' (by simp)
    exact ⟨k, k', rest, hk, (hbound k (by simp)).1, hlt, (hbound k' (by simp)).2, hrun k rfl⟩
  · right
    refine ⟨by omega, ?_⟩
    have hnum : s.blkBmap.numBitsAvail = (freeOn m .blk).length := havail
    rw [findNFree, if_pos (by omega), run_halt]

/-- Once the bits of two blocks have been toggled, the numbers were in the range of the bitmap, and
the inode is taken with them. -/
theorem taken_of_toggledTwo {i k k' : Nat} {rest : List Nat} {s₂ : State}
    (hi : (freeOn m .ind).head? = some i) (hfree : freeOn m .blk = k :: k' :: rest)
    (h11 : 11 ≤ k) (hlt : k < k')
    (htoggle : (setNToggleBit .blk [k + (k - 11), k + (k' - 11)] 1).run s = .done () s₂) :
    k + (k' - 11) ≤ 128 ∧ ∃ s₁, (setUsedBit .ind).run s₂ = .done () s₁ ∧ Taken m 2 s s₁ := by
  have havail := avail_eq_length hlayout hmounted hgood .blk
  have hpos : ∀ n ∈ [k + (k - 11), k + (k' - 11)], 1 ≤ n := by simp; omega
  -- The assertion on the last number bounds both.
  obtain ⟨⟨last, hlast, hbyte⟩, bm, rfl, hsysBm, hnum⟩ := setNToggleBit_done hpos htoggle
  have hlast' : some (k + (k' - 11)) = some last := hlast
  cases hlast'
  rw [BYTE_INDEX_eq (by omega)] at hbyte
  have hrange : k + (k' - 11) ≤ 128 := by omega
  refine ⟨hrange, run_takeInode hlayout hmounted hgood hi (show k ∈ freeOn m .blk by simp [hfree])
    ?_ hsysBm ?_⟩
  · simp
    omega
  · have hlen : (s.bmap .blk).numBitsAvail = rest.length + 2 := by rw [havail, hfree]; rfl
    rw [hnum, sub32_of_le (by rw [hlen]; simp)]
    exact Nat.sub_add_cancel (by rw [hlen]; simp)

omit hlayout hmounted hgood in
/-- Where the tool exits or is done, it had an empty file to copy and a look at the inode. -/
theorem mkNewFileInode_behind {file : Option Nat} {o : Outcome Halt State Unit}
    (h : (mkNewFileInode n file).run s = o)
    (ho : (∃ e s', o = .halted (.exit e) s') ∨ ∃ s', o = .done () s') :
    ((do
      let memBlks ← findNFree s.blkBmap 2
      setNToggleBit .blk memBlks 1
      setUsedBit .ind : Tool Unit)).run s = o := by
  have hne : ∀ s', o ≠ .halted .fault s' := by
    rintro s' rfl
    rcases ho with ⟨e, t, heq⟩ | ⟨t, heq⟩
    · cases heq
    · cases heq
  unfold mkNewFileInode at h
  split at h
  · exact absurd h.symm (hne s)
  split at h
  · exact absurd h.symm (hne s)
  rcases ho with ⟨e, s', rfl⟩ | ⟨s', rfl⟩
  · rcases bind_eq_halted.mp h with hlook | ⟨inode, s₁, hlook, h₁⟩
    · exact absurd hlook (neverExits_indTableAt _).ne
    · obtain rfl := (readOnly_indTableAt _).of_done hlook
      rw [run_get_bind] at h₁
      exact h₁
  · obtain ⟨inode, s₁, hlook, h₁⟩ := bind_eq_done.mp h
    obtain rfl := (readOnly_indTableAt _).of_done hlook
    rw [run_get_bind] at h₁
    exact h₁

theorem takes_mkNewFileInode {i : Nat} {file : Option Nat} (hi : (freeOn m .ind).head? = some i) :
    Takes m 2 s (mkNewFileInode n file) := by
  rcases run_findNFree_two hlayout hmounted hgood with
    ⟨k, k', rest, hfree, h11, hlt, h128, hfind⟩ | ⟨_, hfind⟩
  · constructor
    · intro e s' hexit
      have hrun := mkNewFileInode_behind hexit (.inl ⟨e, s', rfl⟩)
      rw [bind_done hfind] at hrun
      rcases bind_eq_halted.mp hrun with htoggle | ⟨_, s₂, htoggle, hused⟩
      · exact absurd htoggle (neverExits_setNToggleBit _ _ _).ne
      · obtain ⟨_, s₃, hdone, _⟩ :=
          taken_of_toggledTwo hlayout hmounted hgood hi hfree h11 hlt htoggle
        rw [hdone] at hused
        cases hused
    · intro s₁ hdone
      have hrun := mkNewFileInode_behind hdone (.inr ⟨s₁, rfl⟩)
      rw [bind_done hfind] at hrun
      obtain ⟨_, s₂, htoggle, hused⟩ := bind_eq_done.mp hrun
      obtain ⟨hrange, s₃, hdone', htaken⟩ :=
        taken_of_toggledTwo hlayout hmounted hgood hi hfree h11 hlt htoggle
      rw [hdone'] at hused
      cases hused
      exact ⟨⟨k, k', rest, hfree, hrange⟩, htaken⟩
  · constructor
    · intro e s' hexit
      have hrun := mkNewFileInode_behind hexit (.inl ⟨e, s', rfl⟩)
      rw [bind_halted hfind] at hrun
      cases hrun
      rfl
    · intro s₁ hdone
      have hrun := mkNewFileInode_behind hdone (.inr ⟨s₁, rfl⟩)
      rw [bind_halted hfind] at hrun
      cases hrun

/-- An empty file takes its numbers, if they are in the range of the bitmap. -/
theorem done_mkNewFileInode {i size : Nat} (hi : (freeOn m .ind).head? = some i) (hsize : size % 2 ^ 32 = 0)
    (hgrants : Grants (freeOn m .blk) 2) : ∃ s₁, (mkNewFileInode i (some size)).run s = .done () s₁ := by
  obtain ⟨k₀, k₀', rest₀, hfree₀, hrange⟩ := hgrants
  have havail := avail_eq_length hlayout hmounted hgood .blk
  have hN := (hlayout.total .blk).1
  have hmap := mapped_of_layout hlayout hmounted .blk
  have h1024 : EXT2_BLOCK_SIZE = 1024 := rfl
  obtain ⟨hi11, hi128⟩ := bounds_of_head hlayout hmounted hgood .ind hi
  rcases run_findNFree_two hlayout hmounted hgood with ⟨k, k', rest, hfree, h11, hlt, h128, hfind⟩ | ⟨hshort, _⟩
  · have hrange : k + (k' - 11) ≤ 128 := by
      have heq := hfree.symm.trans hfree₀
      simp only [List.cons.injEq] at heq
      omega
    have hlook : ∃ inode, (indTableAt (signed i)).run s = .done inode s := by
      rw [signed_of_lt (by omega)]
      have htable : tableAt m + inodeSize * total m .ind ≤ 11 * 1024 := hlayout.table.2
      have h128' : (inodeSize : Int) = 128 := rfl
      refine indTableAt_mapped (Int.natCast_nonneg i) ?_
      rw [hmounted.table, hmounted.size, h128']
      omega
    obtain ⟨inode, hlook⟩ := hlook
    have hpos : ∀ n ∈ [k + (k - 11), k + (k' - 11)], 1 ≤ n := by simp; omega
    have hbitmap : bitmapAt m .blk + EXT2_BLOCK_SIZE ≤ 11 * 1024 := (hlayout.bitmaps .blk).2
    have hsysBm : (s.bmap .blk).sysBm = bitmapAt m .blk := hmounted.sysBm .blk
    have hmap' : (s.bmap .blk).sysBm + EXT2_BLOCK_SIZE ≤ s.size := by
      rw [hmounted.size, hsysBm]
      omega
    have htoggles : (toggleBits (s.bmap .blk).sysBm [k + (k - 11), k + (k' - 11)]).run s = .done ()
        { s with disk := flips s.disk (s.bmap .blk).sysBm [k + (k - 11), k + (k' - 11)] } :=
      run_toggleBits (fun n hn => ⟨hpos n hn, by simp at hn; omega⟩)
    have hbyte : 1 ≤ BYTE_INDEX (k + (k' - 11)) ∧ BYTE_INDEX (k + (k' - 11)) ≤ 15 := by
      rw [BYTE_INDEX_eq (by omega)]
      omega
    -- If there is a third free number, one of the three is still clear for the cursor.
    have hends := updateCursor_ends (b := .blk) (N := total m .blk)
      (s := ({ s with disk := flips s.disk (s.bmap .blk).sysBm [k + (k - 11), k + (k' - 11)] } : State).setBmap .blk
        { s.bmap .blk with numBitsAvail := sub32 (s.bmap .blk).numBitsAvail 2 })
      (by rw [Mapped, State.bmap_setBmap, State.size_setBmap]; exact hmap) ?_
    · obtain ⟨s₂, hcursor⟩ := hends
      have htoggle : (setNToggleBit .blk [k + (k - 11), k + (k' - 11)] 1).run s = .done () s₂ := by
        change (do
          let s ← get
          toggleBits (s.bmap .blk).sysBm [k + (k - 11), k + (k' - 11)]
          if 1 ≤ BYTE_INDEX (k + (k' - 11)) ∧ BYTE_INDEX (k + (k' - 11)) ≤ 15 then do
            modify fun s => s.setBmap .blk { s.bmap .blk with
              numBitsAvail := sub32 (s.bmap .blk).numBitsAvail 2 }
            updateCursor .blk
          else halt .assertion : Tool Unit).run s = _
        rw [run_get_bind, bind_done htoggles, if_pos hbyte, run_modify_bind]
        exact hcursor
      obtain ⟨_, s₁, hused, _⟩ := taken_of_toggledTwo hlayout hmounted hgood hi hfree h11 hlt htoggle
      refine ⟨s₁, ?_⟩
      unfold mkNewFileInode
      dsimp only
      rw [if_neg (not_not.mpr hsize), bind_done hlook, run_get_bind, bind_done hfind, bind_done htoggle]
      exact hused
    · intro hleft
      have hlen : (s.bmap .blk).numBitsAvail = rest.length + 2 := by rw [havail, hfree]; rfl
      rw [State.bmap_setBmap, hlen, sub32_of_le (by omega)] at hleft
      dsimp only at hleft
      obtain ⟨j, hj, hclear⟩ := @exists_clear_of_two s.disk _ (s.bmap .blk).sysBm
        (total m .blk) _ (hpos _ (by simp)) (show k + (k - 11) < k + (k' - 11) by omega) (by
          change 2 < (s.free .blk (total m .blk)).length
          rw [← (hgood .blk).avail]
          omega)
      obtain ⟨h11', hN'⟩ := (hgood .blk).le_of_mem_free hj
      refine ⟨j, h11', hN', ?_⟩
      rw [State.used, State.bmap_setBmap, State.disk_setBmap]
      exact hclear
  · rw [hfree₀, List.length_cons, List.length_cons] at hshort
    omega

end

/-! ## The operations -/

/-- An exit of a part that only reads leaves the state as it is. -/
theorem exit_readOnly_bind {α β : Type} {x : Tool α} {f : α → Tool β} (hx : ReadOnly x)
    (h : (x >>= f).run s = .halted (.exit e) s') :
    s' = s ∨ ∃ a, x.run s = .done a s ∧ (f a).run s = .halted (.exit e) s' := by
  rcases bind_eq_halted.mp h with hexit | ⟨a, s₁, hdone, hexit⟩
  · exact .inl (hx.of_halted hexit)
  · obtain rfl := hx.of_done hdone
    exact .inr ⟨a, hdone, hexit⟩

/-- An exit behind a test that ends the tool. -/
theorem exit_unless {α : Type} {c : Prop} [Decidable c] {errno : Nat} {x : Tool α}
    (h : (if c then halt (.exit errno) else x).run s = .halted (.exit e) s') :
    s' = s ∨ ¬c ∧ x.run s = .halted (.exit e) s' := by
  split at h
  case isTrue hc =>
    cases h
    exact .inl rfl
  case isFalse hc => exact .inr ⟨hc, h⟩

section

variable (hlayout : Layout m) (hcounts : CountsTrue m) (hinit : initGlobals.run (.boot m) = .done () s)

include hlayout hcounts hinit

/-- A tool that has found a free inode starts with both bitmaps in order. -/
theorem ready_of_avail (havail : ¬s.indBmap.numBitsAvail < 1) :
    freeOn m .ind ≠ [] ∧ Mounted m s ∧ (∀ b, Good (total m b) b s) ∧
      ∃ i nb, (freeOn m .ind).head? = some i ∧ (freeOn m .blk).head? = some nb := by
  have hmounted := mounted_of_initGlobals hinit
  have hind : freeOn m .ind ≠ [] := by
    intro hnil
    have hnum : s.indBmap.numBitsAvail = (freeOn m .ind).length :=
      (hmounted.avail .ind).trans (hcounts.group .ind)
    rw [hnum, hnil, List.length_nil] at havail
    omega
  obtain ⟨hblk, hgood⟩ := good_of_initGlobals hlayout hcounts hinit hind
  exact ⟨hind, hmounted, hgood, _, _, List.head?_eq_some_head hind, List.head?_eq_some_head hblk⟩

theorem starved_mkdir {p : List Name} {dpath : Name} (h : (ext2Mkdir p dpath).run s = .halted (.exit e) s') :
    s' = s ∨ Starved m (.mkdir p dpath) := by
  rcases exit_readOnly_bind (readOnly_dirEntryExists _ _) h with hs | ⟨d, hparent, h₁⟩
  · exact .inl hs
  rcases exit_unless h₁ with hs | ⟨hd, h₁'⟩
  · exact .inl hs
  rcases exit_readOnly_bind (readOnly_dirEntryExists _ _) h₁' with hs | ⟨x, hexisting, h₂⟩
  · exact .inl hs
  rcases exit_unless h₂ with hs | ⟨hx, h₂'⟩
  · exact .inl hs
  rcases exit_readOnly_bind readOnly_findFreeInode h₂' with hs | ⟨n, hfind, h₃⟩
  · exact .inl hs
  rw [findFreeInode, run_get_bind] at hfind
  split at hfind
  · cases hfind
  · rename_i havail
    obtain ⟨hind, hmounted, hgood, i, nb, hi, hnb⟩ := ready_of_avail hlayout hcounts hinit havail
    have htakes : Takes m 1 s (mkNewDirInode n d) := takes_of_fillsBlock hlayout hmounted hgood hi hnb
      (fillsBlock_mkNewDirInode hlayout hmounted hgood hnb)
    refine (htakes.exit_or_short hlayout hmounted hgood h₃).imp_right fun hs => ?_
    exact ⟨s, d, 1, dpath, hinit, .mkdir hparent hd hexisting hx, hind, hs.1, hs.2⟩

theorem starved_cp {p : List Name} {fpath : Name} {file : Option Nat}
    (h : (ext2Cp p fpath file).run s = .halted (.exit e) s') : s' = s ∨ Starved m (.cp p fpath file) := by
  rcases exit_readOnly_bind (readOnly_dirEntryExists _ _) h with hs | ⟨d, hparent, h₁⟩
  · exact .inl hs
  rcases exit_unless h₁ with hs | ⟨hd, h₁'⟩
  · exact .inl hs
  rcases exit_readOnly_bind (readOnly_dirEntryExists _ _) h₁' with hs | ⟨x, hexisting, h₂⟩
  · exact .inl hs
  rcases exit_unless h₂ with hs | ⟨hx, h₂'⟩
  · exact .inl hs
  obtain rfl : x = 0 := not_not.mp hx
  rw [run_get_bind] at h₂'
  rcases exit_readOnly_bind (readOnly_findFree _) h₂' with hs | ⟨n, hfind, h₃⟩
  · exact .inl hs
  rcases exit_readOnly_bind (readOnly_findFree _) h₃ with hs | ⟨n', _, h₄⟩
  · exact .inl hs
  rcases exit_readOnly_bind (readOnly_indTableAt _) h₄ with hs | ⟨_, _, h₅⟩
  · exact .inl hs
  rcases exit_readOnly_bind (readOnly_indTableAt _) h₅ with hs | ⟨_, _, h₆⟩
  · exact .inl hs
  have havail : ¬s.indBmap.numBitsAvail < 1 := by
    intro hlt
    rw [findFree, if_pos hlt] at hfind
    cases hfind
  obtain ⟨hind, hmounted, hgood, i, nb, hi, hnb⟩ := ready_of_avail hlayout hcounts hinit havail
  have htakes : Takes m 2 s (mkNewFileInode n file) := takes_mkNewFileInode hlayout hmounted hgood hi
  refine (htakes.exit_or_short hlayout hmounted hgood h₆).imp_right fun hs => ?_
  -- Without an empty file to copy the tool would have stopped.
  obtain ⟨size, rfl, hsize⟩ : ∃ size, file = some size ∧ size % 2 ^ 32 = 0 := by
    cases file with
    | none => cases h₆
    | some size =>
      refine ⟨size, rfl, ?_⟩
      by_contra hne
      have hfault : (mkNewFileInode n (some size)).run s = .halted .fault s := by
        unfold mkNewFileInode
        dsimp only
        rw [if_pos hne, run_halt]
      rw [bind_halted hfault] at h₆
      cases h₆
  exact ⟨s, d, 2, fpath, hinit, .cp hparent hd hexisting hsize, hind, hs.1, hs.2⟩

theorem starved_softLink {src linkParent : List Name} {lpath absPath : Name}
    (h : (ext2Ln src linkParent lpath true absPath).run s = .halted (.exit e) s') :
    s' = s ∨ Starved m (.ln src linkParent lpath true absPath) := by
  rcases exit_readOnly_bind (readOnly_dirEntryExists _ _) h with hs | ⟨x, hsrc, h₁⟩
  · exact .inl hs
  rcases exit_readOnly_bind (readOnly_dirEntryExists _ _) h₁ with hs | ⟨d, hparent, h₂⟩
  · exact .inl hs
  rcases exit_unless h₂ with hs | ⟨hx, h₂'⟩
  · exact .inl hs
  rcases exit_unless h₂' with hs | ⟨hd, h₂'⟩
  · exact .inl hs
  rcases exit_readOnly_bind (readOnly_dirEntryExists _ _) h₂' with hs | ⟨y, hexisting, h₃⟩
  · exact .inl hs
  rcases exit_unless h₃ with hs | ⟨hy, h₃'⟩
  · exact .inl hs
  obtain rfl : y = 0 := not_not.mp hy
  rcases exit_readOnly_bind (readOnly_indTableAt _) h₃' with hs | ⟨inode, hinode, h₄⟩
  · exact .inl hs
  rcases exit_unless h₄ with hs | ⟨hdir, h₄'⟩
  · exact .inl hs
  rw [if_pos rfl, run_get_bind] at h₄'
  rcases exit_readOnly_bind (readOnly_findFree _) h₄' with hs | ⟨n, hfind, h₅⟩
  · exact .inl hs
  have havail : ¬s.indBmap.numBitsAvail < 1 := by
    intro hlt
    rw [findFree, if_pos hlt] at hfind
    cases hfind
  obtain ⟨hind, hmounted, hgood, i, nb, hi, hnb⟩ := ready_of_avail hlayout hcounts hinit havail
  have htakes : Takes m 1 s (mkNewSymlinkInode x d absPath) := takes_of_fillsBlock hlayout hmounted hgood
    hi hnb (fillsBlock_mkNewSymlinkInode hlayout hmounted hgood hnb)
  refine (htakes.exit_or_short hlayout hmounted hgood h₅).imp_right fun hs => ?_
  exact ⟨s, d, 1, lpath, hinit, .softLink hsrc hparent hx hd hexisting hinode (by simpa using hdir), hind,
    hs.1, hs.2⟩

/-- If a tool exits with something written, it has starved. -/
theorem starved_of_exit (h : op.tool.run s = .halted (.exit e) s') : s' = s ∨ Starved m op := by
  cases op with
  | mkdir p dpath => exact starved_mkdir hlayout hcounts hinit h
  | cp p fpath file => exact starved_cp hlayout hcounts hinit h
  | ln src linkParent lpath isSoftlink absPath =>
    cases isSoftlink with
    | false => exact .inl (exitsClean_hardLink _ _ _ _ s e s' h)
    | true => exact starved_softLink hlayout hcounts hinit h
  | rm p fpath => exact .inl (exitsClean_rm _ _ s e s' h)
  | restore p fpath => exact .inl (exitsClean_restore _ _ s e s' h)

end

/-! ### Tools that starve -/

/-- The table lies in the mapping with everything before its last inode. -/
theorem table_covers (hlayout : Layout m) (hn : n ≤ 128) :
    (tableAt m : Int) + inodeSize * (((n : Int) - 1) + 1) ≤ 128 * 1024 := by
  have htable : tableAt m + inodeSize * total m .ind ≤ 11 * 1024 := hlayout.table.2
  have h128 : (inodeSize : Int) = 128 := rfl
  rw [h128]
  omega

section

variable {i nb : Nat} {y : DirEntry} (hlayout : Layout m) (hmounted : Mounted m s)
  (hgood : ∀ b, Good (total m b) b s) (hi : (freeOn m .ind).head? = some i)
  (hnb : (freeOn m .blk).head? = some nb)

include hlayout hmounted hgood hi hnb

theorem exits_mkdir {p : List Name} {dpath : Name} {x : Nat} (hgrants : Grants (freeOn m .blk) 1)
    (hshort : Short m d 1 dpath) (hlast : LastEntry m d k y)
    (hparent : (dirEntryExists p EXT2_ROOT_INO).run s = .done d s) (hne : d ≠ 0)
    (hexisting : (dirEntryExists [dpath] d).run s = .done x s) (hx : x ≠ 0) :
    ∃ s', (ext2Mkdir p dpath).run s = .halted (.exit ENOSPC) s' ∧ s'.disk ≠ s.disk := by
  obtain ⟨_, hi128⟩ := bounds_of_head hlayout hmounted hgood .ind hi
  have htotal := (hlayout.total .ind).1
  have hd := hlast.1
  have hfree : findFreeInode.run s = .done i s := by
    have hcurr := curr_eq_of_head hlayout hmounted hgood .ind hi
    have havail : s.indBmap.numBitsAvail = (freeOn m .ind).length :=
      avail_eq_length hlayout hmounted hgood .ind
    have hpos := List.length_pos_of_mem (List.mem_of_head? hi)
    rw [findFreeInode, run_get_bind, if_neg (by omega), run_pure]
    exact congrArg (Outcome.done · s) hcurr
  have hfills := fillsBlock_mkNewDirInode hlayout hmounted hgood (n := i) (d := d) hnb
  obtain ⟨s₁, hdone⟩ := done_of_fillsBlock hlayout hmounted hgood hi hnb ((grants_one hnb).mp hgrants)
    (by rw [signed_of_lt (by omega)]; exact ⟨by omega, table_covers hlayout hi128⟩)
    (by rw [signed_of_lt (by omega)]; exact ⟨by omega, table_covers hlayout (by omega)⟩) hfills
  obtain ⟨s', hexit, hchanged⟩ := Takes.exits_of_short (n := i) hlayout hmounted hgood
    (takes_of_fillsBlock hlayout hmounted hgood hi hnb hfills) hdone hshort hlast
  refine ⟨s', ?_, hchanged⟩
  rw [ext2Mkdir, bind_done hparent, if_neg hne, bind_done hexisting, if_neg hx, bind_done hfree]
  exact hexit

theorem exits_cp {p : List Name} {fpath : Name} {size : Nat} (hgrants : Grants (freeOn m .blk) 2)
    (hshort : Short m d 2 fpath) (hlast : LastEntry m d k y)
    (hparent : (dirEntryExists p 0).run s = .done d s) (hne : d ≠ 0)
    (hexisting : (dirEntryExists [fpath] d).run s = .done 0 s) (hsize : size % 2 ^ 32 = 0) :
    ∃ s', (ext2Cp p fpath (some size)).run s = .halted (.exit ENOSPC) s' ∧ s'.disk ≠ s.disk := by
  obtain ⟨hi11, hi128⟩ := bounds_of_head hlayout hmounted hgood .ind hi
  have htotal := (hlayout.total .ind).1
  have hd := hlast.1
  obtain ⟨s₁, hdone⟩ := done_mkNewFileInode hlayout hmounted hgood hi hsize hgrants
  obtain ⟨s', hexit, hchanged⟩ := Takes.exits_of_short (n := i) hlayout hmounted hgood
    (takes_mkNewFileInode hlayout hmounted hgood hi) hdone hshort hlast
  obtain ⟨_, hlook⟩ := indTableAt_mapped (s := s) (j := (i : Int) - 1) (by omega) (by
    rw [hmounted.table, hmounted.size]
    exact table_covers hlayout hi128)
  obtain ⟨_, hlook'⟩ := indTableAt_mapped (s := s) (j := (d : Int) - 1) (by omega) (by
    rw [hmounted.table, hmounted.size]
    exact table_covers hlayout (by omega))
  have hfind : (findFree s.indBmap).run s = .done i s := run_findFree_head hlayout hmounted hgood .ind hi
  have hfindBlk : (findFree s.blkBmap).run s = .done nb s := run_findFree_head hlayout hmounted hgood .blk hnb
  refine ⟨s', ?_, hchanged⟩
  rw [ext2Cp, bind_done hparent, if_neg hne, bind_done hexisting, if_neg (by simp), run_get_bind,
    bind_done hfind, bind_done hfindBlk, bind_done hlook, bind_done hlook']
  exact hexit

theorem exits_softLink {src linkParent : List Name} {lpath absPath : Name} {x : Nat} {inode : Inode}
    (hgrants : Grants (freeOn m .blk) 1) (hshort : Short m d 1 lpath) (hlast : LastEntry m d k y)
    (hsrc : (dirEntryExists src 0).run s = .done x s) (hparent : (dirEntryExists linkParent 0).run s = .done d s)
    (hx : x ≠ 0) (hne : d ≠ 0) (hexisting : (dirEntryExists [lpath] d).run s = .done 0 s)
    (hinode : (indTableAt x).run s = .done inode s) (hdir : IS_DIR inode.iMode = false) :
    ∃ s', (ext2Ln src linkParent lpath true absPath).run s = .halted (.exit ENOSPC) s' ∧ s'.disk ≠ s.disk := by
  have htotal := (hlayout.total .ind).1
  have hd := hlast.1
  have h128 : (inodeSize : Int) = 128 := rfl
  obtain ⟨_, hmapped, _⟩ := indTableAt_done hinode
  rw [hmounted.table, hmounted.size, h128] at hmapped
  have hfills : FillsBlock s nb ((d : Int) - 1) ((x : Int) - 1) (mkNewSymlinkInode x d absPath) :=
    fillsBlock_mkNewSymlinkInode hlayout hmounted hgood hnb
  obtain ⟨s₁, hdone⟩ := done_of_fillsBlock hlayout hmounted hgood hi hnb ((grants_one hnb).mp hgrants)
    ⟨by omega, table_covers hlayout (by omega)⟩ ⟨by omega, by rw [h128]; omega⟩ hfills
  obtain ⟨s', hexit, hchanged⟩ := Takes.exits_of_short (n := i) hlayout hmounted hgood
    (takes_of_fillsBlock hlayout hmounted hgood hi hnb hfills) hdone hshort hlast
  refine ⟨s', ?_, hchanged⟩
  have hfind : (findFree s.indBmap).run s = .done i s := run_findFree_head hlayout hmounted hgood .ind hi
  rw [ext2Ln, bind_done hsrc, bind_done hparent, if_neg hx, if_neg hne, bind_done hexisting,
    if_neg (by simp), bind_done hinode, if_neg (by simp [hdir]), if_pos rfl, run_get_bind, bind_done hfind]
  exact hexit

end

/-- A tool that starves has changed the disk when it exits. -/
theorem exits_of_starved {y : DirEntry} (hlayout : Layout m) (hcounts : CountsTrue m)
    (hinit : initGlobals.run (.boot m) = .done () s) (hreach : op.Reaches s d taken name)
    (hind : freeOn m .ind ≠ []) (hgrants : Grants (freeOn m .blk) taken) (hshort : Short m d taken name)
    (hlast : LastEntry m d k y) :
    ∃ s', op.tool.run s = .halted (.exit ENOSPC) s' ∧ s'.disk ≠ s.disk := by
  have hmounted := mounted_of_initGlobals hinit
  obtain ⟨hblk, hgood⟩ := good_of_initGlobals hlayout hcounts hinit hind
  have hi := List.head?_eq_some_head hind
  have hnb := List.head?_eq_some_head hblk
  cases hreach with
  | mkdir hparent hne hexisting hx =>
    exact exits_mkdir hlayout hmounted hgood hi hnb hgrants hshort hlast hparent hne hexisting hx
  | cp hparent hne hexisting hsize =>
    exact exits_cp hlayout hmounted hgood hi hnb hgrants hshort hlast hparent hne hexisting hsize
  | softLink hsrc hparent hx hne hexisting hinode hdir =>
    exact exits_softLink hlayout hmounted hgood hi hnb hgrants hshort hlast hsrc hparent hx hne hexisting hinode hdir

/-- The directory that the operation adds an entry to has a last entry. -/
def Op.InDirectory (m : Memory) (op : Op) : Prop :=
  ∀ s d taken name, initGlobals.run (.boot m) = .done () s → op.Reaches s d taken name →
    ∃ k x, LastEntry m d k x

/-- An operation that fails leaves the image as it was, unless it takes numbers and then lacks blocks for
the entry. In a directory this is exactly when it does not. -/
theorem atomic_iff (h : Consistent m) (op : Op) :
    (¬Starved m op → Atomic m op) ∧ (op.InDirectory m → Atomic m op → ¬Starved m op) := by
  constructor
  · intro hstarved e s' hrun
    rcases bind_eq_halted.mp hrun with hexit | ⟨_, s, hinit, hexit⟩
    · have hmounted := mounted_initGlobals m
      rw [hexit] at hmounted
      exact hmounted.disk
    · have hmounted := mounted_of_initGlobals hinit
      rcases starved_of_exit h.layout h.counts hinit hexit with rfl | hs
      · exact hmounted.disk
      · exact absurd hs hstarved
  · rintro hdir hatomic ⟨s, d, taken, name, hinit, hreach, hind, hgrants, hshort⟩
    obtain ⟨k, x, hlast⟩ := hdir s d taken name hinit hreach
    obtain ⟨s', hexit, hchanged⟩ :=
      exits_of_starved h.layout h.counts hinit hreach hind hgrants hshort hlast
    have hmounted := mounted_of_initGlobals hinit
    have hdisk := hatomic ENOSPC s' ((bind_done hinit).trans hexit)
    exact hchanged (hdisk.trans hmounted.disk.symm)

/-! ## A disk with a single free block -/

/-- The empty disk, with block 11 as the only free one, and a root directory that is full. -/
def fullDisk : Memory := [
  (sFreeBlocksCount, leBytes 4 1), (bgFreeBlocksCount, leBytes 2 1),
  (3 * EXT2_BLOCK_SIZE, 0xFF :: 0xFB :: List.replicate 14 0xFF),
  (9 * EXT2_BLOCK_SIZE + 16, leBytes 2 992),
  (9 * EXT2_BLOCK_SIZE + 1004, entryBytes 11 20 10 EXT2_FT_DIR lostFound)].foldl
    (fun m p => Memory.store m p.1 p.2) emptyDisk

/-- The entries of the blocks of directories on this disk. -/
def fullDiskEntries (blk : Nat) : List DirEntry :=
  if blk = 9 then [⟨2, 12, 1, EXT2_FT_DIR, [0x2E]⟩, ⟨2, 992, 2, EXT2_FT_DIR, [0x2E, 0x2E]⟩,
    ⟨11, 20, 10, EXT2_FT_DIR, lostFound⟩]
  else [⟨11, 12, 1, EXT2_FT_DIR, [0x2E]⟩, ⟨2, 1012, 2, EXT2_FT_DIR, [0x2E, 0x2E]⟩]

theorem consistent_fullDisk : Consistent fullDisk where
  layout :=
    { total := fun b => by cases b <;> decide +kernel
      bitmaps := fun b => by cases b <;> decide +kernel
      apart := by decide +kernel
      table := by decide +kernel
      tableApart := fun b => by cases b <;> decide +kernel
      reserved := fun b n h1 h10 => by cases b <;> interval_cases n <;> decide +kernel }
  counts :=
    { superblock := fun b => by cases b <;> decide +kernel
      group := fun b => by cases b <;> decide +kernel }
  blocksUsed := by
    have hin : inodesInUse fullDisk = [2, 11] := by decide +kernel
    rw [hin]
    have hrefs : ∀ n ∈ [2, 11], ∀ blk ∈ blockRefs fullDisk (inodeOn fullDisk n), blk = 9 ∨ blk = 10 := by
      decide +kernel
    intro n hn blk hblk
    refine ⟨⟨fun b => ?_, ?_⟩, ?_⟩
    · rcases hrefs n hn blk hblk with rfl | rfl <;> cases b <;> decide +kernel
    · rcases hrefs n hn blk hblk with rfl | rfl <;> decide +kernel
    · rcases hrefs n hn blk hblk with rfl | rfl <;> decide +kernel
  blocksOnce := by decide +kernel
  chains := by
    have hin : inodesInUse fullDisk = [2, 11] := by decide +kernel
    have hdirs : directories fullDisk = [2, 11] := by decide +kernel
    refine ⟨fullDiskEntries, ?_, ?_, ?_⟩
    · rw [hdirs]
      decide +kernel
    · rw [allEntries, hdirs, hin]
      decide +kernel
    · rw [allEntries, hdirs, hin]
      decide +kernel

/-- What can be decided of the disk at an exit. -/
theorem exists_of_exit {o : Outcome Halt State Unit} {P : Memory → Prop} [DecidablePred P]
    (h : (match o with | .halted (.exit _) s => decide (P s.disk) | _ => false) = true) :
    ∃ e s, o = .halted (.exit e) s ∧ P s.disk := by
  cases o with
  | done a s => cases h
  | halted r s =>
    cases r with
    | exit e => exact ⟨e, s, rfl, of_decide_eq_true h⟩
    | assertion | fault | diverges => cases h

/-- A soft link in the full directory exits with inode 12 and block 11 taken. -/
theorem not_atomic_fullDisk :
    Consistent fullDisk ∧ ¬Atomic fullDisk (.ln [] [] .letter true .letter) := by
  refine ⟨consistent_fullDisk, fun h => ?_⟩
  obtain ⟨e, s, hexit, hchanged⟩ := @exists_of_exit
    ((Op.ln [] [] .letter true .letter).tool.runOn fullDisk)
    (fun m' => m' (4 * EXT2_BLOCK_SIZE + 1) ≠ zeroed fullDisk (4 * EXT2_BLOCK_SIZE + 1)) _
    (by decide +kernel)
  exact hchanged (congrFun (h e s hexit) _)

/-- A copy of an empty file, which takes two blocks, exits before it takes any. -/
theorem atomic_fullDisk : Atomic fullDisk (.cp [] .letter (some 0)) ∧
    ∃ e s, (Op.cp [] .letter (some 0)).tool.runOn fullDisk = .halted (.exit e) s ∧ s.disk = zeroed fullDisk := by
  have hatomic : Atomic fullDisk (.cp [] .letter (some 0)) := by
    refine (atomic_iff consistent_fullDisk (.cp [] .letter (some 0))).1 ?_
    rintro ⟨s, d, taken, name, _, hreach, _, hgrants, _⟩
    have hfree : freeOn fullDisk .blk = [11] := by decide +kernel
    rw [hfree] at hgrants
    cases hreach
    obtain ⟨k, k', rest, heq, _⟩ := hgrants
    cases heq
  obtain ⟨e, s, hexit, _⟩ := @exists_of_exit ((Op.cp [] .letter (some 0)).tool.runOn fullDisk)
    (fun _ => True) _ (by decide +kernel)
  exact ⟨hatomic, e, s, hexit, hatomic e s hexit⟩

end Ext2

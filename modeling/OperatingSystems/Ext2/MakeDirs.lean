-- SUMMARY: Making a directory: the tool refuses new names, and what it makes of a name that passes its test is no directory.
import OperatingSystems.Ext2.Copies
import OperatingSystems.Ext2.Lookups

/-!
# Making directories

`ext2_mkdir` goes on if the name is found in the parent directory, and exits with `EEXIST` if it is not.
When it goes on for a new name, because an entry whose name is a prefix of it has been found, the block of the
new directory starts with an entry that is typed as a file.
-/

namespace Ext2

open Library Library.Process Library.Records

variable {α β : Type} {m m' : Memory} {s s' s₁ : State} {b : Bm} {a c d n nb parent blk : Nat}
  {name : Name} {p : List Name} {es : List DirEntry}

/-! ## A new directory -/

/-- An entry of the directory has the name. -/
def HasEntry (m : Memory) (d : Nat) (name : Name) : Prop :=
  ∃ blk ∈ contentBlocks m (inodeOn m d), ∃ es, Block m blk es ∧ ∃ e ∈ es, e.inode ≠ 0 ∧ e.name = name.chars

/-- The inode has been free, and is that of a directory now. Its only block has been free as well, and lists
the directory itself and its parent. -/
def NewDirectory (m : Memory) (s' : State) (parent k : Nat) : Prop :=
  k ∈ freeOn m .ind ∧ s'.used .ind k = true ∧ IS_DIR (inodeOf s' k).iMode = true ∧
    ∃ blk es, (inodeOf s' k).blocks = [blk] ∧ blk ∈ freeOn m .blk ∧ s'.used .blk blk = true ∧
      Block s'.disk blk es ∧
      (es.map DirEntry.item).Perm [([0x2E], k, EXT2_FT_DIR), ([0x2E, 0x2E], parent, EXT2_FT_DIR)]

/-- A name that the parent has already is refused. For any other name the tool succeeds, and looking it up
in the parent gives a new directory. -/
def MakesDirectory (m : Memory) (p : List Name) (parent : Nat) (name : Name) : Prop :=
  (HasEntry m parent name → ∃ s', (ext2Mkdir p name).runOn m = .halted (.exit EEXIST) s') ∧
  (¬HasEntry m parent name → ∃ s' k, (ext2Mkdir p name).runOn m = .done () s' ∧
    (dirEntryExists [name] parent).run s' = .done k s' ∧ NewDirectory m s' parent k)

/-- The counts are true, and the blocks of directories are chains of entries in blocks that are in use. The
pointers of a directory come without a gap, and none is behind the one to the table of indirect blocks. -/
structure DirectoriesInOrder (m : Memory) : Prop where
  layout : Layout m
  counts : CountsTrue m
  blocks : ∀ d ∈ directories m, ∀ blk ∈ (inodeOn m d).blocks,
    Behind m blk ∧ blk < total m .blk ∧ usedOn m .blk blk = true ∧ ∃ es, Block m blk es
  ne_nil : ∀ d ∈ directories m, (inodeOn m d).blocks ≠ []
  pointers : ∀ d ∈ directories m, ∀ j, (inodeOn m d).blocks.length ≤ j → j < INDIRECT_BLK_INDEX + 2 →
    j ≠ INDIRECT_BLK_INDEX → (inodeOn m d).iBlock.getD j 0 = 0

/-! ## The exits -/

/-- However the process stops, it is not with this error. -/
def NeverExitsWith (c : Nat) (x : Tool α) : Prop := ∀ s s', x.run s ≠ .halted (.exit c) s'

namespace NeverExitsWith

variable {x : Tool α} {f : α → Tool β}

theorem of_neverExits (h : NeverExits x) : NeverExitsWith c x := fun _ _ => h.ne

theorem exit {e : Nat} (h : e ≠ c) : NeverExitsWith c (halt (.exit e) : Tool α) := by
  intro s s' hrun
  cases hrun
  exact h rfl

theorem bind (hx : NeverExitsWith c x) (hf : ∀ a, NeverExitsWith c (f a)) : NeverExitsWith c (x >>= f) := by
  intro s s' hrun
  rcases bind_eq_halted.mp hrun with hexit | ⟨a, s₁, _, hexit⟩
  · exact hx _ _ hexit
  · exact hf _ _ _ hexit

theorem ite {q : Prop} [Decidable q] {x y : Tool α} (hx : NeverExitsWith c x) (hy : NeverExitsWith c y) :
    NeverExitsWith c (if q then x else y) := by
  split
  · exact hx
  · exact hy

end NeverExitsWith

theorem neverExits_readBitmap (b : Bm) (currBm : Int) (n pos : Nat) (foundBits : Int) :
    NeverExits (readBitmap b currBm n pos foundBits) := by
  induction n generalizing pos foundBits with
  | zero => exact .pure _
  | succ n ih =>
    refine .ite (.bind .get fun s => .bind (neverExits_testBit _ _ _) fun used => ?_) (.pure _)
    exact .ite (.bind (.modify _) fun _ => ih _ _) (ih _ _)

theorem initGlobals_ne_exists : (initGlobals.run (.boot m)) ≠ .halted (.exit EEXIST) s' := by
  rw [run_initGlobals (show 3 * EXT2_BLOCK_SIZE ≤ 128 * 1024 by decide)]
  have hread : NeverExitsWith EEXIST readBitmaps := by
    refine .bind (.of_neverExits .get) fun s => ?_
    refine .bind (.of_neverExits (neverExits_readBitmap _ _ _ _ _)) fun found => ?_
    refine .bind (.of_neverExits (neverExits_readBitmap _ _ _ _ _)) fun found' => ?_
    exact .ite (.exit (by decide)) (.of_neverExits (.pure _))
  exact hread _ _

theorem neverExits_dirEntryExists (path : List Name) (start : Nat) : NeverExits (dirEntryExists path start) := by
  have hblock : ∀ blk name, NeverExits (checkBlockForDir blk name) := by
    intro blk name
    refine .bind (neverExits_blockAddr _) fun a => .loop (fun p => ?_) _ _
    refine .ite (.bind (neverExits_loadWord _ _) fun _ => .bind (neverExits_strncmpEq _ _ _) fun eq => ?_) (.pure _)
    exact .ite (.bind (neverExits_loadWord _ _) fun _ => .pure _) (.bind (neverExits_loadWord _ _) fun _ => .pure _)
  have hround : ∀ i name p, NeverExits (lookupRound i name p) := by
    intro i name p
    refine .ite (.bind (neverExits_iBlockAt _ _) fun value => .ite (.ite ?_ ?_) (.pure _)) (.pure _)
    · refine .bind (neverExits_blockAddr _) fun table => .bind .get fun s => .bind ?_ fun _ => .pure _
      refine .loop (fun p => .bind (neverExits_loadWord _ _) fun _ => .ite ?_ (.pure _)) _ _
      exact .bind (hblock _ _) fun _ => .pure _
    · exact .bind (hblock _ _) fun _ => .pure _
  have hresolve : ∀ path found current, NeverExits (resolve path found current) := by
    intro path
    induction path with
    | nil => exact fun _ _ => .pure _
    | cons name path ih =>
      intro found current
      refine .ite (.bind (neverExits_indTableAt _) fun inode => .bind (.loop (hround _ _) _ _) fun found => ?_)
        (.pure _)
      exact .ite (.pure _) (ih _ _)
  cases path with
  | nil => exact .pure _
  | cons name path => exact hresolve _ _ _

/-- Behind its two tests the tool does not exit with `EEXIST`. -/
theorem neverExitsWith_afterTests :
    NeverExitsWith EEXIST (do
      let newInodeNum ← findFreeInode
      mkNewDirInode newInodeNum parent
      mkEntryFor parent newInodeNum EXT2_FT_DIR name : Tool Unit) := by
  have hset : ∀ b, NeverExitsWith EEXIST (setUsedBit b) := by
    intro b
    refine .bind (.of_neverExits .get) fun s => .bind (.of_neverExits (neverExits_loadByte _)) fun byte => ?_
    refine .ite (.exit (by decide)) (.bind (.of_neverExits (neverExits_storeByte _ _)) fun _ => ?_)
    exact .bind (.of_neverExits (.modify _)) fun _ => .of_neverExits (neverExits_updateCursor b)
  have hblock : NeverExitsWith EEXIST findFreeBlock :=
    .bind (.of_neverExits .get) fun s => .ite (.exit (by decide)) (.of_neverExits (.pure _))
  have hnew : ∀ k, NeverExitsWith EEXIST (newBlock k) := by
    intro k
    refine .ite (.bind (.of_neverExits .get) fun s => .bind ?_ fun ns => ?_) hblock
    · refine .ite (.exit (by decide)) (.of_neverExits (.bind .get fun s => .loop (fun c => ?_) _ _))
      exact .ite (.pure _) (.bind (neverExits_testBit _ _ _) fun _ => .ite (.pure _) (.pure _))
    · split
      · exact .of_neverExits (.bind (neverExits_storeWord _ _ _) fun _ => .pure _)
      · exact .of_neverExits (.halt fault_ne_exit)
  refine .bind (.bind (.of_neverExits .get) fun s => .ite (.exit (by decide)) (.of_neverExits (.pure _)))
    fun newInodeNum => .bind ?_ fun _ => ?_
  · refine .bind hblock fun newBlockNum => .bind (.of_neverExits (neverExits_blockAddr _)) fun a => ?_
    refine .bind (.of_neverExits (neverExits_storeBytes _ _)) fun _ => ?_
    refine .bind (.of_neverExits (neverExits_storeBytes _ _)) fun _ => ?_
    refine .bind (.of_neverExits (neverExits_indTableAt _)) fun _ => ?_
    exact .bind (.of_neverExits (neverExits_indTableAt _)) fun _ => .bind (hset _) fun _ => hset _
  · refine .bind (.of_neverExits (neverExits_indTableAt _)) fun parentInode => ?_
    refine .ite (.of_neverExits (.halt diverges_ne_exit)) ?_
    refine .bind (.of_neverExits (neverExits_lastEntry _)) fun dirEnt => ?_
    refine .bind (.of_neverExits (neverExits_loadWord _ _)) fun lastNameLen => ?_
    refine .bind (.of_neverExits (neverExits_loadWord _ _)) fun lastRecLen => .ite ?_ (.of_neverExits ?_)
    · refine .bind (hnew _) fun memBlk => .of_neverExits ?_
      exact .bind (neverExits_blockAddr _) fun a => neverExits_storeBytes _ _
    · exact .bind (neverExits_storeWord _ _ _) fun _ => neverExits_storeBytes _ _

/-! ## The first entry of a block -/

/-- The first bytes of a block are as they were, behind some that are not zero now. -/
def StartKept (m m' : Memory) (blk : Nat) : Prop :=
  ∃ o, (∀ i, i < o → i < 8 → m' (blk * EXT2_BLOCK_SIZE + i) ≠ 0) ∧
    ∀ i, o ≤ i → i < 8 → m' (blk * EXT2_BLOCK_SIZE + i) = m (blk * EXT2_BLOCK_SIZE + i)

theorem StartKept.of_eq (h : ∀ i, i < 8 → m' (blk * EXT2_BLOCK_SIZE + i) = m (blk * EXT2_BLOCK_SIZE + i)) :
    StartKept m m' blk :=
  ⟨0, fun i hi => absurd hi (Nat.not_lt_zero i), fun i _ hi => h i hi⟩

theorem StartKept.trans_eq {D : Memory}
    (h : ∀ i, i < 8 → D (blk * EXT2_BLOCK_SIZE + i) = m (blk * EXT2_BLOCK_SIZE + i)) (h' : StartKept D m' blk) :
    StartKept m m' blk := by
  obtain ⟨o, hnonzero, hsame⟩ := h'
  exact ⟨o, hnonzero, fun i hi h8 => (hsame i hi h8).trans (h i h8)⟩

/-- Of an entry that is written in a block before, only the name can reach it. -/
theorem startKept_put {recLen nameLen fileType : Nat} {chars : List Byte} (hchars : 0 ∉ chars)
    (ha : a + 8 ≤ blk * EXT2_BLOCK_SIZE) :
    StartKept m (Memory.store m a (entryBytes n recLen nameLen fileType chars)) blk := by
  refine ⟨a + (8 + chars.length) - blk * EXT2_BLOCK_SIZE, fun i hi _ h0 => hchars ?_, fun i hi _ => ?_⟩
  · have hlen : (leBytes 4 n ++ leBytes 2 recLen ++ leBytes 1 nameLen ++ leBytes 1 fileType).length = 8 := by simp
    have hlt : blk * EXT2_BLOCK_SIZE + i - a - 8 < chars.length := by omega
    have hget : (entryBytes n recLen nameLen fileType chars)[blk * EXT2_BLOCK_SIZE + i - a]? =
        some chars[blk * EXT2_BLOCK_SIZE + i - a - 8] := by
      rw [entryBytes, List.getElem?_append_right (by omega), hlen, List.getElem?_eq_getElem hlt]
    rw [Memory.store, if_pos ⟨by omega, by rw [length_entryBytes]; omega⟩, List.getD_eq_getElem?_getD, hget,
      Option.getD_some] at h0
    exact h0 ▸ List.getElem_mem hlt
  · exact Memory.store_of_le (by rw [length_entryBytes]; omega)

/-- A first entry that was typed as a file still is, or its inode number is made of characters. -/
theorem StartKept.file_or_large (h : StartKept m m' blk)
    (htype : word m 1 (blk * EXT2_BLOCK_SIZE + 7) = EXT2_FT_REG_FILE) (hblock : Block m' blk es) :
    ∃ e ∈ es, e.fileType = EXT2_FT_REG_FILE ∨ 2 ^ 24 ≤ e.inode := by
  obtain ⟨o, hnonzero, hsame⟩ := h
  cases es with
  | nil => exact absurd rfl hblock.ne_nil
  | cons e rest =>
    obtain ⟨hread, _, _⟩ := hblock.1
    refine ⟨e, List.mem_cons_self, ?_⟩
    by_cases ho : o ≤ 7
    · left
      have hfileType : word m' 1 (blk * EXT2_BLOCK_SIZE + 7) = e.fileType := congrArg DirEntry.fileType hread
      rw [← hfileType, ← htype]
      refine word_congr fun i h1 h2 => ?_
      obtain rfl : i = blk * EXT2_BLOCK_SIZE + 7 := by omega
      exact hsame 7 ho (by decide)
    · right
      have hinode : word m' 4 (blk * EXT2_BLOCK_SIZE) = e.inode := congrArg DirEntry.inode hread
      have hthree := hnonzero 3 (by omega) (by decide)
      have hpos : (m' (blk * EXT2_BLOCK_SIZE + 3)).toNat ≠ 0 := fun h0 => hthree (BitVec.eq_of_toNat_eq h0)
      rw [← hinode]
      simp only [word, Memory.load, ofLeBytes, Nat.add_assoc, Nat.reduceAdd]
      omega

/-! ## Filling in the block -/

/-- The first entry of the new directory is typed as a file. -/
theorem fileType_newDirBlock : word (newDirBlock m nb n d) 1 (nb * EXT2_BLOCK_SIZE + 7) = EXT2_FT_REG_FILE := by
  have h12 : TRUE_FILE_SIZE 2 = 12 := rfl
  have hfirst : word (newDirBlock m nb n d) 1 (nb * EXT2_BLOCK_SIZE + 7) =
      word (Memory.store m (nb * EXT2_BLOCK_SIZE) (entryBytes d (TRUE_FILE_SIZE 2) 2 EXT2_FT_REG_FILE [0x2E, 0x2E])) 1
        (nb * EXT2_BLOCK_SIZE + 7) :=
    word_congr fun i _ h2 => Memory.store_of_lt (by omega)
  have htype := word_store_field (m := m) (a := nb * EXT2_BLOCK_SIZE) (w := 1) (v := EXT2_FT_REG_FILE)
    (leBytes 4 d ++ leBytes 2 (TRUE_FILE_SIZE 2) ++ leBytes 1 2) [0x2E, 0x2E]
  simp only [List.length_append, length_leBytes] at htype
  rw [hfirst, entryBytes, List.append_assoc, htype]
  rfl

section

variable {i : Nat} (hlayout : Layout m) (hmounted : Mounted m s) (hgood : ∀ b, Good (total m b) b s)

include hlayout hmounted hgood

/-- What `mk_new_dir_inode` has done once it is done. -/
theorem mkNewDirInode_done (hi : (freeOn m .ind).head? = some i) (hnb : (freeOn m .blk).head? = some nb)
    (h : (mkNewDirInode n d).run s = .done () s₁) :
    Taken m 1 s s₁ ∧ Good (total m .blk) .blk s₁ ∧
      (∀ j, 1 ≤ j → j ≤ total m .blk → s₁.used .blk j = (usedOn m .blk j || decide (j = nb))) ∧
      word s₁.disk 1 (nb * EXT2_BLOCK_SIZE + 7) = EXT2_FT_REG_FILE := by
  rw [run_mkNewDirInode hlayout hmounted hgood hnb] at h
  split at h
  · obtain ⟨_, s₂, hlook, h₁⟩ := bind_eq_done.mp h
    obtain rfl := (readOnly_indTableAt _).of_done hlook
    obtain ⟨_, s₃, hlook', h₂⟩ := bind_eq_done.mp h₁
    obtain rfl := (readOnly_indTableAt _).of_done hlook'
    obtain ⟨s₄, hrun, htaken, hgood₁, hdisk⟩ := run_takeOne hlayout hmounted hgood hi hnb
      (fun a ha => newDirBlock_apply (n := n) (d := d) ha)
    rw [hrun] at h₂
    cases h₂
    have h1024 : EXT2_BLOCK_SIZE = 1024 := rfl
    obtain ⟨h11, _⟩ := bounds_of_head hlayout hmounted hgood .blk hnb
    obtain ⟨_, hi128⟩ := bounds_of_head hlayout hmounted hgood .ind hi
    have hle := Nat.mul_le_mul_right EXT2_BLOCK_SIZE h11
    have hbitmap : ∀ b, 3 * 1024 ≤ bitmapAt m b ∧ bitmapAt m b + EXT2_BLOCK_SIZE ≤ 11 * 1024 := hlayout.bitmaps
    have hind := hbitmap .ind
    have hblk := hbitmap .blk
    refine ⟨htaken, hgood₁, fun j h1 hj => ?_, ?_⟩
    · have hN := (hlayout.total .blk).1
      have hapart := hlayout.apart
      have hbyte : flips (newDirBlock s.disk nb n d) (bitmapAt m .ind) [i] (bitmapAt m .blk + (j - 1) / 8) =
          m (bitmapAt m .blk + (j - 1) / 8) := by
        rw [flips_of_forall_ne (by simp; omega), newDirBlock_apply (.inl (by omega)), hmounted.disk,
          zeroed_apply (.inr (by omega))]
      rw [State.used, htaken.unmoved.sysBm, hmounted.sysBm, hdisk, used_flips (by simp) (by simp; omega) h1, used,
        hbyte, ← used]
      by_cases hj : j = nb
      · have hfree : used m (bitmapAt m .blk) nb = false := (mem_free.mp (List.mem_of_head? hnb)).2
        rw [hj, usedOn, hfree]
        simp
      · simp [usedOn, hj]
    · rw [hdisk, ← fileType_newDirBlock (m := s.disk) (n := n) (d := d)]
      refine word_congr fun a h1 h2 => ?_
      rw [flips_of_forall_ne (by simp; omega), flips_of_forall_ne (by simp; omega)]
  · cases h

end

/-! ## Adding the entry to the parent -/

section

variable {k : Nat} {x : DirEntry} {fileType : Nat} (hlayout : Layout m) (hmounted : Mounted m s)
  (htaken : Taken m 1 s s₁) (hgood : Good (total m .blk) .blk s₁)

include hlayout hmounted htaken hgood

/-- The entry goes to the last block or to a block with a higher number than the one just taken. Neither
touches the bitmap of blocks, nor the first entry of that block, except for a name that runs into it. -/
theorem mkEntryFor_spares (hnb : nb ∈ freeOn m .blk) (hlowest : ∀ j ∈ s₁.free .blk (total m .blk), nb < j)
    (hlast : LastEntry m d k x) (hk : k ≠ INDIRECT_BLK_INDEX)
    (h : (mkEntryFor d n fileType name).run s₁ = .done () s') :
    ∃ D, s' = { s₁ with disk := D } ∧ (∀ i < bitmapAt m .blk + EXT2_BLOCK_SIZE, D i = s₁.disk i) ∧
      StartKept s₁.disk D nb := by
  have h1024 : EXT2_BLOCK_SIZE = 1024 := rfl
  have hN := (hlayout.total .blk).1
  have hbitmap : bitmapAt m .blk + EXT2_BLOCK_SIZE ≤ 11 * 1024 := (hlayout.bitmaps .blk).2
  obtain ⟨hd, v, es, hindex, hbehind, hv, hused, hblock⟩ := hlast
  obtain ⟨hinode, hnum, htable⟩ := htaken.inodeOf_eq hlayout hmounted hd
  have hblock₁ := htaken.block_eq hlayout hmounted hbehind hused hblock
  have hsize : s₁.size = 128 * 1024 := htaken.unmoved.size.trans hmounted.size
  rw [← hinode] at hindex
  rw [mkEntryFor, run_mkDirEntry_last hnum htable hindex hk hblock₁ (by omega)
    (by rw [hsize]; exact block_le_of_lt hv)] at h
  have hmap : Mapped (total m .blk) .blk s₁ := by
    rw [Mapped, htaken.unmoved.sysBm, htaken.unmoved.size]
    exact mapped_of_layout hlayout hmounted .blk
  have hne := ne_of_free hused hnb
  split at h
  · obtain ⟨memBlk, s₂, hnew, h₁⟩ := bind_eq_done.mp h
    obtain ⟨c, hc, hcurr, hs₂⟩ := hgood.newBlock_done hN hmap hnew
    have hlt := hlowest c hc
    obtain ⟨h11, _⟩ := hgood.le_of_mem_free hc
    have hbehindNb : ∀ t, c ≤ t → nb * EXT2_BLOCK_SIZE + EXT2_BLOCK_SIZE ≤ t * EXT2_BLOCK_SIZE ∧
        11 * EXT2_BLOCK_SIZE ≤ t * EXT2_BLOCK_SIZE := fun t ht =>
      ⟨block_le_of_lt (by omega), Nat.mul_le_mul_right _ (by omega)⟩
    obtain ⟨a, s₃, haddr, h₂⟩ := bind_eq_done.mp h₁
    obtain rfl := (readOnly_blockAddr _).of_done haddr
    rw [blockAddr] at haddr
    split at haddr
    · cases haddr
      obtain ⟨_, rfl⟩ := storeBytes_done h₂
      have hput := hbehindNb memBlk hcurr
      have hput' := hbehindNb c le_rfl
      obtain ⟨D, rfl, hD⟩ : ∃ D, s₃ = { s₁ with disk := D } ∧ ∀ i < c * EXT2_BLOCK_SIZE, D i = s₁.disk i := by
        rcases hs₂ with rfl | ⟨t, ht, rfl⟩
        · exact ⟨_, rfl, fun _ _ => rfl⟩
        · have hle := Nat.mul_le_mul_right EXT2_BLOCK_SIZE ht
          exact ⟨_, rfl, fun i hi => Memory.store_of_lt (by omega)⟩
      refine ⟨_, rfl, fun i hi => ?_, .of_eq fun i hi => ?_⟩
      · exact (Memory.store_of_lt (by omega)).trans (hD i (by omega))
      · exact (Memory.store_of_lt (by omega)).trans (hD _ (by omega))
    · cases haddr
  · rename_i hroom
    obtain ⟨_, s₂, hstore, h₁⟩ := bind_eq_done.mp h
    obtain ⟨_, rfl⟩ := storeBytes_done hstore
    obtain ⟨_, rfl⟩ := storeBytes_done h₁
    obtain ⟨_, _, hvalid, hsizes⟩ := hblock.split_last
    have hsz := (le_TRUE_FILE_SIZE (name.chars.length % 2 ^ 8)).1
    have hlastSz := (le_TRUE_FILE_SIZE x.nameLen).1
    have hfront := hbehind.1 .blk
    refine ⟨_, rfl, fun i hi => ?_, ?_⟩
    · exact (Memory.store_of_lt (by omega)).trans (Memory.store_of_lt (by omega))
    · have hother : ∀ i, i < 8 → (Memory.store s₁.disk (v * EXT2_BLOCK_SIZE + sizes entries es + 4)
          (leBytes 2 (TRUE_FILE_SIZE x.nameLen))) (nb * EXT2_BLOCK_SIZE + i) = s₁.disk (nb * EXT2_BLOCK_SIZE + i) := by
        intro i hi
        rcases Nat.lt_or_gt_of_ne hne with hlt | hgt
        · have hle := block_le_of_lt hlt
          exact Memory.store_of_le (by rw [length_leBytes]; omega)
        · have hle := block_le_of_lt hgt
          exact Memory.store_of_lt (by omega)
      rcases Nat.lt_or_gt_of_ne hne with hlt | hgt
      · have hle := block_le_of_lt hlt
        refine StartKept.trans_eq hother (startKept_put ?_ (by omega))
        rw [List.take_length]
        exact name.noNul
      · have hle := block_le_of_lt hgt
        exact .of_eq fun i hi => (Memory.store_of_lt (by omega)).trans (hother i hi)

end

/-- The last block of a directory, unless that has an indirect one. -/
theorem DirectoriesInOrder.lastEntry (h : DirectoriesInOrder m) (hd : d ∈ directories m) :
    (∃ v, lastBlockIndex (inodeOn m d) (INDIRECT_BLK_INDEX + 2) = some (INDIRECT_BLK_INDEX, v)) ∨
      ∃ k x, k ≠ INDIRECT_BLK_INDEX ∧ LastEntry m d k x := by
  have h11 : INDIRECT_BLK_INDEX = 11 := rfl
  have hpointers := h.pointers d hd
  by_cases hindirect : (inodeOn m d).iBlock.getD INDIRECT_BLK_INDEX 0 = 0
  · right
    obtain ⟨pre, v, hv⟩ := List.eq_nil_or_concat (inodeOn m d).blocks |>.resolve_left (h.ne_nil d hd)
    rw [List.concat_eq_append] at hv
    obtain ⟨hbehind, hlt, hused, es, hblock⟩ := h.blocks d hd v (by simp [hv])
    obtain ⟨es, x, rfl⟩ := List.eq_nil_or_concat es |>.resolve_left hblock.ne_nil
    rw [List.concat_eq_append] at hblock
    have hrange := bounds_of_directories hd
    have hlen := (inodeOn m d).length_blocks_le
    rw [hv, List.length_append, List.length_singleton] at hlen
    refine ⟨pre.length, x, by omega, by omega, v, es, lastBlockIndex_blocks hv fun j h1 h2 => ?_, hbehind, ?_,
      hused, hblock⟩
    · by_cases hj : j = INDIRECT_BLK_INDEX
      · rw [hj, hindirect]
      · exact hpointers j h1 h2 hj
    · have := (h.layout.total .blk).1
      omega
  · left
    have hlen : (inodeOn m d).blocks.length ≤ INDIRECT_BLK_INDEX :=
      ((List.takeWhile_prefix _).length_le).trans (List.length_take_le _ _)
    exact ⟨_, lastBlockIndex_eq (by omega) rfl hindirect fun j h1 h2 => hpointers j (by omega) h2 (by omega)⟩

/-- Once the tool has passed its tests, what it leaves behind is no new directory. -/
theorem not_newDirectory {k : Nat} (h : DirectoriesInOrder m) (hinit : initGlobals.run (.boot m) = .done () s)
    (hd : d ∈ directories m) (hparent : parent ≤ total m .ind)
    (hrun : (do
      let newInodeNum ← findFreeInode
      mkNewDirInode newInodeNum d
      mkEntryFor d newInodeNum EXT2_FT_DIR name : Tool Unit).run s = .done () s') :
    ¬NewDirectory m s' parent k := by
  rintro ⟨hk, _, _, blk, es, _, hfree, hused, hblock, hperm⟩
  have hlayout := h.layout
  obtain ⟨n, s₁, hfind, h₁⟩ := bind_eq_done.mp hrun
  obtain rfl := readOnly_findFreeInode.of_done hfind
  have havail : ¬s₁.indBmap.numBitsAvail < 1 := by
    intro hlt
    rw [findFreeInode, run_get_bind, if_pos hlt] at hfind
    cases hfind
  obtain ⟨_, hmounted, hgood, i, nb, hi, hnb⟩ := ready_of_avail hlayout h.counts hinit havail
  obtain ⟨_, s₂, hmake, h₂⟩ := bind_eq_done.mp h₁
  obtain ⟨htaken, hgood₂, hused₂, htype⟩ := mkNewDirInode_done hlayout hmounted hgood hi hnb hmake
  have hrange := bounds_of_directories hd
  obtain ⟨hnbMem, hnbLow⟩ := head?_free hnb
  rcases h.lastEntry hd with ⟨v, hindex⟩ | ⟨j, x, hj, hlast⟩
  · rw [htaken.mkEntryFor_diverges hlayout hmounted (by omega) hindex] at h₂
    cases h₂
  -- The block just taken was the lowest free one.
  have hlowest : ∀ j ∈ s₂.free .blk (total m .blk), nb < j := by
    intro j hj
    obtain ⟨⟨h1, hN⟩, hclear⟩ := mem_free.mp hj
    have hsame := hused₂ j h1 hN
    rw [State.used, hclear] at hsame
    by_contra hle
    rcases Nat.lt_or_eq_of_le (Nat.not_lt.mp hle) with hlt | rfl
    · rw [usedOn, hnbLow j h1 hlt] at hsame
      cases hsame
    · simp at hsame
  obtain ⟨D, rfl, hbitmap, hstart⟩ := mkEntryFor_spares hlayout hmounted htaken hgood₂ hnbMem hlowest hlast hj h₂
  -- It is the only one that is in use now and was not before.
  have hblk : blk = nb := by
    obtain ⟨⟨h1, hN⟩, hclear⟩ := mem_free.mp hfree
    have hN128 := (hlayout.total .blk).1
    have h1024 : EXT2_BLOCK_SIZE = 1024 := rfl
    have hsysBm : (s₂.bmap .blk).sysBm = bitmapAt m .blk :=
      (htaken.unmoved.sysBm .blk).trans (hmounted.sysBm .blk)
    have hsame : State.used { s₂ with disk := D } .blk blk = s₂.used .blk blk :=
      State.used_congr (by rfl) (fun a _ h2 => hbitmap a (by rw [hsysBm] at h2; omega)) (by omega)
    rw [hsame, hused₂ blk h1 hN, usedOn, hclear] at hused
    simpa using hused
  subst hblk
  obtain ⟨e, he, hbad⟩ := hstart.file_or_large htype hblock
  have hitem := hperm.mem_iff.mp (List.mem_map_of_mem he)
  have hkN := (mem_free.mp hk).1.2
  have hN := (hlayout.total .ind).1
  simp only [DirEntry.item, List.mem_cons, List.not_mem_nil, or_false, Prod.mk.injEq] at hitem
  have hdir : EXT2_FT_DIR = 2 := rfl
  have hreg : EXT2_FT_REG_FILE = 1 := rfl
  omega

/-! ## The whole tool -/

/-- For the path the tool finds an inode, but looking up the name there gives nothing. -/
def Misses (m : Memory) (p : List Name) (name : Name) : Prop :=
  ∃ s d, initGlobals.run (.boot m) = .done () s ∧ (dirEntryExists p EXT2_ROOT_INO).run s = .done d s ∧
    d ≠ 0 ∧ (dirEntryExists [name] d).run s = .done 0 s

/-- The inode that the tool finds for a path, by the entries of the root directory. -/
def foundFor (es : List DirEntry) : List Name → Nat
  | [] => EXT2_ROOT_INO
  | c :: _ => firstMatch c es

/-- In directories of direct blocks, the lookups come down to which entries match first. -/
theorem misses_iff {entries : Nat → List DirEntry} (hinit : initGlobals.run (.boot m) = .done () s)
    (hroot : Directory s EXT2_ROOT_INO (entries EXT2_ROOT_INO))
    (hfound : foundFor (entries EXT2_ROOT_INO) p ≠ 0 →
      Directory s (foundFor (entries EXT2_ROOT_INO) p) (entries (foundFor (entries EXT2_ROOT_INO) p))) :
    Misses m p name ↔ foundFor (entries EXT2_ROOT_INO) p ≠ 0 ∧
      firstMatch name (entries (foundFor (entries EXT2_ROOT_INO) p)) = 0 := by
  have hpath : (dirEntryExists p EXT2_ROOT_INO).run s = .done (foundFor (entries EXT2_ROOT_INO) p) s := by
    cases p with
    | nil => rfl
    | cons c p => exact run_dirEntryExists hroot rfl
  have hname : foundFor (entries EXT2_ROOT_INO) p ≠ 0 →
      (dirEntryExists [name] (foundFor (entries EXT2_ROOT_INO) p)).run s =
        .done (firstMatch name (entries (foundFor (entries EXT2_ROOT_INO) p))) s :=
    fun hne => run_dirEntryExists (hfound hne) (if_pos hne)
  constructor
  · rintro ⟨s', d, hinit', hlook, hd, hmiss⟩
    rw [hinit] at hinit'
    cases hinit'
    rw [hpath] at hlook
    cases hlook
    rw [hname hd] at hmiss
    exact ⟨hd, (Outcome.done.inj hmiss).1⟩
  · rintro ⟨hd, hmiss⟩
    exact ⟨s, _, hinit, hpath, hd, by rw [hname hd, hmiss]⟩

/-- The tool does what it should exactly if the parent has the name, and looking it up in the directory found
for the path gives nothing nevertheless. -/
theorem makesDirectory_iff (h : DirectoriesInOrder m) (hparent : parent ∈ directories m)
    (hdir : ∀ s d, initGlobals.run (.boot m) = .done () s →
      (dirEntryExists p EXT2_ROOT_INO).run s = .done d s → d ≠ 0 → d ∈ directories m) :
    MakesDirectory m p parent name ↔ HasEntry m parent name ∧ Misses m p name := by
  have hrange := bounds_of_directories hparent
  constructor
  · rintro ⟨hhas, hnew⟩
    by_cases hentry : HasEntry m parent name
    · obtain ⟨s', hexit⟩ := hhas hentry
      refine ⟨hentry, ?_⟩
      rcases bind_eq_halted.mp hexit with hinit | ⟨_, s, hinit, h₁⟩
      · exact absurd hinit initGlobals_ne_exists
      rcases bind_eq_halted.mp h₁ with hlook | ⟨d, s₁, hlook, h₂⟩
      · exact absurd hlook (neverExits_dirEntryExists _ _).ne
      obtain rfl := (readOnly_dirEntryExists _ _).of_done hlook
      split at h₂
      · cases h₂
      rename_i hd
      rcases bind_eq_halted.mp h₂ with hexisting | ⟨x, s₂, hexisting, h₃⟩
      · exact absurd hexisting (neverExits_dirEntryExists _ _).ne
      obtain rfl := (readOnly_dirEntryExists _ _).of_done hexisting
      split at h₃
      · rename_i hx
        exact ⟨_, d, hinit, hlook, hd, hx ▸ hexisting⟩
      · exact absurd h₃ (neverExitsWith_afterTests _ _)
    · exfalso
      obtain ⟨s', k, hrun, _, hmade⟩ := hnew hentry
      obtain ⟨s, hinit, _, h₁⟩ := runOn_eq_done hrun
      obtain ⟨d, s₁, hlook, h₂⟩ := bind_eq_done.mp h₁
      obtain rfl := (readOnly_dirEntryExists _ _).of_done hlook
      split at h₂
      · cases h₂
      rename_i hd
      obtain ⟨x, s₂, hexisting, h₃⟩ := bind_eq_done.mp h₂
      obtain rfl := (readOnly_dirEntryExists _ _).of_done hexisting
      split at h₃
      · cases h₃
      · exact not_newDirectory h hinit (hdir _ d hinit hlook hd) (by omega) h₃ hmade
  · rintro ⟨hentry, s, d, hinit, hlook, hd, hexisting⟩
    refine ⟨fun _ => ⟨s, ?_⟩, fun hnot => absurd hentry hnot⟩
    rw [Tool.runOn, bind_done hinit, ext2Mkdir, bind_done hlook, if_neg hd, bind_done hexisting, if_pos rfl, run_halt]

/-! ## On the empty disk -/

theorem directories_emptyDisk : directories emptyDisk = [2, 11] := by decide +kernel

theorem directoriesInOrder_emptyDisk : DirectoriesInOrder emptyDisk where
  layout := layout_emptyDisk
  counts := countsTrue_emptyDisk
  blocks := by
    rw [directories_emptyDisk]
    have hblocks : ∀ d ∈ [2, 11], ∀ blk ∈ (inodeOn emptyDisk d).blocks, blk = 9 ∨ blk = 10 := by decide +kernel
    intro d hd blk hblk
    rcases hblocks d hd blk hblk with rfl | rfl
    · exact ⟨⟨fun b => by cases b <;> decide +kernel, by decide +kernel⟩, by decide +kernel, by decide +kernel,
        _, (List.forall₂_cons.mp listing_root).1⟩
    · exact ⟨⟨fun b => by cases b <;> decide +kernel, by decide +kernel⟩, by decide +kernel, by decide +kernel,
        _, (List.forall₂_cons.mp listing_lostFound).1⟩
  ne_nil := by
    rw [directories_emptyDisk]
    decide +kernel
  pointers := by
    rw [directories_emptyDisk]
    have hzero : ∀ d ∈ [2, 11], ∀ j < INDIRECT_BLK_INDEX + 2, (inodeOn emptyDisk d).blocks.length ≤ j →
        (inodeOn emptyDisk d).iBlock.getD j 0 = 0 := by decide +kernel
    exact fun d hd j h1 h2 _ => hzero d hd j h2 h1

/-- Below `lost+found` the lookup is for the name in `lost+found`, so that one of the root directory is refused
as it should. -/
theorem makesDirectory_lostFound : MakesDirectory emptyDisk [.lostFound, .dotDot] 2 .lostFound := by
  have hlook : (dirEntryExists [.lostFound, .dotDot] EXT2_ROOT_INO).run .onEmpty = .done 11 .onEmpty := rfl
  refine (makesDirectory_iff directoriesInOrder_emptyDisk (by rw [directories_emptyDisk]; decide) ?_).mpr ?_
  · intro s d hinit hdone _
    rw [initGlobals_emptyDisk] at hinit
    cases hinit
    rw [hlook] at hdone
    cases hdone
    rw [directories_emptyDisk]
    decide
  · refine ⟨⟨9, by decide +kernel, rootEntries, (List.forall₂_cons.mp listing_root).1, ?_⟩,
      .onEmpty, 11, initGlobals_emptyDisk, hlook, by decide, rfl⟩
    exact ⟨⟨11, 1000, 10, EXT2_FT_DIR, lostFound⟩, by decide, by decide, rfl⟩

/-- The root directory has no entry with this name, which the tool says exists already. -/
theorem not_makesDirectory_letter : DirectoriesInOrder emptyDisk ∧ 2 ∈ directories emptyDisk ∧
    freeOn emptyDisk .ind ≠ [] ∧ 2 ≤ (freeOn emptyDisk .blk).length ∧ ¬HasEntry emptyDisk 2 .letter ∧
    (ext2Mkdir [] .letter).runOn emptyDisk = .halted (.exit EEXIST) .onEmpty ∧
    ¬MakesDirectory emptyDisk [] 2 .letter := by
  have hno : ¬HasEntry emptyDisk 2 .letter := by
    rintro ⟨blk, hblk, es, hblock, e, he, _, hname⟩
    have hcontent : contentBlocks emptyDisk (inodeOn emptyDisk 2) = [9] := by decide +kernel
    rw [hcontent, List.mem_singleton] at hblk
    subst hblk
    obtain rfl : es = rootEntries := (List.forall₂_cons.mp listing_root).1.unique hblock
    have hnames : ∀ e ∈ rootEntries, e.name ≠ Name.letter.chars := by decide
    exact hnames e he hname
  have hrun : (ext2Mkdir [] .letter).runOn emptyDisk = .halted (.exit EEXIST) .onEmpty := rfl
  refine ⟨directoriesInOrder_emptyDisk, by rw [directories_emptyDisk]; decide, freeOn_emptyDisk_ne_nil,
    by decide +kernel, hno, hrun, fun h => ?_⟩
  obtain ⟨s', k, hdone, _⟩ := h.2 hno
  rw [hrun] at hdone
  cases hdone

end Ext2

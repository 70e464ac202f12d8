-- SUMMARY: The entries of directory blocks as chains of records, and what adding an entry does to a directory.
import Mathlib.Data.List.Forall2
import OperatingSystems.Ext2.Directories
import OperatingSystems.Library.Records

/-!
# Entries

A block in order is a chain of entries that fills it. `mk_dir_entry` splits the last entry of the
last block, if it takes the rest to be large enough, and writes to another block otherwise.
-/

namespace Ext2

open Library Library.Process Library.Records

variable {m m' : Memory} {a w : Nat} {s s' : State}

/-! ## Words -/

theorem word_congr (h : ∀ i, a ≤ i → i < a + w → m' i = m i) : word m' w a = word m w a := by
  rw [word, word, Memory.load_congr h]

theorem ofLeBytes_lt (bs : List Byte) : ofLeBytes bs < 256 ^ bs.length := by
  induction bs with
  | nil => simp [ofLeBytes]
  | cons b bs ih =>
    have hb := b.isLt
    rw [ofLeBytes, List.length_cons, pow_succ]
    omega

theorem word_lt (m : Memory) (w a : Nat) : word m w a < 256 ^ w := by
  have h := ofLeBytes_lt (Memory.load m a w)
  rwa [Memory.length_load] at h

/-- A part of what has been stored. -/
theorem load_store_part {bs : List Byte} {i n : Nat} (h : i + n ≤ bs.length) :
    Memory.load (Memory.store m a bs) (a + i) n = (bs.drop i).take n := by
  rw [← Memory.load_part h, Memory.load_store_self]

/-- A word among what has been stored. -/
theorem word_store_field {v : Nat} (pre post : List Byte) :
    word (Memory.store m a (pre ++ (leBytes w v ++ post))) w (a + pre.length) = v % 256 ^ w := by
  rw [word, load_store_part (by simp), List.drop_left, List.take_left' (by simp), ofLeBytes_leBytes]

theorem word_store {v : Nat} : word (Memory.store m a (leBytes w v)) w a = v % 256 ^ w := by
  simpa using word_store_field (m := m) (a := a) (w := w) (v := v) [] []

/-! ## The format -/

/-- The fields of `struct ext2_dir_entry`, with the bytes of its name. -/
structure DirEntry where
  inode : Nat
  recLen : Nat
  nameLen : Nat
  fileType : Nat
  name : List Byte
deriving DecidableEq, Repr

def decodeEntry (m : Memory) (a : Nat) : DirEntry where
  inode := word m 4 a
  recLen := word m 2 (a + 4)
  nameLen := word m 1 (a + 6)
  fileType := word m 1 (a + 7)
  name := Memory.load m (a + 8) (word m 1 (a + 6))

/-- The entries of a directory block: each has room for its header and its name. -/
def entries : Format DirEntry where
  read := decodeEntry
  size e := e.recLen
  Valid e := 8 + e.nameLen ≤ e.recLen
  size_pos h := by omega
  congr {m m' a} h hm := by
    have hlen : (decodeEntry m a).nameLen = word m 1 (a + 6) := rfl
    simp only [hlen] at h
    have hword : ∀ w i, i + w ≤ 8 → word m' w (a + i) = word m w (a + i) :=
      fun w i hi => word_congr fun j h1 h2 => hm j (by omega) (by omega)
    have hname : Memory.load m' (a + 8) (word m 1 (a + 6)) = Memory.load m (a + 8) (word m 1 (a + 6)) :=
      Memory.load_congr fun j h1 h2 => hm j (by omega) (by omega)
    simp only [decodeEntry, DirEntry.mk.injEq]
    refine ⟨hword 4 0 (by omega), hword 2 4 (by omega), hword 1 6 (by omega), hword 1 7 (by omega), ?_⟩
    rw [hword 1 6 (by omega), hname]

instance : DecidablePred entries.Valid := fun e => inferInstanceAs (Decidable (8 + e.nameLen ≤ e.recLen))

/-- What a directory lists of an entry. -/
def DirEntry.item (e : DirEntry) : List Byte × Nat × Nat := (e.name, e.inode, e.fileType)

@[simp] theorem size_entries {e : DirEntry} : entries.size e = e.recLen := rfl

/-! ## Writing an entry -/

section

variable {inode recLen nameLen fileType : Nat} {name : List Byte}

@[simp] theorem length_entryBytes :
    (entryBytes inode recLen nameLen fileType name).length = 8 + name.length := by
  simp [entryBytes]
  omega

/-- An entry is read back as it has been written. -/
theorem decodeEntry_store (hinode : inode < 2 ^ 32) (hrec : recLen < 2 ^ 16)
    (hlen : nameLen = name.length) (hlt : nameLen < 256) (htype : fileType < 256) :
    decodeEntry (Memory.store m a (entryBytes inode recLen nameLen fileType name)) a =
      { inode, recLen, nameLen, fileType, name } := by
  subst hlen
  have h4 := word_store_field (m := m) (a := a) (w := 4) (v := inode) []
    (leBytes 2 recLen ++ leBytes 1 name.length ++ leBytes 1 fileType ++ name)
  have h2 := word_store_field (m := m) (a := a) (w := 2) (v := recLen) (leBytes 4 inode)
    (leBytes 1 name.length ++ leBytes 1 fileType ++ name)
  have h1 := word_store_field (m := m) (a := a) (w := 1) (v := name.length)
    (leBytes 4 inode ++ leBytes 2 recLen) (leBytes 1 fileType ++ name)
  have h1' := word_store_field (m := m) (a := a) (w := 1) (v := fileType)
    (leBytes 4 inode ++ leBytes 2 recLen ++ leBytes 1 name.length) name
  have hname := load_store_part (m := m) (a := a)
    (show 8 + name.length ≤ (entryBytes inode recLen name.length fileType name).length by simp)
  have hdrop : (entryBytes inode recLen name.length fileType name).drop 8 = name :=
    List.drop_left' (by simp)
  rw [hdrop, List.take_length] at hname
  simp only [List.nil_append, List.length_nil, Nat.add_zero, List.length_append, length_leBytes,
    List.append_assoc] at h4 h2 h1 h1'
  simp only [decodeEntry, DirEntry.mk.injEq, entryBytes, List.append_assoc, h4, h2, h1, h1']
  refine ⟨by omega, by omega, by omega, by omega, ?_⟩
  rw [Nat.mod_eq_of_lt (by simpa using hlt)]
  simpa [entryBytes] using hname

theorem run_putDirEntry (h : a + (8 + name.length) ≤ s.size) :
    (putDirEntry a inode recLen nameLen fileType name).run s = .done () { s with
      disk := Memory.store s.disk a (entryBytes inode recLen nameLen fileType name) } :=
  run_storeBytes (by rwa [length_entryBytes])

end

/-! ## Blocks in order -/

/-- Blocks do not overlap. -/
theorem block_le_of_lt {b b' : Nat} (h : b < b') :
    b * EXT2_BLOCK_SIZE + EXT2_BLOCK_SIZE ≤ b' * EXT2_BLOCK_SIZE := by
  rw [← Nat.succ_mul]
  exact Nat.mul_le_mul_right _ h

/-- An address in a block lies outside of any other. -/
theorem outside_of_ne {b b' : Nat} (h : b' ≠ b) (h1 : b' * EXT2_BLOCK_SIZE ≤ a)
    (h2 : a < b' * EXT2_BLOCK_SIZE + EXT2_BLOCK_SIZE) :
    a < b * EXT2_BLOCK_SIZE ∨ b * EXT2_BLOCK_SIZE + EXT2_BLOCK_SIZE ≤ a := by
  rcases Nat.lt_or_gt_of_ne h with hlt | hgt
  · exact .inl (by have := block_le_of_lt hlt; omega)
  · exact .inr (by have := block_le_of_lt hgt; omega)

/-- The entries of a block, which make up the block. -/
def Block (m : Memory) (b : Nat) (es : List DirEntry) : Prop :=
  Chain entries m (b * EXT2_BLOCK_SIZE) es ∧ sizes entries es = EXT2_BLOCK_SIZE

instance {b : Nat} {es : List DirEntry} : Decidable (Block m b es) :=
  inferInstanceAs (Decidable (_ ∧ _))

namespace Block

variable {b : Nat} {es es' : List DirEntry} {e : DirEntry}

theorem unique (h : Block m b es) (h' : Block m b es') : es' = es :=
  h.1.unique h'.1 (h'.2.trans h.2.symm)

theorem congr (h : Block m b es)
    (hm : ∀ i, b * EXT2_BLOCK_SIZE ≤ i → i < b * EXT2_BLOCK_SIZE + EXT2_BLOCK_SIZE → m' i = m i) :
    Block m' b es :=
  ⟨h.1.congr (by rw [h.2]; exact hm), h.2⟩

theorem ne_nil (h : Block m b es) : es ≠ [] := by
  rintro rfl
  exact absurd h.2 (by decide)

/-- The last entry of a block, and where it is. -/
theorem split_last (h : Block m b (es ++ [e])) :
    Chain entries m (b * EXT2_BLOCK_SIZE) es ∧
      decodeEntry m (b * EXT2_BLOCK_SIZE + sizes entries es) = e ∧ 8 + e.nameLen ≤ e.recLen ∧
      sizes entries es + e.recLen = EXT2_BLOCK_SIZE := by
  obtain ⟨hchain, hread, hvalid, _⟩ := Chain.append.mp h.1
  have hsize := h.2
  rw [sizes_append, sizes_cons, sizes_nil] at hsize
  exact ⟨hchain, hread, hvalid, hsize⟩

end Block

/-- The search ends at the last entry of the chain. -/
theorem loop_lastEntryRound {es : List DirEntry} {e : DirEntry} {p fuel : Nat}
    (h : Chain entries s.disk p (es ++ [e])) (hsize : p + sizes entries (es ++ [e]) ≤ s.size)
    (hfuel : es.length < fuel) :
    (loop .diverges lastEntryRound fuel
        ((sizes entries (es ++ [e]) : Int) - word s.disk 2 (p + 4), p)).run s =
      .done (p + sizes entries es) s := by
  obtain ⟨fuel, rfl⟩ := Nat.exists_eq_succ_of_ne_zero (Nat.ne_zero_of_lt hfuel)
  induction es generalizing p fuel with
  | nil =>
    obtain ⟨hread, _, _⟩ := h
    have hrec : word s.disk 2 (p + 4) = e.recLen := congrArg DirEntry.recLen hread
    refine loop_of_stop ?_
    rw [lastEntryRound, if_neg (by simp [hrec])]
    rfl
  | cons r es ih =>
    obtain ⟨hread, hvalid, hrest⟩ := h
    have hrec : word s.disk 2 (p + 4) = r.recLen := congrArg DirEntry.recLen hread
    have hvalid' : 8 + r.nameLen ≤ r.recLen := hvalid
    have hlast := (Chain.append.mp hrest).2.2.1
    have hlast' : 8 + e.nameLen ≤ e.recLen := hlast
    rw [List.cons_append, sizes_cons, size_entries, sizes_append, sizes_cons, sizes_nil,
      size_entries] at hsize
    have hbody : (lastEntryRound ((sizes entries (r :: es ++ [e]) : Int) - word s.disk 2 (p + 4), p)).run s =
        .done (.next ((sizes entries (es ++ [e]) : Int) - word s.disk 2 (p + r.recLen + 4),
          p + r.recLen)) s := by
      rw [lastEntryRound, if_pos (by
        rw [hrec, List.cons_append, sizes_cons, size_entries, sizes_append, sizes_cons, size_entries]
        simp only [Nat.cast_add]
        omega)]
      rw [bind_done (run_loadWord (by omega)), hrec, bind_done (run_loadWord (by omega)), run_pure,
        List.cons_append, sizes_cons, size_entries]
      congr 3
      push_cast
      omega
    rw [List.length_cons] at hfuel
    obtain ⟨fuel, rfl⟩ := Nat.exists_eq_succ_of_ne_zero (n := fuel) (by omega)
    have hrun := ih (p := p + r.recLen) hrest (by
      rw [sizes_append, sizes_cons, sizes_nil, size_entries]
      omega) fuel (by omega)
    rw [loop_of_next hbody, hrun, sizes_cons, size_entries, Nat.add_assoc]

theorem run_lastEntry {b : Nat} {es : List DirEntry} {e : DirEntry} (h : Block s.disk b (es ++ [e]))
    (hb : b < 2 ^ 21) (hsize : b * EXT2_BLOCK_SIZE + EXT2_BLOCK_SIZE ≤ s.size) :
    (lastEntry b).run s = .done (b * EXT2_BLOCK_SIZE + sizes entries es) s := by
  have hlen := h.1.length_le_sizes
  rw [h.2, List.length_append, List.length_singleton] at hlen
  have h1024 : EXT2_BLOCK_SIZE = 1024 := rfl
  have hrun := loop_lastEntryRound h.1 (by rw [h.2]; exact hsize)
    (show es.length < chainRounds by rw [chainRounds]; omega)
  rw [h.2] at hrun
  rw [lastEntry, blockAddr, if_pos hb, pure_bind, bind_done (run_loadWord (by omega)), hrun]

/-! ## Directories with direct blocks -/

/-- The address of the table entry of an inode number. -/
def inodeAddr (s : State) (n : Nat) : Nat := s.indTable + inodeSize * (n - 1)

def inodeOf (s : State) (n : Nat) : Inode := decodeInode s.disk (inodeAddr s n)

theorem decodeInode_congr (h : ∀ i, a ≤ i → i < a + inodeSize → m' i = m i) :
    decodeInode m' a = decodeInode m a := by
  have h128 : inodeSize = 128 := rfl
  have hword : ∀ w i, i + w ≤ 128 → word m' w (a + i) = word m w (a + i) :=
    fun w i hi => word_congr fun j h1 h2 => h j (by omega) (by omega)
  simp only [decodeInode, Inode.mk.injEq]
  refine ⟨hword 2 0 (by omega), hword 4 12 (by omega), hword 4 20 (by omega), hword 2 26 (by omega), ?_⟩
  refine List.map_congr_left fun i hi => ?_
  have hi' := List.mem_range.mp hi
  rw [Nat.add_assoc, hword 4 _ (by omega)]

theorem length_iBlock {n : Nat} : (inodeOf s n).iBlock.length = 15 := by simp [inodeOf, decodeInode]

/-- The blocks of an inode that uses only direct ones. -/
def Inode.blocks (i : Inode) : List Nat := (i.iBlock.take INDIRECT_BLK_INDEX).takeWhile (· ≠ 0)

theorem Inode.length_blocks_le (i : Inode) : i.blocks.length ≤ INDIRECT_BLK_INDEX :=
  ((List.takeWhile_prefix _).length_le).trans (List.length_take_le _ _)

/-- The entry of an inode is in the table. -/
theorem inodeSize_le {n N : Nat} (hn : 1 ≤ n ∧ n ≤ N) :
    inodeSize * (n - 1) + inodeSize ≤ inodeSize * N := by
  rw [← Nat.mul_succ]
  exact Nat.mul_le_mul_left _ (by omega)

/-- A directory with direct blocks only, which lie behind its table entry. -/
structure DirectDir (s : State) (n : Nat) (blocks : List Nat) : Prop where
  num : 1 ≤ n ∧ n < 2 ^ 31
  size : s.size ≤ 2 ^ 31
  table : inodeAddr s n + inodeSize ≤ s.size
  iBlock : (inodeOf s n).iBlock = blocks ++ List.replicate (15 - blocks.length) 0
  ne_nil : blocks ≠ []
  length_le : blocks.length ≤ INDIRECT_BLK_INDEX
  nodup : blocks.Nodup
  behind : ∀ b ∈ blocks, inodeAddr s n + inodeSize ≤ b * EXT2_BLOCK_SIZE
  mapped : ∀ b ∈ blocks, b * EXT2_BLOCK_SIZE + EXT2_BLOCK_SIZE ≤ s.size

section

variable {n b : Nat} {blocks pre : List Nat}

theorem run_indTableAt (hn : 1 ≤ n ∧ n < 2 ^ 31) (h : inodeAddr s n + inodeSize ≤ s.size) :
    (indTableAt (signed n - 1)).run s = .done (inodeOf s n) s := by
  have haddr : (s.indTable : Int) + inodeSize * (signed n - 1) = (inodeAddr s n : Int) := by
    rw [signed_of_lt hn.2, inodeAddr]
    push_cast [Nat.cast_sub hn.1]
    rfl
  rw [indTableAt, run_get_bind]
  simp only [haddr]
  rw [if_pos (by omega), run_pure, Int.toNat_natCast, inodeOf]

theorem indTableAt_done {i : Int} {inode : Inode} (h : (indTableAt i).run s = .done inode s') :
    0 ≤ (s.indTable + inodeSize * i : Int) ∧ (s.indTable + inodeSize * i + inodeSize : Int) ≤ s.size ∧
      inode = decodeInode s.disk (s.indTable + inodeSize * i : Int).toNat := by
  rw [indTableAt, run_get_bind] at h
  dsimp only at h
  split at h
  · rename_i hin
    cases h
    exact ⟨hin.1, hin.2, rfl⟩
  · cases h

theorem lastBlockIndex_eq {i : Inode} {k v : Nat} (hn : n < k) (hv : i.iBlock.getD n 0 = v) (h0 : v ≠ 0)
    (hzero : ∀ j, n < j → j < k → i.iBlock.getD j 0 = 0) : lastBlockIndex i k = some (n, v) := by
  induction k with
  | zero => omega
  | succ k ih =>
    rw [lastBlockIndex]
    by_cases hk : n = k
    · subst hk
      rw [hv, if_pos h0]
    · rw [hzero k (by omega) (by omega), if_neg (by simp)]
      exact ih (by omega) fun j h1 h2 => hzero j h1 (by omega)

namespace DirectDir

theorem pos (h : DirectDir s n blocks) (hb : b ∈ blocks) : 1 ≤ b := by
  have hbehind := h.behind b hb
  have h128 : inodeSize = 128 := rfl
  by_contra h0
  have hb0 : b = 0 := by omega
  subst hb0
  omega

theorem lt (h : DirectDir s n blocks) (hb : b ∈ blocks) : b < 2 ^ 21 := by
  have hmapped := h.mapped b hb
  have hsize := h.size
  unfold EXT2_BLOCK_SIZE at hmapped
  omega

theorem lastBlockIndex (h : DirectDir s n (pre ++ [b])) :
    lastBlockIndex (inodeOf s n) (INDIRECT_BLK_INDEX + 2) = some (pre.length, b) := by
  have hlen := h.length_le
  have h11 : INDIRECT_BLK_INDEX = 11 := rfl
  rw [List.length_append, List.length_singleton] at hlen
  refine lastBlockIndex_eq (by omega) ?_ (by have := h.pos (b := b) (by simp); omega) ?_
  · rw [h.iBlock, List.append_assoc]
    simp
  · intro j h1 h2
    rw [h.iBlock, List.getD_eq_getElem?_getD, List.getElem?_append_right (by simp; omega)]
    simp [List.getElem?_replicate]
    split <;> rfl

/-- The blocks are those that the inode lists. -/
theorem blocks_eq (h : DirectDir s n blocks) : (inodeOf s n).blocks = blocks := by
  have h11 : INDIRECT_BLK_INDEX = 11 := rfl
  have hlen := h.length_le
  rw [Inode.blocks, h.iBlock, List.take_append, List.take_of_length_le hlen]
  rw [List.takeWhile_append_of_pos]
  · rw [List.take_replicate]
    cases hk : min (INDIRECT_BLK_INDEX - blocks.length) (15 - blocks.length) with
    | zero => simp
    | succ k => simp [List.replicate_succ]
  · intro b hb
    have := h.pos hb
    simp
    omega

end DirectDir

end

/-! ## What `mk_dir_entry` does -/

section

variable {n b inode nameLen fileType namelen : Nat} {pre : List Nat} {es : List DirEntry}
  {e : DirEntry} {name : Name}

/-- Up to the test of the padding, `mk_dir_entry` only looks for the last entry of the last block. -/
theorem run_mkDirEntry_last {k : Nat} (hn : 1 ≤ n ∧ n < 2 ^ 31) (htable : inodeAddr s n + inodeSize ≤ s.size)
    (hlast : lastBlockIndex (inodeOf s n) (INDIRECT_BLK_INDEX + 2) = some (k, b))
    (hk : k ≠ INDIRECT_BLK_INDEX) (hblock : Block s.disk b (es ++ [e])) (hb : b < 2 ^ 21)
    (hmapped : b * EXT2_BLOCK_SIZE + EXT2_BLOCK_SIZE ≤ s.size) :
    (mkDirEntry n inode nameLen fileType name namelen).run s =
      (if (e.recLen : Int) - TRUE_FILE_SIZE e.nameLen < TRUE_FILE_SIZE nameLen then do
        let memBlk ← newBlock (k + 1)
        let a ← blockAddr memBlk
        putDirEntry a inode EXT2_BLOCK_SIZE nameLen fileType (name.chars.take namelen)
      else do
        storeWord 2 (b * EXT2_BLOCK_SIZE + sizes entries es + 4) (TRUE_FILE_SIZE e.nameLen)
        putDirEntry (b * EXT2_BLOCK_SIZE + sizes entries es + TRUE_FILE_SIZE e.nameLen) inode
          ((e.recLen : Int) - TRUE_FILE_SIZE e.nameLen).toNat nameLen fileType
          (name.chars.take namelen)).run s := by
  obtain ⟨_, hread, hvalid, hsize⟩ := hblock.split_last
  have hnameLen : word s.disk 1 (b * EXT2_BLOCK_SIZE + sizes entries es + 6) = e.nameLen :=
    congrArg DirEntry.nameLen hread
  have hrecLen : word s.disk 2 (b * EXT2_BLOCK_SIZE + sizes entries es + 4) = e.recLen :=
    congrArg DirEntry.recLen hread
  rw [mkDirEntry, bind_done (run_indTableAt hn htable)]
  simp only [hlast, Option.map_some, Option.elim_some, Option.some.injEq]
  rw [if_neg hk, bind_done (run_lastEntry hblock hb hmapped), bind_done (run_loadWord (by omega)), hnameLen,
    bind_done (run_loadWord (by omega)), hrecLen]

theorem run_mkDirEntry (hdir : DirectDir s n (pre ++ [b])) (hblock : Block s.disk b (es ++ [e])) :
    (mkDirEntry n inode nameLen fileType name namelen).run s =
      (if (e.recLen : Int) - TRUE_FILE_SIZE e.nameLen < TRUE_FILE_SIZE nameLen then do
        let memBlk ← newBlock (pre.length + 1)
        let a ← blockAddr memBlk
        putDirEntry a inode EXT2_BLOCK_SIZE nameLen fileType (name.chars.take namelen)
      else do
        storeWord 2 (b * EXT2_BLOCK_SIZE + sizes entries es + 4) (TRUE_FILE_SIZE e.nameLen)
        putDirEntry (b * EXT2_BLOCK_SIZE + sizes entries es + TRUE_FILE_SIZE e.nameLen) inode
          ((e.recLen : Int) - TRUE_FILE_SIZE e.nameLen).toNat nameLen fileType
          (name.chars.take namelen)).run s := by
  have hmem : b ∈ pre ++ [b] := by simp
  have hlen := hdir.length_le
  have h11 : INDIRECT_BLK_INDEX = 11 := rfl
  rw [List.length_append, List.length_singleton] at hlen
  exact run_mkDirEntry_last hdir.num hdir.table hdir.lastBlockIndex (by omega) hblock (hdir.lt hmem)
    (hdir.mapped b hmem)

/-- The memory after an entry has been split off the last one. -/
def split (m : Memory) (a lastSz : Nat) (bytes : List Byte) : Memory :=
  Memory.store (Memory.store m (a + 4) (leBytes 2 lastSz)) (a + lastSz) bytes

theorem le_TRUE_FILE_SIZE (len : Nat) : 12 ≤ TRUE_FILE_SIZE len ∧ len ≤ TRUE_FILE_SIZE len := by
  unfold TRUE_FILE_SIZE
  split
  · omega
  · split <;> omega

/-- The size leaves room for the header only if the name is short. -/
theorem header_fits_iff (len : Nat) : 8 + len ≤ TRUE_FILE_SIZE len ↔ len ≤ 4 := by
  unfold TRUE_FILE_SIZE
  split
  · omega
  · split <;> omega

end

end Ext2

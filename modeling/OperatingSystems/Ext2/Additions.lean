-- SUMMARY: When adding an entry to a directory keeps the others: exactly if the last entry's name is short and there is room behind it.
import OperatingSystems.Ext2.Entries

/-!
# Additions

Splitting an entry keeps the chain if the size left to it covers its header and name, and the rest
covers those of the new entry. An entry in a new block is lost, as the block's number is kept in a
copy of the inode.
-/

namespace Ext2

open Library Library.Process Library.Records

variable {m m' : Memory} {s s' : State} {n b inode fileType N a lastSz : Nat} {blocks pre : List Nat}
  {ess preEss : List (List DirEntry)} {es : List DirEntry} {e : DirEntry} {name : Name}
  {bytes : List Byte}

/-! ## Listings -/

/-- The entries of the blocks of a directory, block by block. -/
def Listing (m : Memory) (blocks : List Nat) (ess : List (List DirEntry)) : Prop :=
  List.Forall₂ (Block m) blocks ess

namespace Listing

theorem concat : Listing m (pre ++ [b]) ess ↔
    ∃ preEss last, ess = preEss ++ [last] ∧ Listing m pre preEss ∧ Block m b last := by
  induction pre generalizing ess with
  | nil =>
    cases ess with
    | nil => simp [Listing]
    | cons es ess =>
      constructor
      · intro h
        obtain ⟨hb, hnil⟩ := List.forall₂_cons.mp h
        cases hnil
        exact ⟨[], es, rfl, .nil, hb⟩
      · rintro ⟨preEss, last, heq, hpre, hlast⟩
        cases hpre
        cases heq
        exact .cons hlast .nil
  | cons b' pre ih =>
    cases ess with
    | nil => simp [Listing]
    | cons es ess =>
      rw [List.cons_append, Listing, List.forall₂_cons]
      constructor
      · rintro ⟨hb, h⟩
        obtain ⟨preEss, last, rfl, hpre, hlast⟩ := ih.mp h
        exact ⟨es :: preEss, last, rfl, .cons hb hpre, hlast⟩
      · rintro ⟨preEss, last, heq, hpre, hlast⟩
        cases hpre with
        | cons hb hpre =>
          obtain ⟨rfl, rfl⟩ := List.cons.inj heq
          exact ⟨hb, ih.mpr ⟨_, last, rfl, hpre, hlast⟩⟩

/-- The last entry of a directory. -/
theorem split (h : Listing m blocks ess) (hne : blocks ≠ []) :
    ∃ pre b preEss es e, blocks = pre ++ [b] ∧ ess = preEss ++ [es ++ [e]] ∧
      Listing m pre preEss ∧ Block m b (es ++ [e]) := by
  obtain ⟨pre, b, rfl⟩ := (List.eq_nil_or_concat' blocks).resolve_left hne
  obtain ⟨preEss, last, rfl, hpre, hlast⟩ := concat.mp h
  obtain ⟨es, e, rfl⟩ := (List.eq_nil_or_concat' last).resolve_left hlast.ne_nil
  exact ⟨pre, b, preEss, es, e, rfl, rfl, hpre, hlast⟩

theorem unique (h : Listing m blocks ess) {ess' : List (List DirEntry)} (h' : Listing m blocks ess') :
    ess' = ess := by
  induction h generalizing ess' with
  | nil =>
    cases h'
    rfl
  | cons hb _ ih =>
    cases h' with
    | cons hb' h' => rw [hb.unique hb', ih h']

/-- The listing stays where the memory under the blocks stays. -/
theorem congr (h : Listing m blocks ess) (hm : ∀ b ∈ blocks, ∀ i, b * EXT2_BLOCK_SIZE ≤ i →
    i < b * EXT2_BLOCK_SIZE + EXT2_BLOCK_SIZE → m' i = m i) : Listing m' blocks ess := by
  induction h with
  | nil => exact .nil
  | @cons b es blocks ess hb _ ih =>
    exact .cons (hb.congr (hm b List.mem_cons_self)) (ih fun b' hb' => hm b' (List.mem_cons_of_mem _ hb'))

/-- A change of memory that no block can gain from does not make the listing longer. -/
theorem length_le (h : Listing m blocks ess) {ess' : List (List DirEntry)}
    (h' : Listing m' blocks ess')
    (hblock : ∀ b ∈ blocks, ∀ es es', Block m b es → Block m' b es' → es'.length ≤ es.length) :
    ess'.flatten.length ≤ ess.flatten.length := by
  induction h generalizing ess' with
  | nil =>
    cases h'
    exact le_rfl
  | @cons b es blocks ess hb _ ih =>
    cases h' with
    | cons hb' h' =>
      have h1 := hblock b List.mem_cons_self _ _ hb hb'
      have h2 := ih h' fun b hb => hblock b (List.mem_cons_of_mem _ hb)
      simp only [List.flatten_cons, List.length_append]
      omega

end Listing

/-! ## Memory after a split -/

theorem split_apply {i : Nat} (hsz : 12 ≤ lastSz)
    (h : i < a + 4 ∨ (a + 6 ≤ i ∧ i < a + lastSz) ∨ a + lastSz + bytes.length ≤ i) :
    split m a lastSz bytes i = m i := by
  rcases h with h | h | h
  · rw [Ext2.split, Memory.store_of_lt (by omega), Memory.store_of_lt h]
  · rw [Ext2.split, Memory.store_of_lt (by omega),
      Memory.store_of_le (by rw [length_leBytes]; omega)]
  · rw [Ext2.split, Memory.store_of_le h, Memory.store_of_le (by rw [length_leBytes]; omega)]

/-- The header of the entry that has been split, with the size left to it. -/
theorem decodeEntry_split (hsz : 12 ≤ lastSz) (hlt : lastSz < 2 ^ 16) :
    (decodeEntry (split m a lastSz bytes) a).recLen = lastSz ∧
      (decodeEntry (split m a lastSz bytes) a).nameLen = (decodeEntry m a).nameLen := by
  constructor
  · have hword : word (split m a lastSz bytes) 2 (a + 4) =
        word (Memory.store m (a + 4) (leBytes 2 lastSz)) 2 (a + 4) :=
      word_congr fun i h1 h2 => Memory.store_of_lt (by omega)
    change word (split m a lastSz bytes) 2 (a + 4) = lastSz
    rw [hword, word_store]
    omega
  · exact word_congr fun i h1 h2 => split_apply hsz (.inr (.inl (by omega)))

/-- If its header and name fit into the size left to it, the entry is otherwise as before. -/
theorem decodeEntry_split_eq (hsz : 12 ≤ lastSz) (hlt : lastSz < 2 ^ 16)
    (hfits : 8 + (decodeEntry m a).nameLen ≤ lastSz) :
    decodeEntry (split m a lastSz bytes) a = { decodeEntry m a with recLen := lastSz } := by
  obtain ⟨hrec, hlen⟩ := @decodeEntry_split m a lastSz bytes hsz hlt
  have hlen' : word (split m a lastSz bytes) 1 (a + 6) = word m 1 (a + 6) := hlen
  have hfits' : 8 + word m 1 (a + 6) ≤ lastSz := hfits
  have hinode : word (split m a lastSz bytes) 4 a = word m 4 a :=
    word_congr fun i h1 h2 => split_apply hsz (.inl (by omega))
  have htype : word (split m a lastSz bytes) 1 (a + 7) = word m 1 (a + 7) :=
    word_congr fun i h1 h2 => split_apply hsz (.inr (.inl (by omega)))
  have hname : Memory.load (split m a lastSz bytes) (a + 8) (word m 1 (a + 6)) =
      Memory.load m (a + 8) (word m 1 (a + 6)) :=
    Memory.load_congr fun i h1 h2 => split_apply hsz (.inr (.inl (by omega)))
  have hrec' : word (split m a lastSz bytes) 2 (a + 4) = lastSz := hrec
  simp only [decodeEntry, hinode, hrec', hlen', htype, hname]

/-! ## The entry split off -/

/-- The memory after the new entry has been split off the last one, which begins at an address. -/
def afterSplit (m : Memory) (a : Nat) (e : DirEntry) (inode fileType : Nat) (name : Name) : Memory :=
  split m a (TRUE_FILE_SIZE e.nameLen) (entryBytes inode (e.recLen - TRUE_FILE_SIZE e.nameLen)
    name.chars.length fileType name.chars)

theorem nameLen_lt (hblock : Block m b (es ++ [e])) : e.nameLen < 256 := by
  obtain ⟨_, hread, _, _⟩ := hblock.split_last
  rw [← hread]
  exact word_lt _ 1 _

theorem TRUE_FILE_SIZE_le {len : Nat} (h : len < 256) : TRUE_FILE_SIZE len ≤ 256 := by
  unfold TRUE_FILE_SIZE
  split
  · omega
  · split <;> omega

/-- With enough padding, `mk_dir_entry` ends if the new entry is within the mapping. -/
theorem run_mkDirEntry_split (hdir : DirectDir s n (pre ++ [b])) (hblock : Block s.disk b (es ++ [e]))
    (ha : a = b * EXT2_BLOCK_SIZE + sizes entries es)
    (hpad : TRUE_FILE_SIZE e.nameLen + TRUE_FILE_SIZE name.chars.length ≤ e.recLen) :
    (mkDirEntry n inode name.chars.length fileType name name.chars.length).run s = .done () s' ↔
      a + TRUE_FILE_SIZE e.nameLen + (8 + name.chars.length) ≤ s.size ∧
        s' = { s with disk := afterSplit s.disk a e inode fileType name } := by
  have hmapped := hdir.mapped b (by simp)
  obtain ⟨_, _, hvalid, hsize⟩ := hblock.split_last
  have hpadding : ((e.recLen : Int) - TRUE_FILE_SIZE e.nameLen).toNat =
      e.recLen - TRUE_FILE_SIZE e.nameLen := by omega
  have hstore := run_storeBytes
    (show a + 4 + (leBytes 2 (TRUE_FILE_SIZE e.nameLen)).length ≤ s.size by rw [length_leBytes]; omega)
  rw [run_mkDirEntry hdir hblock, if_neg (by omega), ← ha, storeWord, bind_done hstore, hpadding,
    List.take_length]
  by_cases hfits : a + TRUE_FILE_SIZE e.nameLen + (8 + name.chars.length) ≤ s.size
  · have hput : (putDirEntry (a + TRUE_FILE_SIZE e.nameLen) inode (e.recLen - TRUE_FILE_SIZE e.nameLen)
        name.chars.length fileType name.chars).run
          { s with disk := Memory.store s.disk (a + 4) (leBytes 2 (TRUE_FILE_SIZE e.nameLen)) } =
        .done () { s with disk := afterSplit s.disk a e inode fileType name } := run_putDirEntry hfits
    rw [hput]
    constructor
    · intro h
      cases h
      exact ⟨hfits, rfl⟩
    · rintro ⟨_, rfl⟩
      rfl
  · rw [putDirEntry, run_storeBytes_fault (by rwa [length_entryBytes])]
    constructor
    · intro h
      cases h
    · rintro ⟨h, _⟩
      exact absurd h hfits

/-- A change behind the table entry of an inode leaves it as it is. -/
theorem inodeOf_congr {k : Nat} (hk : inodeAddr s n + inodeSize ≤ k) (hm : ∀ i, i < k → m i = s.disk i) :
    inodeOf { s with disk := m } n = inodeOf s n :=
  decodeInode_congr fun i _ h2 => hm i (Nat.lt_of_lt_of_le h2 hk)

/-! ## When the others are kept -/

/-- The last entry has a short name, and the rest of its room covers the new one. -/
def HasRoom (es : List DirEntry) (nameLen : Nat) : Prop :=
  ∃ e, es.getLast? = some e ∧ e.nameLen ≤ 4 ∧ 12 + max 12 (8 + nameLen) ≤ e.recLen

/-- After `mk_dir_entry` the directory lists what it did, followed by the new entry, all of its
blocks are in order, and nothing outside of its blocks, its inode, and a block taken for it with its
bit has changed. -/
def AddsEntry (s : State) (n inode fileType : Nat) (name : Name) : Prop :=
  ∃ s' ess ess', (mkDirEntry n inode name.chars.length fileType name name.chars.length).run s =
      .done () s' ∧
    Listing s.disk (inodeOf s n).blocks ess ∧ Listing s'.disk (inodeOf s' n).blocks ess' ∧
    ess'.flatten.map DirEntry.item = ess.flatten.map DirEntry.item ++ [(name.chars, inode, fileType)] ∧
    ∃ taken : Option Nat, (∀ b ∈ taken, s.used .blk b = false) ∧ ∀ i, s'.disk i ≠ s.disk i →
      (∃ b ∈ (inodeOf s n).blocks ++ taken.toList,
        b * EXT2_BLOCK_SIZE ≤ i ∧ i < b * EXT2_BLOCK_SIZE + EXT2_BLOCK_SIZE) ∨
      (inodeAddr s n ≤ i ∧ i < inodeAddr s n + inodeSize) ∨
      ∃ b ∈ taken, i = s.blkBmap.sysBm + (b - 1) / 8

/-- The new chain: the entry split, and the new one behind it. -/
theorem block_afterSplit (hblock : Block m b (es ++ [e])) (ha : a = b * EXT2_BLOCK_SIZE + sizes entries es)
    (hshort : e.nameLen ≤ 4) (hroom : 12 + max 12 (8 + name.chars.length) ≤ e.recLen)
    (hinode : inode < 2 ^ 32) (htype : fileType < 256) (hname : name.chars.length < 256) :
    Block (afterSplit m a e inode fileType name) b (es ++ [{ e with recLen := 12 },
      { inode, recLen := e.recLen - 12, nameLen := name.chars.length, fileType, name := name.chars }]) := by
  subst ha
  obtain ⟨hchain, hread, hvalid, hsize⟩ := hblock.split_last
  have h1024 : EXT2_BLOCK_SIZE = 1024 := rfl
  have h12 : TRUE_FILE_SIZE e.nameLen = 12 := if_pos (by omega)
  rw [afterSplit, h12]
  refine ⟨Chain.append.mpr ⟨?_, ?_, ?_, ?_, ?_, trivial⟩, ?_⟩
  · exact hchain.congr fun i h1 h2 => split_apply le_rfl (.inl (by omega))
  · change decodeEntry _ _ = _
    rw [decodeEntry_split_eq le_rfl (by decide) (by rw [hread]; omega), hread]
  · change 8 + e.nameLen ≤ 12
    omega
  · exact decodeEntry_store hinode (by omega) rfl hname htype
  · change 8 + name.chars.length ≤ e.recLen - 12
    omega
  · rw [sizes_append, sizes_cons, sizes_cons, sizes_nil, size_entries, size_entries]
    change sizes entries es + (12 + (e.recLen - 12 + 0)) = EXT2_BLOCK_SIZE
    omega

/-- With room, nothing outside of the block changes. -/
theorem afterSplit_apply (hblock : Block m b (es ++ [e])) (hshort : e.nameLen ≤ 4)
    (hroom : 12 + max 12 (8 + name.chars.length) ≤ e.recLen) {i : Nat}
    (hi : i < b * EXT2_BLOCK_SIZE ∨ b * EXT2_BLOCK_SIZE + EXT2_BLOCK_SIZE ≤ i) :
    afterSplit m (b * EXT2_BLOCK_SIZE + sizes entries es) e inode fileType name i = m i := by
  obtain ⟨_, _, _, hsize⟩ := hblock.split_last
  have h12 : TRUE_FILE_SIZE e.nameLen = 12 := if_pos (by omega)
  rw [afterSplit, h12]
  refine split_apply le_rfl ?_
  rw [length_entryBytes]
  omega

theorem TRUE_FILE_SIZE_le_max (len : Nat) : TRUE_FILE_SIZE len ≤ max 12 (8 + len) := by
  unfold TRUE_FILE_SIZE
  split
  · omega
  · split <;> omega

/-- Room in the last block is enough. -/
theorem addsEntry_of_hasRoom (hdir : DirectDir s n blocks) (hlist : Listing s.disk blocks ess)
    (hinode : inode < 2 ^ 32) (htype : fileType < 256) (hname : name.chars.length < 256)
    (hroom : HasRoom ess.flatten name.chars.length) : AddsEntry s n inode fileType name := by
  obtain ⟨pre, b, preEss, es, e, rfl, rfl, hpre, hblock⟩ := hlist.split hdir.ne_nil
  obtain ⟨e', hlast, hshort, hroom⟩ := hroom
  obtain rfl : e = e' := by simpa using hlast
  have hmem : b ∈ pre ++ [b] := by simp
  have hmapped := hdir.mapped b hmem
  have hbehind := hdir.behind b hmem
  obtain ⟨_, hread, hvalid, hsize⟩ := hblock.split_last
  have h12 : TRUE_FILE_SIZE e.nameLen = 12 := if_pos (by omega)
  have htrue := TRUE_FILE_SIZE_le_max name.chars.length
  have hsame : ∀ i, i < b * EXT2_BLOCK_SIZE ∨ b * EXT2_BLOCK_SIZE + EXT2_BLOCK_SIZE ≤ i →
      afterSplit s.disk (b * EXT2_BLOCK_SIZE + sizes entries es) e inode fileType name i = s.disk i :=
    fun i hi => afterSplit_apply hblock hshort hroom hi
  have hinodeOf := inodeOf_congr (s := s) (n := n) hbehind fun i hi => hsame i (.inl hi)
  refine ⟨_, preEss ++ [es ++ [e]], preEss ++ [es ++ [{ e with recLen := 12 },
      { inode, recLen := e.recLen - 12, nameLen := name.chars.length, fileType, name := name.chars }]],
    (run_mkDirEntry_split hdir hblock rfl (by omega)).mpr ⟨by omega, rfl⟩, ?_, ?_, ?_, none, ?_, ?_⟩
  · rw [hdir.blocks_eq]
    exact hlist
  · rw [hinodeOf, hdir.blocks_eq]
    refine Listing.concat.mpr ⟨preEss, _, rfl, hpre.congr fun b' hb' i h1 h2 => hsame i ?_,
      block_afterSplit hblock rfl hshort hroom hinode htype hname⟩
    have hne : b' ≠ b := by
      rintro rfl
      exact (List.nodup_append.mp hdir.nodup).2.2 b' hb' b' List.mem_cons_self rfl
    unfold EXT2_BLOCK_SIZE at *
    omega
  · simp [DirEntry.item]
  · simp
  · intro i hi
    rw [hdir.blocks_eq]
    refine .inl ⟨b, by simp, ?_⟩
    by_contra hout
    exact hi (hsame i (by omega))

/-! ## Why the condition is needed -/

/-- If the block with the split entry is in order, then the entry kept its header and name, and the
new one has room for its own. -/
theorem room_of_block_afterSplit {es' : List DirEntry} (hblock : Block m b (es ++ [e]))
    (ha : a = b * EXT2_BLOCK_SIZE + sizes entries es)
    (hpad : TRUE_FILE_SIZE e.nameLen + TRUE_FILE_SIZE name.chars.length ≤ e.recLen)
    (hinode : inode < 2 ^ 32) (htype : fileType < 256) (hname : name.chars.length < 256)
    (h : Block (afterSplit m a e inode fileType name) b es') :
    e.nameLen ≤ 4 ∧ 12 + max 12 (8 + name.chars.length) ≤ e.recLen := by
  have hlt := nameLen_lt hblock
  obtain ⟨hchain, hread, hvalid, hsize⟩ := hblock.split_last
  rw [← ha] at hread
  have h1024 : EXT2_BLOCK_SIZE = 1024 := rfl
  obtain ⟨h12, _⟩ := le_TRUE_FILE_SIZE e.nameLen
  obtain ⟨h12', _⟩ := le_TRUE_FILE_SIZE name.chars.length
  have hle := TRUE_FILE_SIZE_le hlt
  have hkept : Chain entries (afterSplit m a e inode fileType name) (b * EXT2_BLOCK_SIZE) es :=
    hchain.congr fun i h1 h2 => split_apply h12 (.inl (by omega))
  obtain ⟨hrec, hlen⟩ := @decodeEntry_split m a (TRUE_FILE_SIZE e.nameLen)
    (entryBytes inode (e.recLen - TRUE_FILE_SIZE e.nameLen) name.chars.length fileType name.chars)
    h12 (by omega)
  have hnew := decodeEntry_store (m := Memory.store m (a + 4) (leBytes 2 (TRUE_FILE_SIZE e.nameLen)))
    (a := a + TRUE_FILE_SIZE e.nameLen) hinode
    (show e.recLen - TRUE_FILE_SIZE e.nameLen < 2 ^ 16 by omega) rfl hname htype
  -- The chain goes on behind the entries kept with the one that has been split, and with the new one.
  obtain ⟨rest, rfl⟩ := hkept.prefix_of_le h.1 (by rw [h.2]; omega)
  obtain ⟨_, htail⟩ := Chain.append.mp h.1
  have htotal := h.2
  rw [sizes_append] at htotal
  rw [← ha] at htail
  cases rest with
  | nil =>
    rw [sizes_nil] at htotal
    omega
  | cons x rest =>
    obtain ⟨hx, hxvalid, htail⟩ := htail
    have hx' : decodeEntry (afterSplit m a e inode fileType name) a = x := hx
    have hxrec : x.recLen = TRUE_FILE_SIZE e.nameLen := (congrArg DirEntry.recLen hx').symm.trans hrec
    have hxlen : x.nameLen = e.nameLen :=
      (congrArg DirEntry.nameLen hx').symm.trans (hlen.trans (congrArg DirEntry.nameLen hread))
    have hxvalid' : 8 + x.nameLen ≤ x.recLen := hxvalid
    have hshort : e.nameLen ≤ 4 := (header_fits_iff _).mp (by omega)
    have hsize12 : TRUE_FILE_SIZE e.nameLen = 12 := if_pos (by omega)
    rw [sizes_cons, size_entries] at htotal
    rw [size_entries, hxrec] at htail
    cases rest with
    | nil =>
      rw [sizes_nil] at htotal
      omega
    | cons y rest =>
      obtain ⟨hy, hyvalid, _⟩ := htail
      rw [← hy] at hyvalid
      have hy' : decodeEntry (afterSplit m a e inode fileType name) (a + TRUE_FILE_SIZE e.nameLen) =
        { inode, recLen := e.recLen - TRUE_FILE_SIZE e.nameLen, nameLen := name.chars.length, fileType,
          name := name.chars } := hnew
      have hyvalid' : 8 + (decodeEntry (afterSplit m a e inode fileType name)
          (a + TRUE_FILE_SIZE e.nameLen)).nameLen ≤ (decodeEntry (afterSplit m a e inode fileType name)
          (a + TRUE_FILE_SIZE e.nameLen)).recLen := hyvalid
      rw [hy'] at hyvalid'
      dsimp only at hyvalid'
      exact ⟨hshort, by omega⟩

/-- While there is a free block, the lowest one is at hand. -/
theorem Good.exists_head? (hgood : Good N .blk s) (havail : 1 ≤ s.blkBmap.numBitsAvail) :
    ∃ k, (s.free .blk N).head? = some k ∧ 11 ≤ k ∧ k ≤ N ∧ s.blkBmap.currAvailNum = k := by
  have hlen : 0 < (s.free .blk N).length := by
    rw [← hgood.avail]
    exact havail
  obtain ⟨k, rest, hfree⟩ := List.exists_cons_of_length_pos hlen
  have hhead : (s.free .blk N).head? = some k := by rw [hfree, List.head?_cons]
  obtain ⟨h11, hkN⟩ := hgood.le_of_mem_free (head?_free hhead).1
  have hcursor := hgood.cursor
  rw [hhead] at hcursor
  exact ⟨k, hhead, h11, hkN, congrArg Bitmap.currAvailNum hcursor⟩

/-- A number that `mk_dir_entry` finds for a new block is the one at hand or a later one, and it may have
written the number to another such block. -/
theorem newBlock_done {k blk : Nat} (hN : N ≤ 128) (hmap : Mapped N .blk s)
    (hlen : s.blkBmap.numBitsAvail ≤
      (freeFrom s.disk s.blkBmap.sysBm N EXT2_GOOD_OLD_FIRST_INO).length)
    (hcurr : 1 ≤ s.blkBmap.numBitsAvail → s.blkBmap.currAvailNum ≤ N)
    (h : (newBlock k).run s = .done blk s') :
    1 ≤ s.blkBmap.numBitsAvail ∧ s.blkBmap.currAvailNum ≤ blk ∧
      (s' = s ∨ ∃ t, s.blkBmap.currAvailNum ≤ t ∧
        s' = { s with disk := Memory.store s.disk (t * EXT2_BLOCK_SIZE) (leBytes 4 blk) }) := by
  have hmap' : s.blkBmap.sysBm + (N + 7) / 8 ≤ s.size := hmap
  rw [newBlock] at h
  split at h
  · rw [run_get_bind] at h
    by_cases havail : 2 ≤ s.blkBmap.numBitsAvail
    · have hpos : 0 < N := by
        by_contra h0
        have hnil : freeFrom s.disk s.blkBmap.sysBm N EXT2_GOOD_OLD_FIRST_INO = [] := by
          rw [Nat.eq_zero_of_not_pos h0]
          rfl
        rw [hnil, List.length_nil] at hlen
        omega
      have hcurr := hcurr (by omega)
      have hfind := run_findNFree havail (by omega : s.blkBmap.currAvailNum < 2 ^ 32)
        (havail.trans hlen) (by omega)
      generalize hfree : freeFrom s.disk s.blkBmap.sysBm N EXT2_GOOD_OLD_FIRST_INO = fs at hlen hfind
      obtain ⟨k1, rest, rfl⟩ := List.exists_cons_of_length_pos (by omega : 0 < fs.length)
      obtain ⟨k2, rest, rfl⟩ := List.exists_cons_of_length_pos (l := rest) (by
        rw [List.length_cons] at hlen
        omega)
      have hk : ∀ k, k ∈ k1 :: k2 :: rest → k ≤ N := by
        intro k hk
        rw [← hfree] at hk
        have := List.mem_range'_1.mp (List.mem_of_mem_filter hk)
        omega
      have hk1 := hk k1 (by simp)
      have hk2 := hk k2 (by simp)
      have h11 : EXT2_GOOD_OLD_FIRST_INO = 11 := rfl
      have hfind' : (findNFree s.blkBmap 2).run s = .done [s.blkBmap.currAvailNum + (k1 - 11),
          s.blkBmap.currAvailNum + (k2 - 11)] s := by
        rw [hfind]
        simp only [List.take_succ_cons, List.take_zero, List.map_cons, List.map_nil, h11]
        rw [add32_of_lt (by omega), add32_of_lt (by omega)]
      rw [bind_done hfind'] at h
      dsimp only at h
      obtain ⟨_, s₁, hstore, hdone⟩ := bind_eq_done.mp h
      cases hdone
      have haddr : blockAddrU (s.blkBmap.currAvailNum + (k1 - 11)) =
          (s.blkBmap.currAvailNum + (k1 - 11)) * EXT2_BLOCK_SIZE := by
        unfold blockAddrU EXT2_BLOCK_SIZE
        omega
      rw [haddr] at hstore
      exact ⟨by omega, by omega, .inr ⟨_, by omega, (storeBytes_done hstore).2⟩⟩
    · have hnot : (findNFree s.blkBmap 2).run s = .halted (.exit ENOSPC) s := by
        rw [findNFree, if_pos (by omega), run_halt]
      rw [bind_halted hnot] at h
      cases h
  · rw [findFreeBlock, run_get_bind] at h
    split at h
    · cases h
    · cases h
      exact ⟨by omega, le_rfl, .inl rfl⟩

/-- In a bitmap in order both numbers are at least a free one. -/
theorem Good.newBlock_done {k blk : Nat} (hN : N ≤ 128) (hmap : Mapped N .blk s) (hgood : Good N .blk s)
    (h : (newBlock k).run s = .done blk s') :
    ∃ c ∈ s.free .blk N, c ≤ blk ∧ (s' = s ∨ ∃ t, c ≤ t ∧
      s' = { s with disk := Memory.store s.disk (t * EXT2_BLOCK_SIZE) (leBytes 4 blk) }) := by
  by_cases havail : 1 ≤ s.blkBmap.numBitsAvail
  · obtain ⟨j, hhead, h11, hjN, hcurr⟩ := hgood.exists_head? havail
    have hfrom : freeFrom s.disk (s.bmap .blk).sysBm N EXT2_GOOD_OLD_FIRST_INO = s.free .blk N :=
      freeFrom_of_forall_used (by decide) fun i h1 h2 =>
        hgood.reserved i h1 (by have : EXT2_GOOD_OLD_FIRST_INO = 11 := rfl; omega)
    have hlen : s.blkBmap.numBitsAvail ≤
        (freeFrom s.disk s.blkBmap.sysBm N EXT2_GOOD_OLD_FIRST_INO).length := by
      have h := hgood.avail
      rw [← hfrom] at h
      exact h.le
    obtain ⟨_, hblk, hs⟩ := Ext2.newBlock_done hN hmap hlen (fun _ => by omega) h
    rw [hcurr] at hblk hs
    exact ⟨j, (head?_free hhead).1, hblk, hs⟩
  · rw [newBlock] at h
    have hnone : ∀ {r}, 1 ≤ r → (findNFree s.blkBmap r).run s = .halted (.exit ENOSPC) s := by
      intro r hr
      rw [findNFree, if_pos (by omega), run_halt]
    split at h
    · rw [run_get_bind, bind_halted (hnone (by decide))] at h
      cases h
    · rw [findFreeBlock, run_get_bind, if_pos (by omega)] at h
      cases h

/-- In a bitmap in order the number is not a reserved one. -/
theorem run_newBlock {k blk : Nat} (hN : N ≤ 128) (hmap : Mapped N .blk s) (hgood : Good N .blk s)
    (h : (newBlock k).run s = .done blk s') :
    11 ≤ blk ∧ (s' = s ∨ ∃ t, 11 ≤ t ∧
      s' = { s with disk := Memory.store s.disk (t * EXT2_BLOCK_SIZE) (leBytes 4 blk) }) := by
  obtain ⟨c, hc, hblk, hs⟩ := hgood.newBlock_done hN hmap h
  have h11 := (hgood.le_of_mem_free hc).1
  refine ⟨by omega, hs.imp_right ?_⟩
  rintro ⟨t, ht, hs'⟩
  exact ⟨t, by omega, hs'⟩

/-- A block whose first entry takes up all of it has no other. -/
theorem length_of_recLen {es' : List DirEntry} (h : Block m b es')
    (hrec : word m 2 (b * EXT2_BLOCK_SIZE + 4) = EXT2_BLOCK_SIZE) : es'.length = 1 := by
  cases es' with
  | nil => exact absurd rfl h.ne_nil
  | cons x rest =>
    obtain ⟨hread, _, hrest⟩ := h.1
    have hx : x.recLen = EXT2_BLOCK_SIZE := (congrArg DirEntry.recLen hread).symm.trans hrec
    have htotal := h.2
    rw [sizes_cons, size_entries, hx] at htotal
    rw [hrest.eq_nil_of_sizes (by omega), List.length_singleton]

/-- The number of entries of a block does not depend on the inode number of the first one. -/
theorem length_of_inode {es' : List DirEntry} (h : Block m b es) (h' : Block m' b es')
    (hm : ∀ i, b * EXT2_BLOCK_SIZE + 4 ≤ i → i < b * EXT2_BLOCK_SIZE + EXT2_BLOCK_SIZE → m' i = m i) :
    es'.length = es.length := by
  have h1024 : EXT2_BLOCK_SIZE = 1024 := rfl
  cases es with
  | nil => exact absurd rfl h.ne_nil
  | cons x rest =>
    cases es' with
    | nil => exact absurd rfl h'.ne_nil
    | cons x' rest' =>
      obtain ⟨hread, hvalid, hrest⟩ := h.1
      obtain ⟨hread', _, hrest'⟩ := h'.1
      have hvalid' : 8 + x.nameLen ≤ x.recLen := hvalid
      have hrec : x'.recLen = x.recLen :=
        ((congrArg DirEntry.recLen hread').symm.trans
          (word_congr fun i h1 h2 => hm i (by omega) (by omega))).trans (congrArg DirEntry.recLen hread)
      have htotal := h.2
      have htotal' := h'.2
      rw [sizes_cons, size_entries] at htotal htotal'
      rw [size_entries] at hrest hrest'
      rw [hrec] at hrest' htotal'
      have hkept : Chain entries m' _ rest := hrest.congr fun i h1 h2 => hm i (by omega) (by omega)
      rw [hkept.unique hrest' (by omega), List.length_cons, List.length_cons]

/-- The entry in a new block is not listed: no other block gets longer by it. -/
theorem not_listed_of_newBlock {ess' : List (List DirEntry)} {blk : Nat} (h : Listing m blocks ess)
    (hm : m' = m ∨ ∃ t, m' = Memory.store m (t * EXT2_BLOCK_SIZE) (leBytes 4 blk))
    (hlt : name.chars.length < 256)
    (h' : Listing (Memory.store m' (blk * EXT2_BLOCK_SIZE)
      (entryBytes inode EXT2_BLOCK_SIZE name.chars.length fileType name.chars)) blocks ess') :
    ess'.flatten.length ≤ ess.flatten.length := by
  have h1024 : EXT2_BLOCK_SIZE = 1024 := rfl
  refine h.length_le h' fun b' _ es es' hb hb' => ?_
  by_cases hblk : b' = blk
  · subst hblk
    have hword := word_store_field (m := m') (a := b' * EXT2_BLOCK_SIZE) (w := 2) (v := EXT2_BLOCK_SIZE)
      (leBytes 4 inode) (leBytes 1 name.chars.length ++ leBytes 1 fileType ++ name.chars)
    have hmod : EXT2_BLOCK_SIZE % 256 ^ 2 = EXT2_BLOCK_SIZE := rfl
    rw [hmod] at hword
    have hone := length_of_recLen hb' (by simpa [entryBytes] using hword)
    have hpos := List.length_pos_of_ne_nil hb.ne_nil
    omega
  · have hother : ∀ i, b' * EXT2_BLOCK_SIZE ≤ i → i < b' * EXT2_BLOCK_SIZE + EXT2_BLOCK_SIZE →
        Memory.store m' (blk * EXT2_BLOCK_SIZE)
          (entryBytes inode EXT2_BLOCK_SIZE name.chars.length fileType name.chars) i = m' i := by
      intro i h1 h2
      rcases Nat.lt_or_gt_of_ne hblk with hlt' | hgt
      · exact Memory.store_of_lt (by have := block_le_of_lt hlt'; omega)
      · exact Memory.store_of_le (by have := block_le_of_lt hgt; rw [length_entryBytes]; omega)
    refine (length_of_inode hb hb' fun i h1 h2 => ?_).le
    rw [hother i (by omega) h2]
    rcases hm with rfl | ⟨t, rfl⟩
    · rfl
    · by_cases ht : i < t * EXT2_BLOCK_SIZE
      · exact Memory.store_of_lt ht
      · refine Memory.store_of_le ?_
        rw [length_leBytes]
        rcases Nat.lt_trichotomy t b' with htb | rfl | htb
        · have := block_le_of_lt htb
          omega
        · omega
        · have := block_le_of_lt htb
          omega

/-- The condition is needed. -/
theorem hasRoom_of_addsEntry (hdir : DirectDir s n blocks) (hlist : Listing s.disk blocks ess)
    (hN : N ≤ 128) (hmap : Mapped N .blk s) (hgood : Good N .blk s)
    (htable : inodeAddr s n + inodeSize ≤ EXT2_GOOD_OLD_FIRST_INO * EXT2_BLOCK_SIZE)
    (hinode : inode < 2 ^ 32) (htype : fileType < 256) (hname : name.chars.length < 256)
    (h : AddsEntry s n inode fileType name) : HasRoom ess.flatten name.chars.length := by
  obtain ⟨s', ess₀, ess', hrun, hlist₀, hlist', hitems, _⟩ := h
  rw [hdir.blocks_eq] at hlist₀
  obtain rfl := hlist.unique hlist₀
  have h11 : EXT2_GOOD_OLD_FIRST_INO = 11 := rfl
  have h1024 : EXT2_BLOCK_SIZE = 1024 := rfl
  obtain ⟨pre, b, preEss, es, e, rfl, rfl, hpre, hblock⟩ := hlist.split hdir.ne_nil
  have hmem : b ∈ pre ++ [b] := by simp
  have hbehind := hdir.behind b hmem
  obtain ⟨_, _, hvalid, hsize⟩ := hblock.split_last
  by_cases hpad : (e.recLen : Int) - TRUE_FILE_SIZE e.nameLen < TRUE_FILE_SIZE name.chars.length
  · -- The entry goes to a new block, which the inode does not learn of.
    rw [run_mkDirEntry hdir hblock, if_pos hpad] at hrun
    obtain ⟨blk, s₁, hnew, hrun⟩ := bind_eq_done.mp hrun
    obtain ⟨hblk, hs₁⟩ := run_newBlock hN hmap hgood hnew
    obtain ⟨m₁, rfl, hm₁, hlow⟩ : ∃ m₁, s₁ = { s with disk := m₁ } ∧
        (m₁ = s.disk ∨ ∃ t, m₁ = Memory.store s.disk (t * EXT2_BLOCK_SIZE) (leBytes 4 blk)) ∧
        ∀ i, i < inodeAddr s n + inodeSize → m₁ i = s.disk i := by
      rcases hs₁ with rfl | ⟨t, ht, rfl⟩
      · exact ⟨_, rfl, .inl rfl, fun _ _ => rfl⟩
      · refine ⟨_, rfl, .inr ⟨t, rfl⟩, fun i hi => Memory.store_of_lt ?_⟩
        unfold EXT2_BLOCK_SIZE at *
        omega
    obtain ⟨a, s₂, haddr, hput⟩ := bind_eq_done.mp hrun
    rw [blockAddr] at haddr
    split at haddr
    · cases haddr
      rw [List.take_length] at hput
      obtain ⟨_, rfl⟩ := storeBytes_done hput
      have hinodeOf := inodeOf_congr (s := s) (n := n) (m := Memory.store m₁ (blk * EXT2_BLOCK_SIZE)
        (entryBytes inode EXT2_BLOCK_SIZE name.chars.length fileType name.chars)) le_rfl fun i hi => by
          rw [Memory.store_of_lt (by unfold EXT2_BLOCK_SIZE at *; omega), hlow i hi]
      rw [hinodeOf, hdir.blocks_eq] at hlist'
      have hle := not_listed_of_newBlock hlist₀ hm₁ hname hlist'
      have hlen := congrArg List.length hitems
      rw [List.length_map, List.length_append, List.length_map, List.length_singleton] at hlen
      omega
    · cases haddr
  · rw [run_mkDirEntry_split hdir hblock rfl (by omega)] at hrun
    obtain ⟨_, rfl⟩ := hrun
    have h12 := (le_TRUE_FILE_SIZE e.nameLen).1
    have hinodeOf := inodeOf_congr (s := s) (n := n)
      (m := afterSplit s.disk (b * EXT2_BLOCK_SIZE + sizes entries es) e inode fileType name) hbehind
      fun i hi => split_apply h12 (.inl (by omega))
    rw [hinodeOf, hdir.blocks_eq] at hlist'
    obtain ⟨_, _, _, _, hblock'⟩ := Listing.concat.mp hlist'
    obtain ⟨hshort, hroom⟩ := room_of_block_afterSplit hblock rfl (by omega) hinode htype hname hblock'
    exact ⟨e, by simp, hshort, hroom⟩

/-- `mk_dir_entry` adds an entry and keeps the others exactly if the last entry of the directory has
a short name and there is room behind it. -/
theorem addsEntry_iff (hdir : DirectDir s n blocks) (hlist : Listing s.disk blocks ess)
    (hN : N ≤ 128) (hmap : Mapped N .blk s) (hgood : Good N .blk s)
    (htable : inodeAddr s n + inodeSize ≤ EXT2_GOOD_OLD_FIRST_INO * EXT2_BLOCK_SIZE)
    (hinode : inode < 2 ^ 32) (htype : fileType < 256)
    (hname : 1 ≤ name.chars.length ∧ name.chars.length ≤ 255) :
    AddsEntry s n inode fileType name ↔ HasRoom ess.flatten name.chars.length := by
  constructor
  · exact hasRoom_of_addsEntry hdir hlist hN hmap hgood htable hinode htype (by omega)
  · exact addsEntry_of_hasRoom hdir hlist hinode htype (by omega)

/-! ## The empty disk -/

/-- A disk that is zero but for some bytes. -/
def image (parts : List (Nat × List Byte)) : Memory :=
  parts.foldl (fun m p => Memory.store m p.1 p.2) fun _ => 0

/-- An entry of the table of inodes, for a directory. -/
def dirInodeBytes (linksCount block : Nat) : List Byte :=
  leBytes 2 EXT2_S_IFDIR ++ List.replicate 24 0 ++ leBytes 2 linksCount ++ List.replicate 12 0 ++
    leBytes 4 block

/-- `lost+found`. -/
def lostFound : List Byte := [0x6C, 0x6F, 0x73, 0x74, 0x2B, 0x66, 0x6F, 0x75, 0x6E, 0x64]

/-- A disk with 128 blocks and 32 inodes, as `emptydisk.img` has, with the root directory in block 9
and `lost+found` in block 10. -/
def emptyDisk : Memory := image [
  (sInodesCount, leBytes 4 32), (sBlocksCount, leBytes 4 128),
  (sFreeBlocksCount, leBytes 4 117), (sFreeInodesCount, leBytes 4 21),
  (bgBlockBitmap, leBytes 4 3), (bgInodeBitmap, leBytes 4 4), (bgInodeTable, leBytes 4 5),
  (bgFreeBlocksCount, leBytes 2 117), (bgFreeInodesCount, leBytes 2 21),
  (3 * EXT2_BLOCK_SIZE, [0xFF, 0x03]), (3 * EXT2_BLOCK_SIZE + 15, [0x80]),
  (4 * EXT2_BLOCK_SIZE, [0xFF, 0x07]),
  (5 * EXT2_BLOCK_SIZE + inodeSize, dirInodeBytes 3 9),
  (5 * EXT2_BLOCK_SIZE + 10 * inodeSize, dirInodeBytes 2 10),
  (9 * EXT2_BLOCK_SIZE, entryBytes 2 12 1 EXT2_FT_DIR [0x2E]),
  (9 * EXT2_BLOCK_SIZE + 12, entryBytes 2 12 2 EXT2_FT_DIR [0x2E, 0x2E]),
  (9 * EXT2_BLOCK_SIZE + 24, entryBytes 11 1000 10 EXT2_FT_DIR lostFound),
  (10 * EXT2_BLOCK_SIZE, entryBytes 11 12 1 EXT2_FT_DIR [0x2E]),
  (10 * EXT2_BLOCK_SIZE + 12, entryBytes 2 1012 2 EXT2_FT_DIR [0x2E, 0x2E])]

/-- The empty disk with the globals of a tool. -/
def State.empty : State where
  disk := emptyDisk
  size := 131072
  indsCount := 32
  blksCount := 128
  indTable := 5120
  indBmap :=
    { sysBm := 4096, numBitsAvail := 21, availByteIndex := 1, availBitIndex := 3, currAvailNum := 12 }
  blkBmap :=
    { sysBm := 3072, numBitsAvail := 117, availByteIndex := 1, availBitIndex := 2, currAvailNum := 11 }

set_option maxRecDepth 20000 in
theorem good_blk_empty : Good 128 .blk .empty where
  reserved n h1 h10 := by interval_cases n <;> rfl
  avail := by decide
  cursor := rfl

theorem directDir_root : DirectDir .empty 2 [9] where
  num := by decide
  size := by decide
  table := by decide
  iBlock := by decide
  ne_nil := by decide
  length_le := by decide
  nodup := by decide
  behind := by decide
  mapped := by decide

theorem directDir_lostFound : DirectDir .empty 11 [10] where
  num := by decide
  size := by decide
  table := by decide
  iBlock := by decide
  ne_nil := by decide
  length_le := by decide
  nodup := by decide
  behind := by decide
  mapped := by decide

theorem listing_root : Listing emptyDisk [9] [[⟨2, 12, 1, EXT2_FT_DIR, [0x2E]⟩,
    ⟨2, 12, 2, EXT2_FT_DIR, [0x2E, 0x2E]⟩, ⟨11, 1000, 10, EXT2_FT_DIR, lostFound⟩]] :=
  .cons (by decide +kernel) .nil

theorem listing_lostFound : Listing emptyDisk [10] [[⟨11, 12, 1, EXT2_FT_DIR, [0x2E]⟩,
    ⟨2, 1012, 2, EXT2_FT_DIR, [0x2E, 0x2E]⟩]] :=
  .cons (by decide +kernel) .nil

/-- The name of a single character. -/
def Name.letter : Name := { chars := [0x61], noNul := by decide }

/-- Another name of a single character. -/
def Name.otherLetter : Name := { chars := [0x62], noNul := by decide }

theorem addsEntry_lostFound : AddsEntry .empty 11 12 EXT2_FT_REG_FILE .letter :=
  (addsEntry_iff directDir_lostFound listing_lostFound (by decide) (Nat.le_of_ble_eq_true rfl)
    good_blk_empty (by decide) (by decide) (by decide) (by decide)).mpr
    ⟨_, rfl, by decide, by decide⟩

/-- The root directory of the empty disk ends with `lost+found`, whose size is then 12. -/
theorem not_addsEntry_root :
    DirectDir .empty 2 [9] ∧ (∃ es, Block emptyDisk 9 es) ∧ Mapped 128 .blk .empty ∧
      Good 128 .blk .empty ∧ ¬AddsEntry .empty 2 12 EXT2_FT_REG_FILE .letter := by
  have hmap : Mapped 128 .blk .empty := Nat.le_of_ble_eq_true rfl
  refine ⟨directDir_root, ⟨_, (List.forall₂_cons.mp listing_root).1⟩, hmap, good_blk_empty, fun h => ?_⟩
  obtain ⟨e, hlast, hshort, _⟩ := hasRoom_of_addsEntry directDir_root listing_root (by decide) hmap
    good_blk_empty (by decide) (by decide) (by decide) (by decide) h
  cases hlast
  exact absurd hshort (by decide)

end Ext2

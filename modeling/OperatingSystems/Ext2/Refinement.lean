-- SUMMARY: Runs of the tools that create directories and links, as runs of operations on volumes.
import OperatingSystems.Ext2.Volumes

/-!
# Refinement

On an image of a volume, `ext2_mkdir` and `ext2_ln` do what the operations on volumes do, as long as the
entries fit and there are free inodes. What has been found under a path stays there, and the numbers that
are taken are the lowest ones, one after the other.
-/

namespace Ext2

open Library Library.Process Library.Run

variable {m m' : Memory} {s s' : State} {b : Bm} {d i n nb : Nat} {v v' : Volume}

/-! ## Operations on volumes -/

/-- What adds an entry that names an inode. -/
inductive Creation where
  | mkdir (p : List Name) (dpath : Name)
  | ln (src linkParent : List Name) (lpath : Name) (isSoftlink : Bool) (absPath : Name)

namespace Creation

def op : Creation → Op
  | mkdir p dpath => .mkdir p dpath
  | ln src linkParent lpath isSoftlink absPath => .ln src linkParent lpath isSoftlink absPath

/-- The directory that the entry is for, or 0. -/
def parent (v : Volume) : Creation → Nat
  | mkdir p _ => v.lookup p EXT2_ROOT_INO
  | ln _ linkParent _ _ _ => v.lookup linkParent 0

def name : Creation → Name
  | mkdir _ dpath => dpath
  | ln _ _ lpath _ _ => lpath

/-- Whether the entry names a new inode. -/
def takesInode : Creation → Bool
  | mkdir _ _ => true
  | ln _ _ _ isSoftlink _ => isSoftlink

def fileType : Creation → Nat
  | mkdir _ _ => EXT2_FT_DIR
  | ln _ _ _ isSoftlink _ => if isSoftlink then EXT2_FT_SYMLINK else EXT2_FT_REG_FILE

/-- The inode that the entry names. -/
def inode (v : Volume) : Creation → Nat
  | mkdir _ _ => (v.free .ind).headD 0
  | ln src _ _ isSoftlink _ => if isSoftlink then (v.free .ind).headD 0 else v.lookup src 0

/-- The first test that fails. A directory is made only under a name that is found already. -/
def refusal (v : Volume) (c : Creation) : Option Nat :=
  match c with
  | mkdir _ dpath =>
    if c.parent v = 0 then some EINVAL
    else if v.lookup [dpath] (c.parent v) = 0 then some EEXIST
    else none
  | ln src _ lpath _ _ =>
    if v.lookup src 0 = 0 then some ENOENT
    else if c.parent v = 0 then some EINVAL
    else if v.lookup [lpath] (c.parent v) ≠ 0 then some EEXIST
    else none

/-- The volume with the entry. -/
def apply (c : Creation) (v : Volume) : Except Nat Volume :=
  match c.refusal v with
  | some e => .error e
  | none => .ok ((if c.takesInode then v.take else v).addEntry (c.parent v) (c.inode v) c.fileType c.name)

/-- The entry is one for a directory that has room for it, and a new inode is a free one. -/
structure Fits (c : Creation) (v : Volume) : Prop where
  directory : c.parent v ≠ 0 → c.parent v ∈ v.directories
  room : c.parent v ≠ 0 → HasRoom (v.entries (c.parent v)) c.name.chars.length
  length : c.name.chars.length < 2 ^ 8
  free : c.takesInode = true → v.free .ind ≠ []

theorem apply_eq_ok {c : Creation} : c.apply v = .ok v' ↔ c.refusal v = none ∧
    (if c.takesInode then v.take else v).addEntry (c.parent v) (c.inode v) c.fileType c.name = v' := by
  unfold apply
  cases c.refusal v with
  | none => simp
  | some e => simp

theorem refusal_mkdir {p : List Name} {dpath : Name} : (mkdir p dpath).refusal v =
    if v.lookup p EXT2_ROOT_INO = 0 then some EINVAL
    else if v.lookup [dpath] (v.lookup p EXT2_ROOT_INO) = 0 then some EEXIST
    else none := rfl

theorem refusal_ln {src linkParent : List Name} {lpath absPath : Name} {isSoftlink : Bool} :
    (ln src linkParent lpath isSoftlink absPath).refusal v =
      if v.lookup src 0 = 0 then some ENOENT
      else if v.lookup linkParent 0 = 0 then some EINVAL
      else if v.lookup [lpath] (v.lookup linkParent 0) ≠ 0 then some EEXIST
      else none := rfl

theorem refusal_ln_eq_none {src linkParent : List Name} {lpath absPath : Name} {isSoftlink : Bool} :
    (ln src linkParent lpath isSoftlink absPath).refusal v = none ↔ v.lookup src 0 ≠ 0 ∧
      v.lookup linkParent 0 ≠ 0 ∧ v.lookup [lpath] (v.lookup linkParent 0) = 0 := by
  rw [refusal_ln]
  split_ifs with hsrc hparent hexisting
  · simp [hsrc]
  · simp [hparent]
  · simp [hexisting]
  · simp [hsrc, hparent, not_not.mp hexisting]

theorem parent_ne {c : Creation} (h : c.refusal v = none) : c.parent v ≠ 0 := by
  cases c with
  | mkdir p dpath =>
    intro hzero
    rw [refusal, if_pos hzero] at h
    cases h
  | ln src linkParent lpath isSoftlink absPath => exact (refusal_ln_eq_none.mp h).2.1

theorem fileType_lt (c : Creation) : c.fileType < 256 := by
  cases c with
  | mkdir p dpath => exact (by decide : EXT2_FT_DIR < 256)
  | ln src linkParent lpath isSoftlink absPath =>
    cases isSoftlink with
    | false => exact (by decide : EXT2_FT_REG_FILE < 256)
    | true => exact (by decide : EXT2_FT_SYMLINK < 256)

end Creation

/-! ## Taking an inode and a block -/

/-- A mounted image, with the cursors at the lowest free numbers. -/
structure Ready (m : Memory) (s : State) (i nb : Nat) : Prop where
  mounted : Mounted m s
  cursor : ∀ b, s.bmap b = (s.bmap b).withCursor (freeOn m b).head?
  inode : (freeOn m .ind).head? = some i
  block : (freeOn m .blk).head? = some nb

theorem ready_of_initGlobals (hlayout : Layout m) (hinit : initGlobals.run (.boot m) = .done () s)
    (hi : (freeOn m .ind).head? = some i) : ∃ nb, Ready m s i nb := by
  obtain ⟨hne, hcursor⟩ := cursors_of_initGlobals hlayout hinit (List.ne_nil_of_mem (List.mem_of_head? hi))
  exact ⟨_, mounted_of_initGlobals hinit, hcursor, hi, List.head?_eq_some_head hne⟩

/-- What `find_free_inode` and `find_free_block` give is the number at the cursor. -/
theorem Ready.curr_eq (h : Ready m s i nb) : s.indBmap.currAvailNum = i ∧ s.blkBmap.currAvailNum = nb := by
  have hind : s.indBmap = s.indBmap.withCursor (some i) := h.inode ▸ h.cursor .ind
  have hblk : s.blkBmap = s.blkBmap.withCursor (some nb) := h.block ▸ h.cursor .blk
  rw [hind, hblk]
  exact ⟨rfl, rfl⟩

theorem Ready.findFreeInode_done (h : Ready m s i nb) (hrun : findFreeInode.run s = .done n s') : n = i := by
  rw [findFreeInode, run_get_bind] at hrun
  split at hrun
  · cases hrun
  · cases hrun
    exact h.curr_eq.1

/-- The end of a tool that takes both, behind the contents of the block. -/
theorem Ready.take_done {D : Memory} {j j' : Int} (h : Ready m s i nb)
    (hrun : (indTableAt j >>= fun _ => indTableAt j' >>= fun _ => setUsedBit .ind >>= fun _ => setUsedBit .blk).run
      { s with disk := D } = .done () s') :
    Unmoved s s' ∧ s'.disk = flips (flips D (bitmapAt m .ind) [i]) (bitmapAt m .blk) [nb] := by
  have hsysBm := h.mounted.sysBm
  obtain ⟨_, s₁, hlook, h₁⟩ := bind_eq_done.mp hrun
  obtain rfl := (readOnly_indTableAt _).of_done hlook
  obtain ⟨_, s₂, hlook', h₂⟩ := bind_eq_done.mp h₁
  obtain rfl := (readOnly_indTableAt _).of_done hlook'
  -- Marking the inode leaves the cursor of the other bitmap where it is.
  obtain ⟨_, s₃, hind, hblk⟩ := bind_eq_done.mp h₂
  obtain ⟨hmoved, hdisk, hother⟩ := setUsedBit_cursor (n := i)
    (by rw [State.bmap_disk, ← h.inode]; exact h.cursor .ind) hind
  rw [State.bmap_disk] at hdisk
  have hsame : s₃.bmap .blk = s.bmap .blk := (hother .blk (by decide)).trans State.bmap_disk
  obtain ⟨hmoved', hdisk', _⟩ := setUsedBit_cursor (n := nb)
    (by rw [hsame, ← h.block]; exact h.cursor .blk) hblk
  refine ⟨Unmoved.disk.trans (hmoved.trans hmoved'), ?_⟩
  rw [hdisk', hdisk, hsame, hsysBm, hsysBm]

/-- The block of a new directory is the lowest free one. -/
theorem Ready.mkNewDirInode_done (h : Ready m s i nb) (hrun : (mkNewDirInode n d).run s = .done () s') :
    Unmoved s s' ∧ s'.disk = flips (flips (newDirBlock s.disk nb n d) (bitmapAt m .ind) [i])
      (bitmapAt m .blk) [nb] := by
  obtain ⟨newBlockNum, s₁, hfind, h₁⟩ := bind_eq_done.mp hrun
  obtain rfl := readOnly_findFreeBlock.of_done hfind
  rw [findFreeBlock, run_get_bind] at hfind
  split at hfind
  · cases hfind
  · cases hfind
    rw [h.curr_eq.2] at h₁
    obtain ⟨a, s₂, haddr, h₂⟩ := bind_eq_done.mp h₁
    rw [blockAddr] at haddr
    split at haddr
    · cases haddr
      obtain ⟨_, s₃, hparent, h₃⟩ := bind_eq_done.mp h₂
      obtain ⟨_, rfl⟩ := storeBytes_done hparent
      obtain ⟨_, s₄, hself, h₄⟩ := bind_eq_done.mp h₃
      obtain ⟨_, rfl⟩ := storeBytes_done hself
      exact h.take_done h₄
    · cases haddr

/-! ## The tools on an image of a volume -/

namespace Creation

/-- What a tool does behind its tests, apart from the one for directories that `ext2_ln` makes on the next
inode. -/
def afterTests (v : Volume) : Creation → Tool Unit
  | mkdir p dpath => do
    let newInodeNum ← findFreeInode
    mkNewDirInode newInodeNum (v.lookup p EXT2_ROOT_INO)
    mkEntryFor (v.lookup p EXT2_ROOT_INO) newInodeNum EXT2_FT_DIR dpath
  | ln src linkParent lpath isSoftlink absPath => do
    let srcInode ← indTableAt (v.lookup src 0)
    if IS_DIR srcInode.iMode then halt (.exit EISDIR)
    else if isSoftlink then do
      let s ← get
      let newInodeNum ← findFree s.indBmap
      mkNewSymlinkInode (v.lookup src 0) (v.lookup linkParent 0) absPath
      mkEntryFor (v.lookup linkParent 0) newInodeNum EXT2_FT_SYMLINK lpath
    else mkEntryFor (v.lookup linkParent 0) (v.lookup src 0) EXT2_FT_REG_FILE lpath

/-- The tools test what the volume refuses. -/
theorem run_tool (c : Creation) (h : Shows s v) (hdir : c.parent v ≠ 0 → c.parent v ∈ v.directories) :
    c.op.tool.run s = match c.refusal v with
      | some e => .halted (.exit e) s
      | none => (c.afterTests v).run s := by
  have hroot : ∀ path start, start = 0 ∨ start = EXT2_ROOT_INO →
      (dirEntryExists path start).run s = .done (v.lookup path start) s := fun path start hstart => by
    refine h.run_dirEntryExists ?_
    rcases hstart with rfl | rfl <;> exact h.represents.root
  have hparent : ∀ name, c.parent v ≠ 0 →
      (dirEntryExists [name] (c.parent v)).run s = .done (v.lookup [name] (c.parent v)) s := fun name hne => by
    refine h.run_dirEntryExists ?_
    rw [if_pos hne]
    exact hdir hne
  cases c with
  | mkdir p dpath =>
    change (ext2Mkdir p dpath).run s = _
    rw [ext2Mkdir, bind_done (hroot p _ (.inr rfl)), refusal_mkdir]
    by_cases hzero : v.lookup p EXT2_ROOT_INO = 0
    · rw [if_pos hzero, if_pos hzero, run_halt]
    have hexists := hparent dpath hzero
    rw [parent] at hexists
    rw [if_neg hzero, if_neg hzero, bind_done hexists]
    by_cases hexisting : v.lookup [dpath] (v.lookup p EXT2_ROOT_INO) = 0
    · rw [if_pos hexisting, if_pos hexisting, run_halt]
    · rw [if_neg hexisting, if_neg hexisting, afterTests]
  | ln src linkParent lpath isSoftlink absPath =>
    change (ext2Ln src linkParent lpath isSoftlink absPath).run s = _
    rw [ext2Ln, bind_done (hroot src _ (.inl rfl)), bind_done (hroot linkParent _ (.inl rfl)),
      refusal_ln]
    by_cases hsrc : v.lookup src 0 = 0
    · rw [if_pos hsrc, if_pos hsrc, run_halt]
    rw [if_neg hsrc, if_neg hsrc]
    by_cases hzero : v.lookup linkParent 0 = 0
    · rw [if_pos hzero, if_pos hzero, run_halt]
    have hexists := hparent lpath hzero
    rw [parent] at hexists
    rw [if_neg hzero, if_neg hzero, bind_done hexists]
    by_cases hexisting : v.lookup [lpath] (v.lookup linkParent 0) ≠ 0
    · rw [if_pos hexisting, if_pos hexisting, run_halt]
    · rw [if_neg hexisting, if_neg hexisting, afterTests]

end Creation

/-- Once both numbers are taken, the tool shows the volume without them. -/
theorem Ready.shows_take {D : Memory} {s₁ : State} (hready : Ready m s i nb) (h : Represents m v)
    (hD : ∀ a, a < nb * EXT2_BLOCK_SIZE ∨ nb * EXT2_BLOCK_SIZE + EXT2_BLOCK_SIZE ≤ a → D a = s.disk a)
    (hmoved : Unmoved s s₁)
    (hdisk : s₁.disk = flips (flips D (bitmapAt m .ind) [i]) (bitmapAt m .blk) [nb]) : Shows s₁ v.take := by
  have hshows := h.mounted hready.mounted
  have hfields := hready.mounted.fields
  have hfree : ∀ b, freeOn s.disk b = freeOn m b := fun b => (hshows.represents.free b).symm.trans (h.free b)
  have hi : (freeOn s.disk .ind).head? = some i := hfree .ind ▸ hready.inode
  have hnb : (freeOn s.disk .blk).head? = some nb := hfree .blk ▸ hready.block
  rw [← bitmapAt_congr hfields, ← bitmapAt_congr hfields] at hdisk
  refine ⟨hdisk ▸ hshows.represents.taken hi hnb hD, hmoved.size.trans hshows.size, ?_⟩
  rw [hmoved.table, hshows.table, hdisk, tableAt_congr (hshows.represents.fields_taken hnb hD)]

/-- A new inode is the lowest free one. -/
theorem Creation.Fits.head_free {c : Creation} (hfits : c.Fits v) (h : Represents m v)
    (htakes : c.takesInode = true) :
    ∃ i, (freeOn m .ind).head? = some i ∧ (v.free .ind).headD 0 = i ∧ i ≠ 0 ∧ i < 2 ^ 32 := by
  obtain ⟨i, rest, hfree⟩ := List.exists_cons_of_ne_nil (hfits.free htakes)
  have hi : (freeOn m .ind).head? = some i := by rw [← h.free, hfree, List.head?_cons]
  obtain ⟨⟨h1, hN⟩, _⟩ := mem_free.mp (List.mem_of_head? hi)
  have := (h.layout.total .ind).1
  exact ⟨i, hi, by rw [hfree, List.headD_cons], by omega, by omega⟩

/-- Behind its tests, a tool leaves an image of the volume with the entry. -/
theorem Creation.afterTests_done {c : Creation} (h : Represents m v) (hfits : c.Fits v)
    (hinit : initGlobals.run (.boot m) = .done () s) (hmounted : Mounted m s) (hpass : c.refusal v = none)
    (hrun : (c.afterTests v).run s = .done () s') :
    Represents s'.disk
      ((if c.takesInode then v.take else v).addEntry (c.parent v) (c.inode v) c.fileType c.name) := by
  have hne := parent_ne hpass
  have hd := hfits.directory hne
  have hroom := hfits.room hne
  have hlength := hfits.length
  have htype := c.fileType_lt
  cases c with
  | mkdir p dpath =>
    obtain ⟨i, hi, hhead, hrange⟩ := hfits.head_free h rfl
    obtain ⟨nb, hready⟩ := ready_of_initGlobals h.layout hinit hi
    obtain ⟨newInodeNum, s₁, hfind, h₁⟩ := bind_eq_done.mp hrun
    obtain rfl := readOnly_findFreeInode.of_done hfind
    obtain rfl := hready.findFreeInode_done hfind
    obtain ⟨_, s₂, hmake, h₂⟩ := bind_eq_done.mp h₁
    obtain ⟨hmoved, hdisk⟩ := hready.mkNewDirInode_done hmake
    have hshows := hready.shows_take h (fun _ => newDirBlock_apply) hmoved hdisk
    rw [inode, hhead]
    exact hshows.mkEntryFor_done hd hroom hlength hrange htype h₂
  | ln src linkParent lpath isSoftlink absPath =>
    obtain ⟨srcInode, s₁, hlook, h₁⟩ := bind_eq_done.mp hrun
    obtain rfl := (readOnly_indTableAt _).of_done hlook
    split at h₁
    · cases h₁
    cases isSoftlink with
    | true =>
      obtain ⟨i, hi, hhead, hrange⟩ := hfits.head_free h rfl
      obtain ⟨nb, hready⟩ := ready_of_initGlobals h.layout hinit hi
      rw [if_pos rfl, run_get_bind] at h₁
      obtain ⟨newInodeNum, s₂, hfind, h₂⟩ := bind_eq_done.mp h₁
      obtain rfl := (readOnly_findFree _).of_done hfind
      obtain rfl := findFree_done h.layout hmounted .ind hi hfind
      obtain ⟨_, s₃, hmake, h₃⟩ := bind_eq_done.mp h₂
      obtain ⟨hmoved, hdisk⟩ :=
        mkNewSymlinkInode_done h.layout hmounted hready.cursor hi hready.block hmake
      have hpos : 0 < EXT2_BLOCK_SIZE := by decide
      have hshows := hready.shows_take h (fun a ha => Function.update_of_ne (by omega) _ _) hmoved hdisk
      rw [inode, if_pos rfl, hhead]
      exact hshows.mkEntryFor_done hd hroom hlength hrange htype h₃
    | false =>
      obtain ⟨_, hin, _⟩ := indTableAt_done hlook
      have h128 : (inodeSize : Int) = 128 := rfl
      rw [hmounted.size, h128] at hin
      have hsrc := (refusal_ln_eq_none.mp hpass).1
      have hlt : v.lookup src 0 < 2 ^ 32 := by omega
      exact (h.mounted hmounted).mkEntryFor_done hd hroom hlength ⟨hsrc, hlt⟩ htype h₁

/-- A tool that completes has made a step of the volume. -/
theorem Creation.complete_refines {c : Creation} (h : Represents m v) (hfits : c.Fits v)
    (hrun : complete c.op m = .ok m') : ∃ v', c.apply v = .ok v' ∧ Represents m' v' := by
  obtain ⟨s', hdone, rfl⟩ := complete_eq_ok.mp hrun
  obtain ⟨s, hinit, hmounted, htool⟩ := runOn_eq_done hdone
  rw [run_tool c (h.mounted hmounted) hfits.directory] at htool
  cases hpass : c.refusal v with
  | some e =>
    rw [hpass] at htool
    cases htool
  | none =>
    rw [hpass] at htool
    exact ⟨_, apply_eq_ok.mpr ⟨hpass, rfl⟩, afterTests_done h hfits hinit hmounted hpass htool⟩

/-- What the volume refuses, the tool exits with, once `init_globals` is done. -/
theorem Creation.complete_refuses {c : Creation} {e : Nat} (h : Represents m v) (hfits : c.Fits v)
    (hinit : initGlobals.run (.boot m) = .done () s) (hrefuse : c.apply v = .error e) :
    complete c.op m = .error (.exit e) := by
  have hrefusal : c.refusal v = some e := by
    unfold apply at hrefuse
    cases hpass : c.refusal v with
    | none =>
      rw [hpass] at hrefuse
      cases hrefuse
    | some e' =>
      rw [hpass] at hrefuse
      cases hrefuse
      rfl
  have htool := run_tool c (h.mounted (mounted_of_initGlobals hinit)) hfits.directory
  rw [hrefusal] at htool
  have hrun : c.op.tool.runOn m = .halted (.exit e) s := by
    rw [Tool.runOn, bind_done hinit]
    exact htool
  unfold complete
  rw [hrun]

/-! ## Runs -/

/-- A run of the tools is a run of the operations on the volume, and leaves an image of what they make of it.
What the volume refuses then, the next tool exits with. -/
theorem creations_refine {cs : List Creation} (h : Represents m v) (hfits : Along Creation.apply Creation.Fits cs v)
    (hrun : exec (fun c => complete c.op) cs m = .ok m') :
    ∃ v', exec Creation.apply cs v = .ok v' ∧ Represents m' v' ∧
      ∀ (c : Creation) (e : Nat) (s : State), c.Fits v' → initGlobals.run (.boot m') = .done () s →
        c.apply v' = .error e → complete c.op m' = .error (.exit e) := by
  obtain ⟨v', hexec, h'⟩ :=
    hfits.refines h (fun _ _ _ _ h hfits hstep => Creation.complete_refines h hfits hstep) hrun
  exact ⟨v', hexec, h', fun _ _ _ hfits hinit => Creation.complete_refuses h' hfits hinit⟩

/-- A soft link to the file, and a directory with the name of the file. -/
def linkAndDir : List Creation := [.ln [.letter] [] .otherLetter true .letter, .mkdir [] .letter]

/-- Both entries fit into the root directory. -/
theorem fits_linkAndDir : Along Creation.apply Creation.Fits linkAndDir volumeWithFile := by
  have happly := (@Creation.apply_eq_ok volumeWithFile _ (.ln [.letter] [] .otherLetter true .letter)).mpr
    ⟨by decide, rfl⟩
  refine along_cons.mpr ⟨⟨fun _ => by decide, fun _ => ?_, by decide, fun _ => by decide +kernel⟩, fun v hv => ?_⟩
  · exact ⟨⟨12, 980, 1, EXT2_FT_REG_FILE, Name.letter.chars⟩, by decide⟩
  obtain rfl := Except.ok.inj (happly.symm.trans hv)
  refine along_cons.mpr ⟨⟨fun _ => by decide, fun _ => ?_, by decide, fun _ => by decide +kernel⟩, fun _ _ => trivial⟩
  exact ⟨⟨13, 968, 1, EXT2_FT_SYMLINK, Name.otherLetter.chars⟩, by decide +kernel⟩

theorem exists_linkAndDir : ∃ m', exec (fun c => complete (Creation.op c)) linkAndDir fileDisk = .ok m' ∧
    ∃ s, initGlobals.run (.boot m') = .done () s := by
  obtain ⟨m', hrun, hdone⟩ := @exists_of_ok (exec (fun c => complete (Creation.op c)) linkAndDir fileDisk)
    (fun m' => Outcome.casesOn (motive := fun _ => Bool) (initGlobals.run (.boot m')) (fun _ _ => true)
      (fun _ _ => false) = true) _ (by decide +kernel)
  refine ⟨m', hrun, ?_⟩
  cases hinit : initGlobals.run (.boot m') with
  | done u s => exact ⟨s, rfl⟩
  | halted e s =>
    rw [hinit] at hdone
    cases hdone

theorem creations_refine_linkAndDir : ∃ m' v', exec (fun c => complete (Creation.op c)) linkAndDir fileDisk = .ok m' ∧
    Represents m' v' ∧ exec Creation.apply linkAndDir volumeWithFile = .ok v' := by
  obtain ⟨m', hrun, _⟩ := exists_linkAndDir
  obtain ⟨v', hexec, h', _⟩ := creations_refine represents_fileDisk fits_linkAndDir hrun
  exact ⟨m', v', hrun, h', hexec⟩

/-! ## What stays found -/

namespace Volume

/-- A path that leads somewhere in one volume leads there in the other one as well. -/
def Keeps (v v' : Volume) : Prop :=
  ∀ path start, v.lookup path start ≠ 0 → v'.lookup path start = v.lookup path start

theorem Keeps.trans {v'' : Volume} (h : v.Keeps v') (h' : v'.Keeps v'') : v.Keeps v'' := by
  intro path start hne
  have hkept := h path start hne
  rw [h' path start (by rwa [hkept]), hkept]

theorem lookup_addEntry {fileType start : Nat} {path : List Name} {c name : Name} (hne : v.entries d ≠ [])
    (hinode : ∀ e ∈ v.entries d, e.inode ≠ 0) (hstart : (if start ≠ 0 then start else EXT2_ROOT_INO) = d) :
    (v.addEntry d n fileType name).lookup (c :: path) start =
      if v.lookup (c :: path) start ≠ 0 then v.lookup (c :: path) start
      else if name.chars <+: c.chars then n else 0 := by
  rw [lookup, lookup, hstart, entries_addEntry_self, firstMatch_withEntry hne hinode]

/-- An entry behind the others hides none of them. -/
theorem keeps_addEntry {fileType : Nat} {name : Name} (hne : v.entries d ≠ [])
    (hinode : ∀ e ∈ v.entries d, e.inode ≠ 0) : v.Keeps (v.addEntry d n fileType name) := by
  intro path start hfound
  cases path with
  | nil => rfl
  | cons c path =>
    by_cases hstart : (if start ≠ 0 then start else EXT2_ROOT_INO) = d
    · rw [lookup_addEntry hne hinode hstart, if_pos hfound]
    · rw [lookup, lookup, entries_addEntry_of_ne hstart]

end Volume

namespace Creation

theorem keeps_of_apply {c : Creation} (h : Represents m v) (hfits : c.Fits v) (happly : c.apply v = .ok v') :
    v.Keeps v' ∧ v'.directories = v.directories := by
  obtain ⟨hpass, rfl⟩ := apply_eq_ok.mp happly
  have hd := hfits.directory (parent_ne hpass)
  have hne := h.entries_ne_nil hd
  have hinode := h.inode_ne _ hd
  split
  · exact ⟨Volume.keeps_addEntry (v := v.take) hne hinode, rfl⟩
  · exact ⟨Volume.keeps_addEntry hne hinode, rfl⟩

theorem inode_ne {c : Creation} (h : Represents m v) (hfits : c.Fits v) (hpass : c.refusal v = none) :
    c.inode v ≠ 0 := by
  have htaken : c.takesInode = true → (v.free .ind).headD 0 ≠ 0 := by
    intro htakes
    obtain ⟨i, _, rfl, hne, _⟩ := hfits.head_free h htakes
    exact hne
  cases c with
  | mkdir p dpath => exact htaken rfl
  | ln src linkParent lpath isSoftlink absPath =>
    cases isSoftlink with
    | true => exact htaken rfl
    | false => exact (refusal_ln_eq_none.mp hpass).1

/-- A link is found under its name once it is there. -/
theorem lookup_of_apply {src linkParent : List Name} {lpath absPath : Name} {isSoftlink : Bool}
    (h : Represents m v) (hfits : (ln src linkParent lpath isSoftlink absPath).Fits v)
    (happly : (ln src linkParent lpath isSoftlink absPath).apply v = .ok v') :
    v'.lookup [lpath] (v.lookup linkParent 0) = (ln src linkParent lpath isSoftlink absPath).inode v := by
  obtain ⟨hpass, rfl⟩ := apply_eq_ok.mp happly
  obtain ⟨_, hparent, hnew⟩ := refusal_ln_eq_none.mp hpass
  have hd := hfits.directory hparent
  have hne := h.entries_ne_nil hd
  have hinode := h.inode_ne _ hd
  have hfound : ∀ w : Volume, w.entries = v.entries → (w.addEntry (v.lookup linkParent 0)
      ((ln src linkParent lpath isSoftlink absPath).inode v)
      (ln src linkParent lpath isSoftlink absPath).fileType lpath).lookup [lpath] (v.lookup linkParent 0) =
        (ln src linkParent lpath isSoftlink absPath).inode v := by
    intro w hw
    have hsame : w.lookup [lpath] (v.lookup linkParent 0) = v.lookup [lpath] (v.lookup linkParent 0) := by
      rw [Volume.lookup, hw, Volume.lookup]
    rw [Volume.lookup_addEntry (hw ▸ hne) (hw ▸ hinode) (if_pos hparent), hsame, hnew, if_neg (by simp),
      if_pos List.prefix_rfl]
  split
  · exact hfound v.take rfl
  · exact hfound v rfl

end Creation

/-- The volume that a run ends with has the same directories, and keeps what has been found. -/
theorem run_keeps {cs : List Creation} (h : Represents m v) (hfits : Along Creation.apply Creation.Fits cs v)
    (hrun : exec (fun c => complete c.op) cs m = .ok m') :
    ∃ v', exec Creation.apply cs v = .ok v' ∧ Represents m' v' ∧ v.Keeps v' ∧ v'.directories = v.directories := by
  refine hfits.refines (R := fun m v' => Represents m v' ∧ v.Keeps v' ∧ v'.directories = v.directories)
    ⟨h, fun _ _ _ => rfl, rfl⟩ ?_ hrun
  rintro c m v₁ m' ⟨h, hkeeps, hdirs⟩ hfits hstep
  obtain ⟨v₂, happly, h'⟩ := Creation.complete_refines h hfits hstep
  obtain ⟨hkeeps', hdirs'⟩ := Creation.keeps_of_apply h hfits happly
  exact ⟨v₂, happly, h', hkeeps.trans hkeeps', hdirs'.trans hdirs⟩

/-- On a mounted image, `dir_entry_exists` looks up paths of the volume. -/
theorem Represents.run_lookup (h : Represents m v) (hinit : initGlobals.run (.boot m) = .done () s)
    (path : List Name) (start : Nat) (hstart : (if start ≠ 0 then start else EXT2_ROOT_INO) ∈ v.directories) :
    (dirEntryExists path start).run s = .done (v.lookup path start) s :=
  (h.mounted (mounted_of_initGlobals hinit)).run_dirEntryExists hstart

theorem Represents.eq_of_resolves {path : List Name} {k : Nat} (h : Represents m v) (hk : Resolves m path k) :
    k = v.lookup path 0 := by
  obtain ⟨s, hinit, hrun⟩ := hk
  rw [h.run_lookup hinit path 0 h.root] at hrun
  cases hrun
  rfl

/-- Paths are looked up in the root directory of the disk. -/
theorem resolves_fileDisk (path : List Name) : Resolves fileDisk path (volumeWithFile.lookup path 0) := by
  obtain ⟨m', hrun, _⟩ := exists_linkAndDir
  obtain ⟨m₁, hfirst, _⟩ := bind_eq_ok.mp hrun
  obtain ⟨s', hdone, _⟩ := complete_eq_ok.mp hfirst
  obtain ⟨s, hinit, _⟩ := runOn_eq_done hdone
  exact ⟨s, hinit, represents_fileDisk.run_lookup hinit path 0 represents_fileDisk.root⟩

/-- A path that leads to an inode still leads there after any run of the tools. -/
theorem creations_keep_lookups {cs : List Creation} {path : List Name} {k : Nat} (h : Represents m v)
    (hfits : Along Creation.apply Creation.Fits cs v) (hrun : exec (fun c => complete c.op) cs m = .ok m')
    (hk : Resolves m path k) (hne : k ≠ 0) (hinit : initGlobals.run (.boot m') = .done () s) :
    Resolves m' path k := by
  obtain ⟨v', _, h', hkeeps, _⟩ := run_keeps h hfits hrun
  obtain rfl := h.eq_of_resolves hk
  refine ⟨s, hinit, ?_⟩
  rw [h'.run_lookup hinit path 0 h'.root, hkeeps path 0 hne]

/-- The file is still found, although there is a directory of its name now. -/
theorem creations_keep_lookups_linkAndDir : ∃ m', exec (fun c => complete (Creation.op c)) linkAndDir fileDisk = .ok m' ∧
    Resolves m' [.letter] 12 := by
  obtain ⟨m', hrun, s, hinit⟩ := exists_linkAndDir
  have hk : Resolves fileDisk [.letter] 12 := resolves_fileDisk [.letter]
  exact ⟨m', hrun, creations_keep_lookups represents_fileDisk fits_linkAndDir hrun hk (by decide) hinit⟩

/-- A link is found under its name after any run of the tools that begins with it. -/
theorem links_stay_found {cs : List Creation} {src linkParent : List Name} {lpath absPath : Name}
    {isSoftlink : Bool} {k : Nat} (h : Represents m v)
    (hfits : Along Creation.apply Creation.Fits (.ln src linkParent lpath isSoftlink absPath :: cs) v)
    (hrun : exec (fun c => complete c.op) (.ln src linkParent lpath isSoftlink absPath :: cs) m = .ok m')
    (hd : Resolves m linkParent d) (hk : Resolves m src k)
    (hinit : initGlobals.run (.boot m') = .done () s) :
    (dirEntryExists [lpath] d).run s = .done (if isSoftlink then (freeOn m .ind).headD 0 else k) s := by
  obtain rfl := h.eq_of_resolves hd
  obtain rfl := h.eq_of_resolves hk
  obtain ⟨m₁, hfirst, hrest⟩ := bind_eq_ok.mp hrun
  obtain ⟨hfit, halong⟩ := hfits
  obtain ⟨v₁, happly, h₁⟩ := Creation.complete_refines h hfit hfirst
  rw [happly] at halong
  obtain ⟨v', _, h', hkeeps, hdirs⟩ := run_keeps h₁ halong hrest
  obtain ⟨hpass, _⟩ := Creation.apply_eq_ok.mp happly
  have hparent : v.lookup linkParent 0 ≠ 0 := Creation.parent_ne hpass
  have hfound := Creation.lookup_of_apply h hfit happly
  have hmem : (if v.lookup linkParent 0 ≠ 0 then v.lookup linkParent 0 else EXT2_ROOT_INO) ∈ v'.directories := by
    rw [if_pos hparent, hdirs, (Creation.keeps_of_apply h hfit happly).2]
    exact hfit.directory hparent
  rw [h'.run_lookup hinit _ _ hmem, hkeeps _ _ (hfound ▸ Creation.inode_ne h hfit hpass), hfound, Creation.inode,
    h.free]

/-- The link is found after the directory has been made, and has inode 13. -/
theorem links_stay_found_linkAndDir : ∃ m' s, exec (fun c => complete (Creation.op c)) linkAndDir fileDisk = .ok m' ∧
    initGlobals.run (.boot m') = .done () s ∧ (dirEntryExists [.otherLetter] 2).run s = .done 13 s := by
  obtain ⟨m', hrun, s, hinit⟩ := exists_linkAndDir
  have hd : Resolves fileDisk [] 2 := resolves_fileDisk []
  have hfound := links_stay_found represents_fileDisk fits_linkAndDir hrun hd (resolves_fileDisk [.letter]) hinit
  have hnext : (freeOn fileDisk .ind).headD 0 = 13 := by decide +kernel
  rw [if_pos rfl, hnext] at hfound
  exact ⟨m', s, hrun, hinit, hfound⟩

/-! ## Numbers that are taken -/

/-- A run takes the lowest free numbers, one after the other. -/
theorem free_of_exec {cs : List Creation} (hrun : exec Creation.apply cs v = .ok v') (b : Bm) :
    v'.free b = (v.free b).drop (cs.countP Creation.takesInode) := by
  induction cs generalizing v with
  | nil =>
    cases hrun
    rfl
  | cons c cs ih =>
    obtain ⟨v₁, hfirst, hrest⟩ := bind_eq_ok.mp hrun
    obtain ⟨_, rfl⟩ := Creation.apply_eq_ok.mp hfirst
    rw [ih hrest, List.countP_cons]
    cases htakes : c.takesInode with
    | true =>
      have hfree : (v.take.addEntry (c.parent v) (c.inode v) c.fileType c.name).free b = (v.free b).tail := rfl
      rw [if_pos rfl, if_pos rfl, hfree, ← List.drop_one, List.drop_drop, Nat.add_comm]
    | false => rfl

/-- After a run of the tools, of each kind as many of the lowest free numbers are in use as entries with a new
inode have been made. -/
theorem creations_take_lowest {cs : List Creation} (h : Represents m v)
    (hfits : Along Creation.apply Creation.Fits cs v) (hrun : exec (fun c => complete c.op) cs m = .ok m')
    (b : Bm) :
    freeOn m' b = (freeOn m b).drop (cs.countP Creation.takesInode) := by
  obtain ⟨v', hexec, h', _⟩ := run_keeps h hfits hrun
  rw [← h'.free, ← h.free, free_of_exec hexec]

/-- The link and the directory take the two lowest free inodes, and the two lowest free blocks. -/
theorem creations_take_lowest_linkAndDir : ∃ m', exec (fun c => complete (Creation.op c)) linkAndDir fileDisk = .ok m' ∧
    ∀ b, freeOn m' b = (freeOn fileDisk b).drop 2 := by
  obtain ⟨m', hrun, _⟩ := exists_linkAndDir
  exact ⟨m', hrun, creations_take_lowest represents_fileDisk fits_linkAndDir hrun⟩

end Ext2

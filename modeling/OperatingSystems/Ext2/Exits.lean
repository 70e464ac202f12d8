-- SUMMARY: Where the tools can exit with an error, and which parts of them cannot do so once they have written.
import OperatingSystems.Ext2.Restoration

/-!
# Exits

A tool exits with an error when there are not enough free numbers, or when a check of its arguments
fails. An access out of place stops it as well, but is no such exit. Hard links, removals and restorations
only exit before they write.
-/

namespace Ext2

open Library Library.Process

variable {α β : Type} {x : Tool α} {f : α → Tool β} {s s' : State} {b : Bm} {e : Nat}

/-! ## Parts that never exit -/

/-- However the process stops, it is not with an error of its own. -/
def NeverExits (x : Tool α) : Prop :=
  Triple (fun _ => True) x (fun _ _ => True) fun h _ => ∀ e, h ≠ .exit e

theorem fault_ne_exit (e : Nat) : Halt.fault ≠ .exit e := by simp

theorem diverges_ne_exit (e : Nat) : Halt.diverges ≠ .exit e := by simp

theorem assertion_ne_exit (e : Nat) : Halt.assertion ≠ .exit e := by simp

namespace NeverExits

theorem ne (h : NeverExits x) : x.run s ≠ .halted (.exit e) s' :=
  fun hrun => h.of_halted trivial hrun e rfl

theorem pure (a : α) : NeverExits (pure a : Tool α) := Triple.pure fun _ _ => trivial

theorem halt {h : Halt} (hh : ∀ e, h ≠ .exit e) : NeverExits (halt h : Tool α) := Triple.halt fun _ _ => hh

theorem get : NeverExits get := fun _ _ => trivial

theorem modify (g : State → State) : NeverExits (modify g) := fun _ _ => trivial

theorem bind (hx : NeverExits x) (hf : ∀ a, NeverExits (f a)) : NeverExits (x >>= f) := Triple.bind hx hf

theorem ite {c : Prop} [Decidable c] {x y : Tool α} (hx : NeverExits x) (hy : NeverExits y) :
    NeverExits (if c then x else y) := by
  split
  · exact hx
  · exact hy

theorem loop {body : α → Tool (Round α β)} (h : ∀ a, NeverExits (body a)) (n : Nat) (a : α) :
    NeverExits (loop .diverges body n a) := by
  refine Triple.loop (I := fun _ _ => True) (fun a => ?_) (fun _ _ _ => diverges_ne_exit) n a
  exact (h a).weaken (fun _ h => h) (fun r _ _ => by cases r <;> trivial) fun _ _ h => h

end NeverExits

/-- A part that only reads and never exits keeps what is known of the state. -/
theorem NeverExits.triple {P : State → Prop} (h : NeverExits x) (hx : ReadOnly x) :
    Triple P x (fun _ => P) fun h _ => ∀ e, h ≠ .exit e := by
  intro s hP
  cases hrun : x.run s with
  | done a s' => exact hx.of_done hrun ▸ hP
  | halted e s' => exact h.of_halted trivial hrun

theorem neverExits_loadBytes (a n : Nat) : NeverExits (loadBytes a n) :=
  .bind .get fun _ => .ite (.pure _) (.halt fault_ne_exit)

theorem neverExits_loadWord (w a : Nat) : NeverExits (loadWord w a) :=
  .bind (neverExits_loadBytes a w) fun _ => .pure _

theorem neverExits_storeBytes (a : Nat) (bs : List Byte) : NeverExits (storeBytes a bs) :=
  .bind .get fun _ => .ite (.modify _) (.halt fault_ne_exit)

theorem neverExits_storeWord (w a v : Nat) : NeverExits (storeWord w a v) := neverExits_storeBytes _ _

theorem neverExits_loadByte (a : Nat) : NeverExits (loadByte a) :=
  .bind .get fun _ => .ite (.pure _) (.halt fault_ne_exit)

theorem neverExits_storeByte (a : Nat) (v : Byte) : NeverExits (storeByte a v) :=
  .bind .get fun _ => .ite (.modify _) (.halt fault_ne_exit)

theorem neverExits_testBit (sysBm i j : Nat) : NeverExits (testBit sysBm i j) :=
  .bind (neverExits_loadByte _) fun _ => .pure _

theorem neverExits_indTableAt (i : Int) : NeverExits (indTableAt i) :=
  .bind .get fun _ => .ite (.pure _) (.halt fault_ne_exit)

theorem neverExits_iBlockAt (inode : Inode) (i : Nat) : NeverExits (iBlockAt inode i) := by
  rw [iBlockAt]
  cases inode.iBlock[i]? with
  | none => exact .halt fault_ne_exit
  | some v => exact .pure _

theorem neverExits_blockAddr (v : Nat) : NeverExits (blockAddr v) := .ite (.pure _) (.halt fault_ne_exit)

theorem neverExits_strncmpEq (bs : List Byte) (a n : Nat) : NeverExits (strncmpEq bs a n) := by
  induction n generalizing bs a with
  | zero =>
    rw [strncmpEq]
    exact .pure _
  | succ n ih =>
    cases bs with
    | nil => exact .bind (neverExits_loadByte _) fun _ => .pure _
    | cons b bs => exact .bind (neverExits_loadByte _) fun _ => .ite (ih _ _) (.pure _)

theorem neverExits_collect (inode : Inode) : NeverExits (collect inode) := by
  refine .bind .get fun s => .loop (fun w => .ite (.bind (.ite ?_ ?_) fun _ => .pure _) (.pure _)) _ _
  · exact .bind (neverExits_loadWord _ _) fun _ => .pure _
  · exact .bind (neverExits_iBlockAt _ _) fun _ => .pure _

theorem neverExits_lastEntry (b : Nat) : NeverExits (lastEntry b) := by
  refine .bind (neverExits_blockAddr _) fun a => .bind (neverExits_loadWord _ _) fun _ => .loop (fun p => ?_) _ _
  refine .ite (.bind (neverExits_loadWord _ _) fun _ => .bind (neverExits_loadWord _ _) fun _ => .pure _) ?_
  exact .pure _

theorem neverExits_toggleBits (sysBm : Nat) (ns : List Nat) : NeverExits (toggleBits sysBm ns) := by
  induction ns with
  | nil => exact .pure _
  | cons n ns ih =>
    exact .bind (.bind (neverExits_loadByte _) fun _ => neverExits_storeByte _ _) fun _ => ih

/-- The searches exit only if there are not enough free numbers. -/
theorem findFree_exit {bm : Bitmap} (h : (findFree bm).run s = .halted (.exit e) s') :
    bm.numBitsAvail < 1 := by
  rw [findFree] at h
  split at h
  · assumption
  · refine absurd h (NeverExits.ne (.bind .get fun s => .loop (fun p => ?_) _ _))
    exact .bind (neverExits_testBit _ _ _) fun _ => .ite (.pure _) (.pure _)

theorem findNFree_exit {bm : Bitmap} {reqNBits : Nat}
    (h : (findNFree bm reqNBits).run s = .halted (.exit e) s') : bm.numBitsAvail < reqNBits := by
  rw [findNFree] at h
  split at h
  · assumption
  · refine absurd h (NeverExits.ne (.bind .get fun s => .loop (fun c => ?_) _ _))
    exact .ite (.pure _) (.bind (neverExits_testBit _ _ _) fun _ => .ite (.pure _) (.pure _))

/-- The test of the count guards the search for the next free number. -/
theorem neverExits_updateCursor (b : Bm) : NeverExits (updateCursor b) := by
  refine .bind .get fun s => ?_
  by_cases hpos : (s.bmap b).numBitsAvail > 0
  · rw [if_pos hpos]
    refine .bind (fun s _ => ?_) fun num => .modify _
    split
    · trivial
    · rename_i hfind
      rintro e rfl
      have := findFree_exit hfind
      omega
  · rw [if_neg hpos]
    exact .modify _

theorem neverExits_setNToggleBit (b : Bm) (ns : List Nat) (setFlag : Nat) :
    NeverExits (setNToggleBit b ns setFlag) := by
  rw [setNToggleBit]
  cases ns.getLast? with
  | none => exact .halt assertion_ne_exit
  | some num =>
    refine .bind .get fun s => .bind (neverExits_toggleBits _ _) fun _ => .ite ?_ (.halt assertion_ne_exit)
    exact .bind (.modify _) fun _ => neverExits_updateCursor b

/-! ## Parts that exit before they write -/

/-- Whenever the process exits, the state is as it was. -/
def ExitsClean (x : Tool α) : Prop := ∀ s e s', x.run s = .halted (.exit e) s' → s' = s

namespace ExitsClean

theorem of_readOnly (h : ReadOnly x) : ExitsClean x := fun _ _ _ hrun => h.of_halted hrun

theorem of_neverExits (h : NeverExits x) : ExitsClean x := fun _ _ _ hrun => absurd hrun h.ne

/-- The process may exit while it only reads, and behind that as the rest of it does. -/
theorem bind (hx : ReadOnly x) (hf : ∀ a, ExitsClean (f a)) : ExitsClean (x >>= f) := by
  intro s e s' hrun
  rcases bind_eq_halted.mp hrun with hx' | ⟨a, s₁, hx', hf'⟩
  · exact hx.of_halted hx'
  · obtain rfl := hx.of_done hx'
    exact hf a _ _ _ hf'

theorem bind_neverExits (hx : ExitsClean x) (hf : ∀ a, NeverExits (f a)) : ExitsClean (x >>= f) := by
  intro s e s' hrun
  rcases bind_eq_halted.mp hrun with hx' | ⟨a, s₁, _, hf'⟩
  · exact hx s e s' hx'
  · exact absurd hf' (hf a).ne

theorem ite {c : Prop} [Decidable c] {x y : Tool α} (hx : ExitsClean x) (hy : ExitsClean y) :
    ExitsClean (if c then x else y) := by
  split
  · exact hx
  · exact hy

end ExitsClean

theorem exitsClean_newBlock (k : Nat) : ExitsClean (newBlock k) := by
  refine .ite (.bind .get fun s => .bind (readOnly_findNFree _ _) fun ns => ?_)
    (.of_readOnly readOnly_findFreeBlock)
  split
  · exact .of_neverExits (.bind (neverExits_storeWord _ _ _) fun _ => .pure _)
  · exact .of_neverExits (.halt fault_ne_exit)

theorem exitsClean_mkDirEntry (dirInode inode nameLen fileType : Nat) (name : Name) (namelen : Nat) :
    ExitsClean (mkDirEntry dirInode inode nameLen fileType name namelen) := by
  refine .bind (readOnly_indTableAt _) fun parentInode => .ite (.of_neverExits (.halt diverges_ne_exit)) ?_
  refine .bind (readOnly_lastEntry _) fun dirEnt => .bind (readOnly_loadWord _ _) fun lastNameLen => ?_
  refine .bind (readOnly_loadWord _ _) fun lastRecLen => .ite ?_ (.of_neverExits ?_)
  · refine (exitsClean_newBlock _).bind_neverExits fun memBlk => ?_
    exact .bind (neverExits_blockAddr _) fun a => neverExits_storeBytes _ _
  · exact .bind (neverExits_storeWord _ _ _) fun _ => neverExits_storeBytes _ _

/-! ## Hard links, removals and restorations -/

theorem exitsClean_hardLink (src linkParent : List Name) (lpath absPath : Name) :
    ExitsClean (ext2Ln src linkParent lpath false absPath) := by
  refine .bind (readOnly_dirEntryExists _ _) fun src => .bind (readOnly_dirEntryExists _ _) fun parent => ?_
  refine .ite (.of_readOnly (.halt _)) (.ite (.of_readOnly (.halt _)) ?_)
  refine .bind (readOnly_dirEntryExists _ _) fun existing => .ite (.of_readOnly (.halt _)) ?_
  refine .bind (readOnly_indTableAt _) fun inode => .ite (.of_readOnly (.halt _)) ?_
  exact exitsClean_mkDirEntry _ _ _ _ _ _

theorem exitsClean_rm (p : List Name) (f : Name) : ExitsClean (ext2Rm p f) := by
  refine .bind (readOnly_dirEntryExists _ _) fun parent => .ite (.of_readOnly (.halt _)) ?_
  refine .bind (readOnly_dirEntryExists _ _) fun file => .ite (.of_readOnly (.halt _)) ?_
  refine .bind (readOnly_indTableAt _) fun fileInode => .bind (readOnly_indTableAt _) fun parentInode => ?_
  refine .ite (.of_readOnly (.halt _)) (.ite (.of_readOnly (.halt _)) (.of_neverExits (.bind ?_ fun n => ?_)))
  · -- The entry is taken out without any further check.
    refine .bind (neverExits_indTableAt _) fun inode => .bind (.loop (fun d => ?_) _ _) fun found => ?_
    · refine .ite (.bind (.loop (fun e => ?_) _ _) fun r => .bind (neverExits_iBlockAt _ _) fun _ => .pure _)
        (.pure _)
      refine .ite (.bind (neverExits_loadWord _ _) fun _ => .bind (neverExits_strncmpEq _ _ _) fun eq => ?_)
        (.pure _)
      refine .ite (.pure _) (.bind (neverExits_loadWord _ _) fun _ => ?_)
      exact .bind (neverExits_loadWord _ _) fun _ => .pure _
    · rcases found with ⟨_ | prev, curr⟩
      · exact .halt fault_ne_exit
      · refine .bind (neverExits_loadWord _ _) fun _ => .bind (neverExits_loadWord _ _) fun _ => ?_
        refine .bind (neverExits_storeWord _ _ _) fun _ => .bind (neverExits_loadWord _ _) fun _ => ?_
        exact .bind (neverExits_indTableAt _) fun _ => .ite (neverExits_loadWord _ _) (.pure _)
  · refine .ite (.bind (neverExits_indTableAt _) fun inode => .bind (neverExits_collect _) fun blocks => ?_)
      (.pure _)
    exact .bind (neverExits_setNToggleBit _ _ _) fun _ => neverExits_setNToggleBit _ _ _

/-- `restore_inode` gives 0 only before it has set any bit. -/
theorem restoreInode_false {n : Nat} (h : (restoreInode n).run s = .done false s') : s' = s := by
  obtain ⟨inode, s₁, hinode, h₁⟩ := bind_eq_done.mp h
  obtain rfl := (readOnly_indTableAt _).of_done hinode
  rw [run_get_bind] at h₁
  obtain ⟨isFree, s₂, hfree, h₂⟩ := bind_eq_done.mp h₁
  obtain rfl := (readOnly_checkFree inode).of_done hfree
  cases isFree with
  | false =>
    cases h₂
    rfl
  | true =>
    obtain ⟨blocks, s₃, _, h₃⟩ := bind_eq_done.mp h₂
    obtain ⟨_, s₄, _, h₄⟩ := bind_eq_done.mp h₃
    obtain ⟨_, s₅, _, h₅⟩ := bind_eq_done.mp h₄
    cases h₅

theorem exitsClean_restore (p : List Name) (f : Name) : ExitsClean (ext2Restore p f) := by
  refine .bind (readOnly_dirEntryExists _ _) fun parent => .ite (.of_readOnly (.halt _)) ?_
  refine .bind (readOnly_indTableAt _) fun inode => .ite (.of_readOnly (.halt _)) ?_
  refine .bind (readOnly_dirEntryExists _ _) fun listed => ?_
  refine .bind (.ite (readOnly_restoreDirEntry _ _) (.pure _)) fun file => .ite (.of_readOnly (.halt _)) ?_
  intro s e s' hrun
  rcases bind_eq_halted.mp hrun with hrestore | ⟨restored, s₁, hrestore, hend⟩
  · have hclean : ExitsClean (restoreInode file) := by
      refine .bind (readOnly_indTableAt _) fun inode => .bind .get fun s => ?_
      refine .bind (readOnly_checkFree inode) fun isFree => .ite ?_ (.of_readOnly (.pure _))
      refine .bind (readOnly_collect _) fun blocks => .of_neverExits ?_
      refine .bind (neverExits_setNToggleBit _ _ _) fun _ => ?_
      exact .bind (neverExits_setNToggleBit _ _ _) fun _ => .pure _
    exact hclean s e s' hrestore
  · cases restored with
    | true => cases hend
    | false =>
      cases hend
      exact restoreInode_false hrestore

end Ext2

-- SUMMARY: The ext2 tools as operations on images, and the numbers that each of them finds at its start.
import OperatingSystems.Ext2.Additions
import OperatingSystems.Ext2.Creations
import OperatingSystems.Ext2.Images
import OperatingSystems.Ext2.Removals
import OperatingSystems.Library.Run

/-!
# Operations

An operation is a tool with its arguments, started on an image. The image it leaves behind is the one
that the next operation starts on. As long as the counts are true, the cursors that `init_globals`
sets are those of bitmaps in order.
-/

namespace Ext2

open Library Library.Process

variable {m m' : Memory} {s s' : State} {b : Bm} {n N : Nat}

/-- A tool with its arguments. -/
inductive Op where
  | mkdir (p : List Name) (dpath : Name)
  | cp (p : List Name) (fpath : Name) (file : Option Nat)
  | ln (src linkParent : List Name) (lpath : Name) (isSoftlink : Bool) (absPath : Name)
  | rm (p : List Name) (fpath : Name)
  | restore (p : List Name) (fpath : Name)

def Op.tool : Op → Tool Unit
  | mkdir p dpath => ext2Mkdir p dpath
  | cp p fpath file => ext2Cp p fpath file
  | ln src linkParent lpath isSoftlink absPath => ext2Ln src linkParent lpath isSoftlink absPath
  | rm p fpath => ext2Rm p fpath
  | restore p fpath => ext2Restore p fpath

/-- The image after an operation that completes. -/
def complete (op : Op) (m : Memory) : Except Halt Memory :=
  match op.tool.runOn m with
  | .done _ s => .ok s.disk
  | .halted e _ => .error e

theorem complete_eq_ok {op : Op} :
    complete op m = .ok m' ↔ ∃ s', op.tool.runOn m = .done () s' ∧ s'.disk = m' := by
  unfold complete
  generalize op.tool.runOn m = o
  cases o with
  | done _ s => simp
  | halted e s => simp

/-- A tool that has been started after `init_globals` has all of the mapping. -/
theorem runOn_eq_done {t : Tool Unit} {m : Memory} (h : t.runOn m = .done () s') :
    ∃ s, initGlobals.run (.boot m) = .done () s ∧ Mounted m s ∧ t.run s = .done () s' := by
  obtain ⟨_, s, hinit, hrun⟩ := bind_eq_done.mp h
  exact ⟨s, hinit, mounted_of_initGlobals hinit, hrun⟩

/-! ## The cursors -/

/-- Beyond the reserved numbers, the candidates of `read_bitmaps` are the free ones. -/
theorem candidates_eq_free (hreserved : ∀ n, 1 ≤ n → n ≤ 10 → s.used b n = true) :
    candidates s b 0 N = s.free b N := by
  refine List.filter_congr fun n hn => ?_
  have h1 := (List.mem_range'_1.mp hn).1
  by_cases h10 : n ≤ 10
  · have hused := hreserved n h1 h10
    have h11 : ¬EXT2_GOOD_OLD_FIRST_INO ≤ n := by
      have : EXT2_GOOD_OLD_FIRST_INO = 11 := rfl
      omega
    rw [State.used] at hused
    simp [h11, hused]
  · have h11 : EXT2_GOOD_OLD_FIRST_INO ≤ n := by
      have : EXT2_GOOD_OLD_FIRST_INO = 11 := rfl
      omega
    simp [h11, State.used]

theorem bitsToRead_eq (hN : N ≤ 8 * EXT2_BLOCK_SIZE) : bitsToRead N = 8 * (N / 8) := by
  have h1024 : EXT2_BLOCK_SIZE = 1024 := rfl
  rw [bitsToRead, if_pos (by omega)]

theorem total_loaded : (State.boot m).loaded.indsCount = total m .ind ∧
    (State.boot m).loaded.blksCount = total m .blk :=
  ⟨word_zeroed (.inl (by decide)), word_zeroed (.inl (by decide))⟩

/-- What `init_globals` does when the bitmaps are mapped: it looks for one inode, and then for one block
if it has found it, and for two blocks otherwise. -/
theorem run_initGlobals_mapped (htotal : ∀ b, total m b ≤ 8 * EXT2_BLOCK_SIZE)
    (hmapped : ∀ b, bitmapAt m b + EXT2_BLOCK_SIZE ≤ 128 * 1024) :
    initGlobals.run (.boot m) = ((do
      let foundBits ← readBitmap .blk 1 (8 * (total m .blk / 8)) 0
        (if (candidates (State.boot m).loaded .ind 0 (8 * (total m .ind / 8))).head?.isSome then 0 else -1)
      if foundBits = 0 then halt (.exit ENOSPC) else pure ()) : Tool Unit).run
        ((State.boot m).loaded.cursorAt .ind
          (candidates (State.boot m).loaded .ind 0 (8 * (total m .ind / 8))).head?) := by
  have hsize : (State.boot m).loaded.size = 128 * 1024 := rfl
  have hind := htotal .ind
  have hbm := hmapped .ind
  have h1024 : EXT2_BLOCK_SIZE = 1024 := rfl
  rw [run_initGlobals (show 3 * EXT2_BLOCK_SIZE ≤ 128 * 1024 by decide), readBitmaps, run_get_bind, total_loaded.1, total_loaded.2,
    bitsToRead_eq hind, bitsToRead_eq (htotal .blk), bind_done (run_readBitmap_one (by rfl) ?_)]
  rw [mounted_loaded.sysBm, hsize]
  omega

/-- While there is a free block, the cursor is at one. It need not be the lowest one. -/
theorem curr_mem_freeOn (htotal : ∀ b, total m b ≤ 8 * EXT2_BLOCK_SIZE)
    (hmapped : ∀ b, bitmapAt m b + EXT2_BLOCK_SIZE ≤ 128 * 1024) (hmod : total m .blk % 8 = 0)
    (hbitmap : 3 * EXT2_BLOCK_SIZE ≤ bitmapAt m .blk)
    (hreserved : ∀ n, 1 ≤ n → n ≤ 10 → usedOn m .blk n = true)
    (h : initGlobals.run (.boot m) = .done () s) (hne : freeOn m .blk ≠ []) :
    s.blkBmap.currAvailNum ∈ freeOn m .blk := by
  rw [run_initGlobals_mapped htotal hmapped] at h
  generalize hcand : candidates (State.boot m).loaded .ind 0 (8 * (total m .ind / 8)) = cand at h
  have hblk := htotal .blk
  have hbm := hmapped .blk
  have h1024 : EXT2_BLOCK_SIZE = 1024 := rfl
  have hsize : (State.boot m).loaded.size = 128 * 1024 := rfl
  have h8 : 8 * (total m .blk / 8) = total m .blk := by omega
  rw [h8] at h
  -- Setting the cursor of the other bitmap does not change which blocks there are to find.
  have hsame : candidates ((State.boot m).loaded.cursorAt .ind cand.head?) .blk 0 (total m .blk) =
      freeOn m .blk := by
    have hcursor : candidates ((State.boot m).loaded.cursorAt .ind cand.head?) .blk 0 (total m .blk) =
        candidates (State.boot m).loaded .blk 0 (total m .blk) := by
      cases cand.head? <;> rfl
    rw [hcursor, candidates_eq_free, mounted_loaded.free hbitmap]
    intro n h1 h10
    rw [mounted_loaded.used_of_le hbitmap]
    exact hreserved n h1 h10
  obtain ⟨found, o, hrun, ho, hsome⟩ := @run_readBitmap ((State.boot m).loaded.cursorAt .ind cand.head?)
    .blk (total m .blk) 0 1 (if cand.head?.isSome then 0 else -1)
    (by rw [sysBm_cursorAt, size_cursorAt, mounted_loaded.sysBm, hsize]; omega)
  rw [hsame] at ho hsome
  rw [bind_done hrun] at h
  have hs : s = ((State.boot m).loaded.cursorAt .ind cand.head?).cursorAt .blk o := by
    split at h
    · cases h
    · cases h
      rfl
  have hlt : (if cand.head?.isSome then (0 : Int) else -1) < 1 := by split <;> decide
  cases o with
  | none => exact absurd rfl (hsome hlt hne)
  | some k =>
    rw [hs]
    exact ho k rfl

/-- A tool that finds a free inode at its start has found a free block as well, and the cursors are at the
lowest ones. -/
theorem cursors_of_initGlobals (hlayout : Layout m) (hinit : initGlobals.run (.boot m) = .done () s)
    (hind : freeOn m .ind ≠ []) :
    freeOn m .blk ≠ [] ∧ ∀ b, s.bmap b = (s.bmap b).withCursor (freeOn m b).head? := by
  have htotal := hlayout.total
  have hbitmaps : ∀ b, 3 * EXT2_BLOCK_SIZE ≤ bitmapAt m b ∧ bitmapAt m b + EXT2_BLOCK_SIZE ≤ 11 * 1024 :=
    hlayout.bitmaps
  have hsize : (State.boot m).loaded.size = 128 * 1024 := rfl
  have h1024 : EXT2_BLOCK_SIZE = 1024 := rfl
  have h8 : ∀ b, 8 * (total m b / 8) = total m b := fun b => by have := htotal b; omega
  have hcand : ∀ b, candidates (State.boot m).loaded b 0 (total m b) = freeOn m b := fun b => by
    rw [candidates_eq_free, mounted_loaded.free (hbitmaps b).1]
    intro n h1 h10
    rw [mounted_loaded.used hlayout]
    exact hlayout.reserved b n h1 h10
  rw [run_initGlobals_mapped (fun b => by have := htotal b; omega) (fun b => by have := hbitmaps b; omega),
    h8, h8, hcand] at hinit
  obtain ⟨i, inds, hinds⟩ := List.exists_cons_of_ne_nil hind
  have hcand' : candidates ((State.boot m).loaded.cursorAt .ind (some i)) .blk 0 (total m .blk) =
      freeOn m .blk := hcand .blk
  simp only [hinds, List.head?_cons, Option.isSome_some, if_true] at hinit
  rw [bind_done (run_readBitmap_one (by rfl) (by
    rw [sysBm_cursorAt, size_cursorAt, mounted_loaded.sysBm, hsize]
    have := htotal .blk
    have := hbitmaps .blk
    omega)), hcand'] at hinit
  cases hblk : freeOn m .blk with
  | nil =>
    rw [hblk] at hinit
    cases hinit
  | cons k blks =>
    rw [hblk] at hinit
    refine ⟨List.cons_ne_nil _ _, fun b => ?_⟩
    cases hinit
    cases b with
    | ind =>
      rw [hinds]
      rfl
    | blk =>
      rw [hblk]
      rfl

/-- With true counts, both bitmaps are in order then. -/
theorem good_of_initGlobals (hlayout : Layout m) (hcounts : CountsTrue m)
    (hinit : initGlobals.run (.boot m) = .done () s) (hind : freeOn m .ind ≠ []) :
    freeOn m .blk ≠ [] ∧ ∀ b, Good (total m b) b s := by
  have hmounted := mounted_of_initGlobals hinit
  obtain ⟨hblk, hcursor⟩ := cursors_of_initGlobals hlayout hinit hind
  have hfree := fun b => hmounted.free (s := s) (hlayout.bitmaps b).1
  refine ⟨hblk, fun b => ⟨fun n h1 h10 => ?_, ?_, ?_⟩⟩
  · rw [hmounted.used hlayout]
    exact hlayout.reserved b n h1 h10
  · rw [hmounted.avail, hfree, hcounts.group]
  · rw [hfree]
    exact hcursor b

/-! ## The empty disk -/

/-- A tool on the empty disk, after `init_globals`. -/
def State.onEmpty : State := { State.empty with disk := zeroed emptyDisk }

theorem initGlobals_emptyDisk : initGlobals.run (.boot emptyDisk) = .done () .onEmpty := rfl

theorem mounted_onEmpty : Mounted emptyDisk .onEmpty := mounted_of_initGlobals initGlobals_emptyDisk

theorem layout_emptyDisk : Layout emptyDisk where
  total b := by cases b <;> decide +kernel
  bitmaps b := by cases b <;> decide +kernel
  apart := by decide +kernel
  table := by decide +kernel
  tableApart b := by cases b <;> decide +kernel
  reserved b n h1 h10 := by cases b <;> interval_cases n <;> decide +kernel

end Ext2

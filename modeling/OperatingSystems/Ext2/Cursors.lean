-- SUMMARY: Whether read_bitmaps finds the first free number of each bitmap: exactly if an inode is free, or one block alone.
import Mathlib.Order.Bounds.Basic
import OperatingSystems.Ext2.Globals

/-!
# Cursors

One counter tells the search in the second bitmap how many numbers to look for, and the end of
`read_bitmaps` whether it has failed. After a full bitmap of inodes the search looks for two blocks,
and only one of them counts as a failure.
-/

namespace Ext2

open Library Library.Process

variable {s s' : State} {b : Bm} {n N k : Nat}

/-- The size of a bitmap in bits. -/
def State.count (s : State) : Bm → Nat
  | .ind => s.indsCount
  | .blk => s.blksCount

/-- The free numbers of a bitmap from the first one that is not reserved. -/
def State.available (s : State) (b : Bm) : Set Nat :=
  {k | EXT2_GOOD_OLD_FIRST_INO ≤ k ∧ k ≤ s.count b ∧ s.used b k = false}

/-- The cursor is at a number. -/
def Bitmap.CursorAt (bm : Bitmap) (k : Nat) : Prop :=
  bm.availByteIndex = (k - 1) / 8 ∧ bm.availBitIndex = (k - 1) % 8 ∧ bm.currAvailNum = k

/-- `read_bitmaps` sets both cursors to the lowest free number of their bitmap, and exits with `ENOSPC`
if one of the bitmaps has none. -/
def FindsFirst (s : State) : Prop :=
  (∀ k₁ k₂, IsLeast (s.available .ind) k₁ → IsLeast (s.available .blk) k₂ →
    ∃ s', readBitmaps.run s = .done () s' ∧ s'.indBmap.CursorAt k₁ ∧ s'.blkBmap.CursorAt k₂) ∧
  (s.available .ind = ∅ ∨ s.available .blk = ∅ →
    ∃ s', readBitmaps.run s = .halted (.exit ENOSPC) s')

/-! ## The numbers in a row -/

theorem mem_candidates : k ∈ candidates s b 0 (s.count b) ↔ k ∈ s.available b := by
  have h11 : EXT2_GOOD_OLD_FIRST_INO = 11 := rfl
  rw [candidates, List.mem_filter, List.mem_range'_1, decide_eq_true_eq]
  constructor
  · rintro ⟨⟨_, hle⟩, h1, hfree⟩
    exact ⟨h1, by omega, hfree⟩
  · rintro ⟨h1, hle, hfree⟩
    exact ⟨⟨by omega, by omega⟩, h1, hfree⟩

theorem candidates_sorted : (candidates s b 0 N).Pairwise (· < ·) :=
  List.Pairwise.filter _ List.pairwise_lt_range'

theorem available_eq_empty (h : candidates s b 0 (s.count b) = []) : s.available b = ∅ := by
  rw [Set.eq_empty_iff_forall_notMem]
  intro k hk
  rw [← mem_candidates, h] at hk
  cases hk

/-- The first of the candidates is the least. -/
theorem isLeast_available {ks : List Nat} (h : candidates s b 0 (s.count b) = k :: ks) :
    IsLeast (s.available b) k := by
  refine ⟨mem_candidates.mp (h ▸ List.mem_cons_self), fun j hj => ?_⟩
  have hsorted := candidates_sorted (s := s) (b := b) (N := s.count b)
  rw [← mem_candidates, h, List.mem_cons] at hj
  rw [h, List.pairwise_cons] at hsorted
  rcases hj with rfl | hj
  · exact le_rfl
  · exact (hsorted.1 j hj).le

theorem existsUnique_available :
    (∃! k, k ∈ s.available b) ↔ (candidates s b 0 (s.count b)).length = 1 := by
  have hsorted := candidates_sorted (s := s) (b := b) (N := s.count b)
  have hmem : ∀ {k}, k ∈ candidates s b 0 (s.count b) ↔ k ∈ s.available b := mem_candidates
  generalize candidates s b 0 (s.count b) = ks at *
  cases ks with
  | nil =>
    constructor
    · rintro ⟨k, hk, _⟩
      exact absurd (hmem.mpr hk) List.not_mem_nil
    · intro h
      cases h
  | cons k ks =>
    cases ks with
    | nil => exact ⟨fun _ => rfl, fun _ => ⟨k, hmem.mp List.mem_cons_self, fun j hj => by simpa using hmem.mpr hj⟩⟩
    | cons k' ks =>
      have hlt := (List.pairwise_cons.mp hsorted).1 k' List.mem_cons_self
      constructor
      · rintro ⟨j, _, huniq⟩
        have h1 := huniq k (hmem.mp List.mem_cons_self)
        have h2 := huniq k' (hmem.mp (List.mem_cons_of_mem _ List.mem_cons_self))
        omega
      · intro h
        simp at h

/-! ## The search through both bitmaps -/

/-- Both bitmaps are mapped, and their sizes are whole bytes. -/
structure State.BitmapsMapped (s : State) : Prop where
  size : s.size = 128 * 1024
  mapped : ∀ b, (s.bmap b).sysBm + s.count b / 8 ≤ s.size
  bytes : ∀ b, s.count b % 8 = 0

namespace State.BitmapsMapped

theorem bits (h : s.BitmapsMapped) (b : Bm) : bitsToRead (s.count b) = s.count b := by
  have h1 := h.mapped b
  have h2 := h.bytes b
  have h3 := h.size
  rw [bitsToRead, if_pos (by omega)]
  omega

theorem read (h : s.BitmapsMapped) (b : Bm) : (s.bmap b).sysBm + (0 + s.count b + 7) / 8 ≤ s.size := by
  have h1 := h.mapped b
  have h2 := h.bytes b
  omega

/-- The search in the bitmap of blocks, for what is left to find. -/
theorem run_readBitmaps (h : s.BitmapsMapped) {found : Int}
    (hfound : (if (candidates s .ind 0 (s.count .ind)).head?.isSome then 0 else -1) = found) :
    readBitmaps.run s =
      (if found + min (1 - found).toNat (candidates s .blk 0 (s.count .blk)).length = 0 then
          halt (.exit ENOSPC) else pure () : Tool Unit).run
        ((s.cursorAt .ind (candidates s .ind 0 (s.count .ind)).head?).cursorAt .blk
          ((candidates s .blk 0 (s.count .blk)).take (1 - found).toNat).getLast?) := by
  have hind := @run_readBitmap_one s .ind (s.count .ind) 0 0 (-1) rfl (h.read .ind)
  rw [hfound] at hind
  have hblk := @run_readBitmap_find (s.cursorAt .ind (candidates s .ind 0 (s.count .ind)).head?) .blk
    (s.count .blk) 0 1 found (by
      rw [sysBm_cursorAt, size_cursorAt]
      exact h.read .blk)
  rw [candidates_cursorAt] at hblk
  rw [readBitmaps, run_get_bind, show bitsToRead s.indsCount = s.count .ind from h.bits .ind,
    show bitsToRead s.blksCount = s.count .blk from h.bits .blk, bind_done hind, bind_done hblk]

end State.BitmapsMapped

theorem cursorAt_bmap : ((s.cursorAt b (some k)).bmap b).CursorAt k := by
  cases b <;> exact ⟨rfl, rfl, rfl⟩

/-- Setting the cursor of the blocks leaves that of the inodes. -/
theorem indBmap_cursorAt_blk {o : Option Nat} : (s.cursorAt .blk o).indBmap = s.indBmap := by
  cases o <;> rfl

/-- `read_bitmaps` finds both numbers or reports that one is missing, exactly if there is a free inode,
or one free block alone. -/
theorem findsFirst_iff (h : s.BitmapsMapped) :
    FindsFirst s ↔ (s.available .ind).Nonempty ∨ ∃! k, k ∈ s.available .blk := by
  have hrun := fun found => @State.BitmapsMapped.run_readBitmaps s h found
  rw [existsUnique_available]
  cases hI : candidates s .ind 0 (s.count .ind) with
  | cons k ks =>
    have hleast := isLeast_available hI
    rw [hI] at hrun
    have hrun := hrun 0 rfl
    refine iff_of_true ?_ (.inl ⟨k, hleast.1⟩)
    cases hB : candidates s .blk 0 (s.count .blk) with
    | nil =>
      have hempty := available_eq_empty hB
      rw [hB] at hrun
      refine ⟨fun k₁ k₂ _ h₂ => ?_, fun _ => ⟨_, hrun⟩⟩
      rw [hempty] at h₂
      exact absurd h₂.1 (Set.notMem_empty _)
    | cons l ls =>
      have hleast' := isLeast_available hB
      rw [hB] at hrun
      refine ⟨fun k₁ k₂ h₁ h₂ => ?_, fun hnone => ?_⟩
      · obtain rfl := h₁.unique hleast
        obtain rfl := h₂.unique hleast'
        rw [if_neg (by simp)] at hrun
        refine ⟨_, hrun, ?_, cursorAt_bmap (b := .blk)⟩
        rw [indBmap_cursorAt_blk]
        exact cursorAt_bmap (b := .ind)
      · rcases hnone with hnone | hnone
        · exact absurd hleast.1 (hnone ▸ Set.notMem_empty _)
        · exact absurd hleast'.1 (hnone ▸ Set.notMem_empty _)
  | nil =>
    have hempty := available_eq_empty hI
    rw [hI] at hrun
    have hrun := hrun (-1) rfl
    -- Two blocks to find: the count ends at 0 only if there is one.
    have hzero : (-1 + min (1 - -1 : Int).toNat (candidates s .blk 0 (s.count .blk)).length : Int) = 0 ↔
        (candidates s .blk 0 (s.count .blk)).length = 1 := by
      have h2 : (1 - -1 : Int).toNat = 2 := rfl
      rw [h2]
      omega
    constructor
    · intro hfinds
      obtain ⟨s', hexit⟩ := hfinds.2 (.inl hempty)
      refine .inr (hzero.mp ?_)
      by_contra hne
      rw [hexit, if_neg hne] at hrun
      cases hrun
    · rintro (⟨k, hk⟩ | hone)
      · exact absurd hk (hempty ▸ Set.notMem_empty _)
      · rw [if_pos (hzero.mpr hone)] at hrun
        refine ⟨fun k₁ k₂ h₁ _ => ?_, fun _ => ⟨_, hrun⟩⟩
        exact absurd h₁.1 (hempty ▸ Set.notMem_empty _)

/-! ## Bitmaps of one byte after the other -/

/-- A tool on a disk that is all of one byte, with 32 inodes and 128 blocks. -/
def State.uniform (byte : Byte) : State :=
  { State.boot fun _ => byte with indsCount := 32, blksCount := 128 }

theorem bitmapsMapped_uniform {byte : Byte} : (State.uniform byte).BitmapsMapped where
  size := rfl
  mapped b := by cases b <;> simp [State.uniform, State.boot, State.count, State.bmap, Bitmap.zero]
  bytes b := by cases b <;> simp [State.uniform, State.count]

theorem findsFirst_uniform : FindsFirst (.uniform 0) :=
  (findsFirst_iff bitmapsMapped_uniform).mpr (.inl ⟨11, by decide, by decide, rfl⟩)

/-- With both bitmaps full, `read_bitmaps` reports nothing. -/
theorem not_findsFirst_uniform : ¬FindsFirst (.uniform 0xFF) := by
  intro h
  have hempty : (State.uniform 0xFF).available .ind = ∅ := available_eq_empty (by decide)
  obtain ⟨s', hexit⟩ := h.2 (.inl hempty)
  have hrun : ∃ s'', readBitmaps.run (.uniform 0xFF) = .done () s'' := ⟨_, rfl⟩
  obtain ⟨s'', hrun⟩ := hrun
  rw [hexit] at hrun
  cases hrun

end Ext2

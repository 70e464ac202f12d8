-- SUMMARY: The other operations of the bitmap, and its runs: an index is handed out once, as long as it is not given back.
import Mathlib.Data.Finset.Basic
import OperatingSystems.Paging.Bitmap

/-!
# Slots

`bitmap_alloc` chooses an index, `bitmap_mark` and `bitmap_unmark` are told one. Over any sequence
of them the bits below `nbits` are the indices that are allocated, and those past it stay set.
-/

namespace Paging

open Library.Run

/-! ## The code -/

/-- `bitmap_translate`: the word of a bit, and the mask in it. -/
def bitmapTranslate (bitno : Nat) : Nat × Word :=
  (bitno / BITS_PER_WORD, mask (bitno % BITS_PER_WORD))

/-- `bitmap_mark`. -/
def bitmapMark (b : Bitmap) (index : Nat) : Except Fault Bitmap := do
  need (index < b.nbits) .assertion
  let (ix, mask) := bitmapTranslate index
  need (ix < b.v.length) .outOfBounds
  need (b.word ix &&& mask = 0) .assertion
  .ok { b with v := b.v.set ix (b.word ix ||| mask) }

/-- `bitmap_unmark`. -/
def bitmapUnmark (b : Bitmap) (index : Nat) : Except Fault Bitmap := do
  need (index < b.nbits) .assertion
  let (ix, mask) := bitmapTranslate index
  need (ix < b.v.length) .outOfBounds
  need (b.word ix &&& mask ≠ 0) .assertion
  .ok { b with v := b.v.set ix (b.word ix &&& ~~~mask) }

/-- `bitmap_isset`: the masked word, as the `int` it is returned in. The index is not checked. -/
def bitmapIsset (b : Bitmap) (index : Nat) : Except Fault Int := do
  let (ix, mask) := bitmapTranslate index
  need (ix < b.v.length) .outOfBounds
  .ok (b.word ix &&& mask).toInt

/-! ## Single operations -/

namespace Bitmap

variable {b : Bitmap} {i j : Nat}

/-- Clear the bit of an index. -/
def release (b : Bitmap) (k : Nat) : Bitmap :=
  { b with v := b.v.set (k / 32) (b.word (k / 32) &&& ~~~mask (k % 32)) }

@[simp] theorem nbits_release : (b.release i).nbits = b.nbits := rfl

@[simp] theorem length_release : (b.release i).v.length = b.v.length := by simp [release]

theorem isset_release (hi : i < 32 * b.v.length) :
    (b.release i).isset j = (b.isset j && !decide (j = i)) := by
  have hlt : i / 32 < b.v.length := by omega
  have hj32 : j % 32 < 32 := Nat.mod_lt _ (by omega)
  simp only [isset, release, word, List.getD_eq_getElem?_getD, List.getElem?_set, hlt]
  by_cases hw : i / 32 = j / 32
  · have hji : (j % 32 = i % 32) ↔ j = i := by omega
    have hi32 : i % 32 < 32 := Nat.mod_lt _ (by omega)
    simp [← hw, -BitVec.getLsbD_eq_getElem, getLsbD_mask, hi32, hj32, hji]
  · have hne : j ≠ i := by
      rintro rfl
      exact hw rfl
    simp [hw, hne]

theorem WellFormed.release (h : b.WellFormed) (hi : i < b.nbits) (hcap : i < 32 * b.v.length) :
    (b.release i).WellFormed where
  nbits_lt := h.nbits_lt
  length := by simpa using h.length
  leftover j h1 h2 := by
    rw [nbits_release] at h1
    have hne : j ≠ i := by omega
    rw [isset_release hcap, h.leftover j h1 (by simpa using h2)]
    simp [hne]

/-- The test of a bit by its mask. -/
theorem and_translate_eq_zero :
    (b.word (bitmapTranslate i).1 &&& (bitmapTranslate i).2 = 0) ↔ b.isset i = false :=
  and_mask_eq_zero (Nat.mod_lt i (by decide : 0 < BITS_PER_WORD))

theorem bitmapMark_eq (hi : i < b.nbits) (hcap : i < 32 * b.v.length) (hclear : b.isset i = false) :
    bitmapMark b i = .ok (b.take i) := by
  have hix : (bitmapTranslate i).1 < b.v.length := by
    simp only [bitmapTranslate, BITS_PER_WORD]
    omega
  simp only [bitmapMark, need_of hi, need_of hix, need_of (and_translate_eq_zero.mpr hclear), ok_bind]
  rfl

theorem bitmapUnmark_eq (hi : i < b.nbits) (hcap : i < 32 * b.v.length) (hset : b.isset i) :
    bitmapUnmark b i = .ok (b.release i) := by
  have hix : (bitmapTranslate i).1 < b.v.length := by
    simp only [bitmapTranslate, BITS_PER_WORD]
    omega
  have hne : b.word (bitmapTranslate i).1 &&& (bitmapTranslate i).2 ≠ 0 := by
    rw [ne_eq, and_translate_eq_zero, hset]
    simp
  simp only [bitmapUnmark, need_of hi, need_of hix, need_of hne, ok_bind]
  rfl

theorem bitmapIsset_spec (hcap : i < 32 * b.v.length) :
    ∃ r, bitmapIsset b i = .ok r ∧ (r ≠ 0 ↔ b.isset i) := by
  have hix : (bitmapTranslate i).1 < b.v.length := by
    simp only [bitmapTranslate, BITS_PER_WORD]
    omega
  refine ⟨(b.word (bitmapTranslate i).1 &&& (bitmapTranslate i).2).toInt, ?_, ?_⟩
  · simp only [bitmapIsset, need_of hix, ok_bind]
  · have hzero := (and_translate_eq_zero (b := b) (i := i)).not
    rw [Bool.not_eq_false] at hzero
    rw [← hzero, ne_eq, ← BitVec.toInt_zero, BitVec.toInt_inj]
    rfl

end Bitmap

/-! ## Runs -/

/-- The maps that the operations lead to, each with the indices that are allocated in it:
`bitmap_alloc` allocates the index that it returns, `bitmap_mark` the one it is given, and
`bitmap_unmark` gives one back. -/
inductive Allocated (nbits : Nat) : Bitmap → Finset Nat → Prop
  | create {b : Bitmap} : bitmapCreate nbits = .ok b → Allocated nbits b ∅
  | alloc {b b' : Bitmap} {A : Finset Nat} {k : Nat} : Allocated nbits b A →
      bitmapAlloc b = .ok (some (k, b')) → Allocated nbits b' (insert k A)
  | mark {b b' : Bitmap} {A : Finset Nat} {i : Nat} : Allocated nbits b A → i < nbits → i ∉ A →
      bitmapMark b i = .ok b' → Allocated nbits b' (insert i A)
  | unmark {b b' : Bitmap} {A : Finset Nat} {i : Nat} : Allocated nbits b A → i < nbits → i ∈ A →
      bitmapUnmark b i = .ok b' → Allocated nbits b' (A.erase i)

/-- The map has just the bits of the allocated indices set, and the leftover ones. -/
structure Bitmap.Holds (b : Bitmap) (nbits : Nat) (A : Finset Nat) : Prop where
  wellFormed : b.WellFormed
  size : b.nbits = nbits
  room : nbits ≤ 32 * b.v.length
  isset : ∀ i < nbits, b.isset i ↔ i ∈ A

namespace Bitmap.Holds

variable {b b' : Bitmap} {nbits i k : Nat} {A : Finset Nat}

theorem create (hn : nbits ≤ 2 ^ 32 - 32) :
    ∃ b, bitmapCreate nbits = .ok b ∧ b.Holds nbits ∅ := by
  obtain ⟨b, hb, hwf, hnbits, hclear⟩ := bitmapCreate_spec (show nbits < 2 ^ 32 by omega)
  have hroom := hwf.nbits_le (by omega)
  refine ⟨b, hb, hwf, hnbits, hnbits ▸ hroom, ?_⟩
  intro i hi
  simp [hclear i hi]

theorem take (h : b.Holds nbits A) (hk : k < nbits) : (b.take k).Holds nbits (insert k A) := by
  have hcap : k < 32 * b.v.length := lt_of_lt_of_le hk h.room
  refine ⟨h.wellFormed.take hcap, h.size, by simpa using h.room, ?_⟩
  intro i hi
  rw [isset_take hcap, Bool.or_eq_true, h.isset i hi, decide_eq_true_iff, Finset.mem_insert, or_comm]

theorem release (h : b.Holds nbits A) (hi : i < nbits) : (b.release i).Holds nbits (A.erase i) := by
  have hcap : i < 32 * b.v.length := lt_of_lt_of_le hi h.room
  refine ⟨h.wellFormed.release (h.size.symm ▸ hi) hcap, h.size, by simpa using h.room, ?_⟩
  intro j hj
  rw [isset_release hcap, Bool.and_eq_true, h.isset j hj, Finset.mem_erase]
  simp [and_comm]

/-- An allocation takes the lowest index that is not allocated, or finds all allocated. -/
theorem alloc (h : b.Holds nbits A) :
    (bitmapAlloc b = .ok none ∧ ∀ i < nbits, i ∈ A) ∨
    ∃ k, bitmapAlloc b = .ok (some (k, b.take k)) ∧ k < nbits ∧ k ∉ A ∧ ∀ i < k, i ∈ A := by
  rcases bitmapAlloc_spec h.wellFormed with ⟨hnone, hall⟩ | ⟨k, hsome, hk, _, hclear, hlow⟩
  · exact .inl ⟨hnone, fun i hi => (h.isset i hi).mp (hall i (lt_of_lt_of_le hi h.room))⟩
  · rw [h.size] at hk
    refine .inr ⟨k, hsome, hk, ?_, fun i hi => (h.isset i (hi.trans hk)).mp (hlow i hi)⟩
    rw [← h.isset k hk, hclear]
    simp

theorem mark (h : b.Holds nbits A) (hi : i < nbits) (hA : i ∉ A) :
    bitmapMark b i = .ok (b.take i) := by
  refine bitmapMark_eq (h.size.symm ▸ hi) (lt_of_lt_of_le hi h.room) ?_
  rw [← Bool.not_eq_true, h.isset i hi]
  exact hA

theorem unmark (h : b.Holds nbits A) (hi : i < nbits) (hA : i ∈ A) :
    bitmapUnmark b i = .ok (b.release i) :=
  bitmapUnmark_eq (h.size.symm ▸ hi) (lt_of_lt_of_le hi h.room) ((h.isset i hi).mpr hA)

end Bitmap.Holds

/-- Every run of the operations keeps the bits and the allocated indices together. -/
theorem Allocated.holds {nbits : Nat} {b : Bitmap} {A : Finset Nat} (hn : nbits ≤ 2 ^ 32 - 32)
    (h : Allocated nbits b A) : b.Holds nbits A := by
  induction h with
  | create hb =>
    obtain ⟨b', hb', hholds⟩ := Bitmap.Holds.create hn
    cases hb.symm.trans hb'
    exact hholds
  | alloc _ halloc ih =>
    rcases ih.alloc with ⟨hnone, _⟩ | ⟨k, hsome, hk, _⟩
    · cases halloc.symm.trans hnone
    · cases halloc.symm.trans hsome
      exact ih.take hk
  | mark _ hi hA hmark ih =>
    cases hmark.symm.trans (ih.mark hi hA)
    exact ih.take hi
  | unmark _ hi hA hunmark ih =>
    cases hunmark.symm.trans (ih.unmark hi hA)
    exact ih.release hi

/-- What the operations do in a map with these indices allocated. -/
structure HandsOut (nbits : Nat) (b : Bitmap) (A : Finset Nat) : Prop where
  alloc : (bitmapAlloc b = .ok none ∧ ∀ i < nbits, i ∈ A) ∨
    ∃ k b', bitmapAlloc b = .ok (some (k, b')) ∧ k < nbits ∧ k ∉ A ∧ (∀ i < k, i ∈ A) ∧
      ∀ j, b'.isset j = (b.isset j || decide (j = k))
  mark : ∀ i < nbits, i ∉ A → ∃ b', bitmapMark b i = .ok b' ∧
    ∀ j, b'.isset j = (b.isset j || decide (j = i))
  unmark : ∀ i < nbits, i ∈ A → ∃ b', bitmapUnmark b i = .ok b' ∧
    ∀ j, b'.isset j = (b.isset j && !decide (j = i))
  isset : ∀ i < nbits, ∃ r, bitmapIsset b i = .ok r ∧ (r ≠ 0 ↔ i ∈ A)

theorem Bitmap.Holds.handsOut {nbits : Nat} {b : Bitmap} {A : Finset Nat} (h : b.Holds nbits A) :
    HandsOut nbits b A where
  alloc := by
    refine h.alloc.imp_right ?_
    rintro ⟨k, hsome, hk, hA, hlow⟩
    exact ⟨k, _, hsome, hk, hA, hlow, fun j => isset_take (lt_of_lt_of_le hk h.room)⟩
  mark i hi hA := ⟨_, h.mark hi hA, fun j => isset_take (lt_of_lt_of_le hi h.room)⟩
  unmark i hi hA := ⟨_, h.unmark hi hA, fun j => isset_release (lt_of_lt_of_le hi h.room)⟩
  isset i hi := by
    obtain ⟨r, hr, hiff⟩ := bitmapIsset_spec (b := b) (lt_of_lt_of_le hi h.room)
    exact ⟨r, hr, hiff.trans (h.isset i hi)⟩

/-- Whatever its size, the bitmap hands out each index once, in every state that a sequence of
operations leads to. -/
theorem allocated_handsOut {nbits : Nat} (hn : 1 ≤ nbits ∧ nbits ≤ 2 ^ 32 - 32) :
    (∃ b, bitmapCreate nbits = .ok b) ∧ ∀ b A, Allocated nbits b A → HandsOut nbits b A := by
  obtain ⟨b, hb, _⟩ := Bitmap.Holds.create hn.2
  exact ⟨⟨b, hb⟩, fun b A h => (h.holds hn.2).handsOut⟩

/-- A size with leftover bits. -/
theorem allocated_handsOut_33 :
    (∃ b, bitmapCreate 33 = .ok b) ∧ ∀ b A, Allocated 33 b A → HandsOut 33 b A :=
  allocated_handsOut (by decide)

end Paging

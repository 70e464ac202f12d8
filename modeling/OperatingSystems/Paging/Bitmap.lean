-- SUMMARY: The swap map: a bitmap kept in 32-bit words, and the slot that an allocation hands out.
import OperatingSystems.Library.Run
import OperatingSystems.Paging.Entry

/-!
# The bitmap of the swap file

One bit for each slot of the swap file, set while the slot is taken. The last word may have bits
past the end of the map; they are set once and for all, so that no allocation finds them free.
-/

namespace Paging

open Library.Run

/-- The ways in which the simulator can stop short: a failed `assert`, a null pointer
dereferenced, an access outside an array, a loop that does not end. -/
inductive Fault where
  | assertion
  | nullPointer
  | outOfBounds
  | outOfFuel
deriving DecidableEq, Repr

/-- Go on only if the condition holds. -/
def need (c : Prop) [Decidable c] (e : Fault) : Except Fault Unit :=
  if c then .ok () else .error e

theorem need_of {c : Prop} [Decidable c] {e : Fault} (h : c) : need c e = .ok () := if_pos h

theorem need_of_not {c : Prop} [Decidable c] {e : Fault} (h : ¬c) : need c e = .error e := if_neg h

theorem of_need {c : Prop} [Decidable c] {e : Fault} {r : Unit} (h : need c e = .ok r) : c := by
  by_contra hc
  rw [need_of_not hc] at h
  cases h

/-! ## The code -/

def BITS_PER_WORD : Nat := 32
def WORD_ALLBITS : Word := 0xffffffff

/-- `DIVROUNDUP`, whose sum is taken in an unsigned int. -/
def divRoundUp (a b : Nat) : Nat := ((a + b - 1) % 2 ^ 32) / b

structure Bitmap where
  nbits : Nat
  v : List Word
deriving DecidableEq, Repr

/-- `((unsigned)1) << offset`. -/
def mask (offset : Nat) : Word := 1 <<< offset

/-- The loop of `bitmap_create` over the bits of the last word that lie past the end. -/
def markLeftover (overbits : Nat) (w : Word) : Word :=
  (List.range' overbits (BITS_PER_WORD - overbits)).foldl (fun w j => w ||| mask j) w

/-- `bitmap_create`, with memory for it found. For zero words `malloc` still gives a pointer. -/
def bitmapCreate (nbits : Nat) : Except Fault Bitmap := do
  let words := divRoundUp nbits BITS_PER_WORD
  let v := List.replicate words (0 : Word)
  if words > nbits / BITS_PER_WORD then
    let ix := words - 1
    let overbits := nbits - ix * BITS_PER_WORD
    need (nbits / BITS_PER_WORD = words - 1) .assertion
    need (overbits > 0 ∧ overbits < BITS_PER_WORD) .assertion
    .ok { nbits, v := v.modify ix (markLeftover overbits) }
  -- No bits are left over. Near 2^32 this is also the case of a count of words that has wrapped.
  else .ok { nbits, v }

namespace Bitmap

/-- `v[ix]`. -/
def word (b : Bitmap) (ix : Nat) : Word := b.v.getD ix 0

/-- `v[ix] |= mask`, for the mask of one bit. -/
def mark (b : Bitmap) (ix offset : Nat) : Bitmap :=
  { b with v := b.v.set ix (b.word ix ||| mask offset) }

end Bitmap

/-- `bitmap_alloc`: the index of the bit set, with the new map, or nothing where it returns 1. -/
def bitmapAlloc (b : Bitmap) : Except Fault (Option (Nat × Bitmap)) :=
  let maxix := divRoundUp b.nbits BITS_PER_WORD
  match (List.range maxix).find? (fun ix => b.word ix ≠ WORD_ALLBITS) with
  | none => .ok none
  | some ix =>
    match (List.range BITS_PER_WORD).find? (fun offset => b.word ix &&& mask offset = 0) with
    -- The word has a clear bit, so `assert(0)` is not reached.
    | none => .error .assertion
    | some offset => do
      let index := ix * BITS_PER_WORD + offset
      need (index < b.nbits) .assertion
      .ok (some (index, b.mark ix offset))

namespace Bitmap

/-! ## Bits -/

/-- Whether the bit of an index is set. -/
def isset (b : Bitmap) (k : Nat) : Bool := (b.word (k / 32)).getLsbD (k % 32)

/-- Set the bit of an index. -/
def take (b : Bitmap) (k : Nat) : Bitmap := b.mark (k / 32) (k % 32)

variable {b : Bitmap} {k j : Nat}

@[simp] theorem nbits_take : (b.take k).nbits = b.nbits := rfl

@[simp] theorem length_take : (b.take k).v.length = b.v.length := by simp [take, mark]

theorem mask_eq (offset : Nat) : mask offset = BitVec.twoPow 32 offset := rfl

theorem getLsbD_mask (offset j : Nat) :
    (mask offset).getLsbD j = (decide (offset < 32) && decide (j = offset)) := by
  rw [mask_eq, BitVec.getLsbD_twoPow]
  grind

theorem isset_take (hk : k < 32 * b.v.length) : (b.take k).isset j = (b.isset j || decide (j = k)) := by
  have hlt : k / 32 < b.v.length := by omega
  simp only [isset, take, mark, word, List.getD_eq_getElem?_getD, List.getElem?_set, hlt]
  by_cases hw : k / 32 = j / 32
  · have hjk : (j % 32 = k % 32) ↔ j = k := by omega
    have hk32 : k % 32 < 32 := Nat.mod_lt _ (by omega)
    simp [← hw, -BitVec.getLsbD_eq_getElem, getLsbD_mask, hk32, hjk]
  · have hne : j ≠ k := by rintro rfl; exact hw rfl
    simp [hw, hne]

/-! ## Maps that are in order -/

/-- What every function of the bitmap keeps. -/
structure WellFormed (b : Bitmap) : Prop where
  nbits_lt : b.nbits < 2 ^ 32
  length : b.v.length = divRoundUp b.nbits BITS_PER_WORD
  leftover : ∀ k, b.nbits ≤ k → k < 32 * b.v.length → b.isset k

theorem WellFormed.take (h : b.WellFormed) (hk : k < 32 * b.v.length) : (b.take k).WellFormed where
  nbits_lt := h.nbits_lt
  length := by simpa using h.length
  leftover j h1 h2 := by
    rw [isset_take hk, h.leftover j h1 (by simpa using h2), Bool.true_or]

theorem divRoundUp_bits {n : Nat} (h : n + 31 < 2 ^ 32) : divRoundUp n BITS_PER_WORD = (n + 31) / 32 := by
  simp only [divRoundUp, BITS_PER_WORD]
  omega

theorem divRoundUp_le (n : Nat) : divRoundUp n BITS_PER_WORD ≤ n / 32 + 1 := by
  simp only [divRoundUp, BITS_PER_WORD]
  omega

/-- The map has a word for each of its bits, unless the count of words wrapped to zero. -/
theorem WellFormed.nbits_le (h : b.WellFormed) (hsize : b.nbits + 31 < 2 ^ 32) :
    b.nbits ≤ 32 * b.v.length := by
  rw [h.length, divRoundUp_bits hsize]
  omega

/-! ## Creating a map -/

theorem getLsbD_markLeftover {overbits j : Nat} (h : overbits ≤ 32) (w : Word) (hj : j < 32) :
    (markLeftover overbits w).getLsbD j = (w.getLsbD j || decide (overbits ≤ j)) := by
  have hloop : ∀ n i w, i + n ≤ 32 →
      ((List.range' i n).foldl (fun w j => w ||| mask j) w).getLsbD j =
        (w.getLsbD j || decide (i ≤ j ∧ j < i + n)) := by
    intro n
    induction n with
    | zero => intro i w _; simp [show ¬(i ≤ j ∧ j < i) by omega]
    | succ n ih =>
      intro i w hi
      rw [List.range'_succ, List.foldl_cons, ih (i + 1) _ (by omega), BitVec.getLsbD_or,
        getLsbD_mask, Bool.or_assoc]
      congr 1
      grind
  rw [markLeftover, hloop _ _ _ (by simp [BITS_PER_WORD]; omega)]
  have hrange : (overbits ≤ j ∧ j < overbits + (32 - overbits)) ↔ overbits ≤ j := by omega
  simp only [BITS_PER_WORD, hrange]

/-- The last word of a map whose size is not a whole number of words. -/
theorem isset_modify {nbits words ix overbits k : Nat} (hix : ix < words) (ho : overbits ≤ 32) :
    isset ⟨nbits, (List.replicate words 0).modify ix (markLeftover overbits)⟩ k =
      (decide (k / 32 = ix) && decide (overbits ≤ k % 32)) := by
  have hmod : k % 32 < 32 := Nat.mod_lt _ (by omega)
  simp only [isset, word, List.getD_eq_getElem?_getD, List.getElem?_modify, List.getElem?_replicate]
  by_cases hk : ix = k / 32
  · subst hk
    simp only [hix, if_true, Option.map_eq_map, Option.map_some, Option.getD_some,
      getLsbD_markLeftover ho _ hmod]
    simp
  · have hk' : k / 32 ≠ ix := fun h => hk h.symm
    simp only [hk, hk', if_false]
    split <;> simp

/-- A new map is in order and all of its bits are clear. -/
theorem bitmapCreate_spec {nbits : Nat} (hn : nbits < 2 ^ 32) :
    ∃ b, bitmapCreate nbits = .ok b ∧ b.WellFormed ∧ b.nbits = nbits ∧
      ∀ k < nbits, b.isset k = false := by
  have hle := divRoundUp_le nbits
  by_cases hw : divRoundUp nbits BITS_PER_WORD > nbits / BITS_PER_WORD
  · have hwords : divRoundUp nbits BITS_PER_WORD = nbits / 32 + 1 := by
      simp only [BITS_PER_WORD] at hw hle ⊢
      omega
    have hover : 0 < nbits % 32 := by
      simp only [divRoundUp, BITS_PER_WORD] at hwords
      omega
    have hov : nbits - nbits / 32 * 32 = nbits % 32 := by omega
    have hmod : nbits % 32 < 32 := Nat.mod_lt _ (by omega)
    refine ⟨⟨nbits, (List.replicate (nbits / 32 + 1) 0).modify (nbits / 32)
      (markLeftover (nbits % 32))⟩, ?_, ⟨hn, ?_, ?_⟩, rfl, ?_⟩
    · simp only [bitmapCreate]
      rw [if_pos hw, hwords, need_of (by simp [BITS_PER_WORD]), ok_bind,
        need_of (by simp [BITS_PER_WORD]; omega), ok_bind]
      simp [BITS_PER_WORD, hov]
    · simp [hwords]
    · intro k h1 h2
      change nbits ≤ k at h1
      simp only [List.length_modify, List.length_replicate] at h2
      rw [isset_modify (by omega) (by omega), Bool.and_eq_true, decide_eq_true_iff,
        decide_eq_true_iff]
      omega
    · intro k hk
      rw [isset_modify (by omega) (by omega), Bool.and_eq_false_iff, decide_eq_false_iff_not,
        decide_eq_false_iff_not]
      omega
  · refine ⟨⟨nbits, List.replicate (divRoundUp nbits BITS_PER_WORD) 0⟩, ?_, ⟨hn, ?_, ?_⟩, rfl, ?_⟩
    · simp only [bitmapCreate]
      rw [if_neg hw]
    · exact List.length_replicate
    · intro k h1 h2
      change nbits ≤ k at h1
      rw [List.length_replicate] at h2
      simp only [BITS_PER_WORD] at h2 hw
      omega
    · intro k _
      simp only [isset, word, List.getD_eq_getElem?_getD, List.getElem?_replicate]
      split <;> simp

/-! ## Taking a bit -/

theorem exists_clear_of_ne {w : Word} (h : w ≠ WORD_ALLBITS) : ∃ j < 32, w.getLsbD j = false := by
  by_contra hall
  apply h
  apply BitVec.eq_of_getLsbD_eq
  intro j hj
  have hset : w.getLsbD j = true := by
    by_contra hclear
    exact hall ⟨j, hj, by simpa using hclear⟩
  have hones : WORD_ALLBITS = BitVec.allOnes 32 := by decide
  rw [hset, hones, BitVec.getLsbD_allOnes]
  simp [hj]

theorem and_mask_eq_zero {w : Word} {offset : Nat} (h : offset < 32) :
    (w &&& mask offset = 0) ↔ w.getLsbD offset = false := by
  rw [mask_eq, ← not_iff_not, Bool.not_eq_false]
  exact PgtblEntry.and_twoPow_ne_zero h

theorem isset_of_word_eq (h : b.word (k / 32) = WORD_ALLBITS) : b.isset k := by
  have hones : WORD_ALLBITS = BitVec.allOnes 32 := by decide
  have hmod : k % 32 < 32 := Nat.mod_lt _ (by omega)
  rw [isset, h, hones, BitVec.getLsbD_allOnes]
  simpa using hmod

/-- An allocation finds every bit set, or takes the lowest clear bit. -/
theorem bitmapAlloc_spec (h : b.WellFormed) :
    (bitmapAlloc b = .ok none ∧ ∀ k < 32 * b.v.length, b.isset k) ∨
    ∃ k, bitmapAlloc b = .ok (some (k, b.take k)) ∧ k < b.nbits ∧ k < 32 * b.v.length ∧
      b.isset k = false ∧ ∀ j < k, b.isset j := by
  simp only [bitmapAlloc, ← h.length]
  cases hix : (List.range b.v.length).find? (fun ix => b.word ix ≠ WORD_ALLBITS) with
  | none =>
    left
    refine ⟨rfl, ?_⟩
    intro k hk
    rw [List.find?_range_eq_none] at hix
    have hword : b.word (k / 32) = WORD_ALLBITS := by simpa using hix (k / 32) (by omega)
    exact isset_of_word_eq hword
  | some ix =>
    right
    rw [List.find?_range_eq_some] at hix
    obtain ⟨hne, hlt, hbefore⟩ := hix
    obtain ⟨j, hj, hclear⟩ := exists_clear_of_ne (by simpa using hne)
    cases hoff : (List.range BITS_PER_WORD).find? (fun o => b.word ix &&& mask o = 0) with
    | none =>
      rw [List.find?_range_eq_none] at hoff
      have := hoff j hj
      simp only [and_mask_eq_zero hj, hclear] at this
      simp at this
    | some offset =>
      obtain ⟨hzero, hoff32, hlow⟩ := List.find?_range_eq_some.mp hoff
      simp only [List.mem_range, BITS_PER_WORD] at hlt hoff32
      have hdiv : (ix * 32 + offset) / 32 = ix := by omega
      have hmod : (ix * 32 + offset) % 32 = offset := by omega
      have hunset : b.isset (ix * 32 + offset) = false := by
        rw [isset, hdiv, hmod]
        rwa [decide_eq_true_iff, and_mask_eq_zero hoff32] at hzero
      have hcap : ix * 32 + offset < 32 * b.v.length := by omega
      have hbound : ix * 32 + offset < b.nbits := by
        by_contra hge
        rw [h.leftover _ (by omega) hcap] at hunset
        cases hunset
      refine ⟨ix * 32 + offset, ?_, hbound, hcap, hunset, ?_⟩
      · have hneed := need_of (e := .assertion) (show ix * BITS_PER_WORD + offset < b.nbits from hbound)
        simp only [hoff, hneed, ok_bind, take, hdiv, hmod]
        rfl
      · intro k hk
        by_cases hw : k / 32 = ix
        · have hk32 : k % 32 < 32 := Nat.mod_lt _ (by omega)
          have hset := hlow (k % 32) (by omega)
          rw [Bool.not_eq_true', decide_eq_false_iff_not, and_mask_eq_zero hk32] at hset
          rw [isset, hw]
          simpa using hset
        · have hword : b.word (k / 32) = WORD_ALLBITS := by simpa using hbefore (k / 32) (by omega)
          exact isset_of_word_eq hword

end Bitmap

end Paging

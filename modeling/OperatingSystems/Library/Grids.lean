-- SUMMARY: Square matrices in arrays: layouts, what an array stores, and regions filled cell by cell.
import Mathlib.Algebra.BigOperators.Fin
import Mathlib.Data.Fintype.Prod
import Mathlib.Data.Matrix.Mul
import OperatingSystems.Library.Run

/-!
# Grids

A square matrix is kept in an array. A layout says where each cell is, and the array stores a matrix
under it. What a program does to the array, cell by cell, is then said of the matrix.
-/

namespace Library

/-! ## Indices -/

namespace Grids

variable {i j i' j' m n b : Nat}

theorem flat_lt (hi : i < m) (hj : j < n) : i * n + j < m * n :=
  calc i * n + j < i * n + n := Nat.add_lt_add_left hj _
    _ = (i + 1) * n := (Nat.succ_mul i n).symm
    _ ≤ m * n := Nat.mul_le_mul_right n hi

theorem flat_div (hj : j < n) : (i * n + j) / n = i := by
  rw [Nat.mul_comm, Nat.mul_add_div (Nat.zero_lt_of_lt hj), Nat.div_eq_of_lt hj, Nat.add_zero]

theorem flat_mod (hj : j < n) : (i * n + j) % n = j := by
  rw [Nat.mul_comm, Nat.mul_add_mod, Nat.mod_eq_of_lt hj]

theorem flat_inj (hj : j < n) (hj' : j' < n) (h : i * n + j = i' * n + j') : i = i' ∧ j = j' := by
  constructor
  · rw [← flat_div (i := i) hj, h, flat_div hj']
  · rw [← flat_mod (i := i) hj, h, flat_mod hj']

end Grids

open Grids

/-! ## Layouts -/

/-- Where the cells of an `n` by `n` matrix are in an array of `n * n`. -/
structure Layout (n : Nat) where
  place : Nat → Nat → Nat
  place_lt : ∀ {i j : Nat}, i < n → j < n → place i j < n * n
  place_inj : ∀ {i j i' j' : Nat}, i < n → j < n → i' < n → j' < n → place i j = place i' j' →
    i = i' ∧ j = j'

namespace Layout

variable {α : Type} {n m b : Nat} {l : Layout n} {xs ys : List α} {X Y : Nat → Nat → α} {i j : Nat}

/-- Row after row. -/
def rowMajor (n : Nat) : Layout n where
  place i j := i * n + j
  place_lt hi hj := flat_lt hi hj
  place_inj _ hj _ hj' h := flat_inj hj hj' h

/-- Block after block, `m` in a row, and each block row after row. -/
def blocks (m b : Nat) : Layout (m * b) where
  place i j := (i / b * m + j / b) * (b * b) + (i % b * b + j % b)
  place_lt {i j} hi hj := by
    have hb : 0 < b := Nat.pos_of_mul_pos_left (Nat.zero_lt_of_lt hi)
    have hblock : i / b * m + j / b < m * m :=
      flat_lt (Nat.div_lt_of_lt_mul (Nat.mul_comm m b ▸ hi)) (Nat.div_lt_of_lt_mul (Nat.mul_comm m b ▸ hj))
    have hcell : i % b * b + j % b < b * b := flat_lt (Nat.mod_lt i hb) (Nat.mod_lt j hb)
    calc _ < m * m * (b * b) := flat_lt hblock hcell
      _ = m * b * (m * b) := Nat.mul_mul_mul_comm m m b b
  place_inj {i j i' j'} hi hj hi' hj' h := by
    have hb : 0 < b := Nat.pos_of_mul_pos_left (Nat.zero_lt_of_lt hi)
    have hlt : ∀ {k : Nat}, k < m * b → k / b < m := fun hk =>
      Nat.div_lt_of_lt_mul (Nat.mul_comm m b ▸ hk)
    obtain ⟨hblock, hcell⟩ := flat_inj (flat_lt (Nat.mod_lt i hb) (Nat.mod_lt j hb))
      (flat_lt (Nat.mod_lt i' hb) (Nat.mod_lt j' hb)) h
    obtain ⟨hdiv, hdiv'⟩ := flat_inj (hlt hj) (hlt hj') hblock
    obtain ⟨hmod, hmod'⟩ := flat_inj (Nat.mod_lt j hb) (Nat.mod_lt j' hb) hcell
    exact ⟨by rw [← Nat.div_add_mod i b, hdiv, hmod, Nat.div_add_mod],
      by rw [← Nat.div_add_mod j b, hdiv', hmod', Nat.div_add_mod]⟩

/-- The place of a cell that is given by its block and by its row and column there. -/
theorem blocks_place {ib jb : Nat} (hi : i < b) (hj : j < b) :
    (blocks m b).place (ib * b + i) (jb * b + j) = (ib * m + jb) * (b * b) + (i * b + j) := by
  simp only [blocks, flat_div hi, flat_div hj, flat_mod hi, flat_mod hj]

/-- Every index is the place of a cell, as there are as many cells as indices. -/
theorem exists_place (l : Layout n) {p : Nat} (hp : p < n * n) :
    ∃ i < n, ∃ j < n, l.place i j = p := by
  let f : Fin n × Fin n → Fin (n * n) := fun c => ⟨l.place c.1 c.2, l.place_lt c.1.2 c.2.2⟩
  have hinj : Function.Injective f := by
    intro c d h
    obtain ⟨hi, hj⟩ := l.place_inj c.1.2 c.2.2 d.1.2 d.2.2 (congrArg Fin.val h)
    exact Prod.ext (Fin.ext hi) (Fin.ext hj)
  have hbij : Function.Bijective f := (Fintype.bijective_iff_injective_and_card f).mpr
    ⟨hinj, by rw [Fintype.card_prod, Fintype.card_fin, Fintype.card_fin]⟩
  obtain ⟨⟨i, j⟩, hc⟩ := hbij.surjective ⟨p, hp⟩
  exact ⟨i, i.2, j, j.2, congrArg Fin.val hc⟩

/-! ## What an array stores -/

/-- The array has the cells of the matrix, each in its place. -/
structure Stores (l : Layout n) (xs : List α) (X : Nat → Nat → α) : Prop where
  length : xs.length = n * n
  cell : ∀ {i j : Nat}, i < n → j < n → xs[l.place i j]? = some (X i j)

/-- A matrix with one cell replaced. -/
def update (X : Nat → Nat → α) (i j : Nat) (a : α) : Nat → Nat → α :=
  fun r c => if r = i ∧ c = j then a else X r c

theorem update_self (X : Nat → Nat → α) (i j : Nat) : update X i j (X i j) = X := by
  funext r c
  by_cases h : r = i ∧ c = j
  · rw [update, if_pos h, h.1, h.2]
  · exact if_neg h

theorem update_twice (X : Nat → Nat → α) (i j : Nat) (a a' : α) :
    update (update X i j a) i j a' = update X i j a' := by
  funext r c
  simp only [update]
  split_ifs <;> rfl

theorem update_cell (X : Nat → Nat → α) (i j : Nat) (a : α) : update X i j a i j = a :=
  if_pos ⟨rfl, rfl⟩

/-- An array that has the length for it stores some matrix. -/
theorem exists_stores (l : Layout n) (hlength : xs.length = n * n) (a : α) : ∃ X, l.Stores xs X := by
  refine ⟨fun i j => xs[l.place i j]?.getD a, hlength, fun hi hj => ?_⟩
  rw [List.getElem?_eq_getElem (hlength ▸ l.place_lt hi hj), Option.getD_some]

namespace Stores

theorem congr (h : l.Stores xs X) (heq : ∀ i < n, ∀ j < n, X i j = Y i j) : l.Stores xs Y where
  length := h.length
  cell hi hj := heq _ hi _ hj ▸ h.cell hi hj

theorem place_lt (h : l.Stores xs X) (hi : i < n) (hj : j < n) : l.place i j < xs.length :=
  h.length ▸ l.place_lt hi hj

/-- An array is determined by the matrix. -/
theorem unique (h : l.Stores xs X) (h' : l.Stores ys X) : xs = ys := by
  refine List.ext_getElem? fun p => ?_
  rcases Nat.lt_or_ge p (n * n) with hp | hp
  · obtain ⟨i, hi, j, hj, rfl⟩ := l.exists_place hp
    rw [h.cell hi hj, h'.cell hi hj]
  · rw [List.getElem?_eq_none (h.length ▸ hp), List.getElem?_eq_none (h'.length ▸ hp)]

theorem set (h : l.Stores xs X) (hi : i < n) (hj : j < n) (a : α) :
    l.Stores (xs.set (l.place i j) a) (update X i j a) where
  length := by rw [List.length_set, h.length]
  cell {r c} hr hc := by
    rw [update]
    split
    · rename_i heq
      rw [heq.1, heq.2, List.getElem?_set_self (h.place_lt hi hj)]
    · rename_i hne
      rw [List.getElem?_set_ne fun heq => hne (l.place_inj hr hc hi hj heq.symm), h.cell hr hc]

end Stores

end Layout

/-! ## Regions -/

namespace Grids

open Layout

variable {α : Type} {X Y f g : Nat → Nat → α} {D D' E : Nat → Nat → Prop} {r c h w i j : Nat}

/-- The matrix `f` in a region, and another one elsewhere. -/
def fill (D : Nat → Nat → Prop) [DecidableRel D] (f X : Nat → Nat → α) : Nat → Nat → α :=
  fun i j => if D i j then f i j else X i j

theorem fill_none [DecidableRel D] (hD : ∀ i j, ¬D i j) : fill D f X = X := by
  funext i j
  exact if_neg (hD i j)

theorem fill_congr [DecidableRel D] [DecidableRel D'] (hD : ∀ i j, D i j ↔ D' i j)
    (hf : ∀ i j, D i j → f i j = g i j) : fill D f X = fill D' g X := by
  funext i j
  by_cases h : D i j
  · rw [fill, fill, if_pos h, if_pos ((hD i j).mp h), hf i j h]
  · rw [fill, fill, if_neg h, if_neg fun h' => h ((hD i j).mpr h')]

theorem fill_fill [DecidableRel D] [DecidableRel D'] [DecidableRel E]
    (hE : ∀ i j, E i j ↔ D i j ∨ D' i j) : fill D' f (fill D f X) = fill E f X := by
  funext i j
  simp only [fill, hE]
  split_ifs <;> simp_all

/-- What is in a region does not matter if the region is filled. -/
theorem fill_twice [DecidableRel D] : fill D f (fill D g X) = fill D f X := by
  funext i j
  simp only [fill]
  split_ifs <;> rfl

theorem update_fill [DecidableRel D] [DecidableRel D']
    (hD : ∀ r c, D' r c ↔ D r c ∨ r = i ∧ c = j) :
    update (fill D f X) i j (f i j) = fill D' f X := by
  funext r c
  by_cases h : r = i ∧ c = j
  · rw [update, if_pos h, fill, if_pos ((hD r c).mpr (.inr h)), h.1, h.2]
  · rw [update, if_neg h, fill, fill]
    simp only [hD, h, or_false]

/-- The block of `h` rows and `w` columns at `(r, c)`. -/
def Block (r c h w i j : Nat) : Prop := r ≤ i ∧ i < r + h ∧ c ≤ j ∧ j < c + w

instance : DecidableRel (Block r c h w) := fun _ _ => inferInstanceAs (Decidable (_ ∧ _))

/-- The cells of a block, row after row, before the one at its row `m` and its column `n`. -/
def Part (r c w m n i j : Nat) : Prop :=
  r ≤ i ∧ c ≤ j ∧ j < c + w ∧ (i < r + m ∨ i = r + m ∧ j < c + n)

instance {m n : Nat} : DecidableRel (Part r c w m n) := fun _ _ => inferInstanceAs (Decidable (_ ∧ _))

variable {m n : Nat}

theorem fill_part_start : fill (Part r c w 0 0) f X = X :=
  fill_none fun i j h => by
    simp only [Part] at h
    omega

/-- The next cell still has what it had. -/
theorem fill_part_cell : fill (Part r c w m n) f X (r + m) (c + n) = X (r + m) (c + n) :=
  if_neg fun h => by
    simp only [Part] at h
    omega

theorem fill_part_step (hn : n < w) :
    update (fill (Part r c w m n) f X) (r + m) (c + n) (f (r + m) (c + n)) =
      fill (Part r c w m (n + 1)) f X :=
  update_fill fun i j => by
    simp only [Part]
    omega

theorem fill_part_row : fill (Part r c w m w) f X = fill (Part r c w (m + 1) 0) f X :=
  fill_congr (fun i j => by simp only [Part]; omega) fun _ _ _ => rfl

theorem fill_part_end : fill (Part r c w h 0) f X = fill (Block r c h w) f X :=
  fill_congr (fun i j => by simp only [Part, Block]; omega) fun _ _ _ => rfl

/-- The blocks of an `n` by `n` matrix, row after row, before the one in block row `m` and block column
`n`. -/
def Blocks (b m n i j : Nat) : Prop := i < m * b ∨ i < (m + 1) * b ∧ j < n * b

instance {b : Nat} : DecidableRel (Blocks b m n) := fun _ _ => inferInstanceAs (Decidable (_ ∨ _))

theorem fill_block_cell (hi : i < h) (hj : j < w) :
    fill (Block r c h w) f X (r + i) (c + j) = f (r + i) (c + j) :=
  if_pos ⟨Nat.le_add_right _ _, by omega, Nat.le_add_right _ _, by omega⟩

theorem fill_blocks_step {b : Nat} : fill (Block (m * b) (n * b) b b) f (fill (Blocks b m n) f X) =
    fill (Blocks b m (n + 1)) f X :=
  fill_fill fun i j => by
    simp only [Blocks, Block, Nat.succ_mul]
    omega

theorem fill_blocks_start {b : Nat} : fill (Blocks b 0 0) f X = X :=
  fill_none fun i j h => by
    simp only [Blocks, Nat.zero_mul] at h
    omega

/-- A row of blocks is full when all of its blocks are. -/
theorem blocks_row {b k : Nat} {l : Layout (m * b)} {xs : List α}
    (h : l.Stores xs (fill (Blocks b k m) f X)) : l.Stores xs (fill (Blocks b (k + 1) 0) f X) :=
  h.congr fun i _ j hj => by
    have hiff : Blocks b k m i j ↔ Blocks b (k + 1) 0 i j := by
      simp only [Blocks, Nat.succ_mul, Nat.zero_mul]
      omega
    simp only [fill, hiff]

theorem blocks_end {b : Nat} {l : Layout (m * b)} {xs : List α}
    (h : l.Stores xs (fill (Blocks b m 0) f X)) : l.Stores xs f :=
  h.congr fun _ hi _ _ => if_pos (.inl hi)

/-! ## Products -/

section Products

variable [Zero α] [Add α] [Mul α]

/-- The sum of the first `k` products for a cell, added up from the left. -/
def dot (X Y : Nat → Nat → α) (k i j : Nat) : α :=
  (List.range k).foldl (fun sum k => sum + X i k * Y k j) 0

theorem dot_succ {k : Nat} : dot X Y (k + 1) i j = dot X Y k i j + X i k * Y k j := by
  rw [dot, List.range_succ, List.foldl_append, List.foldl_cons, List.foldl_nil, dot]

end Products

/-- With the laws of addition, this is the matrix product. -/
theorem dot_eq_mul [NonUnitalNonAssocSemiring α] (i j : Fin n) : dot X Y n i j =
    ((Matrix.of fun i j : Fin n => X i j) * Matrix.of fun i j : Fin n => Y i j) i j := by
  have hsum : ∀ k, dot X Y k i j = ∑ t ∈ Finset.range k, X i t * Y t j := by
    intro k
    induction k with
    | zero => rfl
    | succ k ih => rw [dot_succ, ih, Finset.sum_range_succ]
  rw [hsum, Finset.sum_range, Matrix.mul_apply]
  rfl

end Grids

end Library

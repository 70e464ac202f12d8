-- SUMMARY: blocked.c: the product of matrices in blocked storage, the way there and back, and that it agrees with matmul.c.
import Mathlib.Tactic.IntervalCases
import OperatingSystems.TracePrograms.Matmul

/-!
# Blocked matrix multiplication

The blocks of a matrix are kept one after another, and are multiplied like the entries of a matrix.
The sum of a cell is built in the order in which the standard algorithm builds it, so that the result
is the same to the last bit, also where sums are rounded.
-/

namespace TracePrograms

open Library Library.Run Library.Layout Library.Grids

variable {α : Type}

/-! ## The code -/

/-- `memset`, of records from `p` on. -/
def memset (xs : List α) (p : Nat) (a : α) (len : Nat) : Except Fault (List α) :=
  upTo len (fun q xs => store xs (p + q) a) xs

/-- `memcpy`, of whole arrays. -/
def memcpy (dst src : List α) (len : Nat) : Except Fault (List α) :=
  upTo len (fun p dst => load src p >>= store dst p) dst

/-- `Zero_C`. -/
def zeroC [Zero α] (i_bar j_bar : Nat) (g : Globals α) : Except Fault (Globals α) := do
  let C_p := (i_bar * g.n_bar + j_bar) * g.b_sqr
  let C ← memset g.C C_p 0 g.b_sqr
  .ok { g with C_p := some C_p, C := C }

/-- `Mult_add`. -/
def multAdd [Add α] [Mul α] (i_bar j_bar k_bar : Nat) (g : Globals α) : Except Fault (Globals α) :=
  match g.C_p with
  | none => .error .nullPointer
  | some c_p =>
    let a_p := (i_bar * g.n_bar + k_bar) * g.b_sqr
    let b_p := (k_bar * g.n_bar + j_bar) * g.b_sqr
    let b := g.b
    upTo b (fun i => upTo b fun j => upTo b fun k =>
      addProduct (c_p + i * b + j) (a_p + i * b + k) (b_p + k * b + j)) g

/-- `Blocked_mat_mult`. -/
def blockedMatMult [Zero α] [Add α] [Mul α] (g : Globals α) : Except Fault (Globals α) :=
  let n_bar := g.n_bar
  upTo n_bar (fun i_bar => upTo n_bar fun j_bar g => do
    let g ← zeroC i_bar j_bar g
    upTo n_bar (fun k_bar => multAdd i_bar j_bar k_bar) g) g

/-- The temporary array of `To_blocked` and `From_blocked`, and their pointers: one walks through
the blocks of row-major storage, the other one goes straight through blocked storage. -/
structure Walk (α : Type) where
  T : List α
  rowPtr : Nat
  blockPtr : Nat
deriving DecidableEq, Repr

/-- The loops of both functions, where `copy` is the assignment. -/
def walkBlocks (copy : Nat → Nat → List α → Except Fault (List α)) (n b : Nat) (T : List α) :
    Except Fault (List α) := do
  need (b ≠ 0) .divisionByZero
  let n_bar := n / b
  let s ← upTo n_bar (fun i_bar => upTo n_bar fun j_bar (s : Walk α) =>
    upTo b (fun _ s => upTo b (fun _ (s : Walk α) => do
        let T ← copy s.rowPtr s.blockPtr s.T
        .ok { T := T, rowPtr := s.rowPtr + 1, blockPtr := s.blockPtr + 1 }) s >>=
      fun s => .ok { s with rowPtr := s.rowPtr + (n - b) })
      { s with rowPtr := i_bar * b * n + j_bar * b }) { T := T, rowPtr := 0, blockPtr := 0 }
  .ok s.T

/-- `To_blocked`: `a_p` walks through the blocks, and `t_p` goes straight on. -/
def toBlocked (garbage : Nat → α) (A : List α) (n b : Nat) : Except Fault (List α) := do
  let T ← walkBlocks (fun a_p t_p T => load A a_p >>= store T t_p) n b (malloc garbage (n * n))
  memcpy A T (n * n)

/-- `From_blocked`: `t_p` walks through the blocks, and `c_p` goes straight on. -/
def fromBlocked (garbage : Nat → α) (C : List α) (n b : Nat) : Except Fault (List α) := do
  let T ← walkBlocks (fun t_p c_p T => load C c_p >>= store T t_p) n b (malloc garbage (n * n))
  memcpy C T (n * n)

/-- `main`, up to the time that it prints after the matrix, and with the memory that `malloc` finds. -/
def Blocked.main [Zero α] [Add α] [Mul α] (debug : Bool) (random : Nat → α) (fmt : α → List Char)
    (garbage : Nat → Nat → α) (n b : Nat) : Except Fault (List Char × Globals α) := do
  need (b ≠ 0) .divisionByZero
  need (n % b = 0) .exit
  need (n * n < 2 ^ 31) .overflow
  need (b * b < 2 ^ 31) .overflow
  let A := malloc (garbage 0) (n * n)
  let B := malloc (garbage 1) (n * n)
  let C := malloc (garbage 2) (n * n)
  let s ← getMatrices random A B n
  if debug then do
    let A ← toBlocked (garbage 3) s.A n b
    let B ← toBlocked (garbage 4) s.B n b
    let g ← blockedMatMult
      { A := A, B := B, C := C, C_p := none, n := n, b := b, n_bar := n / b, b_sqr := b * b }
    let C ← fromBlocked (garbage 5) g.C n b
    let stdout ← printMatrix fmt C n
    .ok ("Blocked algorithm\n".toList ++ stdout, { g with C := C })
  else do
    let g ← blockedMatMult
      { A := s.A, B := s.B, C := C, C_p := none, n := n, b := b, n_bar := n / b, b_sqr := b * b }
    .ok ([], g)

/-! ## Blocks -/

section

variable {m b i j k ib jb kb : Nat} {xs ys : List α} {X Y Z : Nat → Nat → α} {g : Globals α}

theorem block_lt (hib : ib < m) (hi : i < b) : ib * b + i < m * b := flat_lt hib hi

theorem memset_stores (h : (blocks m b).Stores xs Z) (hib : ib < m) (hjb : jb < m) (a : α) :
    ∃ ys, memset xs ((ib * m + jb) * (b * b)) a (b * b) = .ok ys ∧
      (blocks m b).Stores ys (fill (Block (ib * b) (jb * b) b b) (fun _ _ => a) Z) := by
  have hstart : (blocks m b).Stores xs
      (fill (Part (ib * b) (jb * b) b 0 0) (fun _ _ => a) Z) := by
    rw [fill_part_start]
    exact h
  obtain ⟨ys, hrun, hys⟩ := nest_rule (m := b) (n := b) (s := xs)
    (f := fun i j xs => store xs ((ib * m + jb) * (b * b) + (i * b + j)) a)
    (I := fun i j xs => (blocks m b).Stores xs
      (fill (Part (ib * b) (jb * b) b i j) (fun _ _ => a) Z))
    hstart
    (fun i hi j hj xs hxs => by
      have hset := hxs.set (block_lt hib hi) (block_lt hjb hj) a
      rw [← blocks_place hi hj, store_cell hxs (block_lt hib hi) (block_lt hjb hj)]
      refine ⟨_, rfl, ?_⟩
      rw [fill_part_step (f := fun _ _ => a) hj] at hset
      exact hset)
    (fun i _ xs hxs => by
      rw [fill_part_row] at hxs
      exact hxs)
  rw [fill_part_end] at hys
  exact ⟨ys, by rw [memset, upTo_flat, hrun], hys⟩

theorem memcpy_eq {dst src : List α} (h : dst.length = src.length) :
    memcpy dst src src.length = .ok src := by
  obtain ⟨xs, hrun, hlen, hxs⟩ := upTo_rule (n := src.length) (s := dst)
    (f := fun p dst => load src p >>= store dst p)
    (I := fun t xs => xs.length = src.length ∧ ∀ p < t, xs[p]? = src[p]?)
    ⟨h, fun p hp => absurd hp (Nat.not_lt_zero p)⟩
    fun t ht xs hI => by
      refine ⟨xs.set t src[t], ?_, by rw [List.length_set, hI.1], fun p hp => ?_⟩
      · rw [load, List.getElem?_eq_getElem ht, ok_bind, store, if_pos (hI.1.symm ▸ ht)]
      · rcases Nat.lt_succ_iff_lt_or_eq.mp hp with hlt | rfl
        · rw [List.getElem?_set_ne hlt.ne', hI.2 p hlt]
        · rw [List.getElem?_set_self (hI.1.symm ▸ ht), List.getElem?_eq_getElem ht]
  have heq : xs = src := List.ext_getElem? fun p => by
    rcases Nat.lt_or_ge p src.length with hp | hp
    · exact hxs p hp
    · rw [List.getElem?_eq_none hp, List.getElem?_eq_none (hlen.symm ▸ hp)]
  rw [memcpy, hrun, heq]

/-! ## The blocked product -/

/-- `m` by `m` blocks of `b` by `b` records. -/
structure Shaped (m b : Nat) (g : Globals α) : Prop where
  order : g.n = m * b
  block : g.b = b
  row : g.n_bar = m
  size : g.b_sqr = b * b

theorem add_le_of_block (hkb : kb < m) : kb * b + b ≤ m * b := by
  rw [← Nat.succ_mul]
  exact Nat.mul_le_mul_right b hkb

theorem multAdd_eq [Add α] [Mul α] (hg : Shaped m b g) (hC_p : g.C_p = some ((ib * m + jb) * (b * b))) :
    multAdd ib jb kb g = upTo b (fun i => upTo b fun j => upTo b fun k =>
      addProduct ((ib * m + jb) * (b * b) + i * b + j) ((ib * m + kb) * (b * b) + i * b + k)
        ((kb * m + jb) * (b * b) + k * b + j)) g := by
  have heq : multAdd ib jb kb g = upTo g.b (fun i => upTo g.b fun j => upTo g.b fun k =>
      addProduct ((ib * m + jb) * (b * b) + i * g.b + j)
        ((ib * g.n_bar + kb) * g.b_sqr + i * g.b + k)
        ((kb * g.n_bar + jb) * g.b_sqr + k * g.b + j)) g := by
    rw [multAdd, hC_p]
  rw [heq, hg.block, hg.row, hg.size]

section Products

variable [Zero α] [Add α] [Mul α]

/-- The sums of a block of `C` go on with the products of one more block. -/
theorem multAdd_stores (hg : Shaped m b g) (hib : ib < m) (hjb : jb < m) (hkb : kb < m)
    (hC_p : g.C_p = some ((ib * m + jb) * (b * b))) (hA : (blocks m b).Stores g.A X)
    (hB : (blocks m b).Stores g.B Y) (hC : (blocks m b).Stores g.C
      (fill (Block (ib * b) (jb * b) b b) (dot X Y (kb * b)) Z)) :
    ∃ xs, multAdd ib jb kb g = .ok { g with C := xs } ∧ (blocks m b).Stores xs
      (fill (Block (ib * b) (jb * b) b b) (dot X Y ((kb + 1) * b)) Z) := by
  let F := fill (Block (ib * b) (jb * b) b b) (dot X Y (kb * b)) Z
  have hstart : (blocks m b).Stores g.C
      (fill (Part (ib * b) (jb * b) b 0 0) (dot X Y (kb * b + b)) F) := by
    rw [fill_part_start]
    exact hC
  obtain ⟨s', hrun, xs, rfl, hxs⟩ := nest_rule (m := b) (n := b) (s := g)
    (f := fun i j => upTo b fun k => addProduct ((ib * m + jb) * (b * b) + i * b + j)
      ((ib * m + kb) * (b * b) + i * b + k) ((kb * m + jb) * (b * b) + k * b + j))
    (I := fun i j s => ∃ xs, s = { g with C := xs } ∧ (blocks m b).Stores xs
      (fill (Part (ib * b) (jb * b) b i j) (dot X Y (kb * b + b)) F))
    ⟨g.C, rfl, hstart⟩
    (fun i hi j hj s hI => by
      obtain ⟨xs, rfl, hxs⟩ := hI
      obtain ⟨ys, hys, hstores⟩ := addProducts_stores (g := { g with C := xs }) (k := kb * b)
        (w := b) (c := (ib * m + jb) * (b * b) + i * b + j)
        (a := fun k => (ib * m + kb) * (b * b) + i * b + k)
        (b := fun k => (kb * m + jb) * (b * b) + k * b + j)
        hA hB hxs (block_lt hib hi) (block_lt hjb hj) (add_le_of_block hkb)
        (by rw [blocks_place hi hj, Nat.add_assoc])
        (fun t ht => by rw [blocks_place hi ht, Nat.add_assoc])
        (fun t ht => by rw [blocks_place ht hj, Nat.add_assoc])
        (by rw [fill_part_cell]; exact fill_block_cell hi hj)
      refine ⟨_, hys, ys, rfl, ?_⟩
      rw [fill_part_step hj] at hstores
      exact hstores)
    (fun i _ s hI => by
      obtain ⟨xs, rfl, hxs⟩ := hI
      rw [fill_part_row] at hxs
      exact ⟨xs, rfl, hxs⟩)
  rw [fill_part_end, fill_twice, ← Nat.succ_mul] at hxs
  exact ⟨xs, (multAdd_eq hg hC_p).trans hrun, hxs⟩

theorem zeroC_stores (hg : Shaped m b g) (hib : ib < m) (hjb : jb < m)
    (hC : (blocks m b).Stores g.C Z) : ∃ xs,
      zeroC ib jb g = .ok { g with C_p := some ((ib * m + jb) * (b * b)), C := xs } ∧
      (blocks m b).Stores xs (fill (Block (ib * b) (jb * b) b b) (dot X Y (0 * b)) Z) := by
  obtain ⟨xs, hrun, hxs⟩ := memset_stores hC hib hjb 0
  refine ⟨xs, ?_, ?_⟩
  · rw [zeroC, hg.row, hg.size, hrun]
    rfl
  · rw [Nat.zero_mul]
    exact hxs

/-- One block of the product. -/
theorem block_stores (hg : Shaped m b g) (hib : ib < m) (hjb : jb < m)
    (hA : (blocks m b).Stores g.A X) (hB : (blocks m b).Stores g.B Y)
    (hC : (blocks m b).Stores g.C Z) : ∃ xs C_p,
      (zeroC ib jb g >>= upTo m fun k_bar => multAdd ib jb k_bar) =
        .ok { g with C_p := C_p, C := xs } ∧
      (blocks m b).Stores xs (fill (Block (ib * b) (jb * b) b b) (dot X Y (m * b)) Z) := by
  obtain ⟨xs, hzero, hxs⟩ := zeroC_stores (X := X) (Y := Y) hg hib hjb hC
  let C_p := some ((ib * m + jb) * (b * b))
  obtain ⟨s', hrun, ys, rfl, hys⟩ := upTo_rule (n := m) (s := { g with C_p := C_p, C := xs })
    (f := fun k_bar => multAdd ib jb k_bar)
    (I := fun kb s => ∃ xs, s = { g with C_p := C_p, C := xs } ∧ (blocks m b).Stores xs
      (fill (Block (ib * b) (jb * b) b b) (dot X Y (kb * b)) Z))
    ⟨xs, rfl, hxs⟩
    fun kb hkb s hI => by
      obtain ⟨xs, rfl, hxs⟩ := hI
      obtain ⟨ys, hys, hstores⟩ := multAdd_stores (g := { g with C_p := C_p, C := xs })
        ⟨hg.order, hg.block, hg.row, hg.size⟩ hib hjb hkb rfl hA hB hxs
      exact ⟨_, hys, ys, rfl, hstores⟩
  exact ⟨ys, C_p, by rw [hzero, ok_bind, hrun], hys⟩

/-- `Blocked_mat_mult` puts into each cell what `Mat_mult` does. -/
theorem blockedMatMult_stores (hg : Shaped m b g) (hA : (blocks m b).Stores g.A X)
    (hB : (blocks m b).Stores g.B Y) (hC : g.C.length = g.n * g.n) :
    ∃ xs C_p, blockedMatMult g = .ok { g with C_p := C_p, C := xs } ∧
      (blocks m b).Stores xs (dot X Y (m * b)) := by
  obtain ⟨Z, hZ⟩ := exists_stores (blocks m b) (hg.order ▸ hC) (0 : α)
  have hstart : (blocks m b).Stores g.C (fill (Blocks b 0 0) (dot X Y (m * b)) Z) := by
    rw [fill_blocks_start]
    exact hZ
  obtain ⟨s', hrun, xs, C_p, rfl, hxs⟩ := nest_rule (m := m) (n := m) (s := g)
    (f := fun ib jb g => zeroC ib jb g >>= upTo m fun k_bar => multAdd ib jb k_bar)
    (I := fun ib jb s => ∃ xs C_p, s = { g with C_p := C_p, C := xs } ∧
      (blocks m b).Stores xs (fill (Blocks b ib jb) (dot X Y (m * b)) Z))
    ⟨g.C, g.C_p, rfl, hstart⟩
    (fun ib hib jb hjb s hI => by
      obtain ⟨xs, C_p, rfl, hxs⟩ := hI
      obtain ⟨ys, C_p', hys, hstores⟩ := block_stores (g := { g with C_p := C_p, C := xs })
        ⟨hg.order, hg.block, hg.row, hg.size⟩ hib hjb hA hB hxs
      rw [fill_blocks_step] at hstores
      exact ⟨_, hys, ys, C_p', rfl, hstores⟩)
    (fun ib _ s hI => by
      obtain ⟨xs, C_p, rfl, hxs⟩ := hI
      exact ⟨xs, C_p, rfl, blocks_row hxs⟩)
  have heq : blockedMatMult g = upTo m (fun ib => upTo m fun jb g =>
      zeroC ib jb g >>= upTo m fun k_bar => multAdd ib jb k_bar) g := by
    rw [← hg.row]
    rfl
  exact ⟨xs, C_p, heq.trans hrun, blocks_end hxs⟩

end Products

/-! ## Between the layouts -/

section Walks

variable {l : Layout (m * b)} {f : Nat → Nat → List α → Except Fault (List α)} {s : Walk α}

/-- The two pointers and the temporary array, before the cell at row `i` and column `j` of a block. -/
structure Walked (l : Layout (m * b)) (X Z : Nat → Nat → α) (ib jb i j : Nat) (s : Walk α) : Prop where
  rowPtr : s.rowPtr = (ib * b + i) * (m * b) + (jb * b + j)
  blockPtr : s.blockPtr = (ib * m + jb) * (b * b) + (i * b + j)
  stores : l.Stores s.T (fill (Part (ib * b) (jb * b) b i j) X (fill (Blocks b ib jb) X Z))

/-- The copying of one block. -/
theorem walkBlock_stores (hib : ib < m) (hjb : jb < m)
    (hcopy : ∀ i < m * b, ∀ j < m * b, ∀ T Z, l.Stores T Z →
      f ((rowMajor (m * b)).place i j) ((blocks m b).place i j) T =
        .ok (T.set (l.place i j) (X i j)))
    (hs : Walked l X Z ib jb 0 0 s) : ∃ s',
      upTo b (fun _ s => upTo b (fun _ (s : Walk α) => do
        let T ← f s.rowPtr s.blockPtr s.T
        .ok { T := T, rowPtr := s.rowPtr + 1, blockPtr := s.blockPtr + 1 }) s >>=
          fun s => .ok { s with rowPtr := s.rowPtr + (m * b - b) }) s = .ok s' ∧
      Walked l X Z ib jb b 0 s' := by
  refine nest_rule_after hs (fun i hi j hj s h => ?_) fun i _ s h => ?_
  · have hrow : ib * b + i < m * b := block_lt hib hi
    have hcol : jb * b + j < m * b := block_lt hjb hj
    have hset := h.stores.set hrow hcol (X (ib * b + i) (jb * b + j))
    rw [fill_part_step hj] at hset
    have hrowPtr : s.rowPtr = (rowMajor (m * b)).place (ib * b + i) (jb * b + j) := h.rowPtr
    have hcell := hcopy _ hrow _ hcol _ _ h.stores
    rw [blocks_place hi hj, ← h.blockPtr, ← hrowPtr] at hcell
    refine ⟨⟨_, s.rowPtr + 1, s.blockPtr + 1⟩, congrArg (· >>= _) hcell, ?_⟩
    exact ⟨congrArg (· + 1) h.rowPtr, congrArg (· + 1) h.blockPtr, hset⟩
  · have hle : b ≤ m * b := Nat.le_trans (Nat.le_add_left b _) (add_le_of_block hib)
    refine ⟨_, rfl, ?_, ?_, fill_part_row (f := X) ▸ h.stores⟩
    · show s.rowPtr + (m * b - b) = _
      rw [h.rowPtr, ← Nat.add_assoc (ib * b) i 1, Nat.succ_mul]
      omega
    · show s.blockPtr = _
      rw [h.blockPtr, Nat.succ_mul]
      rfl

/-- The loops of both functions go through all the cells, with each pointer at the cell's place. -/
theorem walkBlocks_stores {T : List α} (hb : b ≠ 0) (hT : T.length = m * b * (m * b))
    (hcopy : ∀ i < m * b, ∀ j < m * b, ∀ T Z, l.Stores T Z →
      f ((rowMajor (m * b)).place i j) ((blocks m b).place i j) T =
        .ok (T.set (l.place i j) (X i j))) :
    ∃ xs, walkBlocks f (m * b) b T = .ok xs ∧ l.Stores xs X := by
  obtain ⟨Z, hZ⟩ := exists_stores l hT (X 0 0)
  have hstart : l.Stores T (fill (Blocks b 0 0) X Z) := by
    rw [fill_blocks_start]
    exact hZ
  obtain ⟨s', hrun, hptr, hs'⟩ := nest_rule (m := m) (n := m)
    (s := ({ T := T, rowPtr := 0, blockPtr := 0 } : Walk α))
    (f := fun ib jb s => upTo b (fun _ s => upTo b (fun _ (s : Walk α) => do
        let T ← f s.rowPtr s.blockPtr s.T
        .ok { T := T, rowPtr := s.rowPtr + 1, blockPtr := s.blockPtr + 1 }) s >>=
          fun s => .ok { s with rowPtr := s.rowPtr + (m * b - b) })
      { s with rowPtr := ib * b * (m * b) + jb * b })
    (I := fun ib jb s => s.blockPtr = (ib * m + jb) * (b * b) ∧
      l.Stores s.T (fill (Blocks b ib jb) X Z))
    ⟨by rw [Nat.zero_mul, Nat.zero_add, Nat.zero_mul], hstart⟩
    (fun ib hib jb hjb s hI => by
      obtain ⟨s', hrun, h⟩ := walkBlock_stores hib hjb hcopy
        (s := { s with rowPtr := ib * b * (m * b) + jb * b }) (X := X) (Z := Z)
        ⟨rfl, by rw [Nat.zero_mul]; exact hI.1, by rw [fill_part_start]; exact hI.2⟩
      refine ⟨s', hrun, ?_, ?_⟩
      · rw [h.blockPtr, ← Nat.add_assoc (ib * m) jb 1, Nat.succ_mul (ib * m + jb)]
        rfl
      · have hstores := h.stores
        rw [fill_part_end, fill_blocks_step] at hstores
        exact hstores)
    (fun ib _ s hI => ⟨by rw [hI.1, Nat.succ_mul]; rfl, blocks_row hI.2⟩)
  refine ⟨s'.T, ?_, blocks_end hs'⟩
  rw [walkBlocks, need_of hb, ok_bind, Nat.mul_div_cancel m (Nat.pos_of_ne_zero hb)]
  dsimp only
  rw [hrun, ok_bind]

theorem toBlocked_stores (garbage : Nat → α) (hb : b ≠ 0) (h : (rowMajor (m * b)).Stores xs X) :
    ∃ ys, toBlocked garbage xs (m * b) b = .ok ys ∧ (blocks m b).Stores ys X := by
  obtain ⟨ys, hrun, hys⟩ := walkBlocks_stores (l := blocks m b) (X := X)
    (f := fun a_p t_p T => load xs a_p >>= store T t_p) hb
    (length_malloc garbage (m * b * (m * b)))
    fun i hi j hj T Z hT => by rw [load_cell h hi hj, ok_bind, store_cell hT hi hj]
  refine ⟨ys, ?_, hys⟩
  rw [toBlocked, hrun, ok_bind, ← hys.length, memcpy_eq (h.length.trans hys.length.symm)]

theorem fromBlocked_stores (garbage : Nat → α) (hb : b ≠ 0) (h : (blocks m b).Stores xs X) :
    ∃ ys, fromBlocked garbage xs (m * b) b = .ok ys ∧ (rowMajor (m * b)).Stores ys X := by
  obtain ⟨ys, hrun, hys⟩ := walkBlocks_stores (l := rowMajor (m * b)) (X := X)
    (f := fun t_p c_p T => load xs c_p >>= store T t_p) hb
    (length_malloc garbage (m * b * (m * b)))
    fun i hi j hj T Z hT => by rw [load_cell h hi hj, ok_bind, store_cell hT hi hj]
  refine ⟨ys, ?_, hys⟩
  rw [fromBlocked, hrun, ok_bind, ← hys.length, memcpy_eq (h.length.trans hys.length.symm)]

end Walks

end

/-! ## Results -/

variable {n b : Nat} {xs : List α} {g : Globals α} {X Y : Nat → Nat → α}

/-- Each of `To_blocked` and `From_blocked` undoes the other one, whatever memory they get. -/
theorem toBlocked_fromBlocked (garbage garbage' : Nat → α) (hn : 0 < n) (hb : b ∣ n)
    (hlength : xs.length = n * n) :
    (∃ ys, toBlocked garbage xs n b = .ok ys ∧ fromBlocked garbage' ys n b = .ok xs) ∧
      ∃ ys, fromBlocked garbage xs n b = .ok ys ∧ toBlocked garbage' ys n b = .ok xs := by
  obtain ⟨m, rfl⟩ := exists_eq_mul_left_of_dvd hb
  have hb : b ≠ 0 := (Nat.pos_of_mul_pos_left hn).ne'
  constructor
  · obtain ⟨X, hX⟩ := exists_stores (rowMajor (m * b)) hlength (garbage 0)
    obtain ⟨ys, hto, hys⟩ := toBlocked_stores garbage hb hX
    obtain ⟨zs, hfrom, hzs⟩ := fromBlocked_stores garbage' hb hys
    exact ⟨ys, hto, hzs.unique hX ▸ hfrom⟩
  · obtain ⟨X, hX⟩ := exists_stores (blocks m b) hlength (garbage 0)
    obtain ⟨ys, hfrom, hys⟩ := fromBlocked_stores garbage hb hX
    obtain ⟨zs, hto, hzs⟩ := toBlocked_stores garbage' hb hys
    exact ⟨ys, hfrom, hzs.unique hX ▸ hto⟩

theorem toBlocked_fromBlocked_four : ∃ ys,
    toBlocked (fun _ => 0) (List.range 16) 4 2 = .ok ys ∧
      fromBlocked (fun _ => 1) ys 4 2 = .ok (List.range 16) :=
  (toBlocked_fromBlocked (fun _ => 0) (fun _ => 1) (by decide) (by decide) (by decide)).1

example : toBlocked (fun _ => 0) (List.range 16) 4 2 =
    .ok [0, 1, 4, 5, 2, 3, 6, 7, 8, 9, 12, 13, 10, 11, 14, 15] := by decide

/-- With the laws of addition, both algorithms compute the product of matrices: `Mat_mult` in row-major
storage, and `Blocked_mat_mult` in blocked storage. -/
theorem products_multiply [NonUnitalNonAssocSemiring α] (hC : g.C.length = g.n * g.n) :
    ((rowMajor g.n).Stores g.A X → (rowMajor g.n).Stores g.B Y → ∃ C,
      matMult g = .ok { g with C := C } ∧ ∀ i j : Fin g.n, C[(rowMajor g.n).place i j]? = some
        (((Matrix.of fun i j : Fin g.n => X i j) * Matrix.of fun i j : Fin g.n => Y i j) i j)) ∧
    ∀ m b, Shaped m b g → (blocks m b).Stores g.A X → (blocks m b).Stores g.B Y → ∃ C C_p,
      blockedMatMult g = .ok { g with C_p := C_p, C := C } ∧
        ∀ i j : Fin (m * b), C[(blocks m b).place i j]? = some
          (((Matrix.of fun i j : Fin (m * b) => X i j) *
            Matrix.of fun i j : Fin (m * b) => Y i j) i j) := by
  constructor
  · intro hA hB
    obtain ⟨C, hrun, hC⟩ := matMult_stores hA hB hC
    exact ⟨C, hrun, fun i j => by rw [hC.cell i.2 j.2, dot_eq_mul]⟩
  · intro m b hg hA hB
    obtain ⟨C, C_p, hrun, hC⟩ := blockedMatMult_stores hg hA hB hC
    exact ⟨C, C_p, hrun, fun i j => by rw [hC.cell i.2 j.2, dot_eq_mul]⟩

/-- The numbers below 16, row by row for `Mat_mult`, whose program leaves the three block sizes at
zero, and in four blocks for `Blocked_mat_mult`. -/
theorem products_multiply_four :
    let g : Globals Nat := ⟨List.range 16, List.range 16, List.replicate 16 7, none, 4, 0, 0, 0⟩
    let A := [0, 1, 4, 5, 2, 3, 6, 7, 8, 9, 12, 13, 10, 11, 14, 15]
    let g' : Globals Nat := ⟨A, A, List.replicate 16 7, none, 4, 2, 2, 4⟩
    let X : Matrix (Fin 4) (Fin 4) Nat := Matrix.of fun i j => i * 4 + j
    (∃ C, matMult g = .ok { g with C := C } ∧
      ∀ i j : Fin 4, C[(rowMajor 4).place i j]? = some ((X * X) i j)) ∧
    ∃ C C_p, blockedMatMult g' = .ok { g' with C_p := C_p, C := C } ∧
      ∀ i j : Fin 4, C[(blocks 2 2).place i j]? = some ((X * X) i j) := by
  intro g A g' X
  have hrow : (rowMajor 4).Stores g.A (fun i j => i * 4 + j) :=
    ⟨rfl, fun {i j} hi hj => by interval_cases i <;> interval_cases j <;> rfl⟩
  have hblock : (blocks 2 2).Stores g'.A (fun i j => i * 4 + j) :=
    ⟨rfl, fun {i j} hi hj => by interval_cases i <;> interval_cases j <;> rfl⟩
  have hstandard := (products_multiply (g := g) (X := fun i j => i * 4 + j)
    (Y := fun i j => i * 4 + j) rfl).1
  have hblocked := (products_multiply (g := g') (X := fun i j => i * 4 + j)
    (Y := fun i j => i * 4 + j) rfl).2
  exact ⟨hstandard hrow hrow, hblocked 2 2 ⟨rfl, rfl, rfl, rfl⟩ hblock hblock⟩

/-- The two programs print the same matrix where `DEBUG` is defined, as they add up the same products in
the same order. -/
theorem mains_agree [Zero α] [Add α] [Mul α] (random : Nat → α) (fmt : α → List Char)
    (garbage garbage' : Nat → Nat → α) (hn : 0 < n) (hb : b ∣ n) (hmax : n * n < 2 ^ 31) :
    ∃ printed g g',
      Matmul.main true random fmt garbage n = .ok ("Standard algorithm\n".toList ++ printed, g) ∧
      Blocked.main true random fmt garbage' n b =
        .ok ("Blocked algorithm\n".toList ++ printed, g') ∧ g'.C = g.C := by
  obtain ⟨_, g, hmain, hC, rfl⟩ := Matmul.main_prints true random fmt garbage hmax
  obtain ⟨m, rfl⟩ := exists_eq_mul_left_of_dvd hb
  have hb : 0 < b := Nat.pos_of_mul_pos_left hn
  have hle : b ≤ m * b := Nat.le_mul_of_pos_left b (Nat.pos_of_mul_pos_right hn)
  obtain ⟨s, hs, hA, hB⟩ := getMatrices_stores random
    (length_malloc (garbage' 0) (m * b * (m * b))) (length_malloc (garbage' 1) (m * b * (m * b)))
  obtain ⟨A, htoA, hA⟩ := toBlocked_stores (garbage' 3) hb.ne' hA
  obtain ⟨B, htoB, hB⟩ := toBlocked_stores (garbage' 4) hb.ne' hB
  obtain ⟨C, C_p, hmult, hC'⟩ := blockedMatMult_stores (m := m) (b := b)
    (g := ⟨A, B, malloc (garbage' 2) (m * b * (m * b)), none, m * b, b, m * b / b, b * b⟩)
    ⟨rfl, rfl, Nat.mul_div_cancel m hb, rfl⟩ hA hB (length_malloc _ _)
  obtain ⟨C', hfrom, hC'⟩ := fromBlocked_stores (garbage' 5) hb.ne' hC'
  obtain rfl := hC'.unique hC
  refine ⟨_, g, ⟨A, B, g.C, C_p, m * b, b, m * b / b, b * b⟩, hmain, ?_, rfl⟩
  rw [Blocked.main, need_of hb.ne', ok_bind, need_of (Nat.mul_mod_left m b), ok_bind, need_of hmax,
    ok_bind, need_of (Nat.lt_of_le_of_lt (Nat.mul_le_mul hle hle) hmax), ok_bind]
  dsimp only
  rw [hs, ok_bind, if_pos rfl, htoA, ok_bind, htoB, ok_bind, hmult, ok_bind, hfrom, ok_bind,
    printMatrix_stores fmt hC]
  rfl

theorem mains_agree_four : ∃ printed g g',
    Matmul.main true (fun k => k) (Nat.toDigits 10) (fun _ _ => 7) 4 =
      .ok ("Standard algorithm\n".toList ++ printed, g) ∧
    Blocked.main true (fun k => k) (Nat.toDigits 10) (fun _ _ => 8) 4 2 =
      .ok ("Blocked algorithm\n".toList ++ printed, g') ∧ g'.C = g.C :=
  mains_agree _ _ _ _ (by decide) (by decide) (by decide)

end TracePrograms

-- SUMMARY: matmul.c: arrays that fault outside their bounds, the standard matrix product, and what it stores.
import OperatingSystems.Library.Grids

/-!
# Standard matrix multiplication

The programs that make the traces multiply matrices. A `struct record` is its value, and the values
are of any type with a zero, a sum and a product: no law of them is used. An `int` is a natural number,
as no number here is larger than the one of records, which `main` computes first.
-/

namespace TracePrograms

open Library Library.Run Library.Layout Library.Grids

inductive Fault where
  | outOfBounds
  | nullPointer
  | divisionByZero
  | overflow
  | exit
deriving DecidableEq, Repr

/-- Go on only if the condition holds. -/
def need (c : Prop) [Decidable c] (e : Fault) : Except Fault Unit :=
  if c then .ok () else .error e

theorem need_of {c : Prop} [Decidable c] {e : Fault} (h : c) : need c e = .ok () := if_pos h

/-! ## Arrays -/

variable {α : Type}

/-- `xs[p]`, read. -/
def load (xs : List α) (p : Nat) : Except Fault α :=
  match xs[p]? with
  | some a => .ok a
  | none => .error .outOfBounds

/-- `xs[p] = a`. -/
def store (xs : List α) (p : Nat) (a : α) : Except Fault (List α) :=
  if p < xs.length then .ok (xs.set p a) else .error .outOfBounds

/-- New memory, with what happens to be there. -/
def malloc (garbage : Nat → α) (size : Nat) : List α := (List.range size).map garbage

/-! ## The code -/

/-- The globals, which both programs declare. `C_p` points into `C`. -/
structure Globals (α : Type) where
  A : List α
  B : List α
  C : List α
  C_p : Option Nat
  n : Nat
  b : Nat
  n_bar : Nat
  b_sqr : Nat
deriving DecidableEq, Repr

/-- The two factors, and how many random numbers have been drawn. -/
structure Factors (α : Type) where
  A : List α
  B : List α
  drawn : Nat

/-- `Get_matrices`, with the values of `random()/DRAND_MAX`. -/
def getMatrices (random : Nat → α) (A B : List α) (n : Nat) : Except Fault (Factors α) :=
  upTo (n * n) (fun i s => do
    let A ← store s.A i (random s.drawn)
    let B ← store s.B i (random (s.drawn + 1))
    .ok { A := A, B := B, drawn := s.drawn + 2 }) { A := A, B := B, drawn := 0 }

/-- `C[c].value += A[a].value * B[b].value`. -/
def addProduct [Add α] [Mul α] (c a b : Nat) (g : Globals α) : Except Fault (Globals α) := do
  let sum ← load g.C c
  let left ← load g.A a
  let right ← load g.B b
  let C ← store g.C c (sum + left * right)
  .ok { g with C := C }

/-- `Mat_mult`. -/
def matMult [Zero α] [Add α] [Mul α] (g : Globals α) : Except Fault (Globals α) :=
  let n := g.n
  upTo n (fun i => upTo n fun j g => do
    let C ← store g.C (i * n + j) 0
    upTo n (fun k => addProduct (i * n + j) (i * n + k) (k * n + j)) { g with C := C }) g

/-- `Print_matrix`, where `fmt` is what `"%.2e "` prints. -/
def printMatrix (fmt : α → List Char) (C : List α) (n : Nat) : Except Fault (List Char) :=
  upTo n (fun i stdout => upTo n (fun j stdout => do
    let value ← load C (i * n + j)
    .ok (stdout ++ fmt value)) stdout >>= fun stdout => .ok (stdout ++ ['\n'])) []

/-- `main`, up to the time that it prints, and with the memory that `malloc` finds. -/
def Matmul.main [Zero α] [Add α] [Mul α] (debug : Bool) (random : Nat → α) (fmt : α → List Char)
    (garbage : Nat → Nat → α) (n : Nat) : Except Fault (List Char × Globals α) := do
  need (n * n < 2 ^ 31) .overflow
  let A := malloc (garbage 0) (n * n)
  let B := malloc (garbage 1) (n * n)
  let C := malloc (garbage 2) (n * n)
  let s ← getMatrices random A B n
  let g ← matMult { A := s.A, B := s.B, C := C, C_p := none, n := n, b := 0, n_bar := 0, b_sqr := 0 }
  if debug then do
    let stdout ← printMatrix fmt g.C n
    .ok ("Standard algorithm\n".toList ++ stdout, g)
  else .ok ([], g)

/-! ## Arrays that store matrices -/

variable {n m i j k w : Nat} {l : Layout n} {xs : List α} {X Y Z : Nat → Nat → α} {g : Globals α}

theorem length_malloc (garbage : Nat → α) (size : Nat) : (malloc garbage size).length = size := by
  rw [malloc, List.length_map, List.length_range]

theorem load_cell (h : l.Stores xs X) (hi : i < n) (hj : j < n) :
    load xs (l.place i j) = .ok (X i j) := by
  rw [load, h.cell hi hj]

theorem store_cell (h : l.Stores xs X) (hi : i < n) (hj : j < n) (a : α) :
    store xs (l.place i j) a = .ok (xs.set (l.place i j) a) :=
  if_pos (h.place_lt hi hj)

theorem addProduct_stores [Add α] [Mul α] (hA : l.Stores g.A X) (hB : l.Stores g.B Y) (hC : l.Stores g.C Z)
    (hi : i < n) (hj : j < n) (hk : k < n) :
    ∃ xs, addProduct (l.place i j) (l.place i k) (l.place k j) g = .ok { g with C := xs } ∧
      l.Stores xs (update Z i j (Z i j + X i k * Y k j)) := by
  refine ⟨_, ?_, hC.set hi hj _⟩
  rw [addProduct, load_cell hC hi hj, ok_bind, load_cell hA hi hk, ok_bind, load_cell hB hk hj,
    ok_bind, store_cell hC hi hj]
  rfl

section Products

variable [Zero α] [Add α] [Mul α]

/-- The inner loop of both programs carries on the sum of a cell. -/
theorem addProducts_stores {c : Nat} {a b : Nat → Nat} (hA : l.Stores g.A X) (hB : l.Stores g.B Y)
    (hC : l.Stores g.C Z) (hi : i < n) (hj : j < n) (hk : k + w ≤ n) (hc : c = l.place i j)
    (ha : ∀ t < w, a t = l.place i (k + t)) (hb : ∀ t < w, b t = l.place (k + t) j)
    (hsum : Z i j = dot X Y k i j) :
    ∃ xs, upTo w (fun t => addProduct c (a t) (b t)) g = .ok { g with C := xs } ∧
      l.Stores xs (update Z i j (dot X Y (k + w) i j)) := by
  have hstart : l.Stores g.C (update Z i j (dot X Y (k + 0) i j)) := by
    rw [Nat.add_zero, ← hsum, update_self]
    exact hC
  obtain ⟨s', hrun, xs, rfl, hxs⟩ := upTo_rule (n := w) (s := g)
    (f := fun t => addProduct c (a t) (b t))
    (I := fun t s => ∃ xs, s = { g with C := xs } ∧
      l.Stores xs (update Z i j (dot X Y (k + t) i j)))
    ⟨g.C, rfl, hstart⟩ fun t ht s hI => by
      obtain ⟨xs, rfl, hxs⟩ := hI
      obtain ⟨ys, hys, hstores⟩ := addProduct_stores (g := { g with C := xs }) hA hB hxs hi hj
        (show k + t < n by omega)
      refine ⟨_, by rw [hc, ha t ht, hb t ht, hys], ys, rfl, ?_⟩
      rw [update_twice, update_cell, ← dot_succ] at hstores
      exact hstores
  exact ⟨xs, hrun, hxs⟩

/-! ## The standard product -/

/-- `Mat_mult` puts into each cell the sum of its products, from the left, whatever was there. -/
theorem matMult_stores (hA : (rowMajor g.n).Stores g.A X) (hB : (rowMajor g.n).Stores g.B Y)
    (hC : g.C.length = g.n * g.n) :
    ∃ xs, matMult g = .ok { g with C := xs } ∧ (rowMajor g.n).Stores xs (dot X Y g.n) := by
  obtain ⟨Z, hZ⟩ := exists_stores (rowMajor g.n) hC 0
  have hstart : (rowMajor g.n).Stores g.C (fill (Part 0 0 g.n 0 0) (dot X Y g.n) Z) := by
    rw [fill_part_start]
    exact hZ
  obtain ⟨s', hrun, xs, rfl, hxs⟩ := nest_rule (m := g.n) (n := g.n) (s := g)
    (f := fun i j (s : Globals α) => do
      let C ← store s.C (i * g.n + j) 0
      upTo g.n (fun k => addProduct (i * g.n + j) (i * g.n + k) (k * g.n + j)) { s with C := C })
    (I := fun i j s => ∃ xs, s = { g with C := xs } ∧
      (rowMajor g.n).Stores xs (fill (Part 0 0 g.n i j) (dot X Y g.n) Z))
    ⟨g.C, rfl, hstart⟩
    (fun i hi j hj s hI => by
      obtain ⟨xs, rfl, hxs⟩ := hI
      obtain ⟨ys, hys, hstores⟩ := addProducts_stores (k := 0)
        (g := { g with C := xs.set ((rowMajor g.n).place i j) 0 }) hA hB (hxs.set hi hj 0) hi hj
        (Nat.zero_add g.n).le rfl (fun t _ => congrArg (i * g.n + ·) (Nat.zero_add t).symm)
        (fun t _ => congrArg (· * g.n + j) (Nat.zero_add t).symm) (update_cell _ _ _ _)
      refine ⟨_, ?_, ys, rfl, ?_⟩
      · exact (congrArg (· >>= _) (store_cell hxs hi hj 0)).trans hys
      · have hstep := fill_part_step (r := 0) (c := 0) (m := i) (f := dot X Y g.n) (X := Z) hj
        rw [Nat.zero_add, Nat.zero_add] at hstep
        rw [update_twice, Nat.zero_add, hstep] at hstores
        exact hstores)
    (fun i _ s hI => by
      obtain ⟨xs, rfl, hxs⟩ := hI
      rw [fill_part_row] at hxs
      exact ⟨xs, rfl, hxs⟩)
  refine ⟨xs, hrun, hxs.congr fun i hi j hj => ?_⟩
  exact if_pos ⟨Nat.zero_le i, Nat.zero_le j, by omega, .inl (by omega)⟩

end Products

/-! ## The whole program -/

/-- The numbers with even positions go to `A`, and those with odd ones to `B`. -/
theorem getMatrices_stores (random : Nat → α) {A B : List α} (hA : A.length = n * n)
    (hB : B.length = n * n) : ∃ s, getMatrices random A B n = .ok s ∧
      (rowMajor n).Stores s.A (fun i j => random (2 * (i * n + j))) ∧
      (rowMajor n).Stores s.B (fun i j => random (2 * (i * n + j) + 1)) := by
  obtain ⟨s, hrun, _, hlenA, hlenB, hdrawn⟩ := upTo_rule (n := n * n)
    (s := { A := A, B := B, drawn := 0 })
    (f := fun i (s : Factors α) => do
      let A ← store s.A i (random s.drawn)
      let B ← store s.B i (random (s.drawn + 1))
      .ok { A := A, B := B, drawn := s.drawn + 2 })
    (I := fun t s => s.drawn = 2 * t ∧ s.A.length = n * n ∧ s.B.length = n * n ∧
      ∀ p < t, s.A[p]? = some (random (2 * p)) ∧ s.B[p]? = some (random (2 * p + 1)))
    ⟨rfl, hA, hB, fun p hp => absurd hp (Nat.not_lt_zero p)⟩
    fun t ht s hI => by
      obtain ⟨hdrawn, hlenA, hlenB, hbefore⟩ := hI
      refine ⟨⟨s.A.set t (random s.drawn), s.B.set t (random (s.drawn + 1)), s.drawn + 2⟩, ?_, ?_⟩
      · rw [store, if_pos (hlenA.symm ▸ ht), ok_bind, store, if_pos (hlenB.symm ▸ ht), ok_bind]
      · refine ⟨by rw [hdrawn]; rfl, by rw [List.length_set, hlenA],
          by rw [List.length_set, hlenB], fun p hp => ?_⟩
        rcases Nat.lt_succ_iff_lt_or_eq.mp hp with hlt | rfl
        · rw [List.getElem?_set_ne hlt.ne', List.getElem?_set_ne hlt.ne']
          exact hbefore p hlt
        · rw [List.getElem?_set_self (hlenA.symm ▸ ht), List.getElem?_set_self (hlenB.symm ▸ ht),
            hdrawn]
          exact ⟨rfl, rfl⟩
  exact ⟨s, hrun, ⟨hlenA, fun hi hj => (hdrawn _ (flat_lt hi hj)).1⟩,
    hlenB, fun hi hj => (hdrawn _ (flat_lt hi hj)).2⟩

/-- The lines of a matrix. -/
def listing (fmt : α → List Char) (X : Nat → Nat → α) (n : Nat) : List Char :=
  (List.range n).flatMap fun i => (List.range n).flatMap (fun j => fmt (X i j)) ++ ['\n']

theorem printMatrix_stores (fmt : α → List Char) (h : (rowMajor n).Stores xs X) :
    printMatrix fmt xs n = .ok (listing fmt X n) := by
  let line i := (List.range n).flatMap (fun j => fmt (X i j)) ++ ['\n']
  obtain ⟨stdout, hrun, hstdout⟩ := nest_rule_after (m := n) (n := n) (s := ([] : List Char))
    (f := fun i j stdout => do
      let value ← load xs (i * n + j)
      .ok (stdout ++ fmt value))
    (g := fun stdout => .ok (stdout ++ ['\n']))
    (I := fun i j stdout => stdout =
      (List.range i).flatMap line ++ (List.range j).flatMap fun j => fmt (X i j))
    rfl
    (fun i hi j hj stdout hI => by
      refine ⟨_, (congrArg (· >>= _) (load_cell h hi hj)).trans rfl, ?_⟩
      rw [hI, List.range_succ, List.flatMap_append, List.append_assoc]
      simp only [List.flatMap_cons, List.flatMap_nil, List.append_nil])
    (fun i _ stdout hI => by
      refine ⟨_, rfl, ?_⟩
      rw [hI, List.range_succ, List.flatMap_append, List.range_zero]
      simp only [List.flatMap_cons, List.flatMap_nil, List.append_nil, List.append_assoc, line])
  rw [printMatrix, hrun, hstdout, List.range_zero, List.flatMap_nil, List.append_nil]
  rfl

/-- `main` multiplies the random matrices, whatever memory `malloc` finds, and prints the product. -/
theorem Matmul.main_prints [Zero α] [Add α] [Mul α] (debug : Bool) (random : Nat → α)
    (fmt : α → List Char) (garbage : Nat → Nat → α) (hmax : n * n < 2 ^ 31) :
    ∃ stdout g, Matmul.main debug random fmt garbage n = .ok (stdout, g) ∧
      (rowMajor n).Stores g.C (dot (fun i j => random (2 * (i * n + j)))
        (fun i j => random (2 * (i * n + j) + 1)) n) ∧
      stdout = if debug then "Standard algorithm\n".toList ++
        listing fmt (dot (fun i j => random (2 * (i * n + j)))
          (fun i j => random (2 * (i * n + j) + 1)) n) n else [] := by
  obtain ⟨s, hs, hA, hB⟩ := getMatrices_stores random (length_malloc (garbage 0) (n * n))
    (length_malloc (garbage 1) (n * n))
  obtain ⟨xs, hxs, hC⟩ := matMult_stores
    (g := ⟨s.A, s.B, malloc (garbage 2) (n * n), none, n, 0, 0, 0⟩) hA hB (length_malloc _ _)
  rw [Matmul.main, need_of hmax, ok_bind]
  dsimp only
  rw [hs, ok_bind, hxs, ok_bind]
  cases debug with
  | false => exact ⟨_, _, rfl, hC, rfl⟩
  | true =>
    rw [if_pos rfl, printMatrix_stores fmt hC]
    exact ⟨_, _, rfl, hC, rfl⟩

end TracePrograms

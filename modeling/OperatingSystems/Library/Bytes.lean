-- SUMMARY: Memory as a map from addresses to bytes: loading and storing runs of bytes, and little-endian words.
import Mathlib.Data.Nat.Basic
import Mathlib.Data.List.Basic
import Mathlib.Tactic.Ring

/-!
# Byte memory

A memory gives a byte for each address. `load` reads and `store` writes a run of consecutive
bytes; the laws say what a load sees after a store to the same place, inside it, or away from it.
-/

namespace Library

abbrev Byte := BitVec 8

abbrev Memory := Nat → Byte

namespace Memory

/-- The `n` bytes from address `a` on. -/
def load (m : Memory) (a : Nat) : Nat → List Byte
  | 0 => []
  | n + 1 => m a :: load m (a + 1) n

/-- Write the bytes from address `a` on. -/
def store (m : Memory) (a : Nat) (bs : List Byte) : Memory :=
  fun i => if a ≤ i ∧ i < a + bs.length then bs.getD (i - a) 0 else m i

variable {m m' : Memory} {a b n : Nat} {bs : List Byte}

@[simp] theorem length_load : (load m a n).length = n := by
  induction n generalizing a with
  | zero => rfl
  | succ n ih => simp [load, ih]

theorem load_congr (h : ∀ i, a ≤ i → i < a + n → m i = m' i) : load m a n = load m' a n := by
  induction n generalizing a with
  | zero => rfl
  | succ n ih =>
    simp only [load]
    rw [h a (by omega) (by omega), ih (fun i h1 h2 => h i (by omega) (by omega))]

theorem load_add (k : Nat) : load m a (n + k) = load m a n ++ load m (a + n) k := by
  induction n generalizing a with
  | zero => simp [load]
  | succ n ih =>
    rw [Nat.succ_add, load, load, ih, List.cons_append]
    congr 3
    omega

theorem getElem?_load {i : Nat} : (load m a n)[i]? = if i < n then some (m (a + i)) else none := by
  induction n generalizing a i with
  | zero => simp [load]
  | succ n ih =>
    cases i with
    | zero => simp [load]
    | succ i =>
      rw [load, List.getElem?_cons_succ, ih]
      simp [Nat.add_left_comm, Nat.add_comm]

theorem store_of_lt {i : Nat} (h : i < a) : store m a bs i = m i :=
  if_neg (by omega)

theorem store_of_le {i : Nat} (h : a + bs.length ≤ i) : store m a bs i = m i :=
  if_neg (by omega)

theorem store_cons (b : Byte) : store m a (b :: bs) = store (Function.update m a b) (a + 1) bs := by
  funext i
  simp only [store, List.length_cons]
  by_cases hi : i = a
  · subst hi
    have h1 : i ≤ i ∧ i < i + (bs.length + 1) := by omega
    have h2 : ¬(i + 1 ≤ i ∧ i < i + 1 + bs.length) := by omega
    rw [if_pos h1, if_neg h2, Function.update_self, Nat.sub_self, List.getD_cons_zero]
  · have hiff : (a + 1 ≤ i ∧ i < a + 1 + bs.length) ↔ (a ≤ i ∧ i < a + (bs.length + 1)) := by omega
    simp only [hiff]
    split
    · have hsub : i - a = (i - (a + 1)) + 1 := by omega
      rw [hsub, List.getD_cons_succ]
    · rw [Function.update_of_ne hi]

@[simp] theorem load_store_self : load (store m a bs) a bs.length = bs := by
  induction bs generalizing m a with
  | nil => rfl
  | cons b bs ih =>
    rw [store_cons, List.length_cons, load, ih, store_of_lt (by omega), Function.update_self]

/-- A load sees the bytes last stored at its place. -/
theorem load_store_eq (h : bs.length = n) : load (store m a bs) a n = bs := by
  subst h; exact load_store_self

/-- Storing what is there changes nothing. -/
@[simp] theorem store_load : store m a (load m a n) = m := by
  funext i
  rw [store, length_load]
  split
  · rw [List.getD_eq_getElem?_getD, getElem?_load, if_pos (by omega), Option.getD_some]
    congr 1
    omega
  · rfl

/-- A load does not see a store to other addresses. -/
theorem load_store_disjoint (h : a + n ≤ b ∨ b + bs.length ≤ a) :
    load (store m b bs) a n = load m a n := by
  apply load_congr
  intro i h1 h2
  rcases h with h | h
  · exact store_of_lt (by omega)
  · exact store_of_le (by omega)

/-- A part of a run of bytes is the run of bytes at its place. -/
theorem load_part {i k : Nat} (h : i + k ≤ n) : ((load m a n).drop i).take k = load m (a + i) k := by
  apply List.ext_getElem?
  intro j
  rw [List.getElem?_take, List.getElem?_drop, getElem?_load, getElem?_load]
  by_cases hj : j < k
  · rw [if_pos hj, if_pos (by omega), if_pos hj, Nat.add_assoc]
  · rw [if_neg hj, if_neg hj]

/-- A load around a store sees the new bytes between the old ones. -/
theorem load_store_inside {i : Nat} (h : i + bs.length ≤ n) :
    load (store m (a + i) bs) a n =
      (load m a n).take i ++ bs ++ (load m a n).drop (i + bs.length) := by
  have hn : n = i + (bs.length + (n - i - bs.length)) := by omega
  have htake : (load m a n).take i = load m a i := by
    simpa using load_part (m := m) (a := a) (n := n) (i := 0) (k := i) (by omega)
  have hdrop : (load m a n).drop (i + bs.length) =
      load m (a + i + bs.length) (n - i - bs.length) := by
    have hpart := load_part (m := m) (a := a) (n := n) (i := i + bs.length)
      (k := n - i - bs.length) (by omega)
    rw [List.take_of_length_le (by simp; omega)] at hpart
    rw [hpart, Nat.add_assoc]
  rw [htake, hdrop]
  conv_lhs => rw [hn]
  rw [load_add, load_add, load_store_self, load_store_disjoint (.inl (by omega)),
    load_store_disjoint (.inr (by omega)), List.append_assoc]

end Memory

/-! ## Little-endian words -/

/-- The `w` low bytes of a number, the lowest first. -/
def leBytes : Nat → Nat → List Byte
  | 0, _ => []
  | w + 1, v => BitVec.ofNat 8 v :: leBytes w (v / 256)

/-- The number with the given bytes, the lowest first. -/
def ofLeBytes : List Byte → Nat
  | [] => 0
  | b :: bs => b.toNat + 256 * ofLeBytes bs

@[simp] theorem length_leBytes (w v : Nat) : (leBytes w v).length = w := by
  induction w generalizing v with
  | zero => rfl
  | succ w ih => simp [leBytes, ih]

/-- Reading a word back gives the number, cut to the width of the word. -/
theorem ofLeBytes_leBytes (w v : Nat) : ofLeBytes (leBytes w v) = v % 256 ^ w := by
  induction w generalizing v with
  | zero => simp [leBytes, ofLeBytes, Nat.mod_one]
  | succ w ih =>
    rw [leBytes, ofLeBytes, ih, pow_succ', Nat.mod_mul]
    simp

theorem leBytes_zero (w : Nat) : leBytes w 0 = List.replicate w 0 := by
  induction w with
  | zero => rfl
  | succ w ih =>
    rw [leBytes, Nat.zero_div, ih]
    rfl

/-- The bytes of the number that bytes make are these bytes. -/
theorem leBytes_ofLeBytes (bs : List Byte) : leBytes bs.length (ofLeBytes bs) = bs := by
  induction bs with
  | nil => rfl
  | cons b bs ih =>
    have hb := b.isLt
    have hdiv : (b.toNat + 256 * ofLeBytes bs) / 256 = ofLeBytes bs := by omega
    rw [List.length_cons, ofLeBytes, leBytes, hdiv, ih]
    congr 1
    apply BitVec.eq_of_toNat_eq
    rw [BitVec.toNat_ofNat]
    omega

/-- A word depends on the number only up to the width of the word. -/
theorem leBytes_mod (w v : Nat) : leBytes w (v % 256 ^ w) = leBytes w v := by
  induction w generalizing v with
  | zero => rfl
  | succ w ih =>
    rw [leBytes, leBytes, pow_succ', Nat.mod_mul]
    have hdiv : (v % 256 + 256 * (v / 256 % 256 ^ w)) / 256 = v / 256 % 256 ^ w := by omega
    rw [hdiv, ih]
    congr 1
    apply BitVec.eq_of_toNat_eq
    simp only [BitVec.toNat_ofNat]
    omega

end Library

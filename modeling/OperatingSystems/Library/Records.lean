-- SUMMARY: Chains of records of varying length in memory, where each record says how long it is.
import Mathlib.Algebra.BigOperators.Group.List.Basic
import OperatingSystems.Library.Bytes

/-!
# Records

A chain of records lies in memory one after the other, without gaps; a record tells its own size. A
chain that fills a place is determined by the memory there.
-/

namespace Library.Records

/-- A format of records. A valid record has a size, and is read from the bytes that it takes up. -/
structure Format (ρ : Type) where
  read : Memory → Nat → ρ
  size : ρ → Nat
  Valid : ρ → Prop
  size_pos : ∀ {r}, Valid r → 0 < size r
  congr : ∀ {m m' : Memory} {a}, Valid (read m a) →
    (∀ i, a ≤ i → i < a + size (read m a) → m' i = m i) → read m' a = read m a

variable {ρ : Type} {F : Format ρ} {m m' : Memory} {a : Nat} {r : ρ} {rs rs' : List ρ}

/-- The bytes that records take up together. -/
def sizes (F : Format ρ) (rs : List ρ) : Nat := (rs.map F.size).sum

@[simp] theorem sizes_nil : sizes F [] = 0 := rfl

@[simp] theorem sizes_cons : sizes F (r :: rs) = F.size r + sizes F rs := by simp [sizes]

@[simp] theorem sizes_append : sizes F (rs ++ rs') = sizes F rs + sizes F rs' := by simp [sizes]

/-- The records lie in memory one after the other, from an address on. -/
def Chain (F : Format ρ) (m : Memory) : Nat → List ρ → Prop
  | _, [] => True
  | a, r :: rs => F.read m a = r ∧ F.Valid r ∧ Chain F m (a + F.size r) rs

instance Chain.decidable [DecidableEq ρ] [DecidablePred F.Valid] :
    (a : Nat) → (rs : List ρ) → Decidable (Chain F m a rs)
  | _, [] => .isTrue trivial
  | a, r :: rs =>
    have := Chain.decidable (a + F.size r) rs
    inferInstanceAs (Decidable (F.read m a = r ∧ F.Valid r ∧ Chain F m (a + F.size r) rs))

namespace Chain

theorem append : Chain F m a (rs ++ rs') ↔ Chain F m a rs ∧ Chain F m (a + sizes F rs) rs' := by
  induction rs generalizing a with
  | nil => simp [Chain]
  | cons r rs ih =>
    rw [List.cons_append, Chain, Chain, ih, sizes_cons, Nat.add_assoc]
    tauto

/-- A chain stays where the memory under it stays. -/
theorem congr (h : Chain F m a rs) (hm : ∀ i, a ≤ i → i < a + sizes F rs → m' i = m i) :
    Chain F m' a rs := by
  induction rs generalizing a with
  | nil => trivial
  | cons r rs ih =>
    obtain ⟨rfl, hvalid, hrest⟩ := h
    rw [sizes_cons] at hm
    refine ⟨F.congr hvalid fun i h1 h2 => hm i h1 (by omega), hvalid, ?_⟩
    exact ih hrest fun i h1 h2 => hm i (by omega) (by omega)

theorem valid (h : Chain F m a rs) : ∀ r ∈ rs, F.Valid r := by
  induction rs generalizing a with
  | nil => simp
  | cons r rs ih =>
    obtain ⟨_, hvalid, hrest⟩ := h
    intro r' hr'
    cases List.mem_cons.mp hr' with
    | inl heq => exact heq ▸ hvalid
    | inr hin => exact ih hrest r' hin

theorem length_le_sizes (h : Chain F m a rs) : rs.length ≤ sizes F rs := by
  induction rs generalizing a with
  | nil => exact le_rfl
  | cons r rs ih =>
    have hpos := F.size_pos h.2.1
    have hrest := ih h.2.2
    rw [List.length_cons, sizes_cons]
    omega

theorem eq_nil_of_sizes (h : Chain F m a rs) (hsize : sizes F rs = 0) : rs = [] := by
  cases rs with
  | nil => rfl
  | cons r rs =>
    have hpos := F.size_pos h.2.1
    rw [sizes_cons] at hsize
    omega

/-- Of two chains that begin at the same place, the longer one begins with the shorter one. -/
theorem prefix_of_le (h : Chain F m a rs) (h' : Chain F m a rs') (hsize : sizes F rs ≤ sizes F rs') :
    ∃ ts, rs' = rs ++ ts := by
  induction rs generalizing a rs' with
  | nil => exact ⟨rs', rfl⟩
  | cons r rs ih =>
    obtain ⟨hread, hvalid, hrest⟩ := h
    rw [sizes_cons] at hsize
    cases rs' with
    | nil =>
      have hpos := F.size_pos hvalid
      rw [sizes_nil] at hsize
      omega
    | cons r' rs' =>
      obtain ⟨hread', _, hrest'⟩ := h'
      obtain rfl : r = r' := hread.symm.trans hread'
      rw [sizes_cons] at hsize
      obtain ⟨ts, rfl⟩ := ih hrest hrest' (by omega)
      exact ⟨ts, rfl⟩

/-- Memory determines a chain that fills a place. -/
theorem unique (h : Chain F m a rs) (h' : Chain F m a rs') (hsize : sizes F rs' = sizes F rs) :
    rs' = rs := by
  obtain ⟨ts, rfl⟩ := h.prefix_of_le h' hsize.ge
  rw [sizes_append] at hsize
  rw [(Chain.append.mp h').2.eq_nil_of_sizes (by omega), List.append_nil]

end Chain

end Library.Records

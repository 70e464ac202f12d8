-- SUMMARY: Strings of C in a buffer: the bytes up to a NUL, their parts, and strings without repeated separators.
import Mathlib.Data.List.Chain
import OperatingSystems.Library.Bytes

/-!
# Strings

A buffer is a run of bytes, and a pointer into it is an index. A string begins at an index and ends
before the next NUL. A separator divides a string into components, of which the empty ones do not
count.
-/

namespace Library

/-! ## Strings in a buffer -/

/-- The string that begins at an index, if a NUL ends it. -/
def stringAt (buf : List Byte) (i : Nat) : Option (List Byte) :=
  if 0 ∈ buf.drop i then some ((buf.drop i).takeWhile (· ≠ 0)) else none

/-- What `strncpy` puts into `n` bytes: the string, cut or filled up with NULs. -/
def strncpy (cs : List Byte) (n : Nat) : List Byte := cs.take n ++ List.replicate (n - cs.length) 0

section

variable {pre cs junk : List Byte}

/-- The bytes of a string without a NUL are the string. -/
theorem stringAt_append (h : 0 ∉ cs) : stringAt (pre ++ (cs ++ 0 :: junk)) pre.length = some cs := by
  rw [stringAt, List.drop_left, if_pos (by simp), List.takeWhile_append_of_pos]
  · simp
  · intro b hb
    have hne : b ≠ 0 := fun h0 => h (h0 ▸ hb)
    simpa using hne

theorem stringAt_zero (junk : List Byte) (h : 0 ∉ cs) : stringAt (cs ++ 0 :: junk) 0 = some cs :=
  @stringAt_append [] _ _ h

theorem strncpy_append : strncpy (cs ++ junk) cs.length = cs := by
  rw [strncpy, List.take_left, List.length_append, Nat.sub_eq_zero_of_le (Nat.le_add_right _ _)]
  simp

end

/-! ## Separators -/

section

variable {α : Type} [DecidableEq α] {sep : α} {xs ys : List α}

/-- The components of a string: the parts between separators that are not empty. -/
def components (sep : α) (xs : List α) : List (List α) := (xs.splitOn sep).filter (· ≠ [])

/-- Of a run of separators only the last one stays. -/
def squeeze (sep : α) : List α → List α
  | [] => []
  | x :: xs => if x = sep ∧ xs.head? = some sep then squeeze sep xs else x :: squeeze sep xs

/-- No two separators are next to each other. -/
def Squeezed (sep : α) (xs : List α) : Prop := xs.IsChain fun x y => ¬(x = sep ∧ y = sep)

theorem components_nil : components sep [] = [] := by simp [components]

theorem components_append_cons : components sep (xs ++ sep :: ys) = components sep xs ++ components sep ys := by
  rw [components, List.splitOn_append_cons_self, List.filter_append]
  rfl

theorem components_sep_cons : components sep (sep :: ys) = components sep ys := by
  have h := @components_append_cons _ _ sep [] ys
  rwa [components_nil] at h

theorem components_of_notMem (h : sep ∉ xs) (hne : xs ≠ []) : components sep xs = [xs] := by
  rw [components, List.splitOn_eq_singleton h, List.filter_cons_of_pos (by simpa using hne), List.filter_nil]

theorem squeeze_sep_cons : squeeze sep (sep :: xs) = sep :: squeeze sep (xs.dropWhile (· = sep)) := by
  induction xs with
  | nil => simp [squeeze]
  | cons x xs ih =>
    by_cases hx : x = sep
    · subst hx
      rw [squeeze, if_pos ⟨rfl, rfl⟩, ih, List.dropWhile_cons_of_pos (by simp)]
    · rw [squeeze, if_neg (by simp [hx]), List.dropWhile_cons_of_neg (by simpa using hx)]

/-- What lies before the first separator is kept. -/
theorem squeeze_append (h : sep ∉ xs) : squeeze sep (xs ++ ys) = xs ++ squeeze sep ys := by
  induction xs with
  | nil => rfl
  | cons x xs ih =>
    have hx : x ≠ sep := fun h0 => h (by simp [h0])
    rw [List.cons_append, squeeze, if_neg (by simp [hx]), ih (fun hmem => h (List.mem_cons_of_mem _ hmem)),
      List.cons_append]

theorem squeeze_eq_self (h : sep ∉ xs) : squeeze sep xs = xs := by
  simpa [squeeze] using @squeeze_append _ _ sep xs [] h

/-- A separator, and what is not one, begins the squeezed string as it began the string. -/
theorem head?_squeeze : (squeeze sep xs).head? = xs.head? := by
  induction xs with
  | nil => rfl
  | cons x xs ih =>
    rw [squeeze]
    split
    · rename_i h
      rw [ih, h.2, List.head?_cons, h.1]
    · rw [List.head?_cons, List.head?_cons]

theorem getLast?_squeeze : (squeeze sep xs).getLast? = xs.getLast? := by
  induction xs with
  | nil => rfl
  | cons x xs ih =>
    rw [squeeze]
    split
    · rename_i h
      obtain ⟨y, ys, rfl⟩ := List.exists_cons_of_ne_nil (l := xs) (by rintro rfl; simp at h)
      rw [ih, List.getLast?_cons_cons]
    · cases xs with
      | nil => simp [squeeze]
      | cons y ys =>
        have hne : squeeze sep (y :: ys) ≠ [] := by
          intro hnil
          have hhead := @head?_squeeze _ _ sep (y :: ys)
          rw [hnil] at hhead
          cases hhead
        obtain ⟨z, zs, hz⟩ := List.exists_cons_of_ne_nil hne
        rw [hz, List.getLast?_cons_cons, ← hz, ih, List.getLast?_cons_cons]

theorem squeezed_squeeze : Squeezed sep (squeeze sep xs) := by
  induction xs with
  | nil => exact .nil
  | cons x xs ih =>
    rw [squeeze]
    split
    · exact ih
    · rename_i h
      refine List.isChain_cons.mpr ⟨fun y hy => ?_, ih⟩
      rw [head?_squeeze] at hy
      rintro ⟨rfl, rfl⟩
      exact h ⟨rfl, hy⟩

theorem mem_of_mem_squeeze {x : α} (h : x ∈ squeeze sep xs) : x ∈ xs := by
  induction xs with
  | nil => exact h
  | cons y ys ih =>
    rw [squeeze] at h
    split at h
    · exact List.mem_cons_of_mem _ (ih h)
    · rcases List.mem_cons.mp h with rfl | hmem
      · exact List.mem_cons_self
      · exact List.mem_cons_of_mem _ (ih hmem)

/-- Only separators are left out. -/
theorem mem_squeeze {x : α} (h : x ∈ xs) (hne : x ≠ sep) : x ∈ squeeze sep xs := by
  induction xs with
  | nil => exact h
  | cons y ys ih =>
    rw [squeeze]
    rcases List.mem_cons.mp h with rfl | hmem
    · rw [if_neg fun h => hne h.1]
      exact List.mem_cons_self
    · split
      · exact ih hmem
      · exact List.mem_cons_of_mem _ (ih hmem)

/-- A string is a run without separators, or one up to its first separator. -/
theorem eq_or_split (sep : α) (xs : List α) :
    sep ∉ xs ∨ ∃ seg rest, xs = seg ++ sep :: rest ∧ sep ∉ seg := by
  by_cases h : sep ∈ xs
  · obtain ⟨seg, rest, rfl, hseg⟩ := List.eq_append_cons_of_mem h
    exact .inr ⟨seg, rest, rfl, hseg⟩
  · exact .inl h

/-- Squeezing keeps the components. -/
theorem components_squeeze : components sep (squeeze sep xs) = components sep xs := by
  induction hn : xs.length using Nat.strong_induction_on generalizing xs with
  | _ n ih =>
    rcases eq_or_split sep xs with h | ⟨seg, rest, rfl, hseg⟩
    · rw [squeeze_eq_self h]
    · have hdrop : components sep (rest.dropWhile (· = sep)) = components sep rest := by
        clear hn ih
        induction rest with
        | nil => rfl
        | cons x xs ih =>
          by_cases hx : x = sep
          · subst hx
            rw [List.dropWhile_cons_of_pos (by simp), ih, components_sep_cons]
          · rw [List.dropWhile_cons_of_neg (by simpa using hx)]
      have hlen : (rest.dropWhile (· = sep)).length < n := by
        have hle := (List.dropWhile_suffix (l := rest) (· = sep)).length_le
        rw [← hn, List.length_append, List.length_cons]
        omega
      rw [squeeze_append hseg, squeeze_sep_cons, components_append_cons, components_append_cons,
        ih _ hlen rfl, hdrop]

end

end Library

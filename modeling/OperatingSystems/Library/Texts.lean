-- SUMMARY: Texts that can be read back: pieces that mark their own end, decimal numbers, and runs of blanks printed as ranges.
import Mathlib.Data.List.Basic
import OperatingSystems.Library.Run

/-!
# Texts

A text is printed piece by piece. It can be taken apart again if each piece says where it ends, also
when a piece is made of pieces itself. A list in which most items are blank is printed with one piece
for each run of blanks.
-/

namespace Library

open Run

namespace Texts

variable {α β : Type} {text : β → List α} {start : α} {Good : List α → Prop} {x y : List α}
  {ps qs : List β}

/-! ## Pieces -/

/-- What can follow a piece so that its end is seen. All pieces begin alike, and one piece may follow
another. -/
structure Delimited (text : β → List α) (start : α) (Good : List α → Prop) : Prop where
  head : ∀ p x, (text p ++ x).head? = some start
  good : ∀ x, x.head? = some start → Good x
  split : ∀ p q x y, Good x → Good y → text p ++ x = text q ++ y → p = q ∧ x = y

namespace Delimited

theorem head_flatMap (h : Delimited text start Good) (hx : Good x) :
    Good (ps.flatMap text ++ x) := by
  cases ps with
  | nil => exact hx
  | cons p ps =>
    rw [List.flatMap_cons, List.append_assoc]
    exact h.good _ (h.head p _)

/-- The pieces of a text are determined, and so is what follows them. -/
theorem flatMap_split (h : Delimited text start Good) (hx : Good x) (hy : Good y)
    (hx' : x.head? ≠ some start) (hy' : y.head? ≠ some start)
    (heq : ps.flatMap text ++ x = qs.flatMap text ++ y) : ps = qs ∧ x = y := by
  induction ps generalizing qs with
  | nil =>
    cases qs with
    | nil => exact ⟨rfl, heq⟩
    | cons q qs =>
      rw [List.flatMap_nil, List.nil_append, List.flatMap_cons, List.append_assoc] at heq
      exact absurd (heq ▸ h.head q _) hx'
  | cons p ps ih =>
    cases qs with
    | nil =>
      rw [List.flatMap_nil, List.nil_append, List.flatMap_cons, List.append_assoc] at heq
      exact absurd (heq.symm ▸ h.head p _) hy'
    | cons q qs =>
      rw [List.flatMap_cons, List.flatMap_cons, List.append_assoc, List.append_assoc] at heq
      obtain ⟨rfl, hrest⟩ := h.split p q _ _ (h.head_flatMap hx) (h.head_flatMap hy) heq
      obtain ⟨rfl, rfl⟩ := ih hrest
      exact ⟨rfl, rfl⟩

end Delimited

/-! ## Decimal numbers -/

/-- `%d`. -/
def decimal : Int → List Char
  | .ofNat n => Nat.toDigits 10 n
  | .negSucc n => '-' :: Nat.toDigits 10 (n + 1)

/-- A number ends where something else than a digit follows. -/
theorem decimal_split {a b : Nat} {c d : Char} {x y : List Char} (hc : c.isDigit = false)
    (hd : d.isDigit = false)
    (h : Nat.toDigits 10 a ++ c :: x = Nat.toDigits 10 b ++ d :: y) : a = b ∧ c :: x = d :: y := by
  have htake : ∀ (n : Nat) (c : Char) (x : List Char), c.isDigit = false →
      (Nat.toDigits 10 n ++ c :: x).takeWhile Char.isDigit = Nat.toDigits 10 n := by
    intro n c x hc
    rw [List.takeWhile_append_of_pos fun e he =>
      Nat.isDigit_of_mem_toDigits (b := 10) (by decide) (Nat.le_refl 10) he, List.takeWhile_cons_of_neg (by simp [hc]),
      List.append_nil]
  have hdigits : Nat.toDigits 10 a = Nat.toDigits 10 b := by
    rw [← htake a c x hc, h, htake b d y hd]
  have heq : a = b := by
    rw [← Nat.ofDigitChars_ten_toDigits (n := a), hdigits, Nat.ofDigitChars_ten_toDigits]
  subst heq
  exact ⟨rfl, List.append_cancel_left h⟩

/-- The rest of a line ends at its newline. -/
theorem line_split {l l' x y : List Char} (hl : '\n' ∉ l) (hl' : '\n' ∉ l')
    (h : l ++ '\n' :: x = l' ++ '\n' :: y) : l = l' ∧ x = y := by
  have hlen := congrArg (List.idxOf '\n') h
  rw [List.idxOf_append_of_notMem hl, List.idxOf_append_of_notMem hl', List.idxOf_cons_self,
    List.idxOf_cons_self] at hlen
  obtain ⟨rfl, hrest⟩ := List.append_inj h (by omega)
  exact ⟨rfl, List.tail_eq_of_cons_eq hrest⟩

/-! ## Runs of blanks -/

/-- A run of blanks, from its first index to its last one, or an item. -/
inductive Piece (β : Type) where
  | blanks (first last : Nat)
  | item (i : Nat) (b : β)
deriving DecidableEq, Repr

/-- The pieces that are finished, and where the run of blanks begins that is not. -/
structure Pieces (β : Type) where
  done : List (Piece β)
  first : Option Nat
deriving DecidableEq, Repr

/-- The piece of a run that ends before an index. -/
def lastRun (first : Option Nat) (i : Nat) : List (Piece β) :=
  match first with
  | none => []
  | some first => [.blanks first (i - 1)]

/-- The pieces of the first items. -/
def pieces (f : Nat → Option β) : Nat → Pieces β
  | 0 => { done := [], first := none }
  | i + 1 =>
    let s := pieces f i
    match f i with
    | none => { s with first := some (s.first.getD i) }
    | some b => { done := s.done ++ lastRun s.first i ++ [.item i b], first := none }

/-- The number that a piece begins with. -/
def Piece.number : Piece β → Nat
  | .blanks first _ => first
  | .item i _ => i

/-- The item of a piece, with its index. -/
def Piece.item? : Piece β → Option (Nat × β)
  | .blanks _ _ => none
  | .item i b => some (i, b)

variable {f g : Nat → Option β} {n : Nat}

theorem filterMap_lastRun (first : Option Nat) (i : Nat) :
    (lastRun first i : List (Piece β)).filterMap Piece.item? = [] := by
  cases first <;> rfl

/-- The pieces have all items that are not blank. -/
theorem filterMap_pieces (f : Nat → Option β) (n : Nat) :
    (pieces f n).done.filterMap Piece.item? =
      (List.range n).filterMap fun i => (f i).map fun b => (i, b) := by
  induction n with
  | zero => rfl
  | succ n ih =>
    rw [List.range_succ, List.filterMap_append, ← ih, pieces]
    cases h : f n with
    | none => simp [h]
    | some b => simp [h, filterMap_lastRun, Piece.item?]

/-- The pieces of a list that ends. -/
def finished (f : Nat → Option β) (n : Nat) : List (Piece β) :=
  (pieces f n).done ++ lastRun (pieces f n).first n

theorem filterMap_finished (f : Nat → Option β) (n : Nat) : (finished f n).filterMap Piece.item? =
    (List.range n).filterMap fun i => (f i).map fun b => (i, b) := by
  rw [finished, List.filterMap_append, filterMap_lastRun, List.append_nil, filterMap_pieces]

theorem mem_items {i : Nat} {b : β} : (i, b) ∈ ((List.range n).filterMap fun i =>
    (f i).map fun b => (i, b)) ↔ i < n ∧ f i = some b := by
  rw [List.mem_filterMap]
  constructor
  · rintro ⟨j, hj, hpair⟩
    obtain ⟨b', hb', heq⟩ := Option.map_eq_some_iff.mp hpair
    cases heq
    exact ⟨List.mem_range.mp hj, hb'⟩
  · rintro ⟨hi, hb⟩
    exact ⟨i, List.mem_range.mpr hi, by rw [hb]; rfl⟩

/-- What is not blank in one list is in another one that has the same items. -/
theorem eq_of_items (h : ((List.range n).filterMap fun i => (f i).map fun b => (i, b)) =
    (List.range n).filterMap fun i => (g i).map fun b => (i, b)) {i : Nat} (hi : i < n) :
    f i = g i := by
  refine Option.ext fun b => ?_
  have hiff : (i < n ∧ f i = some b) ↔ i < n ∧ g i = some b := by
    rw [← mem_items, ← mem_items, h]
  simpa only [hi, true_and] using hiff

/-- The items can be read from the pieces, whether the last run of blanks is among them or not. -/
theorem eq_of_pieces (h : (pieces f n).done = (pieces g n).done) {i : Nat} (hi : i < n) :
    f i = g i :=
  eq_of_items (by rw [← filterMap_pieces, h, filterMap_pieces]) hi

theorem eq_of_finished (h : finished f n = finished g n) {i : Nat} (hi : i < n) : f i = g i :=
  eq_of_items (by rw [← filterMap_finished, h, filterMap_finished]) hi

end Texts

end Library

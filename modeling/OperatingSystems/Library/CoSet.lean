-- SUMMARY: Sets given by finitely many members or by finitely many exceptions.
import Mathlib.Data.Finset.Basic

/-!
# Finite and cofinite sets

A `CoSet` lists either the members of a set or everything that is not in it. Adding and removing
an element are the same operations on the two readings; forgetting an element drops it from the
list and means the opposite in each.
-/

namespace Library

/-- A set given by its members, or by all that is missing from it. -/
inductive CoSet (α : Type) where
  | only (members : Finset α)
  | allBut (missing : Finset α)
deriving DecidableEq

namespace CoSet

variable {α : Type}

instance : Membership α (CoSet α) where
  mem S a := match S with
    | only members => a ∈ members
    | allBut missing => a ∉ missing

@[simp] theorem mem_only {a : α} {F : Finset α} : a ∈ only F ↔ a ∈ F := Iff.rfl

@[simp] theorem mem_allBut {a : α} {F : Finset α} : a ∈ allBut F ↔ a ∉ F := Iff.rfl

variable [DecidableEq α]

instance (a : α) (S : CoSet α) : Decidable (a ∈ S) :=
  match S with
  | only F => inferInstanceAs (Decidable (a ∈ F))
  | allBut F => inferInstanceAs (Decidable (a ∉ F))

def add (a : α) : CoSet α → CoSet α
  | only F => only (insert a F)
  | allBut F => allBut (F.erase a)

def remove (a : α) : CoSet α → CoSet α
  | only F => only (F.erase a)
  | allBut F => allBut (insert a F)

/-- Drop an element from the list, whichever reading the list has. -/
def forget (a : α) : CoSet α → CoSet α
  | only F => only (F.erase a)
  | allBut F => allBut (F.erase a)

@[simp] theorem mem_add {a b : α} {S : CoSet α} : b ∈ S.add a ↔ b ∈ S ∨ b = a := by
  cases S with
  | only F => simp [add, or_comm]
  | allBut F => simp only [add, mem_allBut, Finset.mem_erase]; tauto

@[simp] theorem mem_remove {a b : α} {S : CoSet α} : b ∈ S.remove a ↔ b ∈ S ∧ b ≠ a := by
  cases S with
  | only F => simp [remove, and_comm]
  | allBut F => simp only [remove, mem_allBut, Finset.mem_insert]; tauto

/-- The set is given by what is missing. -/
def cofinite : CoSet α → Bool
  | only _ => false
  | allBut _ => true

omit [DecidableEq α] in
@[simp] theorem cofinite_only {F : Finset α} : (only F).cofinite = false := rfl

omit [DecidableEq α] in
@[simp] theorem cofinite_allBut {F : Finset α} : (allBut F).cofinite = true := rfl

theorem cofinite_add {a : α} {S : CoSet α} : (S.add a).cofinite = S.cofinite := by
  cases S <;> rfl

theorem cofinite_remove {a : α} {S : CoSet α} : (S.remove a).cofinite = S.cofinite := by
  cases S <;> rfl

end CoSet

end Library

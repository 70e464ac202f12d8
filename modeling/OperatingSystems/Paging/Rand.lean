-- SUMMARY: The rand replacement algorithm, which may choose any frame.
import OperatingSystems.Paging.Residency

/-!
# Random replacement

`rand_evict` answers with the next number of `random()`, reduced to an index of the coremap.
-/

namespace Paging

variable {φ : Type}

/-- The state of `random()`: its numbers, and how many have been drawn. -/
structure Random where
  number : Nat → Nat
  drawn : Nat

/-- `rand_evict`. -/
def randEvict (s : Sim Random φ) : Except Fault (Nat × Sim Random φ) :=
  let idx := s.alg.number s.alg.drawn % s.memsize
  .ok (idx, { s with alg := { s.alg with drawn := s.alg.drawn + 1 } })

/-- `rand_ref`. -/
def randRef (_ : PtePtr) (s : Sim Random φ) : Except Fault (Sim Random φ) := .ok s

/-- The algorithm under the name `rand`. -/
def rand : Functions Random φ := { init := id, ref := randRef, evict := randEvict }

theorem rand_chooses : (rand : Functions Random φ).Chooses where
  init s := .refl s
  ref p s s' h := by
    cases h
    exact .refl s
  evict s f s' h := by
    cases h
    exact { PolicyStep.refl s with entry := (PolicyStep.refl s).entry }
  answers_ref p s := ⟨s, rfl⟩
  answers_evict s h := ⟨_, _, rfl, Nat.mod_lt _ h⟩

end Paging

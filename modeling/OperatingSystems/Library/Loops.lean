-- SUMMARY: The rounds of a loop, loops that end because a measure decreases, and loops that stand still.
import OperatingSystems.Library.Process

/-!
# Loops

The rounds of a loop lead from one value and state to others. A loop whose rounds decrease a measure
does not run out of rounds, and one that comes to a value and state that it keeps always does.
-/

namespace Library.Process

variable {ε σ α β : Type} {body : α → Process ε σ (Round α β)} {e : ε} {a a' a'' : α} {s s' s'' : σ} {n : Nat}

/-- The rounds of a loop lead from a value and a state to others. -/
inductive Rounds (body : α → Process ε σ (Round α β)) (a : α) (s : σ) : α → σ → Prop where
  | refl : Rounds body a s a s
  | next {a' a'' : α} {s' s'' : σ} (h : Rounds body a s a' s')
      (hbody : (body a').run s' = .done (.next a'') s'') : Rounds body a s a'' s''

/-- What each round keeps holds after any number of them. -/
theorem Rounds.invariant {I : α → σ → Prop} (h : Rounds body a s a' s') (hI : I a s)
    (hbody : ∀ a s a' s', I a s → (body a).run s = .done (.next a') s' → I a' s') : I a' s' := by
  induction h with
  | refl => exact hI
  | next _ hstep ih => exact hbody _ _ _ _ ih hstep

/-- A loop whose rounds decrease a measure ends within its rounds. -/
theorem loop_ne_halted {I : α → σ → Prop} {d : α → Nat}
    (hbody : ∀ a s, I a s → (∀ s', (body a).run s ≠ .halted e s') ∧
      ∀ a' s', (body a).run s = .done (.next a') s' → I a' s' ∧ d a' < d a)
    (hI : I a s) (hn : d a < n) : (loop e body n a).run s ≠ .halted e s' := by
  induction n generalizing a s with
  | zero => omega
  | succ n ih =>
    obtain ⟨hne, hnext⟩ := hbody a s hI
    cases h : (body a).run s with
    | halted e' s₁ =>
      rw [loop_of_halted h]
      intro heq
      cases heq
      exact hne s' h
    | done r s₁ =>
      cases r with
      | next a' =>
        obtain ⟨hI', hlt⟩ := hnext a' s₁ h
        rw [loop_of_next h]
        exact ih hI' (by omega)
      | stop b =>
        rw [loop_of_stop h]
        intro heq
        cases heq

/-- A loop that comes to a value and a state that it keeps runs out of any number of rounds. -/
theorem loop_of_stuck (h : Rounds body a s a' s') (hstuck : (body a').run s' = .done (.next a') s') :
    ∃ s'', (loop e body n a).run s = .halted e s'' := by
  have hloop : ∀ n, ∃ s'', (loop e body n a').run s' = .halted e s'' := by
    intro n
    induction n with
    | zero => exact ⟨s', rfl⟩
    | succ n ih =>
      rw [loop_of_next hstuck]
      exact ih
  suffices h : ∀ n, ∃ s'', (loop e body n a).run s = .halted e s'' from h n
  clear hstuck
  induction h with
  | refl => exact hloop
  | @next a₁ a₂ s₁ s₂ h hbody ih =>
    refine ih fun n => ?_
    cases n with
    | zero => exact ⟨s₁, rfl⟩
    | succ n =>
      rw [loop_of_next hbody]
      exact hloop n

/-! ## Processes that never halt for a reason -/

/-- However the process ends, it does not halt for the reason `e`. -/
def Never (e : ε) (x : Process ε σ α) : Prop := ∀ s s', x.run s ≠ .halted e s'

namespace Never

variable {x y : Process ε σ α} {f : α → Process ε σ β}

theorem pure (b : β) : Never e (pure b : Process ε σ β) := fun _ _ h => by cases h

theorem halt {e' : ε} (h : e' ≠ e) : Never e (halt e' : Process ε σ β) := by
  intro s s' heq
  cases heq
  exact h rfl

theorem get : Never e (get : Process ε σ σ) := fun _ _ h => by cases h

theorem modify (g : σ → σ) : Never e (modify g : Process ε σ Unit) := fun _ _ h => by cases h

theorem bind (hx : Never e x) (hf : ∀ a, Never e (f a)) : Never e (x >>= f) := by
  intro s s' h
  rcases bind_eq_halted.mp h with h | ⟨a, s₁, _, h⟩
  · exact hx s s' h
  · exact hf a s₁ s' h

theorem ite {c : Prop} [Decidable c] (hx : Never e x) (hy : Never e y) : Never e (if c then x else y) := by
  split
  · exact hx
  · exact hy

end Never

end Library.Process

-- SUMMARY: Processes: computations on a state that may halt early and leave the state behind, their loops, and rules of pre- and postconditions.
import Mathlib.Tactic.Common

/-!
# Processes

A process works on a state and ends with a value, or halts early. Either way it leaves a state
behind, which is what other programs see of it. A loop is given by its body, which says whether it
goes round again, and by a number of rounds after which it is taken to run forever.
-/

namespace Library

/-- How a process comes to its end: with a value, or halted for a reason. -/
inductive Outcome (ε σ α : Type) where
  | done (a : α) (s : σ)
  | halted (e : ε) (s : σ)

/-- The state that is left behind. -/
def Outcome.state {ε σ α : Type} : Outcome ε σ α → σ
  | .done _ s => s
  | .halted _ s => s

/-- A computation on states `σ` with values `α` that may halt for a reason `ε`. -/
structure Process (ε σ α : Type) where
  run : σ → Outcome ε σ α

namespace Process

variable {ε σ α β γ : Type}

instance : Monad (Process ε σ) where
  pure a := ⟨fun s => .done a s⟩
  bind x f := ⟨fun s =>
    match x.run s with
    | .done a s' => (f a).run s'
    | .halted e s' => .halted e s'⟩

/-- Halt for a reason. -/
def halt (e : ε) : Process ε σ α := ⟨fun s => .halted e s⟩

/-- The state. -/
def get : Process ε σ σ := ⟨fun s => .done s s⟩

/-- Change the state. -/
def modify (g : σ → σ) : Process ε σ Unit := ⟨fun s => .done () (g s)⟩

variable {x : Process ε σ α} {f : α → Process ε σ β} {s s' : σ} {a : α} {b : β} {e : ε}

/-! ## One step after the other -/

@[simp] theorem run_pure : (pure a : Process ε σ α).run s = .done a s := rfl

@[simp] theorem run_halt : (halt e : Process ε σ α).run s = .halted e s := rfl

@[simp] theorem run_get : (get : Process ε σ σ).run s = .done s s := rfl

@[simp] theorem run_modify (g : σ → σ) : (modify g : Process ε σ Unit).run s = .done () (g s) := rfl

theorem bind_done (h : x.run s = .done a s') : (x >>= f).run s = (f a).run s' := by
  simp only [Bind.bind, h]

theorem bind_halted (h : x.run s = .halted e s') : (x >>= f).run s = .halted e s' := by
  simp only [Bind.bind, h]

@[simp] theorem pure_bind : (pure a : Process ε σ α) >>= f = f a := rfl

@[simp] theorem halt_bind : (halt e : Process ε σ α) >>= f = halt e := rfl

@[simp] theorem run_get_bind {f : σ → Process ε σ β} : (get >>= f).run s = (f s).run s := rfl

@[simp] theorem run_modify_bind {g : σ → σ} {f : Unit → Process ε σ β} :
    (modify g >>= f).run s = (f ()).run (g s) := rfl

@[simp] theorem bind_assoc {g : β → Process ε σ γ} : (x >>= f) >>= g = x >>= fun a => f a >>= g := by
  simp only [Bind.bind, mk.injEq]
  funext s
  cases x.run s with
  | done a s' => rfl
  | halted e s' => rfl

theorem bind_eq_done {t : σ} :
    (x >>= f).run s = .done b t ↔ ∃ a s', x.run s = .done a s' ∧ (f a).run s' = .done b t := by
  cases h : x.run s with
  | done a s' =>
    rw [bind_done h]
    constructor
    · intro hf
      exact ⟨a, s', rfl, hf⟩
    · rintro ⟨_, _, hx, hf⟩
      cases hx
      exact hf
  | halted e s' =>
    rw [bind_halted h]
    constructor
    · intro hf
      cases hf
    · rintro ⟨_, _, hx, _⟩
      cases hx

theorem bind_eq_halted {t : σ} :
    (x >>= f).run s = .halted e t ↔
      x.run s = .halted e t ∨ ∃ a s', x.run s = .done a s' ∧ (f a).run s' = .halted e t := by
  cases h : x.run s with
  | done a s' =>
    rw [bind_done h]
    constructor
    · intro hf
      exact .inr ⟨a, s', rfl, hf⟩
    · rintro (hx | ⟨_, _, hx, hf⟩)
      · cases hx
      · cases hx
        exact hf
  | halted e' s' =>
    rw [bind_halted h]
    constructor
    · intro hx
      cases hx
      exact .inl rfl
    · rintro (hx | ⟨_, _, hx, _⟩)
      · cases hx
        rfl
      · cases hx

/-! ## Loops -/

/-- What the body of a loop decides. -/
inductive Round (α β : Type) where
  | next (a : α)
  | stop (b : β)

/-- A loop with body `body`. Out of rounds, it halts for the reason `e`. -/
def loop (e : ε) (body : α → Process ε σ (Round α β)) : Nat → α → Process ε σ β
  | 0, _ => halt e
  | n + 1, a => do
    match ← body a with
    | .next a => loop e body n a
    | .stop b => pure b

section

variable {body : α → Process ε σ (Round α β)} {n : Nat}

@[simp] theorem run_loop_zero : (loop e body 0 a).run s = .halted e s := rfl

theorem loop_of_next {a' : α} (h : (body a).run s = .done (.next a') s') :
    (loop e body (n + 1) a).run s = (loop e body n a').run s' := by
  rw [loop, bind_done h]

theorem loop_of_stop (h : (body a).run s = .done (.stop b) s') :
    (loop e body (n + 1) a).run s = .done b s' := by
  rw [loop, bind_done h, run_pure]

theorem loop_of_halted {e' : ε} (h : (body a).run s = .halted e' s') :
    (loop e body (n + 1) a).run s = .halted e' s' := by
  rw [loop, bind_halted h]

end

/-! ## Processes that only read -/

/-- The process leaves the state as it found it, whether it ends or halts. -/
def ReadOnly (x : Process ε σ α) : Prop := ∀ s, (x.run s).state = s

namespace ReadOnly

theorem pure (a : α) : ReadOnly (pure a : Process ε σ α) := fun _ => rfl

theorem halt (e : ε) : ReadOnly (halt e : Process ε σ α) := fun _ => rfl

theorem get : ReadOnly (get : Process ε σ σ) := fun _ => rfl

theorem of_done (h : ReadOnly x) (hx : x.run s = .done a s') : s' = s := by
  have hs := h s
  rwa [hx] at hs

theorem of_halted (h : ReadOnly x) (hx : x.run s = .halted e s') : s' = s := by
  have hs := h s
  rwa [hx] at hs

theorem bind (hx : ReadOnly x) (hf : ∀ a, ReadOnly (f a)) : ReadOnly (x >>= f) := by
  intro s
  cases h : x.run s with
  | done a s' =>
    rw [bind_done h, hf a s', hx.of_done h]
  | halted e s' =>
    rw [bind_halted h]
    exact hx.of_halted h

theorem ite {c : Prop} [Decidable c] {x y : Process ε σ α} (hx : ReadOnly x) (hy : ReadOnly y) :
    ReadOnly (if c then x else y) := by
  split
  · exact hx
  · exact hy

theorem loop {body : α → Process ε σ (Round α β)} (h : ∀ a, ReadOnly (body a)) (n : Nat) (a : α) :
    ReadOnly (loop e body n a) := by
  induction n generalizing a with
  | zero => exact halt e
  | succ n ih =>
    refine bind (h a) fun r => ?_
    cases r with
    | next a => exact ih a
    | stop b => exact pure b

end ReadOnly

/-! ## Pre- and postconditions -/

/-- From a state with `P`, the process ends with a value and a state that `Q` allows, or it halts
and `E` allows that. -/
def Triple (P : σ → Prop) (x : Process ε σ α) (Q : α → σ → Prop) (E : ε → σ → Prop) : Prop :=
  ∀ s, P s → match x.run s with
    | .done a s' => Q a s'
    | .halted e s' => E e s'

namespace Triple

variable {P P' : σ → Prop} {Q Q' : α → σ → Prop} {R : β → σ → Prop} {E E' : ε → σ → Prop}

theorem of_done (h : Triple P x Q E) (hP : P s) (hx : x.run s = .done a s') : Q a s' := by
  have hs := h s hP
  rwa [hx] at hs

theorem of_halted (h : Triple P x Q E) (hP : P s) (hx : x.run s = .halted e s') : E e s' := by
  have hs := h s hP
  rwa [hx] at hs

theorem pure (h : ∀ s, P s → Q a s) : Triple P (pure a) Q E := h

theorem halt (h : ∀ s, P s → E e s) : Triple P (halt e : Process ε σ α) Q E := h

theorem bind (hx : Triple P x Q E) (hf : ∀ a, Triple (Q a) (f a) R E) : Triple P (x >>= f) R E := by
  intro s hP
  cases h : x.run s with
  | done a s' =>
    rw [bind_done h]
    exact hf a s' (hx.of_done hP h)
  | halted e s' =>
    rw [bind_halted h]
    exact hx.of_halted hP h

theorem weaken (h : Triple P x Q E) (hP : ∀ s, P' s → P s) (hQ : ∀ a s, Q a s → Q' a s)
    (hE : ∀ e s, E e s → E' e s) : Triple P' x Q' E' := by
  intro s hs
  cases hx : x.run s with
  | done a s' => exact hQ a s' (h.of_done (hP s hs) hx)
  | halted e s' => exact hE e s' (h.of_halted (hP s hs) hx)

/-- What holds of the state that is left behind, whether the process ends or halts. -/
theorem of_state {R : σ → Prop} (h : ∀ s, P s → R (x.run s).state) :
    Triple P x (fun _ => R) fun _ => R := by
  intro s hP
  have hs := h s hP
  cases hx : x.run s with
  | done a s' => rwa [hx] at hs
  | halted e s' => rwa [hx] at hs

theorem state {R : σ → Prop} (h : Triple P x (fun _ => R) fun _ => R) (hP : P s) :
    R (x.run s).state := by
  cases hx : x.run s with
  | done a s' => exact h.of_done hP hx
  | halted e s' => exact h.of_halted hP hx

/-- A process that only reads keeps what is known of the state. -/
theorem of_readOnly (h : ReadOnly x) (hE : ∀ e s, P s → E e s) : Triple P x (fun _ => P) E := by
  intro s hP
  cases hx : x.run s with
  | done a s' => exact h.of_done hx ▸ hP
  | halted e s' => exact hE e s' (h.of_halted hx ▸ hP)

/-- The rule for loops: each round keeps the invariant `I`, until the last one. -/
theorem loop {I : α → σ → Prop} {body : α → Process ε σ (Round α β)}
    (hbody : ∀ a, Triple (I a) (body a)
      (fun r s => match r with | .next a' => I a' s | .stop b => R b s) E)
    (hE : ∀ a s, I a s → E e s) (n : Nat) (a : α) : Triple (I a) (loop e body n a) R E := by
  induction n generalizing a with
  | zero => exact halt (hE a)
  | succ n ih =>
    refine bind (hbody a) fun r => ?_
    cases r with
    | next a' => exact ih a'
    | stop b => exact pure fun _ h => h

end Triple

end Process

end Library

-- SUMMARY: Threads that use no condition variables: where each of them is, what a step changes, and runs of one thread alone.
import OperatingSystems.Library.Threads

/-!
# Spinlocks

Without condition variables no thread sleeps, so each is at a control state at any time and a run
is a sequence of threads. The mutexes may as well be spinlocks.
-/

namespace Library.Threads

open Library.Run

variable {T M V G E : Type} {C : T → Type} {code : (t : T) → C t → Instr M V G (C t) E}
  {holds : (t : T) → C t → M → Prop} {s s' : State T M V G C} {t u : T} {m : M}

/-- Where a thread is. -/
def State.pc (s : State T M V G C) (t : T) : C t := (s.status t).ctrl

variable [IsEmpty V] [DecidableEq T] [DecidableEq M]

/-! ## Steps -/

namespace Owned

omit [DecidableEq T] [DecidableEq M] in
theorem status_eq (h : Owned code holds s) (t : T) : s.status t = .running (s.pc t) := by
  cases hs : s.status t with
  | running c => simp [State.pc, hs]
  | asleep v m c => exact isEmptyElim v
  | woken m c =>
    obtain ⟨_, v, _⟩ := h.woken t m c hs
    exact isEmptyElim v

omit [DecidableEq T] [DecidableEq M] in
theorem owner_iff (h : Owned code holds s) : s.owner m = some t ↔ holds t (s.pc t) m := by
  rw [h.owner, h.status_eq t]
  rfl

omit [DecidableEq T] [DecidableEq M] in
/-- A mutex has one holder at most. -/
theorem unique (h : Owned code holds s) (ht : holds t (s.pc t) m) (hu : holds u (s.pc u) m) :
    t = u := by
  rw [← h.owner_iff] at ht hu
  exact Option.some.inj (ht.symm.trans hu)

end Owned

/-- One thread runs the instruction it is at; the others stay where they are. -/
structure Stepped (code : (t : T) → C t → Instr M V G (C t) E) (s s' : State T M V G C) (t : T) :
    Prop where
  effect : (code t (s.pc t)).Effect s.mem (s'.pc t) s'.mem
  others : ∀ u, u ≠ t → s'.pc u = s.pc u

omit [IsEmpty V] [DecidableEq M] in
theorem Stepped.of_update {c : C t} (hstatus : s'.status = Function.update s.status t (.running c))
    (heffect : (code t (s.pc t)).Effect s.mem c s'.mem) : Stepped code s s' t where
  effect := by
    have hpc : s'.pc t = c := by simp [State.pc, hstatus]
    rw [hpc]
    exact heffect
  others u hu := by simp [State.pc, hstatus, hu]

variable [Fintype T] [DecidableEq V]

/-- One thread takes a step. -/
def turn (code : (t : T) → C t → Instr M V G (C t) E) (t : T) (s : State T M V G C) :
    Except (Stop E) (State T M V G C) :=
  step code (.run t none) s

theorem stepped_of_turn (howned : Owned code holds s) (h : turn code t s = .ok s') :
    Stepped code s s' t := by
  simp only [turn, step, howned.status_eq t] at h
  cases hcode : code t (s.pc t) with
  | lock m next =>
    simp only [hcode] at h
    split at h
    · cases h
      exact .of_update rfl (by simp [hcode, Instr.Effect])
    · cases h
  | unlock m next =>
    simp only [hcode] at h
    cases h
    exact .of_update rfl (by simp [hcode, Instr.Effect])
  | wait v m next => exact isEmptyElim v
  | signal v next => exact isEmptyElim v
  | compute f =>
    simp only [hcode] at h
    split at h
    case h_1 mem next hf =>
      cases h
      exact .of_update rfl (by simp [hcode, Instr.Effect, hf])
    case h_2 => cases h
  | exit =>
    simp only [hcode] at h
    cases h

/-- The rule for runs in which every step meets a condition on the state before it. -/
theorem exec_turns {I : State T M V G C → Prop} {P : T → State T M V G C → Prop} {order : List T}
    (hd : Discipline code holds) (h : Owned code holds s) (hI : I s)
    (halong : Along (turn code) P order s)
    (hstep : ∀ s s' t, Owned code holds s → Owned code holds s' → P t s → I s →
      Stepped code s s' t → I s')
    (hrun : exec (turn code) order s = .ok s') : Owned code holds s' ∧ I s' := by
  refine halong.invariant (I := fun s => Owned code holds s ∧ I s) ⟨h, hI⟩ ?_ hrun
  rintro t s₁ s₂ ⟨howned, hI₁⟩ hP hok
  have howned' := howned.moves hd (moves_of_step hok)
  exact ⟨howned', hstep s₁ s₂ t howned howned' hP hI₁ (stepped_of_turn howned hok)⟩

/-- The rule for runs in which every step keeps the invariant. -/
theorem exec_turns_of_forall {I : State T M V G C → Prop} {order : List T}
    (hd : Discipline code holds) (h : Owned code holds s) (hI : I s)
    (hstep : ∀ s s' t, Owned code holds s → I s → Stepped code s s' t → I s')
    (hrun : exec (turn code) order s = .ok s') : Owned code holds s' ∧ I s' :=
  exec_turns (P := fun _ _ => True) hd h hI (.of_forall (fun _ _ _ => trivial) s)
    (fun s s' t howned _ _ => hstep s s' t howned) hrun

/-! ## Progress -/

/-- If no thread can step, all are at their ends, or fail: the holder of a mutex that is awaited
would have to await a higher one. -/
theorem stuck_turns (rank : M → Nat) (bound : Nat) (howned : Owned code holds s)
    (hrank : ∀ t m next, code t (s.pc t) = .lock m next → ∀ m', holds t (s.pc t) m' →
      rank m' < rank m)
    (hbound : ∀ m, rank m ≤ bound)
    (hholder : ∀ t m, holds t (s.pc t) m → code t (s.pc t) ≠ .exit ∧
      ∀ f e, code t (s.pc t) = .compute f → f s.mem ≠ .error e)
    (hstuck : ∀ t s', turn code t s ≠ .ok s') (t : T) :
    (∀ m, s.owner m = none) ∧ (code t (s.pc t) = .exit ∨
      ∃ f e, code t (s.pc t) = .compute f ∧ f s.mem = .error e) := by
  have hcases : ∀ t, code t (s.pc t) = .exit ∨
      (∃ f e, code t (s.pc t) = .compute f ∧ f s.mem = .error e) ∨
      ∃ m next u, code t (s.pc t) = .lock m next ∧ s.owner m = some u := by
    intro t
    have hturn := hstuck t
    simp only [turn, step, howned.status_eq t] at hturn
    cases hcode : code t (s.pc t) with
    | lock m next =>
      cases ho : s.owner m with
      | some u => exact .inr (.inr ⟨m, next, u, rfl, ho⟩)
      | none => exact absurd (by simp only [hcode, ho, if_true]) (hturn (s.acquire t m next))
    | unlock m next =>
      exact absurd (by simp only [hcode]) (hturn (s.release t m (.running next)))
    | wait v m next => exact isEmptyElim v
    | signal v next => exact isEmptyElim v
    | compute f =>
      cases hf : f s.mem with
      | error e => exact .inr (.inl ⟨f, e, rfl, hf⟩)
      | ok r =>
        exact absurd (by simp only [hcode, hf])
          (hturn { s.setStatus t (.running r.2) with mem := r.1 })
    | exit => exact .inl rfl
  -- By induction from the highest mutex downwards, no mutex has a holder.
  have hfree : ∀ n m u, bound - rank m = n → s.owner m ≠ some u := by
    intro n
    induction n using Nat.strong_induction_on with
    | _ n ih =>
      intro m u hn howner
      have hheld := howned.owner_iff.mp howner
      obtain ⟨hexit, hfault⟩ := hholder u m hheld
      rcases hcases u with hcode | ⟨f, e, hcode, hf⟩ | ⟨m', next, v, hcode, howner'⟩
      · exact hexit hcode
      · exact hfault f e hcode hf
      · have hlt := hrank u m' next hcode m hheld
        have hle := hbound m'
        exact ih (bound - rank m') (by omega) m' v rfl howner'
  refine ⟨fun m => Option.eq_none_iff_forall_ne_some.mpr fun u => hfree _ m u rfl, ?_⟩
  rcases hcases t with hcode | hfault | ⟨m, next, u, _, howner⟩
  · exact .inl hcode
  · exact .inr hfault
  · exact absurd howner (hfree _ m u rfl)

/-! ## A thread alone -/

/-- The state with one thread at another place, other contents of the memory and other owners. -/
def State.put (s : State T M V G C) (t : T) (c : C t) (mem : G) (owner : M → Option T) :
    State T M V G C :=
  { mem := mem, status := Function.update s.status t (.running c), owner := owner }

/-- One thread runs, and the others wait. -/
def Alone (code : (t : T) → C t → Instr M V G (C t) E) (t : T) (s s' : State T M V G C) : Prop :=
  ∃ n, exec (turn code) (List.replicate n t) s = .ok s'

namespace Alone

variable {c next : C t} {mem mem' : G} {owner : M → Option T} {f : G → Except E (G × C t)}

omit [IsEmpty V] in
theorem refl (s : State T M V G C) : Alone code t s s := ⟨0, rfl⟩

omit [IsEmpty V] in
/-- Nothing is left to do. -/
theorem done {owner owner' : M → Option T} {c : C t} {mem mem' : G} (hmem : mem = mem')
    (howner : owner = owner') : Alone code t (s.put t c mem owner) (s.put t c mem' owner') := by
  subst hmem howner
  exact refl _

omit [IsEmpty V] in
theorem head (hstep : turn code t s = .ok s') {s'' : State T M V G C}
    (h : Alone code t s' s'') : Alone code t s s'' := by
  obtain ⟨n, hn⟩ := h
  refine ⟨n + 1, ?_⟩
  rw [List.replicate_succ, exec, hstep, ok_bind, hn]

omit [IsEmpty V] in
theorem trans {s'' : State T M V G C} (h : Alone code t s s') (h' : Alone code t s' s'') :
    Alone code t s s'' := by
  obtain ⟨n, hn⟩ := h
  obtain ⟨n', hn'⟩ := h'
  refine ⟨n + n', ?_⟩
  rw [List.replicate_add, exec_append_of_ok hn, hn']

omit [IsEmpty V] in
theorem lock (hcode : code t c = .lock m next) (hfree : owner m = none)
    (h : Alone code t (s.put t next mem (Function.update owner m (some t))) s') :
    Alone code t (s.put t c mem owner) s' := by
  refine head ?_ h
  simp [turn, step, State.put, hcode, hfree, State.acquire, State.setStatus]

omit [IsEmpty V] in
theorem unlock (hcode : code t c = .unlock m next)
    (h : Alone code t (s.put t next mem (Function.update owner m none)) s') :
    Alone code t (s.put t c mem owner) s' := by
  refine head ?_ h
  simp [turn, step, State.put, hcode, State.release, State.setStatus]

omit [IsEmpty V] in
theorem compute (hcode : code t c = .compute f) (hf : f mem = .ok (mem', next))
    (h : Alone code t (s.put t next mem' owner) s') : Alone code t (s.put t c mem owner) s' := by
  refine head ?_ h
  simp [turn, step, State.put, hcode, hf, State.setStatus]

omit [IsEmpty V] in
/-- What is left to do after the first step. -/
theorem tail {s'' : State T M V G C} (h : Alone code t s s'') (hstep : turn code t s = .ok s')
    (hne : s ≠ s'') : Alone code t s' s'' := by
  obtain ⟨n, hn⟩ := h
  cases n with
  | zero => exact absurd (Except.ok.inj hn) hne
  | succ n =>
    rw [List.replicate_succ, exec, hstep, ok_bind] at hn
    exact ⟨n, hn⟩

omit [IsEmpty V] in
/-- A thread that cannot take a step does nothing. -/
theorem eq_of_stuck (h : Alone code t s s') (hstuck : ∀ s', turn code t s ≠ .ok s') : s = s' := by
  obtain ⟨n, hn⟩ := h
  cases n with
  | zero => exact Except.ok.inj hn
  | succ n =>
    obtain ⟨s₁, hs₁, _⟩ := bind_eq_ok.mp hn
    exact absurd hs₁ (hstuck s₁)

end Alone

/-! ## A thread without the others -/

/-- The mutexes of a thread, as if the others had none. -/
def State.own (s : State T M V G C) (t : T) : M → Option T :=
  fun m => if s.owner m = some t then some t else none

/-- A step of a thread is one that it could take without the others, from a memory on which its
instruction has the same effect. -/
theorem turn_own {s₀ : State T M V G C} {mem mem' : G} (howned : Owned code holds s)
    (h : turn code t s = .ok s')
    (heffect : (code t (s.pc t)).Effect mem (s'.pc t) mem') :
    turn code t (s₀.put t (s.pc t) mem (s.own t)) =
      .ok (s₀.put t (s'.pc t) mem' (s'.own t)) := by
  simp only [turn, step, howned.status_eq t] at h
  cases hcode : code t (s.pc t) with
  | lock m next =>
    rw [hcode] at heffect
    obtain ⟨hnext, rfl⟩ := heffect
    simp only [hcode] at h
    split at h
    case isTrue hfree =>
      cases h
      have hown : (s.acquire t m next).own t = Function.update (s.own t) m (some t) := by
        funext m'
        by_cases hm : m' = m
        · subst hm
          simp [State.own, State.acquire, State.setStatus]
        · simp [State.own, State.acquire, State.setStatus, hm]
      have hnone : s.own t m = none := by simp [State.own, hfree]
      rw [hown, hnext]
      simp [turn, step, State.put, hcode, hnone, State.acquire, State.setStatus]
    case isFalse => cases h
  | unlock m next =>
    rw [hcode] at heffect
    obtain ⟨hnext, rfl⟩ := heffect
    simp only [hcode] at h
    cases h
    have hown : (s.release t m (.running next)).own t = Function.update (s.own t) m none := by
      funext m'
      by_cases hm : m' = m
      · subst hm
        simp [State.own, State.release, State.setStatus]
      · simp [State.own, State.release, State.setStatus, hm]
    rw [hown, hnext]
    simp [turn, step, State.put, hcode, State.release, State.setStatus]
  | wait v m next => exact isEmptyElim v
  | signal v next => exact isEmptyElim v
  | compute f =>
    rw [hcode] at heffect
    simp only [hcode] at h
    split at h
    case h_1 mem₁ next hf =>
      cases h
      simp only [turn, step, State.put, Function.update_self, hcode]
      rw [show f mem = _ from heffect]
      simp only [State.setStatus, Function.update_idem]
      rfl
    case h_2 => cases h
  | exit =>
    rw [hcode] at heffect
    exact heffect.elim

omit [DecidableEq M] [Fintype T] [DecidableEq V] in
/-- The mutexes of the other threads stay theirs. -/
theorem own_of_ne (howned : Owned code holds s) (howned' : Owned code holds s')
    (hstep : Stepped code s s' t) (hu : u ≠ t) : s'.own u = s.own u := by
  funext m
  have hiff : s'.owner m = some u ↔ s.owner m = some u := by
    rw [howned'.owner_iff, howned.owner_iff, hstep.others u hu]
  simp only [State.own, hiff]

end Library.Threads

-- SUMMARY: Threads with mutexes and condition variables: their steps, who owns which mutex, and freedom from deadlock.
import Mathlib.Data.Fintype.Defs
import Mathlib.Logic.Relation
import OperatingSystems.Library.Run

/-!
# Threads

Threads share a memory. Each runs a program given by the instruction at each of its control states.
Mutexes and condition variables are those of the threads library: a mutex is not recursive, a wait
gives up its mutex and takes it again before it returns, a signal wakes a waiter if there is one,
and a waiter can also wake up by itself.

A discipline says which mutexes a thread holds at a control state. It determines the owners in
every state of a run, and with an order of the mutexes it excludes that threads wait for each other
in a circle.
-/

namespace Library.Threads

open Library.Run

/-- An instruction, with the control state after it. A computation reads and writes the memory and
chooses the control state after it, or fails. -/
inductive Instr (M V G C E : Type) where
  | lock (m : M) (next : C)
  | unlock (m : M) (next : C)
  | wait (v : V) (m : M) (next : C)
  | signal (v : V) (next : C)
  | compute (f : G → Except E (G × C))
  | exit

/-- A thread is at a control state, asleep in a wait, or woken and about to take the mutex of the
wait again. -/
inductive Status (M V C : Type) where
  | running (c : C)
  | asleep (v : V) (m : M) (next : C)
  | woken (m : M) (next : C)

/-- The control state a thread is at, or returns to from its wait. -/
def Status.ctrl {M V C : Type} : Status M V C → C
  | .running c => c
  | .asleep _ _ c => c
  | .woken _ c => c

@[simp] theorem ctrl_running {M V C : Type} (c : C) :
    (Status.running c : Status M V C).ctrl = c := rfl
@[simp] theorem ctrl_asleep {M V C : Type} (v : V) (m : M) (c : C) :
    (Status.asleep v m c).ctrl = c := rfl
@[simp] theorem ctrl_woken {M V C : Type} (m : M) (c : C) :
    (Status.woken m c : Status M V C).ctrl = c := rfl

/-- Each thread has control states of its own. -/
structure State (T M V G : Type) (C : T → Type) where
  mem : G
  status : (t : T) → Status M V (C t)
  owner : M → Option T

/-- One thread runs its next instruction; if that is a signal, `waiter` is the thread it wakes. Or
a thread wakes up by itself. -/
inductive Action (T : Type) where
  | run (t : T) (waiter : Option T)
  | wake (t : T)

/-- Why there is no step. -/
inductive Stop (E : Type) where
  | blocked
  | fault (e : E)

variable {T M V G E : Type} {C : T → Type}

namespace State

/-- The thread sleeps on the condition variable. -/
def sleepsOn [DecidableEq V] (s : State T M V G C) (t : T) (v : V) : Bool :=
  match s.status t with
  | .asleep v' _ _ => v' = v
  | _ => false

variable [DecidableEq T]

def setStatus (s : State T M V G C) (t : T) (st : Status M V (C t)) : State T M V G C :=
  { s with status := Function.update s.status t st }

/-- Wake the thread if it sleeps. -/
def rouse (s : State T M V G C) (t : T) : State T M V G C :=
  match s.status t with
  | .asleep _ m c => s.setStatus t (.woken m c)
  | _ => s

variable [DecidableEq M]

/-- Take a mutex and go on. -/
def acquire (s : State T M V G C) (t : T) (m : M) (next : C t) : State T M V G C :=
  { s.setStatus t (.running next) with owner := Function.update s.owner m (some t) }

/-- Give up a mutex and go on, or to sleep. -/
def release (s : State T M V G C) (t : T) (m : M) (st : Status M V (C t)) : State T M V G C :=
  { s.setStatus t st with owner := Function.update s.owner m none }

end State

section

variable [DecidableEq T] {s : State T M V G C} {t : T} {st : Status M V (C t)} {m : M}
  {next : C t}

@[simp] theorem status_setStatus : (s.setStatus t st).status = Function.update s.status t st := rfl
@[simp] theorem owner_setStatus : (s.setStatus t st).owner = s.owner := rfl
@[simp] theorem mem_setStatus : (s.setStatus t st).mem = s.mem := rfl

variable [DecidableEq M]

@[simp] theorem status_acquire :
    (s.acquire t m next).status = Function.update s.status t (.running next) := rfl
@[simp] theorem owner_acquire :
    (s.acquire t m next).owner = Function.update s.owner m (some t) := rfl
@[simp] theorem mem_acquire : (s.acquire t m next).mem = s.mem := rfl
@[simp] theorem status_release : (s.release t m st).status = Function.update s.status t st := rfl
@[simp] theorem owner_release : (s.release t m st).owner = Function.update s.owner m none := rfl
@[simp] theorem mem_release : (s.release t m st).mem = s.mem := rfl

end

/-- The step of an action. -/
def step [DecidableEq T] [Fintype T] [DecidableEq M] [DecidableEq V]
    (code : (t : T) → C t → Instr M V G (C t) E) (a : Action T) (s : State T M V G C) :
    Except (Stop E) (State T M V G C) :=
  match a with
  | .wake t =>
    match s.status t with
    | .asleep _ _ _ => .ok (s.rouse t)
    | _ => .error .blocked
  | .run t waiter =>
    match s.status t with
    | .asleep _ _ _ => .error .blocked
    | .woken m next => if s.owner m = none then .ok (s.acquire t m next) else .error .blocked
    | .running c =>
      match code t c with
      | .lock m next => if s.owner m = none then .ok (s.acquire t m next) else .error .blocked
      | .unlock m next => .ok (s.release t m (.running next))
      | .wait v m next => .ok (s.release t m (.asleep v m next))
      | .signal v next =>
        match waiter with
        | some u =>
          if s.sleepsOn u v then .ok ((s.rouse u).setStatus t (.running next))
          else .error .blocked
        | none =>
          if ∀ u, s.sleepsOn u v = false then .ok (s.setStatus t (.running next))
          else .error .blocked
      | .compute f =>
        match f s.mem with
        | .ok (mem, next) => .ok { s.setStatus t (.running next) with mem := mem }
        | .error e => .error (.fault e)
      | .exit => .error .blocked

/-! ## What a step can do -/

/-- The steps, as a relation. -/
inductive Moves [DecidableEq T] [DecidableEq M] (code : (t : T) → C t → Instr M V G (C t) E) (s : State T M V G C) :
    State T M V G C → Prop where
  | lock {t c m next} (hc : s.status t = .running c) (hcode : code t c = .lock m next)
      (hfree : s.owner m = none) : Moves code s (s.acquire t m next)
  | relock {t m next} (hc : s.status t = .woken m next) (hfree : s.owner m = none) :
      Moves code s (s.acquire t m next)
  | unlock {t c m next} (hc : s.status t = .running c) (hcode : code t c = .unlock m next) :
      Moves code s (s.release t m (.running next))
  | wait {t c v m next} (hc : s.status t = .running c) (hcode : code t c = .wait v m next) :
      Moves code s (s.release t m (.asleep v m next))
  | wake {u v m c} (hu : s.status u = .asleep v m c) : Moves code s (s.setStatus u (.woken m c))
  | signal {t c v next u m d} (hc : s.status t = .running c) (hcode : code t c = .signal v next)
      (hu : s.status u = .asleep v m d) :
      Moves code s ((s.setStatus u (.woken m d)).setStatus t (.running next))
  | signalNone {t c v next} (hc : s.status t = .running c) (hcode : code t c = .signal v next)
      (hnone : ∀ u m d, s.status u ≠ .asleep v m d) : Moves code s (s.setStatus t (.running next))
  | compute {t c f mem next} (hc : s.status t = .running c) (hcode : code t c = .compute f)
      (hf : f s.mem = .ok (mem, next)) :
      Moves code s { s.setStatus t (.running next) with mem := mem }

variable {s s' : State T M V G C} {t u : T} {m m' : M} {v : V} {c next : C t}
  {code : (t : T) → C t → Instr M V G (C t) E}

/-- The thread sleeps on the condition variable. -/
def SleepsOn (s : State T M V G C) (t : T) (v : V) : Prop := ∃ m c, s.status t = .asleep v m c

theorem sleepsOn_eq_true [DecidableEq V] : s.sleepsOn t v = true ↔ SleepsOn s t v := by
  unfold State.sleepsOn SleepsOn
  cases hs : s.status t with
  | running c => simp
  | woken m c => simp
  | asleep v' m c =>
    simp only [decide_eq_true_eq]
    constructor
    · rintro rfl
      exact ⟨m, c, rfl⟩
    · rintro ⟨_, _, heq⟩
      cases heq
      rfl

variable [DecidableEq T]

theorem rouse_of_asleep (h : s.status t = .asleep v m c) :
    s.rouse t = s.setStatus t (.woken m c) := by
  unfold State.rouse
  rw [h]

variable [DecidableEq M]

theorem moves_of_step [Fintype T] [DecidableEq V] {a : Action T} (h : step code a s = .ok s') :
    Moves code s s' := by
  cases a with
  | wake t =>
    simp only [step] at h
    split at h
    case h_1 v m c hs =>
      cases h
      rw [rouse_of_asleep hs]
      exact .wake hs
    case h_2 => cases h
  | run t waiter =>
    simp only [step] at h
    split at h
    case h_1 => cases h
    case h_2 m c hs =>
      split at h
      case isTrue hfree =>
        cases h
        exact .relock hs hfree
      case isFalse => cases h
    case h_3 c hs =>
      split at h
      case h_1 m next hcode =>
        split at h
        case isTrue hfree =>
          cases h
          exact .lock hs hcode hfree
        case isFalse => cases h
      case h_2 m next hcode =>
        cases h
        exact .unlock hs hcode
      case h_3 v m next hcode =>
        cases h
        exact .wait hs hcode
      case h_4 v next hcode =>
        split at h
        case h_1 u =>
          split at h
          case isTrue hu =>
            obtain ⟨m, d, hu⟩ := sleepsOn_eq_true.mp hu
            cases h
            rw [rouse_of_asleep hu]
            exact .signal hs hcode hu
          case isFalse => cases h
        case h_2 =>
          split at h
          case isTrue hnone =>
            cases h
            refine .signalNone hs hcode ?_
            intro u m d hu
            have hon := sleepsOn_eq_true.mpr ⟨m, d, hu⟩
            rw [hnone u] at hon
            cases hon
          case isFalse => cases h
      case h_5 f hcode =>
        split at h
        case h_1 mem next hf =>
          cases h
          exact .compute hs hcode hf
        case h_2 => cases h
      case h_6 => cases h

/-- What an instruction does to the memory and to the control state of its thread. -/
def Instr.Effect {D : Type} (i : Instr M V G D E) (mem : G) (next : D) (mem' : G) : Prop :=
  match i with
  | .lock _ next' => next = next' ∧ mem' = mem
  | .unlock _ next' => next = next' ∧ mem' = mem
  | .wait _ _ next' => next = next' ∧ mem' = mem
  | .signal _ next' => next = next' ∧ mem' = mem
  | .compute f => f mem = .ok (mem', next)
  | .exit => False

/-- A step that shows only in who sleeps. -/
structure Idle (s s' : State T M V G C) : Prop where
  mem : s'.mem = s.mem
  ctrl : ∀ u, (s'.status u).ctrl = (s.status u).ctrl
  asleep : ∀ u v, SleepsOn s' u v → SleepsOn s u v

/-- A step in which a thread runs its instruction. It sleeps afterwards if that is a wait, and if
it is a signal, the one thread that can sleep on the condition variable does not. -/
structure Ran (code : (t : T) → C t → Instr M V G (C t) E) (s s' : State T M V G C) (t : T)
    (c : C t) : Prop where
  running : s.status t = .running c
  effect : (code t c).Effect s.mem (s'.status t).ctrl s'.mem
  ctrl : ∀ u, u ≠ t → (s'.status u).ctrl = (s.status u).ctrl
  asleep : ∀ u v, u ≠ t → SleepsOn s' u v → SleepsOn s u v
  waits : ∀ v, SleepsOn s' t v → ∃ m next, code t c = .wait v m next
  signals : ∀ v next u, code t c = .signal v next → (∀ w, SleepsOn s w v → w = u) →
    ¬SleepsOn s' u v

omit [DecidableEq M] in
theorem sleepsOn_setStatus_of_ne {st : Status M V (C t)} (hu : u ≠ t) :
    SleepsOn (s.setStatus t st) u v ↔ SleepsOn s u v := by
  simp [SleepsOn, hu]

omit [DecidableEq M] in
theorem not_sleepsOn_running : ¬SleepsOn (s.setStatus t (.running next)) t v := by
  simp [SleepsOn]

omit [DecidableEq M] in
theorem not_sleepsOn_woken : ¬SleepsOn (s.setStatus t (.woken m next)) t v := by
  simp [SleepsOn]

omit [DecidableEq M] in
/-- A thread goes on in a wait without running an instruction. -/
theorem Idle.of_update {st : Status M V (C t)} (hmem : s'.mem = s.mem)
    (hstatus : s'.status = Function.update s.status t st) (hctrl : st.ctrl = (s.status t).ctrl)
    (hawake : ∀ v m d, st ≠ .asleep v m d) : Idle s s' := by
  refine ⟨hmem, ?_, ?_⟩
  · intro u
    rw [hstatus]
    by_cases hu : u = t
    · subst hu
      rw [Function.update_self, hctrl]
    · rw [Function.update_of_ne hu]
  · rintro u v ⟨m, d, hs⟩
    rw [hstatus] at hs
    by_cases hu : u = t
    · subst hu
      rw [Function.update_self] at hs
      exact absurd hs (hawake v m d)
    · rw [Function.update_of_ne hu] at hs
      exact ⟨m, d, hs⟩

omit [DecidableEq M] in
/-- A thread runs an instruction that changes no other thread. -/
theorem Ran.of_update {st : Status M V (C t)} (hc : s.status t = .running c)
    (hstatus : s'.status = Function.update s.status t st)
    (heffect : (code t c).Effect s.mem st.ctrl s'.mem)
    (hwaits : ∀ v m d, st = .asleep v m d → ∃ next, code t c = .wait v m next)
    (hsignals : ∀ v next, code t c = .signal v next → ∀ u, ¬SleepsOn s' u v) :
    Ran code s s' t c := by
  have hself : s'.status t = st := by rw [hstatus, Function.update_self]
  have hother : ∀ u, u ≠ t → s'.status u = s.status u := by
    intro u hu
    rw [hstatus, Function.update_of_ne hu]
  refine ⟨hc, ?_, ?_, ?_, ?_, ?_⟩
  · rw [hself]
    exact heffect
  · intro u hu
    rw [hother u hu]
  · rintro u v hu ⟨m, d, hs⟩
    exact ⟨m, d, (hother u hu).symm.trans hs⟩
  · rintro v ⟨m, d, hs⟩
    obtain ⟨next, hcode⟩ := hwaits v m d (hself.symm.trans hs)
    exact ⟨m, next, hcode⟩
  · intro v next u hcode _
    exact hsignals v next hcode u

omit [DecidableEq M] in
/-- A thread wakes another one. -/
theorem Ran.of_signal {v : V} {w : T} {m : M} {d : C w} (hc : s.status t = .running c)
    (hcode : code t c = .signal v next) (hw : s.status w = .asleep v m d) :
    Ran code s ((s.setStatus w (.woken m d)).setStatus t (.running next)) t c := by
  refine ⟨hc, ?_, ?_, ?_, ?_, ?_⟩
  · simp [hcode, Instr.Effect]
  · intro u hu
    by_cases huw : u = w
    · subst huw
      simp [hu, hw]
    · simp [hu, huw]
  · intro u v' hu hs
    rw [sleepsOn_setStatus_of_ne hu] at hs
    by_cases huw : u = w
    · subst huw
      exact absurd hs not_sleepsOn_woken
    · exact (sleepsOn_setStatus_of_ne huw).mp hs
  · intro v' hs
    exact absurd hs not_sleepsOn_running
  · -- The one thread that can sleep on the condition variable is the one that is woken.
    intro v' next' u hsig honly hs
    rw [hcode] at hsig
    cases hsig
    obtain rfl := honly w ⟨m, d, hw⟩
    by_cases hut : w = t
    · subst hut
      exact not_sleepsOn_running hs
    · exact not_sleepsOn_woken ((sleepsOn_setStatus_of_ne hut).mp hs)

theorem Moves.cases (h : Moves code s s') : Idle s s' ∨ ∃ t c, Ran code s s' t c := by
  cases h with
  | @lock t c m next hc hcode hfree =>
    refine .inr ⟨t, c, .of_update hc rfl ?_ ?_ ?_⟩
    · simp [hcode, Instr.Effect]
    · intro v m' d hst
      cases hst
    · intro v next' hsig
      rw [hcode] at hsig
      cases hsig
  | @relock t m next hc hfree =>
    refine .inl (.of_update rfl (status_acquire (m := m)) ?_ ?_)
    · rw [hc]
      rfl
    · intro v m' d hst
      cases hst
  | @unlock t c m next hc hcode =>
    refine .inr ⟨t, c, .of_update hc rfl ?_ ?_ ?_⟩
    · simp [hcode, Instr.Effect]
    · intro v m' d hst
      cases hst
    · intro v next' hsig
      rw [hcode] at hsig
      cases hsig
  | @wait t c v m next hc hcode =>
    refine .inr ⟨t, c, .of_update hc rfl ?_ ?_ ?_⟩
    · simp [hcode, Instr.Effect]
    · intro v' m' d hst
      cases hst
      exact ⟨next, hcode⟩
    · intro v' next' hsig
      rw [hcode] at hsig
      cases hsig
  | @wake w v m c hw =>
    refine .inl (.of_update rfl status_setStatus ?_ ?_)
    · rw [hw]
      rfl
    · intro v' m' d hst
      cases hst
  | @signal t c v next w m d hc hcode hw => exact .inr ⟨t, c, .of_signal hc hcode hw⟩
  | @signalNone t c v next hc hcode hnone =>
    refine .inr ⟨t, c, .of_update hc rfl ?_ ?_ ?_⟩
    · simp [hcode, Instr.Effect]
    · intro v' m' d hst
      cases hst
    · intro v' next' hsig u hs
      rw [hcode] at hsig
      cases hsig
      by_cases hut : u = t
      · subst hut
        exact not_sleepsOn_running hs
      · obtain ⟨m, d, hu⟩ := (sleepsOn_setStatus_of_ne hut).mp hs
        exact hnone u m d hu
  | @compute t c f mem next hc hcode hf =>
    refine .inr ⟨t, c, .of_update hc rfl ?_ ?_ ?_⟩
    · simp [hcode, Instr.Effect, hf]
    · intro v m d hst
      cases hst
    · intro v next' hsig
      rw [hcode] at hsig
      cases hsig

/-! ## Ownership -/

/-- The mutexes of a thread, given those it holds at its control state. In a wait it lacks the
mutex of the wait. -/
def Status.Held {D : Type} (holds : D → M → Prop) : Status M V D → M → Prop
  | .running c, m => holds c m
  | .asleep _ m' c, m => holds c m ∧ m ≠ m'
  | .woken m' c, m => holds c m ∧ m ≠ m'

/-- Which mutexes a thread holds at a control state fits the instructions. -/
structure Discipline (code : (t : T) → C t → Instr M V G (C t) E) (holds : (t : T) → C t → M → Prop) : Prop where
  lock : ∀ {t c m next}, code t c = .lock m next →
    ∀ m', holds t next m' ↔ m' = m ∨ holds t c m'
  unlock : ∀ {t c m next}, code t c = .unlock m next →
    holds t c m ∧ ∀ m', holds t next m' ↔ holds t c m' ∧ m' ≠ m
  wait : ∀ {t c v m next}, code t c = .wait v m next →
    holds t c m ∧ ∀ m', holds t next m' ↔ holds t c m'
  signal : ∀ {t c v next}, code t c = .signal v next → ∀ m', holds t next m' ↔ holds t c m'
  compute : ∀ {t c f mem mem' next}, code t c = .compute f → f mem = .ok (mem', next) →
    ∀ m', holds t next m' ↔ holds t c m'

/-- The owner of a mutex is the one thread that holds it; a thread in a wait has come from a wait
instruction. -/
structure Owned (code : (t : T) → C t → Instr M V G (C t) E) (holds : (t : T) → C t → M → Prop)
    (s : State T M V G C) : Prop where
  owner : ∀ m t, s.owner m = some t ↔ (s.status t).Held (holds t) m
  asleep : ∀ t v m c, s.status t = .asleep v m c → ∃ d, code t d = .wait v m c
  woken : ∀ t m c, s.status t = .woken m c → ∃ d v, code t d = .wait v m c

variable {holds : (t : T) → C t → M → Prop}

namespace Owned

omit [DecidableEq T] [DecidableEq M] in
/-- Two threads do not hold the same mutex. -/
theorem exclusive (h : Owned code holds s) (ht : (s.status t).Held (holds t) m)
    (hu : (s.status u).Held (holds u) m) : t = u := by
  rw [← h.owner] at ht hu
  exact Option.some.inj (ht.symm.trans hu)

variable {st : Status M V (C t)}

omit [DecidableEq M] in
/-- A thread changes its status, but not its mutexes. -/
theorem setStatus (h : Owned code holds s)
    (hheld : ∀ m, st.Held (holds t) m ↔ (s.status t).Held (holds t) m)
    (hasleep : ∀ v m c, st = .asleep v m c → ∃ d, code t d = .wait v m c)
    (hwoken : ∀ m c, st = .woken m c → ∃ d v, code t d = .wait v m c) :
    Owned code holds (s.setStatus t st) where
  owner m u := by
    change s.owner m = some u ↔ (Function.update s.status t st u).Held (holds u) m
    by_cases hu : u = t
    · subst hu
      rw [Function.update_self, hheld]
      exact h.owner m u
    · rw [Function.update_of_ne hu]
      exact h.owner m u
  asleep u v m c hs := by
    change Function.update s.status t st u = _ at hs
    by_cases hu : u = t
    · subst hu
      rw [Function.update_self] at hs
      exact hasleep v m c hs
    · rw [Function.update_of_ne hu] at hs
      exact h.asleep u v m c hs
  woken u m c hs := by
    change Function.update s.status t st u = _ at hs
    by_cases hu : u = t
    · subst hu
      rw [Function.update_self] at hs
      exact hwoken m c hs
    · rw [Function.update_of_ne hu] at hs
      exact h.woken u m c hs

/-- A thread takes a mutex that is free. -/
theorem acquire (h : Owned code holds s) (hfree : s.owner m = none)
    (hheld : ∀ m', holds t next m' ↔ m' = m ∨ (s.status t).Held (holds t) m') :
    Owned code holds (s.acquire t m next) where
  owner m' u := by
    rw [owner_acquire, status_acquire]
    by_cases hu : u = t
    · subst hu
      rw [Function.update_self]
      refine Iff.trans ?_ (hheld m').symm
      by_cases hm : m' = m
      · subst hm
        simp
      · rw [Function.update_of_ne hm, h.owner]
        simp [hm]
    · rw [Function.update_of_ne hu, ← h.owner]
      by_cases hm : m' = m
      · subst hm
        simp [hfree, Ne.symm hu]
      · rw [Function.update_of_ne hm]
  asleep u v m c hs := by
    rw [status_acquire] at hs
    by_cases hu : u = t
    · subst hu
      rw [Function.update_self] at hs
      cases hs
    · rw [Function.update_of_ne hu] at hs
      exact h.asleep u v m c hs
  woken u m c hs := by
    rw [status_acquire] at hs
    by_cases hu : u = t
    · subst hu
      rw [Function.update_self] at hs
      cases hs
    · rw [Function.update_of_ne hu] at hs
      exact h.woken u m c hs

/-- A thread gives up a mutex of its own. -/
theorem release (h : Owned code holds s) (hm : (s.status t).Held (holds t) m)
    (hheld : ∀ m', st.Held (holds t) m' ↔ (s.status t).Held (holds t) m' ∧ m' ≠ m)
    (hasleep : ∀ v m c, st = .asleep v m c → ∃ d, code t d = .wait v m c)
    (hwoken : ∀ m c, st = .woken m c → ∃ d v, code t d = .wait v m c) :
    Owned code holds (s.release t m st) where
  owner m' u := by
    rw [owner_release, status_release]
    by_cases hu : u = t
    · subst hu
      rw [Function.update_self, hheld]
      by_cases hm' : m' = m
      · subst hm'
        simp
      · rw [Function.update_of_ne hm', h.owner]
        simp [hm']
    · rw [Function.update_of_ne hu]
      by_cases hm' : m' = m
      · subst hm'
        rw [Function.update_self]
        constructor
        · intro hno
          cases hno
        · intro hheld
          exact absurd (h.exclusive hheld hm) hu
      · rw [Function.update_of_ne hm']
        exact h.owner m' u
  asleep u v m c hs := by
    rw [status_release] at hs
    by_cases hu : u = t
    · subst hu
      rw [Function.update_self] at hs
      exact hasleep v m c hs
    · rw [Function.update_of_ne hu] at hs
      exact h.asleep u v m c hs
  woken u m c hs := by
    rw [status_release] at hs
    by_cases hu : u = t
    · subst hu
      rw [Function.update_self] at hs
      exact hwoken m c hs
    · rw [Function.update_of_ne hu] at hs
      exact h.woken u m c hs

/-- Every step keeps the owners right. -/
theorem moves (hd : Discipline code holds) (h : Owned code holds s) (hstep : Moves code s s') :
    Owned code holds s' := by
  cases hstep with
  | @lock t c m next hc hcode hfree =>
    apply h.acquire hfree
    rw [hc]
    exact hd.lock hcode
  | @relock t m next hc hfree =>
    -- The instruction it comes from says that the mutex is the one given up there.
    obtain ⟨d, v, hcode⟩ := h.woken t m next hc
    obtain ⟨hm, hnext⟩ := hd.wait hcode
    apply h.acquire hfree
    intro m'
    rw [hc]
    by_cases hm' : m' = m
    · subst hm'
      simp [(hnext m').mpr hm]
    · simp [Status.Held, hm']
  | @unlock t c m next hc hcode =>
    obtain ⟨hm, hnext⟩ := hd.unlock hcode
    refine h.release (by rw [hc]; exact hm) ?_ (fun _ _ _ hst => by cases hst)
      (fun _ _ hst => by cases hst)
    rw [hc]
    exact hnext
  | @wait t c v m next hc hcode =>
    obtain ⟨hm, hnext⟩ := hd.wait hcode
    refine h.release (by rw [hc]; exact hm) ?_ ?_ (fun _ _ hst => by cases hst)
    · intro m'
      rw [hc]
      exact and_congr_left fun _ => hnext m'
    · intro v' m' c' hst
      cases hst
      exact ⟨c, hcode⟩
  | @wake u v m c hu =>
    obtain ⟨d, hcode⟩ := h.asleep u v m c hu
    refine h.setStatus ?_ (fun _ _ _ hst => by cases hst) ?_
    · intro m'
      rw [hu]
      exact Iff.rfl
    · intro m' c' hst
      cases hst
      exact ⟨d, v, hcode⟩
  | @signal t c v next u m d hc hcode hu =>
    obtain ⟨d', hcode'⟩ := h.asleep u v m d hu
    have hne : t ≠ u := by
      rintro rfl
      rw [hc] at hu
      cases hu
    have hu' : Owned code holds (s.setStatus u (.woken m d)) := by
      refine h.setStatus ?_ (fun _ _ _ hst => by cases hst) ?_
      · intro m'
        rw [hu]
        exact Iff.rfl
      · intro m' c' hst
        cases hst
        exact ⟨d', v, hcode'⟩
    refine hu'.setStatus ?_ (fun _ _ _ hst => by cases hst) (fun _ _ hst => by cases hst)
    intro m'
    rw [status_setStatus, Function.update_of_ne hne, hc]
    exact hd.signal hcode m'
  | @signalNone t c v next hc hcode _ =>
    refine h.setStatus ?_ (fun _ _ _ hst => by cases hst) (fun _ _ hst => by cases hst)
    rw [hc]
    exact hd.signal hcode
  | @compute t c f mem next hc hcode hf =>
    have hnext : Owned code holds (s.setStatus t (.running next)) :=
      h.setStatus (by rw [hc]; exact hd.compute hcode hf) (fun _ _ _ hst => by cases hst)
        (fun _ _ hst => by cases hst)
    exact ⟨hnext.owner, hnext.asleep, hnext.woken⟩

omit [DecidableEq T] [DecidableEq M] in
/-- A thread runs at a control state that is not after a wait. -/
theorem running (h : Owned code holds s) (hs : (s.status t).ctrl = c)
    (hc : ∀ d v m, code t d ≠ .wait v m c) : s.status t = .running c := by
  cases hst : s.status t with
  | running c' =>
    rw [hst] at hs
    exact congrArg Status.running hs
  | asleep v m c' =>
    obtain ⟨d, hcode⟩ := h.asleep t v m c' hst
    rw [hst] at hs
    exact absurd (hs ▸ hcode) (hc d v m)
  | woken m c' =>
    obtain ⟨d, v, hcode⟩ := h.woken t m c' hst
    rw [hst] at hs
    exact absurd (hs ▸ hcode) (hc d v m)

end Owned

omit [DecidableEq T] [DecidableEq M] in
/-- At the start of the threads nobody holds anything. -/
theorem Owned.start (howner : ∀ m, s.owner m = none)
    (hstatus : ∀ t, ∃ c, s.status t = .running c ∧ ∀ m, ¬holds t c m) : Owned code holds s where
  owner m t := by
    obtain ⟨c, hc, hnone⟩ := hstatus t
    rw [howner, hc]
    exact iff_of_false (fun hno => by cases hno) (hnone m)
  asleep t v m c hs := by
    obtain ⟨d, hd, _⟩ := hstatus t
    rw [hd] at hs
    cases hs
  woken t m c hs := by
    obtain ⟨d, hd, _⟩ := hstatus t
    rw [hd] at hs
    cases hs

/-- The rule for runs: what every step keeps, given the right owners, holds after every run. -/
theorem exec_owned [Fintype T] [DecidableEq V] {I : State T M V G C → Prop} {as : List (Action T)}
    (hd : Discipline code holds) (h : Owned code holds s) (hI : I s)
    (hstep : ∀ s s', Owned code holds s → I s → Moves code s s' → I s')
    (hrun : exec (step code) as s = .ok s') : Owned code holds s' ∧ I s' :=
  exec_invariant (I := fun _ s => Owned code holds s ∧ I s) ⟨h, hI⟩
    (fun _ _ t t' ht hok => ⟨ht.1.moves hd (moves_of_step hok),
      hstep t t' ht.1 ht.2 (moves_of_step hok)⟩) hrun

/-! ## Progress -/

/-- The thread can only go on by taking the mutex. -/
def Awaits (code : (t : T) → C t → Instr M V G (C t) E) (s : State T M V G C) (t : T) (m : M) : Prop :=
  (∃ c next, s.status t = .running c ∧ code t c = .lock m next) ∨ ∃ c, s.status t = .woken m c

/-- The thread has returned. -/
def Exited (code : (t : T) → C t → Instr M V G (C t) E) (s : State T M V G C) (t : T) : Prop :=
  ∃ c, s.status t = .running c ∧ code t c = .exit

def Asleep (s : State T M V G C) (t : T) : Prop := ∃ v, SleepsOn s t v

/-- No thread fails at its next instruction. -/
def Faultless (code : (t : T) → C t → Instr M V G (C t) E) (s : State T M V G C) : Prop :=
  ∀ t c f e, s.status t = .running c → code t c = .compute f → f s.mem ≠ .error e

/-- Then no step fails. -/
theorem Faultless.step [Fintype T] [DecidableEq V] (h : Faultless code s) (a : Action T) (e : E) :
    step code a s ≠ .error (.fault e) := by
  intro hstep
  cases a with
  | wake t =>
    simp only [Threads.step] at hstep
    split at hstep
    · cases hstep
    · cases hstep
  | run t waiter =>
    simp only [Threads.step] at hstep
    split at hstep
    case h_1 => cases hstep
    case h_2 =>
      split at hstep
      · cases hstep
      · cases hstep
    case h_3 c hs =>
      split at hstep
      case h_1 =>
        split at hstep
        · cases hstep
        · cases hstep
      case h_2 => cases hstep
      case h_3 => cases hstep
      case h_4 =>
        split at hstep
        · split at hstep
          · cases hstep
          · cases hstep
        · split at hstep
          · cases hstep
          · cases hstep
      case h_5 f hcode =>
        split at hstep
        case h_1 => cases hstep
        case h_2 e' hf => exact h t c f e' hs hcode hf
      case h_6 => cases hstep

/-- A thread that cannot step has returned, sleeps, or awaits a mutex. -/
theorem stuck_cases [Fintype T] [DecidableEq V] (hfault : Faultless code s)
    (hstuck : ∀ w s', step code (.run t w) s ≠ .ok s') :
    Exited code s t ∨ Asleep s t ∨ ∃ m, Awaits code s t m := by
  cases hs : s.status t with
  | asleep v m c => exact .inr (.inl ⟨v, m, c, hs⟩)
  | woken m c => exact .inr (.inr ⟨m, .inr ⟨c, hs⟩⟩)
  | running c =>
    cases hcode : code t c with
    | lock m next => exact .inr (.inr ⟨m, .inl ⟨c, next, hs, hcode⟩⟩)
    | unlock m next =>
      exact absurd (by simp only [step, hs, hcode]) (hstuck none (s.release t m (.running next)))
    | wait v m next =>
      exact absurd (by simp only [step, hs, hcode]) (hstuck none (s.release t m (.asleep v m next)))
    | signal v next =>
      by_cases hu : ∃ u, s.sleepsOn u v = true
      · obtain ⟨u, hu⟩ := hu
        exact absurd (by simp only [step, hs, hcode, hu, if_true])
          (hstuck (some u) ((s.rouse u).setStatus t (.running next)))
      · have hnone : ∀ u, s.sleepsOn u v = false := by simpa using hu
        exact absurd (by simp only [step, hs, hcode]; rw [if_pos hnone])
          (hstuck none (s.setStatus t (.running next)))
    | compute f =>
      cases hf : f s.mem with
      | error e => exact absurd hf (hfault t c f e hs hcode)
      | ok r =>
        exact absurd (by simp only [step, hs, hcode, hf])
          (hstuck none { s.setStatus t (.running r.2) with mem := r.1 })
    | exit => exact .inl ⟨c, hs, hcode⟩

/-- A mutex that a thread cannot take has an owner. -/
theorem owner_of_awaits [Fintype T] [DecidableEq V] (ht : Awaits code s t m)
    (hstuck : ∀ w s', step code (.run t w) s ≠ .ok s') : ∃ u, s.owner m = some u := by
  cases ho : s.owner m with
  | some u => exact ⟨u, rfl⟩
  | none =>
    rcases ht with ⟨c, next, hs, hcode⟩ | ⟨c, hs⟩
    · exact absurd (by simp only [step, hs, hcode, ho, if_true]) (hstuck none (s.acquire t m next))
    · exact absurd (by simp only [step, hs, ho, if_true]) (hstuck none (s.acquire t m c))

/-- The mutexes are ordered: a thread takes a mutex above all it holds, holds no other one when it
waits, and none when it returns. -/
structure Ordered (code : (t : T) → C t → Instr M V G (C t) E) (holds : (t : T) → C t → M → Prop) (rank : M → Nat) :
    Prop where
  lock : ∀ {t c m next}, code t c = .lock m next → ∀ m', holds t c m' → rank m' < rank m
  wait : ∀ {t c v m next}, code t c = .wait v m next → ∀ m', holds t c m' → m' = m
  exit : ∀ {t c}, code t c = .exit → ∀ m, ¬holds t c m

variable {rank : M → Nat}

omit [DecidableEq T] [DecidableEq M] in
/-- A thread in a wait holds nothing. -/
theorem Ordered.waiting (hd : Discipline code holds) (ho : Ordered code holds rank)
    (hcode : code t c = .wait v m next) : ¬(holds t next m' ∧ m' ≠ m) := by
  rintro ⟨hm, hne⟩
  exact hne (ho.wait hcode m' (((hd.wait hcode).2 m').mp hm))

omit [DecidableEq T] [DecidableEq M] in
/-- A thread awaits a mutex above all it holds. -/
theorem Ordered.below (hd : Discipline code holds) (ho : Ordered code holds rank)
    (h : Owned code holds s) (ht : Awaits code s t m) (hm : (s.status t).Held (holds t) m') :
    rank m' < rank m := by
  rcases ht with ⟨c, next, hs, hcode⟩ | ⟨c, hs⟩
  · rw [hs] at hm
    exact ho.lock hcode m' hm
  · rw [hs] at hm
    obtain ⟨d, v, hcode⟩ := h.woken t m c hs
    exact absurd hm (ho.waiting hd hcode)

/-- The thread can only go on by taking a mutex of the other one. -/
def WaitsFor (code : (t : T) → C t → Instr M V G (C t) E) (s : State T M V G C) (t u : T) : Prop :=
  ∃ m, Awaits code s t m ∧ s.owner m = some u

omit [DecidableEq T] [DecidableEq M] in
theorem Awaits.unique (h : Awaits code s t m) (h' : Awaits code s t m') : m = m' := by
  rcases h with ⟨c, next, hs, hcode⟩ | ⟨c, hs⟩
  · rcases h' with ⟨c', next', hs', hcode'⟩ | ⟨c', hs'⟩
    · cases hs.symm.trans hs'
      cases hcode.symm.trans hcode'
      rfl
    · cases hs.symm.trans hs'
  · rcases h' with ⟨c', next', hs', _⟩ | ⟨c', hs'⟩
    · cases hs.symm.trans hs'
    · cases hs.symm.trans hs'
      rfl

omit [DecidableEq T] [DecidableEq M] in
/-- Along a chain of threads that wait for each other the mutexes rise. -/
theorem Ordered.rank_lt (hd : Discipline code holds) (ho : Ordered code holds rank)
    (h : Owned code holds s) (hchain : Relation.TransGen (WaitsFor code s) t u)
    (ht : Awaits code s t m) (hu : Awaits code s u m') : rank m < rank m' := by
  induction hchain generalizing m' with
  | single hedge =>
    obtain ⟨m₀, ht₀, howner⟩ := hedge
    cases ht.unique ht₀
    exact ho.below hd h hu ((h.owner m _).mp howner)
  | tail _ hedge ih =>
    obtain ⟨m₀, hm₀, howner⟩ := hedge
    exact lt_trans (ih hm₀) (ho.below hd h hu ((h.owner m₀ _).mp howner))

omit [DecidableEq T] [DecidableEq M] in
/-- Threads do not wait for each other in a circle. -/
theorem Ordered.acyclic (hd : Discipline code holds) (ho : Ordered code holds rank)
    (h : Owned code holds s) : ¬Relation.TransGen (WaitsFor code s) t t := by
  intro hcycle
  obtain ⟨_, ⟨m, ht, _⟩, _⟩ := Relation.TransGen.head'_iff.mp hcycle
  exact lt_irrefl _ (ho.rank_lt hd h hcycle ht ht)

/-- If no thread can step, all have returned or sleep: the owner of a mutex that is awaited would
have to await a higher one. -/
theorem stuck_all [Fintype T] [DecidableEq V] (hd : Discipline code holds)
    (ho : Ordered code holds rank) (h : Owned code holds s) {bound : Nat}
    (hbound : ∀ m, rank m ≤ bound) (hfault : Faultless code s)
    (hstuck : ∀ t w s', step code (.run t w) s ≠ .ok s') (t : T) :
    Exited code s t ∨ Asleep s t := by
  -- By induction from the highest mutex downwards, no mutex is awaited.
  have hnone : ∀ n m t, bound - rank m = n → ¬Awaits code s t m := by
    intro n
    induction n using Nat.strong_induction_on with
    | _ n ih =>
      intro m t hn ht
      obtain ⟨u, hu⟩ := owner_of_awaits ht (hstuck t)
      -- The owner cannot step either; holding `m`, it neither has returned nor sleeps.
      have hheld := (h.owner m u).mp hu
      rcases stuck_cases hfault (hstuck u) with ⟨c, hs, hcode⟩ | ⟨v, m', c, hs⟩ | ⟨m', hawait⟩
      · rw [hs] at hheld
        exact ho.exit hcode m hheld
      · rw [hs] at hheld
        obtain ⟨d, hcode⟩ := h.asleep u v m' c hs
        exact ho.waiting hd hcode hheld
      · have hlt := ho.below hd h hawait hheld
        have hle := hbound m'
        exact ih (bound - rank m') (by omega) m' u rfl hawait
  rcases stuck_cases hfault (hstuck t) with hexit | hsleep | ⟨m, ht⟩
  · exact .inl hexit
  · exact .inr hsleep
  · exact absurd ht (hnone _ m t rfl)

end Library.Threads

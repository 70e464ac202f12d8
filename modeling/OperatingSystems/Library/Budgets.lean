-- SUMMARY: Threads that come to an end: a budget of steps for each control state bounds every run, up to wake-ups that nobody caused.
import Mathlib.Algebra.BigOperators.Group.Finset.Basic
import OperatingSystems.Library.Spinlocks

/-!
# Budgets

A budget says how many steps a thread can still take from a control state, if a signal pays for the
thread that it wakes. Then all runs are bounded, whatever the scheduler does, except that a waiter
may wake up by itself.
-/

namespace Library.Threads

open Library.Run

variable {T M V G E : Type} {C : T → Type}

/-- The thread wakes up without a signal. -/
def Action.isWake : Action T → Bool
  | .wake _ => true
  | .run _ _ => false

/-- An instruction that a thread can afford with budget `n`. After a wait the thread may have to wait
once more, and a signal pays for that. -/
def Instr.Affordable {D : Type} (I : G → Prop) (cost : D → Nat) (n : Nat) :
    Instr M V G D E → Prop
  | .lock _ next => cost next < n
  | .unlock _ next => cost next < n
  | .wait _ _ next => 0 < n ∧ cost next ≤ n + 1
  | .signal _ next => cost next + 4 ≤ n
  | .compute f => ∀ mem mem' next, I mem → f mem = .ok (mem', next) → cost next < n
  | .exit => True

/-- The costs of the control states decrease along the instructions. -/
def Budget (code : (t : T) → C t → Instr M V G (C t) E) (I : G → Prop)
    (cost : (t : T) → C t → Nat) : Prop :=
  ∀ t c, (code t c).Affordable I (cost t) (cost t c)

/-- What a thread can still spend. A sleeper has paid for its test of the condition. -/
def Status.cost {D : Type} (cost : D → Nat) : Status M V D → Nat
  | .running c => cost c
  | .asleep _ _ c => cost c - 2
  | .woken _ c => cost c + 1

section

variable [Fintype T]

/-- What all threads can still spend. -/
def State.cost (cost : (t : T) → C t → Nat) (s : State T M V G C) : Nat :=
  Finset.univ.sum fun t => (s.status t).cost (cost t)

variable [DecidableEq T] {cost : (t : T) → C t → Nat} {s s' : State T M V G C} {t : T}
  {st : Status M V (C t)}

theorem cost_of_update (hstatus : s'.status = Function.update s.status t st) :
    s'.cost cost + (s.status t).cost (cost t) = s.cost cost + st.cost (cost t) := by
  have hsplit := Finset.add_sum_erase Finset.univ (fun u => (s.status u).cost (cost u))
    (Finset.mem_univ t)
  have hsplit' := Finset.add_sum_erase Finset.univ (fun u => (s'.status u).cost (cost u))
    (Finset.mem_univ t)
  have hrest : (Finset.univ.erase t).sum (fun u => (s'.status u).cost (cost u)) =
      (Finset.univ.erase t).sum fun u => (s.status u).cost (cost u) := by
    refine Finset.sum_congr rfl fun u hu => ?_
    rw [hstatus, Function.update_of_ne (Finset.ne_of_mem_erase hu)]
  simp only [hstatus, Function.update_self] at hsplit'
  rw [hstatus] at hrest
  rw [State.cost, State.cost, hstatus]
  omega

/-- Waking a thread costs three steps. -/
theorem cost_rouse_le (s : State T M V G C) (u : T) : (s.rouse u).cost cost ≤ s.cost cost + 3 := by
  unfold State.rouse
  split
  · rename_i v m c hs
    have hcost : (s.setStatus u (.woken m c)).cost cost + (s.status u).cost (cost u) =
        s.cost cost + Status.cost (cost u) (.woken m c) := cost_of_update status_setStatus
    rw [hs] at hcost
    simp only [Status.cost] at hcost
    omega
  · exact Nat.le_add_right _ _

variable [DecidableEq M] [DecidableEq V] {code : (t : T) → C t → Instr M V G (C t) E}
  {I : G → Prop} {a : Action T}

theorem step_wake_cost (h : step code (.wake t) s = .ok s') : s'.cost cost ≤ s.cost cost + 3 := by
  simp only [step] at h
  split at h
  · cases h
    exact cost_rouse_le s t
  · cases h

/-- Whatever a thread runs, it spends a step. -/
theorem Budget.step_run {waiter : Option T} (hb : Budget code I cost) (hI : I s.mem)
    (h : step code (.run t waiter) s = .ok s') : s'.cost cost + 1 ≤ s.cost cost := by
  have hspend : ∀ {st : Status M V (C t)}, s'.status = Function.update s.status t st →
      st.cost (cost t) + 1 ≤ (s.status t).cost (cost t) → s'.cost cost + 1 ≤ s.cost cost := by
    intro st hstatus hle
    have hcost : s'.cost cost + (s.status t).cost (cost t) = s.cost cost + st.cost (cost t) :=
      cost_of_update hstatus
    omega
  simp only [step] at h
  split at h
  case h_1 => cases h
  case h_2 m c hs =>
    split at h
    case isTrue hfree =>
      cases h
      refine hspend status_acquire ?_
      rw [hs]
      exact Nat.le_refl _
    case isFalse => cases h
  case h_3 c hs =>
    have hs' : (s.status t).cost (cost t) = cost t c := by
      rw [hs]
      rfl
    have hpays := hb t c
    split at h
    case h_1 m next hcode =>
      rw [hcode] at hpays
      split at h
      case isTrue hfree =>
        cases h
        exact hspend status_acquire (hs' ▸ hpays)
      case isFalse => cases h
    case h_2 m next hcode =>
      rw [hcode] at hpays
      cases h
      exact hspend status_release (hs' ▸ hpays)
    case h_3 v m next hcode =>
      rw [hcode] at hpays
      cases h
      obtain ⟨hpos, hle⟩ := hpays
      refine hspend status_release ?_
      rw [hs']
      simp only [Status.cost]
      omega
    case h_4 v next hcode =>
      rw [hcode] at hpays
      simp only [Instr.Affordable] at hpays
      split at h
      case h_1 u =>
        split at h
        case isTrue hu =>
          obtain ⟨m, d, hu⟩ := sleepsOn_eq_true.mp hu
          cases h
          have hne : t ≠ u := by
            rintro rfl
            cases hs.symm.trans hu
          have hrouse : (s.rouse u).cost cost ≤ s.cost cost + 3 := cost_rouse_le s u
          have hstatus : (s.rouse u).status t = s.status t := by
            rw [rouse_of_asleep hu, status_setStatus, Function.update_of_ne hne]
          have hcost : ((s.rouse u).setStatus t (.running next)).cost cost +
              ((s.rouse u).status t).cost (cost t) =
              (s.rouse u).cost cost + Status.cost (cost t) (.running next) :=
            cost_of_update status_setStatus
          rw [hstatus, hs'] at hcost
          simp only [Status.cost] at hcost
          omega
        case isFalse => cases h
      case h_2 =>
        split at h
        case isTrue hnone =>
          cases h
          refine hspend status_setStatus ?_
          rw [hs']
          simp only [Status.cost]
          omega
        case isFalse => cases h
    case h_5 f hcode =>
      split at h
      case h_1 mem next hf =>
        rw [hcode] at hpays
        cases h
        exact hspend rfl (hs' ▸ hpays s.mem mem next hI hf)
      case h_2 => cases h
    case h_6 => cases h

/-- A run is no longer than the budget allows. -/
theorem Budget.length_le {run : List (Action T)} (hb : Budget code I cost)
    (hI : ∀ as s', exec (step code) as s = .ok s' → I s'.mem)
    (hrun : exec (step code) run s = .ok s') :
    run.length + s'.cost cost ≤ s.cost cost + 4 * run.countP Action.isWake := by
  induction run using List.reverseRecOn generalizing s' with
  | nil =>
    cases hrun
    simp
  | append_singleton as a ih =>
    rw [exec_concat] at hrun
    obtain ⟨s₁, hs₁, hstep⟩ := bind_eq_ok.mp hrun
    have hle := ih hs₁
    rw [List.length_append, List.length_singleton, List.countP_append]
    cases a with
    | wake t =>
      have hcost : s'.cost cost ≤ s₁.cost cost + 3 := step_wake_cost hstep
      have hcount : [Action.wake t].countP Action.isWake = 1 := rfl
      rw [hcount]
      omega
    | run t waiter =>
      have hcost := hb.step_run (hI as s₁ hs₁) hstep
      have hcount : [Action.run t waiter].countP Action.isWake = 0 := rfl
      rw [hcount]
      omega

/-- Threads that nobody wakes take no more steps than the budget allows. -/
theorem Budget.turns_le {order : List T} (hb : Budget code I cost)
    (hI : ∀ as s', exec (step code) as s = .ok s' → I s'.mem)
    (hrun : exec (turn code) order s = .ok s') : order.length + s'.cost cost ≤ s.cost cost := by
  have hexec : ∀ (order : List T) s, exec (step code) (order.map fun t => .run t none) s =
      exec (turn code) order s := by
    intro order s
    induction order generalizing s with
    | nil => rfl
    | cons t order ih =>
      simp only [List.map_cons, exec, turn]
      cases step code (.run t none) s with
      | error e => rfl
      | ok s₁ => exact ih s₁
  have hle := hb.length_le hI ((hexec order s).trans hrun)
  have hwakes : (order.map fun t => Action.run t none).countP Action.isWake = 0 :=
    List.countP_eq_zero.mpr fun a ha => by
      obtain ⟨t, _, rfl⟩ := List.mem_map.mp ha
      simp [Action.isWake]
  rw [hwakes, List.length_map] at hle
  omega

/-- If some thread can always run until all have returned, they do return. -/
theorem Budget.completes (hb : Budget code I cost)
    (hI : ∀ as s', exec (step code) as s = .ok s' → I s'.mem)
    (hprogress : ∀ as s', exec (step code) as s = .ok s' → (∃ t, ¬Exited code s' t) →
      ∃ t waiter s'', step code (.run t waiter) s' = .ok s'') :
    ∃ rest s', (∀ a ∈ rest, Action.isWake a = false) ∧ exec (step code) rest s = .ok s' ∧
      ∀ t, Exited code s' t := by
  induction hn : s.cost cost using Nat.strong_induction_on generalizing s with
  | _ n ih =>
    by_cases hexit : ∀ t, Exited code s t
    · exact ⟨[], s, fun _ ha => absurd ha List.not_mem_nil, rfl, hexit⟩
    · obtain ⟨t, waiter, s₁, hs₁⟩ := hprogress [] s rfl (by simpa using hexit)
      have hspent := hb.step_run (hI [] s rfl) hs₁
      have hfirst : ∀ as s', exec (step code) as s₁ = .ok s' →
          exec (step code) (.run t waiter :: as) s = .ok s' := by
        intro as s' hs'
        rw [exec, hs₁, ok_bind, hs']
      obtain ⟨rest, s', hrest, hrun, hall⟩ := ih (s₁.cost cost) (by omega)
        (fun as s' hs' => hI _ s' (hfirst as s' hs'))
        (fun as s' hs' => hprogress _ s' (hfirst as s' hs')) rfl
      refine ⟨.run t waiter :: rest, s', ?_, hfirst rest s' hrun, hall⟩
      intro a ha
      rcases List.mem_cons.mp ha with rfl | ha
      · rfl
      · exact hrest a ha

end

end Library.Threads

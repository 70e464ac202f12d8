-- SUMMARY: Requests and intercepted calls edit the lists under mutual exclusion and give up their locks; exits take no lock.
import OperatingSystems.Interceptor.Calls

/-!
# Mutual exclusion

The sections of `my_syscall` and `interceptor` that read or edit a list stand between taking and
releasing `my_table_lock`, on every path. Those of `my_exit_group` do not: its loop over the rows
takes no lock, so exclusion depends on when processes exit.
-/

namespace Interceptor

open Library Library.Run Library.Threads

variable {T : Type} {k : Kernel} {invoke : Handler → PtRegs → Int} {call : T → Call}
  {s s' : State T} {t u : T} {w w' : World} {c next : Pc} {i : Nat}

/-! ## Sections -/

/-- The system call that a call of the module is about. -/
def Call.number : Call → Nat
  | .mySyscall _ _ _ _ syscall _ => syscall.toNat
  | .interceptor _ reg => reg.ax
  | .myExitGroup _ _ => 0

/-- The row whose list, length or mode the call reads or edits at a place. -/
def Call.editing (call : Call) : Pc → Option Nat
  | .releaseDestroy => some call.number
  | .startMonitored => some call.number
  | .startBlacklist => some call.number
  | .startList => some call.number
  | .startNone => some call.number
  | .stopMonitored => some call.number
  | .stopList => some call.number
  | .stopBlacklist => some call.number
  | .interceptorMonitored => some call.number
  | .exitRow s => some s
  | _ => none

/-- A section is that of an exit, or `my_table_lock` is held. -/
theorem Call.editing_cases {call : Call} (h : call.editing c = some i) :
    c = .exitRow i ∨ i = call.number ∧ holds c .myTable := by
  cases c
  case exitRow j =>
    cases h
    exact .inl rfl
  all_goals
    cases h
    try exact .inr ⟨rfl, rfl⟩

theorem checked_ne_exitRow (k : Kernel) (c : Caller) (cmd syscall pid : Int) (i : Nat) :
    checked k c cmd syscall pid ≠ .exitRow i := by
  unfold checked
  repeat' split
  all_goals exact fun h => by cases h

theorem not_exitRow_ite (p : Prop) [Decidable p] {c d : Pc} (hc : c ≠ .exitRow i)
    (hd : d ≠ .exitRow i) : (if p then c else d) ≠ .exitRow i := by
  split
  · exact hc
  · exact hd

/-- A request never comes to a place of `my_exit_group`. -/
theorem mySyscall_ne_exitRow {current pid : Pid} {uid : Nat} {kmalloc : Bool} {cmd syscall : Int}
    (h : (mySyscallCode k current uid kmalloc cmd syscall pid c).Effect w next w') :
    next ≠ .exitRow i := by
  cases c with
  | start =>
    obtain ⟨_, _, rfl⟩ := checked_of_effect_start h
    exact checked_ne_exitRow _ _ _ _ _ _
  | interceptCheck | releaseCheck | startCheck =>
    cases h
    exact not_exitRow_ite _ (fun h => by cases h) fun h => by cases h
  | startMonitored | stopMonitored =>
    cases h
    refine not_exitRow_ite _ (fun h => by cases h) ?_
    refine not_exitRow_ite _ (fun h => by cases h) ?_
    exact not_exitRow_ite _ (fun h => by cases h) fun h => by cases h
  | interceptMark | interceptSave | interceptHijack | releaseClear | releaseDestroy
  | releaseRestore | startBlacklist | startList | startNone | stopList | stopBlacklist =>
    cases h
    exact fun h => by cases h
  | interceptLock | interceptLockSys | interceptUnlock | interceptUnlockSys | releaseLock
  | releaseLockSys | releaseUnlock | releaseUnlockSys | startLock | stopLock | unlockReturn =>
    obtain ⟨rfl, rfl⟩ := h
    exact fun h => by cases h
  | interceptorLock | interceptorMonitored | interceptorUnlock | interceptorCall | exitLoop
  | exitRow | exitCall | returned => exact h.elim

/-- `my_exit_group` is the only one to come to a row without a lock. -/
theorem exitLoop_of_effect {call : Call}
    (h : (call.code k invoke c).Effect w (.exitRow i) w') : c = .exitLoop i ∧ i < k.nrSyscalls := by
  cases call with
  | mySyscall current uid kmalloc cmd syscall pid => exact absurd rfl (mySyscall_ne_exitRow h)
  | interceptor current reg =>
    cases c with
    | start | interceptorMonitored | interceptorCall => cases h
    | interceptorLock | interceptorUnlock => cases h.1
    | _ => exact h.elim
  | myExitGroup current status =>
    cases c with
    | start | exitRow | exitCall => cases h
    | exitLoop j =>
      simp only [Call.code, myExitGroupCode, Instr.Effect, branch, Except.ok.injEq,
        Prod.mk.injEq] at h
      obtain ⟨_, h⟩ := h
      split at h
      · cases h
        exact ⟨rfl, ‹_›⟩
      · cases h
    | _ => exact h.elim

/-! ## The missing lock -/

/-- The condition on a step: a process that exits comes to a row only while no call is in a section for
the row, and no call comes to a section for a row while a process that exits is at the row. -/
structure Orderly (k : Kernel) (invoke : Handler → PtRegs → Int) (call : T → Call) (t : T)
    (s : State T) : Prop where
  exits : ∀ i, s.pc t = .exitLoop i → i < k.nrSyscalls → ∀ u, (call u).editing (s.pc u) ≠ some i
  enters : ∀ i next w, ((call t).code k invoke (s.pc t)).Effect s.mem next w →
    (call t).editing next = some i → ∀ u, u ≠ t → s.pc u ≠ .exitRow i

/-- While a process that exits is at a row, no other call is in a section for the row. -/
def Apart (call : T → Call) (s : State T) : Prop :=
  ∀ t i, s.pc t = .exitRow i → ∀ u, (call u).editing (s.pc u) = some i → u = t

/-- The step: what comes to a row is kept apart from what is there. -/
theorem Apart.stepped [DecidableEq T] (h : Apart call s) (hP : Orderly k invoke call t s)
    (hstep : Stepped (code k invoke call) s s' t) : Apart call s' := by
  intro v i hv u hu
  by_contra hne
  by_cases hvt : v = t
  · subst hvt
    have heffect := hstep.effect
    rw [hv] at heffect
    obtain ⟨hloop, hi⟩ := exitLoop_of_effect heffect
    rw [hstep.others u hne] at hu
    exact hP.exits i hloop hi u hu
  · rw [hstep.others v hvt] at hv
    by_cases hut : u = t
    · subst hut
      exact hP.enters i _ _ hstep.effect hu v hvt hv
    · rw [hstep.others u hut] at hu
      exact hne (h v i hv u hu)

theorem Apart.exclusive (h : Apart call s) (howned : Owned (code k invoke call) (fun _ => holds) s)
    (ht : (call t).editing (s.pc t) = some i) (hu : (call u).editing (s.pc u) = some i) :
    t = u := by
  rcases Call.editing_cases ht with ht' | ⟨_, ht'⟩
  · exact (h t i ht' u hu).symm
  · rcases Call.editing_cases hu with hu' | ⟨_, hu'⟩
    · exact h u i hu' t ht
    · exact howned.unique ht' hu'

/-- In every interleaving, a call that has returned holds no lock. If moreover exits and the lock
keep apart at every step, no two calls are ever in sections for the same row. -/
theorem sections_exclusive [DecidableEq T] [Fintype T] (k : Kernel)
    (invoke : Handler → PtRegs → Int) (call : T → Call) (w : World) {order : List T} {s : State T}
    (hrun : runCalls k invoke call w order = .ok s) :
    (∀ t r, s.pc t = .returned r → ∀ l, s.owner l ≠ some t) ∧
    (Along (turn (code k invoke call)) (Orderly k invoke call) order (start T w) →
      ∀ t u i, (call t).editing (s.pc t) = some i → (call u).editing (s.pc u) = some i → t = u) := by
  have hstart : Owned (code k invoke call) (fun _ => holds) (start T w) := owned_start w
  refine ⟨?_, ?_⟩
  · intro t r hr l howner
    obtain ⟨howned, _⟩ := exec_turns_of_forall (I := fun _ => True) (discipline k invoke call) hstart
      trivial (fun _ _ _ _ _ _ => trivial) hrun
    have hheld := howned.owner_iff.mp howner
    rw [hr] at hheld
    exact hheld
  · intro halong t u i ht hu
    have hapart : Apart call (start T w) := by
      intro t i ht
      cases ht
    obtain ⟨howned, hI⟩ := exec_turns (discipline k invoke call) hstart hapart halong
      (fun _ _ _ _ _ hP hI hstep => hI.stepped hP hstep) hrun
    exact hI.exclusive howned ht hu

/-- The superuser stops monitoring call 1 for process 2000, which exits. -/
def stopAndExit : Bool → Call
  | false => .mySyscall 1000 0 true REQUEST_STOP_MONITORING 1 2000
  | true => .myExitGroup 2000 0

/-- The process that exits comes to the row when the request has left its section, and still holds the
lock. -/
theorem sections_exclusive_stop :
    ∃ s, runCalls i386 (fun _ _ => 0) stopAndExit (loaded i386 id root.owner)
        [false, true, false, false, true, false, true] = .ok s ∧
      (∀ t r, s.pc t = .returned r → ∀ l, s.owner l ≠ some t) ∧
      ∀ t u i, (stopAndExit t).editing (s.pc t) = some i →
        (stopAndExit u).editing (s.pc u) = some i → t = u := by
  have hrun := @sections_exclusive Bool _ _ i386 (fun _ _ => 0) stopAndExit
    (loaded i386 id root.owner) [false, true, false, false, true, false, true] _ rfl
  have horderly : ∀ (s : State Bool) (t : Bool), (∀ i, s.pc t ≠ .exitLoop i) →
      (∀ i, s.pc (!t) ≠ .exitRow i) → Orderly i386 (fun _ _ => 0) stopAndExit t s := by
    refine fun s t hloop hrow => ⟨fun i hi => absurd hi (hloop i), fun i _ _ _ _ u hu => ?_⟩
    obtain rfl : u = !t := by cases u <;> cases t <;> simp at hu ⊢
    exact hrow i
  refine ⟨_, rfl, hrun.1, hrun.2 ⟨?_, ?_, ?_, ?_, ⟨?_, ?_⟩, ⟨?_, ?_⟩, ?_, trivial⟩⟩
  case refine_5 =>
    intro i _ _ u hu
    cases u <;> cases hu
  case refine_6 =>
    intro i _ _ _ _ u hu hrow
    cases u
    · cases hrow
    · exact hu rfl
  case refine_7 =>
    intro i hi
    cases hi
  case refine_8 =>
    rintro i _ _ ⟨rfl, rfl⟩ hi
    cases hi
  all_goals exact horderly _ _ (fun i hi => by cases hi) fun i hi => by cases hi

/-- The request holds `my_table_lock` and reads the row of call 1, and the process that exits is
at this row as well. -/
theorem exit_enters_section :
    ∃ s, runCalls i386 (fun _ _ => 0) stopAndExit (loaded i386 id root.owner)
        [false, false, true, true] = .ok s ∧
      (stopAndExit false).editing (s.pc false) = some 1 ∧
      (stopAndExit true).editing (s.pc true) = some 1 ∧ s.owner .myTable = some false :=
  ⟨_, rfl, rfl, rfl, rfl⟩

end Interceptor

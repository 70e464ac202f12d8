-- SUMMARY: Concurrent requests and intercepted calls return: a bound on the steps of a run, and no state in which calls spin for each other.
import Mathlib.Data.Fintype.Card
import OperatingSystems.Interceptor.Exclusion
import OperatingSystems.Library.Budgets

/-!
# Returns

A request takes `my_table_lock` first and `sys_call_table_lock` while it holds it, never the other
way round, and no call fails while it holds a lock. So some call can always go on. Requests and
intercepted calls go over a list only while they hold `my_table_lock`, so no list changes under them,
and their steps are bounded.
-/

namespace Interceptor

open Library Library.Run Library.Threads

variable {T : Type} {k : Kernel} {invoke : Handler → PtRegs → Int} {w w' : World} {c next : Pc}

/-! ## Budgets -/

/-- The number of steps that a request or an intercepted call can still take at most from a place on. -/
def Pc.cost : Pc → Nat
  | .start => 9
  | .interceptLock => 8
  | .interceptCheck => 7
  | .interceptMark => 6
  | .interceptLockSys => 5
  | .interceptSave => 4
  | .interceptUnlock => 3
  | .interceptHijack => 2
  | .interceptUnlockSys => 1
  | .releaseLock => 8
  | .releaseCheck => 7
  | .releaseClear => 6
  | .releaseDestroy => 5
  | .releaseLockSys => 4
  | .releaseRestore => 3
  | .releaseUnlock => 2
  | .releaseUnlockSys => 1
  | .startLock => 5
  | .startCheck => 4
  | .startMonitored => 3
  | .startBlacklist => 2
  | .startList => 2
  | .startNone => 2
  | .stopLock => 4
  | .stopMonitored => 3
  | .stopList => 2
  | .stopBlacklist => 2
  | .unlockReturn _ => 1
  | .interceptorLock => 4
  | .interceptorMonitored => 3
  | .interceptorUnlock => 2
  | .interceptorCall => 1
  | _ => 0

theorem cost_checked (k : Kernel) (c : Caller) (cmd syscall pid : Int) : (checked k c cmd syscall pid).cost ≤ 8 := by
  unfold checked
  repeat' split
  all_goals simp [Pc.cost]

/-- Every instruction of a request or an intercepted call takes something off its budget. -/
theorem affordable (k : Kernel) (invoke : Handler → PtRegs → Int) {call : Call}
    (hexit : ∀ current status, call ≠ .myExitGroup current status) (c : Pc) :
    (call.code k invoke c).Affordable (fun _ => True) Pc.cost c.cost := by
  cases call with
  | mySyscall current uid kmalloc cmd syscall pid =>
    cases c with
    | start =>
      intro w w' next _ heq
      obtain ⟨_, c, rfl⟩ := checked_of_effect_start heq
      exact Nat.lt_succ_of_le (cost_checked _ c cmd syscall pid)
    | interceptCheck | releaseCheck | startCheck | startMonitored | stopMonitored =>
      intro w w' next _ heq
      cases heq
      dsimp only
      repeat' split
      all_goals simp [Pc.cost]
    | interceptMark | interceptSave | interceptHijack | releaseClear | releaseDestroy
      | releaseRestore | startBlacklist | startList | startNone | stopList | stopBlacklist =>
      intro w w' next _ heq
      cases heq
      simp [Pc.cost]
    | _ => simp [Call.code, mySyscallCode, Instr.Affordable, Pc.cost]
  | interceptor current reg =>
    cases c with
    | start | interceptorMonitored | interceptorCall =>
      intro w w' next _ heq
      cases heq
      simp [Pc.cost]
    | _ => simp [Call.code, interceptorCode, Instr.Affordable, Pc.cost]
  | myExitGroup current status => exact absurd rfl (hexit current status)

/-! ## Progress -/

/-- A call comes to the end of its program only by returning. -/
theorem returned_of_effect {call : Call} (h : (call.code k invoke c).Effect w next w')
    (hexit : call.code k invoke next = .exit) : ∃ r, next = .returned r := by
  cases call with
  | mySyscall current uid kmalloc cmd syscall pid =>
    cases c with
    | start =>
      obtain ⟨_, c, rfl⟩ := checked_of_effect_start h
      revert hexit
      unfold checked
      repeat' split
      all_goals
        intro hexit
        first
        | exact ⟨_, rfl⟩
        | cases hexit
    | interceptCheck | releaseCheck | startCheck | startMonitored | stopMonitored =>
      cases h
      revert hexit
      dsimp only
      repeat' split
      all_goals
        intro hexit
        cases hexit
    | interceptMark | interceptSave | interceptHijack | releaseClear | releaseDestroy
      | releaseRestore | startBlacklist | startList | startNone | stopList | stopBlacklist =>
      cases h
      cases hexit
    | interceptUnlockSys | releaseUnlockSys | unlockReturn r =>
      obtain ⟨rfl, rfl⟩ := h
      exact ⟨_, rfl⟩
    | interceptLock | interceptLockSys | interceptUnlock | releaseLock | releaseLockSys
      | releaseUnlock | startLock | stopLock =>
      obtain ⟨rfl, rfl⟩ := h
      cases hexit
    | _ => exact h.elim
  | interceptor current reg =>
    cases c with
    | start | interceptorMonitored =>
      cases h
      cases hexit
    | interceptorLock | interceptorUnlock =>
      obtain ⟨rfl, rfl⟩ := h
      cases hexit
    | interceptorCall =>
      cases h
      exact ⟨_, rfl⟩
    | _ => exact h.elim
  | myExitGroup current status =>
    cases c with
    | start | exitRow s =>
      cases h
      cases hexit
    | exitLoop s =>
      cases h
      revert hexit
      dsimp only
      split
      all_goals
        intro hexit
        cases hexit
    | exitCall =>
      cases h
      exact ⟨_, rfl⟩
    | _ => exact h.elim

/-- Only the checks of a request can fail, for a process that is not there. -/
theorem fault_cases {call : Call} {f : World → Except Fault (World × Pc)} {e : Fault}
    (hcode : call.code k invoke c = .compute f) (hf : f w = .error e) :
    c = .start ∧ ∃ current uid kmalloc cmd syscall pid,
      call = .mySyscall current uid kmalloc cmd syscall pid ∧ w.owner current = none := by
  cases call with
  | mySyscall current uid kmalloc cmd syscall pid =>
    cases c with
    | start =>
      cases hcode
      refine ⟨rfl, _, _, _, _, _, _, rfl, ?_⟩
      by_contra hne
      have hsome : (w.owner current).isSome := Option.isSome_iff_ne_none.mpr hne
      simp only [World.caller, dif_pos hsome] at hf
      cases hf
    | _ =>
      cases hcode
      try cases hf
  | interceptor current reg =>
    cases c
    all_goals
      cases hcode
      try cases hf
  | myExitGroup current status =>
    cases c
    all_goals
      cases hcode
      try cases hf

/-- The order in which the locks are taken. -/
def Lock.rank : Lock → Nat
  | .myTable => 0
  | .sysCallTable => 1

theorem rank_lt_of_lock {call : Call} {l l' : Lock} (hcode : call.code k invoke c = .lock l next)
    (hheld : holds c l') : l'.rank < l.rank := by
  cases call with
  | mySyscall =>
    cases c with
    | interceptLockSys | releaseLockSys =>
      cases hcode
      obtain rfl : l' = .myTable := hheld
      exact Nat.zero_lt_one
    | interceptLock | releaseLock | startLock | stopLock => exact hheld.elim
    | _ => cases hcode
  | interceptor =>
    cases c with
    | interceptorLock => exact hheld.elim
    | _ => cases hcode
  | myExitGroup => cases c <;> cases hcode

variable {call : T → Call} {s s' : State T} {t : T}

/-- Every call is at a place of its program, or has returned, and no process has gone. -/
structure Placed (k : Kernel) (invoke : Handler → PtRegs → Int) (call : T → Call) (w : World)
    (s : State T) : Prop where
  returned : ∀ t, (call t).code k invoke (s.pc t) = .exit → ∃ r, s.pc t = .returned r
  owner : s.mem.owner = w.owner

theorem Placed.stepped [DecidableEq T] (h : Placed k invoke call w s)
    (hexit : ∀ t current status, call t ≠ .myExitGroup current status)
    (hstep : Stepped (code k invoke call) s s' t) : Placed k invoke call w s' := by
  refine ⟨fun u hu => ?_, (owner_of_effect hstep.effect (hexit t)).trans h.owner⟩
  by_cases hut : u = t
  · subst hut
    exact returned_of_effect hstep.effect hu
  · rw [hstep.others u hut] at hu ⊢
    exact h.returned u hu

theorem placed_start (k : Kernel) (invoke : Handler → PtRegs → Int) (call : T → Call) (w : World) :
    Placed k invoke call w (start T w) := by
  refine ⟨fun t ht => ?_, rfl⟩
  change (call t).code k invoke .start = .exit at ht
  cases hcall : call t <;> (rw [hcall] at ht; cases ht)

/-! ## Runs -/

theorem cost_start [Fintype T] (w : World) :
    (start T w).cost (fun _ => Pc.cost) = 9 * Fintype.card T := by
  have hsum : (start T w).cost (fun _ => Pc.cost) = Finset.univ.sum fun _ : T => 9 := rfl
  rw [hsum, Finset.sum_const_nat fun _ _ => rfl, Finset.card_univ, Nat.mul_comm]

/-- Requests and intercepted calls return: in every interleaving they take nine steps each at most, and
where none can take a step, no lock is held and all have returned but the requests of processes that
are not there. -/
theorem calls_return [DecidableEq T] [Fintype T] (k : Kernel) (invoke : Handler → PtRegs → Int)
    (call : T → Call) (w : World)
    (hexit : ∀ t current status, call t ≠ .myExitGroup current status) {order : List T} {s : State T}
    (hrun : runCalls k invoke call w order = .ok s) :
    order.length ≤ 9 * Fintype.card T ∧
    ((∀ t s', turn (code k invoke call) t s ≠ .ok s') →
      (∀ l, s.owner l = none) ∧ ∀ t, (∃ r, s.pc t = .returned r) ∨
        ∃ current uid kmalloc cmd syscall pid,
          call t = .mySyscall current uid kmalloc cmd syscall pid ∧ w.owner current = none) := by
  constructor
  · have hle : order.length + s.cost (fun _ => Pc.cost) ≤ (start T w).cost fun _ => Pc.cost :=
      Budget.turns_le (I := fun _ => True) (fun t c => affordable k invoke (hexit t) c)
        (fun _ _ _ => trivial) hrun
    rw [cost_start] at hle
    omega
  · intro hstuck
    obtain ⟨howned, hplaced⟩ := exec_turns_of_forall (I := Placed k invoke call w)
      (discipline k invoke call) (owned_start w) (placed_start k invoke call w)
      (fun _ _ _ _ hI hstep => hI.stepped hexit hstep) hrun
    have hholder : ∀ t l, holds (s.pc t) l → (call t).code k invoke (s.pc t) ≠ .exit ∧
        ∀ f e, (call t).code k invoke (s.pc t) = .compute f → f s.mem ≠ .error e := by
      intro t l hheld
      refine ⟨?_, ?_⟩
      · intro hend
        obtain ⟨r, hr⟩ := hplaced.returned t hend
        rw [hr] at hheld
        exact hheld
      · intro f e hcode hf
        rw [(fault_cases hcode hf).1] at hheld
        cases l <;> exact hheld
    have hend := stuck_turns Lock.rank 1 howned
      (fun t m next hcode m' hheld => rank_lt_of_lock hcode hheld)
      (fun m => by cases m <;> decide) hholder hstuck
    refine ⟨fun l => ?_, fun t => ?_⟩
    · cases howner : s.owner l with
      | none => rfl
      | some t => exact absurd ((hend t).1 l) (by rw [howner]; simp)
    · rcases (hend t).2 with hdone | ⟨f, e, hcode, hf⟩
      · exact .inl (hplaced.returned t hdone)
      · obtain ⟨_, current, uid, kmalloc, cmd, syscall, pid, hcall, hnone⟩ := fault_cases hcode hf
        rw [hplaced.owner] at hnone
        exact .inr ⟨current, uid, kmalloc, cmd, syscall, pid, hcall, hnone⟩

/-- Two requests of the superuser to intercept call 5. -/
def interceptTwice : Bool → Call
  | false => .mySyscall 1000 0 true REQUEST_SYSCALL_INTERCEPT 5 0
  | true => .mySyscall 2000 0 true REQUEST_SYSCALL_INTERCEPT 5 0

/-- The second request gets `my_table_lock` while the first one still holds `sys_call_table_lock`. -/
theorem calls_return_intercept :
    ∃ s, runCalls i386 (fun _ _ => 0) interceptTwice (loaded i386 id root.owner)
        [false, true, false, false, false, false, false, false, true, true, true, false, false] = .ok s ∧
      s.pc false = .returned 0 ∧ s.pc true = .returned (-EBUSY) ∧ ∀ l, s.owner l = none := by
  have h := @calls_return Bool _ _ i386 (fun _ _ => 0) interceptTwice (loaded i386 id root.owner)
    (fun t _ _ => by cases t <;> simp [interceptTwice])
    [false, true, false, false, false, false, false, false, true, true, true, false, false] _ rfl
  exact ⟨_, rfl, rfl, rfl, (h.2 fun t s' hturn => by cases t <;> cases hturn).1⟩

end Interceptor

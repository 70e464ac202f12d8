-- SUMMARY: A list keeps the pid of a process that has exited only if a request puts it there after the exit has gone over the row.
import Mathlib.Data.Fintype.Basic
import OperatingSystems.Interceptor.Exclusion

/-!
# Exited processes

`my_exit_group` takes the pid off every list, one row after the other. A request checks that its
process is alive before it waits for `my_table_lock` and not again afterwards, so it may add the
pid once the exit has gone over the row.
-/

namespace Interceptor

open Library Library.Run Library.Threads

variable {T : Type} {k : Kernel} {invoke : Handler → PtRegs → Int} {w w' : World} {c next : Pc}
  {t : MyTable} {p pid : Pid} {kmalloc : Bool} {i : Nat}

/-! ## What the operations do to a list -/

theorem count_delPidLoop (rest : List Pid) (t : MyTable) :
    (delPidLoop pid rest t).myList.count pid = t.myList.count pid - rest.count pid := by
  induction rest generalizing t with
  | nil => rfl
  | cons q rest ih =>
    rw [delPidLoop, ih]
    by_cases hq : q = pid
    · subst hq
      rw [if_pos rfl, MyTable.unlink_myList, List.count_erase_self, List.count_cons_self]
      omega
    · rw [if_neg hq, List.count_cons_of_ne hq]

/-- The loop goes over all nodes, so none with the pid is left. -/
theorem not_mem_delPidRow (pid : Pid) (t : MyTable) : pid ∉ (delPidRow pid t).myList := by
  rw [← List.count_eq_zero, delPidRow, count_delPidLoop, Nat.sub_self]

theorem mem_of_mem_unlink (h : p ∈ (t.unlink pid).myList) : p ∈ t.myList := by
  rw [MyTable.unlink_myList] at h
  exact List.mem_of_mem_erase h

theorem mem_of_mem_delPidLoop {rest : List Pid} (h : p ∈ (delPidLoop pid rest t).myList) :
    p ∈ t.myList := by
  induction rest generalizing t with
  | nil => exact h
  | cons q rest ih =>
    rw [delPidLoop] at h
    split at h
    · exact mem_of_mem_unlink (ih h)
    · exact ih h

theorem mem_of_mem_delPidSysc (h : p ∈ (delPidSysc pid t).2.myList) : p ∈ t.myList := by
  unfold delPidSysc at h
  split at h
  · exact mem_of_mem_unlink h
  · exact h

theorem mem_of_mem_startBlacklist (h : p ∈ (startBlacklist pid t).2.myList) : p ∈ t.myList := by
  unfold startBlacklist at h
  split at h
  · exact h
  · exact mem_of_mem_delPidSysc h

theorem mem_of_mem_stopList (h : p ∈ (stopList pid t).2.myList) : p ∈ t.myList := by
  unfold stopList at h
  split at h
  · exact h
  · exact mem_of_mem_delPidSysc h

/-- What an edit that may add `pid` leaves in the list: what was there, and `pid`. -/
def Added (kmalloc : Bool) (pid p : Pid) : Prop := kmalloc = true ∧ pid ≠ 0 ∧ p = pid

theorem mem_or_added_addPidSysc {r : Int} {t' : MyTable} (hadd : addPidSysc kmalloc pid t = (r, t'))
    (hpid : pid ≠ 0) (h : p ∈ t'.myList) : p ∈ t.myList ∨ Added kmalloc pid p := by
  cases kmalloc with
  | false =>
    cases hadd
    exact .inl h
  | true =>
    cases hadd
    rcases List.mem_cons.mp h with rfl | h
    · exact .inr ⟨rfl, hpid, rfl⟩
    · exact .inl h

theorem mem_or_added_startList (h : p ∈ (startList kmalloc pid t).2.myList) :
    p ∈ t.myList ∨ Added kmalloc pid p := by
  unfold startList at h
  split at h
  · exact .inl h
  split at h
  · cases h
  split at h
  rename_i hpid _ r t' hadd
  split at h
  · exact .inl h
  · exact mem_or_added_addPidSysc hadd hpid h

theorem mem_or_added_startNone (h : p ∈ (startNone kmalloc pid t).2.myList) :
    p ∈ t.myList ∨ Added kmalloc pid p := by
  unfold startNone at h
  split at h
  · exact .inl h
  split at h
  rename_i hpid _ r t' hadd
  split at h
  · exact .inl h
  · exact mem_or_added_addPidSysc hadd hpid h

theorem mem_or_added_stopBlacklist (h : p ∈ (stopBlacklist kmalloc pid t).2.myList) :
    p ∈ t.myList ∨ Added kmalloc pid p := by
  unfold stopBlacklist at h
  split at h
  · cases h
  split at h
  · exact .inl h
  split at h
  rename_i hpid _ _ r t' hadd
  split at h
  · exact .inl h
  · exact mem_or_added_addPidSysc hadd hpid h

/-! ## What a step does to the lists -/

/-- The places where a request may link a node into its list. -/
def Pc.Adds : Pc → Prop
  | .startList => True
  | .startNone => True
  | .stopBlacklist => True
  | _ => False

/-- The request adds `p` to the list of its row when it is not there yet. -/
def Call.Adds (p : Pid) : Call → Pc → Prop
  | .mySyscall _ _ kmalloc _ _ pid, c => c.Adds ∧ Added kmalloc pid p
  | _, _ => False

/-- The exit has gone over the row, or over more rows than there are. -/
def Pc.Past (i : Nat) : Pc → Prop
  | .exitLoop j => i < j
  | .exitRow j => i < j
  | .exitCall => True
  | .returned _ => True
  | _ => False

/-- A request that has passed its checks is about a row of the table. -/
def Call.Checked (k : Kernel) : Call → Pc → Prop
  | .mySyscall _ _ _ _ syscall _, c =>
    c = .start ∨ (∃ r, c = .returned r) ∨ 0 < syscall.toNat ∧ syscall.toNat < k.nrSyscalls
  | _, _ => True

theorem row_setRow_cases {j : Nat} {t' : MyTable} {P : Prop}
    (h : p ∈ ((w.setRow j t').row i).myList) (hedit : p ∈ t'.myList → p ∈ (w.row j).myList ∨ P) :
    p ∈ (w.row i).myList ∨ i = j ∧ P := by
  rw [World.row_setRow] at h
  split at h
  case isTrue hi =>
    subst hi
    exact (hedit h).imp_right fun hP => ⟨rfl, hP⟩
  case isFalse => exact .inl h

theorem mem_row_mySyscall {current : Pid} {uid : Nat} {cmd syscall : Int}
    (h : (mySyscallCode k current uid kmalloc cmd syscall pid c).Effect w next w')
    (hp : p ∈ (w'.row i).myList) :
    p ∈ (w.row i).myList ∨ i = syscall.toNat ∧ c.Adds ∧ Added kmalloc pid p := by
  cases c with
  | start =>
    obtain ⟨rfl, _⟩ := checked_of_effect_start h
    exact .inl hp
  | interceptCheck | releaseCheck | startCheck | startMonitored | stopMonitored
  | interceptHijack | releaseRestore =>
    cases h
    exact .inl hp
  | interceptMark | interceptSave | releaseClear =>
    cases h
    exact row_setRow_cases hp .inl
  | releaseDestroy =>
    cases h
    exact row_setRow_cases hp fun hp => by cases hp
  | startBlacklist =>
    cases h
    exact row_setRow_cases hp fun hp => .inl (mem_of_mem_startBlacklist hp)
  | stopList =>
    cases h
    exact row_setRow_cases hp fun hp => .inl (mem_of_mem_stopList hp)
  | startList =>
    cases h
    exact row_setRow_cases hp fun hp =>
      (mem_or_added_startList hp).imp_right fun ha => ⟨trivial, ha⟩
  | startNone =>
    cases h
    exact row_setRow_cases hp fun hp =>
      (mem_or_added_startNone hp).imp_right fun ha => ⟨trivial, ha⟩
  | stopBlacklist =>
    cases h
    exact row_setRow_cases hp fun hp =>
      (mem_or_added_stopBlacklist hp).imp_right fun ha => ⟨trivial, ha⟩
  | interceptLock | interceptLockSys | interceptUnlock | interceptUnlockSys | releaseLock
  | releaseLockSys | releaseUnlock | releaseUnlockSys | startLock | stopLock | unlockReturn =>
    obtain ⟨rfl, rfl⟩ := h
    exact .inl hp
  | interceptorLock | interceptorMonitored | interceptorUnlock | interceptorCall | exitLoop
  | exitRow | exitCall | returned => exact h.elim

/-- A list gains at most the pid that a request adds to its row. -/
theorem mem_row_of_effect {call : Call} (h : (call.code k invoke c).Effect w next w')
    (hp : p ∈ (w'.row i).myList) :
    p ∈ (w.row i).myList ∨ i = call.number ∧ call.Adds p c := by
  cases call with
  | mySyscall current uid kmalloc cmd syscall pid => exact mem_row_mySyscall h hp
  | interceptor current reg =>
    cases c with
    | start | interceptorCall =>
      cases h
      exact .inl hp
    | interceptorLock | interceptorUnlock =>
      obtain ⟨rfl, rfl⟩ := h
      exact .inl hp
    | interceptorMonitored =>
      cases h
      split at hp <;> exact .inl hp
    | _ => exact h.elim
  | myExitGroup current status =>
    cases c with
    | start | exitLoop | exitCall =>
      cases h
      exact .inl hp
    | exitRow j =>
      cases h
      rw [World.row_setRow] at hp
      split at hp
      case isTrue hi =>
        subst hi
        exact .inl (mem_of_mem_delPidLoop hp)
      case isFalse => exact .inl hp
    | _ => exact h.elim

/-- An exit goes over a row of the table only by taking the pid off its list. -/
theorem past_of_effect {status : Int}
    (h : ((Call.myExitGroup p status).code k invoke c).Effect w next w') (hpast : next.Past i)
    (hi : 0 < i ∧ i < k.nrSyscalls) (hp : p ∈ (w'.row i).myList) : c.Past i := by
  cases c with
  | start =>
    cases h
    simp only [Pc.Past] at hpast
    omega
  | exitLoop j =>
    cases h
    dsimp only at hpast
    split at hpast
    · exact hpast
    · simp only [Pc.Past]
      omega
  | exitRow j =>
    cases h
    simp only [Pc.Past] at hpast ⊢
    have hne : i ≠ j := by
      rintro rfl
      rw [World.row_setRow, if_pos rfl] at hp
      exact not_mem_delPidRow p _ hp
    omega
  | exitCall => exact trivial
  | _ => exact h.elim

theorem checked_checked {c : Caller} {cmd syscall pid : Int} :
    (∃ r, checked k c cmd syscall pid = .returned r) ∨
      0 < syscall.toNat ∧ syscall.toNat < k.nrSyscalls := by
  have hintercept : checkIntercept k c syscall = 0 →
      0 < syscall.toNat ∧ syscall.toNat < k.nrSyscalls := by
    intro h
    have hs := checkIntercept_eq_zero h
    omega
  have hmonitoring : checkMonitoring k c syscall pid = 0 →
      0 < syscall.toNat ∧ syscall.toNat < k.nrSyscalls := by
    intro h
    have hs := checkMonitoring_eq_zero h
    omega
  unfold checked
  repeat' split
  all_goals
    first
    | exact .inl ⟨_, rfl⟩
    | exact .inr (hintercept (not_not.mp ‹_›))
    | exact .inr (hmonitoring (not_not.mp ‹_›))

theorem checked_of_effect {call : Call} (h : (call.code k invoke c).Effect w next w')
    (hc : call.Checked k c) : call.Checked k next := by
  cases call with
  | interceptor current reg => exact trivial
  | myExitGroup current status => exact trivial
  | mySyscall current uid kmalloc cmd syscall pid =>
    rcases hc with rfl | ⟨r, rfl⟩ | hc
    · obtain ⟨_, _, rfl⟩ := checked_of_effect_start h
      exact .inr checked_checked
    · exact h.elim
    · exact .inr (.inr hc)

/-! ## Runs -/

/-- An exit of the process has gone over the row. -/
def Gone (call : T → Call) (s : State T) (p : Pid) (i : Nat) : Prop :=
  ∃ t status, call t = .myExitGroup p status ∧ (s.pc t).Past i

/-- The condition on a step: a pid is not added to a row that its exit has gone over. -/
def Timely (call : T → Call) (t : T) (s : State T) : Prop :=
  ∀ p, (call t).Adds p (s.pc t) → ¬Gone call s p (call t).number

/-- No list holds a pid once its exit has gone over the row. -/
structure Swept (k : Kernel) (call : T → Call) (s : State T) : Prop where
  checked : ∀ t, (call t).Checked k (s.pc t)
  inTable : ∀ i p, p ∈ (s.mem.row i).myList → 0 < i ∧ i < k.nrSyscalls
  notGone : ∀ i p, p ∈ (s.mem.row i).myList → ¬Gone call s p i

theorem Call.Adds.inTable {call : Call} (h : call.Adds p c) (hc : call.Checked k c) :
    0 < call.number ∧ call.number < k.nrSyscalls := by
  cases call with
  | mySyscall current uid kmalloc cmd syscall pid =>
    rcases hc with rfl | ⟨r, rfl⟩ | hc
    · exact h.1.elim
    · exact h.1.elim
    · exact hc
  | interceptor current reg => exact h.elim
  | myExitGroup current status => exact h.elim

section

variable {call : T → Call} {s s' : State T} {t : T}

theorem swept_start (entries : Nat → Nat) (owner : Pid → Option Nat) :
    Swept k call (start T (loaded k entries owner)) where
  checked t := by
    cases h : call t with
    | mySyscall current uid kmalloc cmd syscall pid => exact .inl rfl
    | interceptor current reg => exact trivial
    | myExitGroup current status => exact trivial
  inTable _ _ hp := by cases hp
  notGone _ _ hp := by cases hp

/-- The step: a pid that is in a list was there before, or has been added in time. -/
theorem Swept.stepped (h : Swept k call s) (hP : Timely call t s)
    (hstep : Stepped (code k invoke call) s s' t) : Swept k call s' := by
  have hrow : ∀ i p, p ∈ (s'.mem.row i).myList →
      p ∈ (s.mem.row i).myList ∨ i = (call t).number ∧ (call t).Adds p (s.pc t) :=
    fun i p hp => mem_row_of_effect hstep.effect hp
  have hin : ∀ i p, p ∈ (s'.mem.row i).myList → 0 < i ∧ i < k.nrSyscalls := by
    intro i p hp
    rcases hrow i p hp with hp | ⟨rfl, hadds⟩
    · exact h.inTable i p hp
    · exact hadds.inTable (h.checked t)
  refine ⟨fun u => ?_, hin, fun i p hp => ?_⟩
  · by_cases hut : u = t
    · subst hut
      exact checked_of_effect hstep.effect (h.checked u)
    · rw [hstep.others u hut]
      exact h.checked u
  · have hbefore : ¬Gone call s p i := by
      rcases hrow i p hp with hp | ⟨rfl, hadds⟩
      · exact h.notGone i p hp
      · exact hP p hadds
    rintro ⟨u, status, hu, hpast⟩
    refine hbefore ⟨u, status, hu, ?_⟩
    by_cases hut : u = t
    · subst hut
      have heffect := hstep.effect
      simp only [code, hu] at heffect
      exact past_of_effect heffect hpast (hin i p hp) hp
    · rw [hstep.others u hut] at hpast
      exact hpast

end

/-- If no request ever adds a pid to a row that an exit of the process has gone over, then at no
time does any list hold the pid of a process that has exited. -/
theorem exited_not_monitored [DecidableEq T] [Fintype T] (k : Kernel)
    (invoke : Handler → PtRegs → Int) (call : T → Call) (entries : Nat → Nat)
    (owner : Pid → Option Nat) {order : List T} {s : State T}
    (hrun : runCalls k invoke call (loaded k entries owner) order = .ok s)
    (halong : Along (turn (code k invoke call)) (Timely call) order
      (start T (loaded k entries owner))) :
    ∀ t p status r, call t = .myExitGroup p status → s.pc t = .returned r →
      ∀ i, p ∉ (s.mem.row i).myList := by
  obtain ⟨_, hswept⟩ := exec_turns (discipline k invoke call) (owned_start _)
    (swept_start entries owner) halong (fun _ _ _ _ _ hP hI hstep => hI.stepped hP hstep) hrun
  intro t p status r ht hr i hp
  refine hswept.notGone i p hp ⟨t, status, ht, ?_⟩
  rw [hr]
  exact trivial

/-- The superuser intercepts call 5 and starts monitoring it for process 2000, which exits. -/
def startAndExit : Fin 3 → Call
  | 0 => .mySyscall 1000 0 true REQUEST_SYSCALL_INTERCEPT 5 0
  | 1 => .mySyscall 1000 0 true REQUEST_START_MONITORING 5 2000
  | 2 => .myExitGroup 2000 0

set_option maxRecDepth 20000 in
/-- The request is granted before the process exits. -/
theorem exited_not_monitored_started :
    ∃ s, runCalls i386 (fun _ _ => 0) startAndExit (loaded i386 id root.owner)
        ([0, 0, 0, 0, 0, 0, 0, 0, 0, 1, 1, 1, 1, 1, 1] ++ List.replicate 675 2) = .ok s ∧
      s.pc 1 = .returned 0 ∧ s.pc 2 = .returned 0 ∧ ∀ i, 2000 ∉ (s.mem.row i).myList := by
  have hcall : ∀ u : Fin 3, u = 0 ∨ u = 1 ∨ u = 2 := by decide
  have hbefore : ∀ (t : Fin 3) (s : State (Fin 3)), s.pc 2 = .start → Timely startAndExit t s := by
    rintro t s h2 p hadds ⟨u, status, hu, hpast⟩
    rcases hcall u with rfl | rfl | rfl
    · cases hu
    · cases hu
    · rw [h2] at hpast
      exact hpast
  have hrequest : Along (turn (code i386 (fun _ _ => 0) startAndExit)) (Timely startAndExit)
      [0, 0, 0, 0, 0, 0, 0, 0, 0, 1, 1, 1, 1, 1, 1] (start (Fin 3) (loaded i386 id root.owner)) := by
    refine ⟨?_, ?_, ?_, ?_, ?_, ?_, ?_, ?_, ?_, ?_, ?_, ?_, ?_, ?_, ?_, trivial⟩
    all_goals exact hbefore _ _ rfl
  have hexit : ∀ s, Along (turn (code i386 (fun _ _ => 0) startAndExit)) (Timely startAndExit)
      (List.replicate 675 2) s := by
    refine .of_forall fun t ht s p hadds => ?_
    rw [List.eq_of_mem_replicate ht] at hadds
    exact hadds.elim
  obtain ⟨s₁, hrun₁⟩ : ∃ s, runCalls i386 (fun _ _ => 0) startAndExit (loaded i386 id root.owner)
      [0, 0, 0, 0, 0, 0, 0, 0, 0, 1, 1, 1, 1, 1, 1] = .ok s := ⟨_, rfl⟩
  obtain ⟨s, hrun, h1, h2⟩ : ∃ s, runCalls i386 (fun _ _ => 0) startAndExit
      (loaded i386 id root.owner)
      ([0, 0, 0, 0, 0, 0, 0, 0, 0, 1, 1, 1, 1, 1, 1] ++ List.replicate 675 2) = .ok s ∧
      s.pc 1 = .returned 0 ∧ s.pc 2 = .returned 0 := ⟨_, rfl, rfl, rfl⟩
  exact ⟨s, hrun, h1, h2, exited_not_monitored i386 _ startAndExit id root.owner hrun
    (hrequest.append hrun₁ (hexit s₁)) 2 2000 0 0 rfl h2⟩

set_option maxRecDepth 20000 in
/-- The process exits after the request has found it alive, and the request adds its pid. Then all
three calls have returned. -/
theorem started_after_exit :
    ∃ s, runCalls i386 (fun _ _ => 0) startAndExit (loaded i386 id root.owner)
        ([0, 0, 0, 0, 0, 0, 0, 0, 0, 1] ++ List.replicate 675 2 ++ [1, 1, 1, 1, 1]) = .ok s ∧
      s.pc 0 = .returned 0 ∧ s.pc 1 = .returned 0 ∧ s.pc 2 = .returned 0 ∧
      s.mem.owner 2000 = none ∧ 2000 ∈ (s.mem.row 5).myList :=
  ⟨_, rfl, rfl, rfl, rfl, rfl, List.mem_singleton.mpr rfl⟩

end Interceptor

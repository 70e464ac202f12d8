-- SUMMARY: Concurrent calls of my_syscall, interceptor and my_exit_group, as programs over the two spinlocks.
import OperatingSystems.Interceptor.Contract
import OperatingSystems.Library.Spinlocks

/-!
# Concurrent calls

Each call of one of the three functions the module installs is a thread. It takes one step for each
statement that locks, unlocks, or reads or writes what the calls share; but the checks at the start of
a request are one step, and so is a walk over a list together with the edit of the row that follows
it. For `my_exit_group`, which holds no lock then, this leaves out what happens to a list while
`del_pid` is on its way through it. A call that runs alone does what the function does.
-/

namespace Interceptor

open Library Library.Run Library.Threads

/-! ## What the calls share -/

/-- The two spinlocks. -/
inductive Lock where
  | myTable
  | sysCallTable
deriving DecidableEq

/-- A call, with its arguments and what it finds in the kernel: the calling process, for a request
`current_uid()` and whether `kmalloc` finds memory. -/
inductive Call where
  | mySyscall (current : Pid) (uid : Nat) (kmalloc : Bool) (cmd syscall pid : Int)
  | interceptor (current : Pid) (reg : PtRegs)
  | myExitGroup (current : Pid) (status : Int)

/-- The module, the owner of each live process, the messages logged and the handlers called. -/
structure World where
  module : Module
  owner : Pid → Option Nat
  log : List LogMessage
  calls : List (Handler × PtRegs)

namespace World

def row (w : World) (s : Nat) : MyTable := w.module.table s
def entry (w : World) (s : Nat) : Handler := w.module.sysCallTable s
def setRow (w : World) (s : Nat) (t : MyTable) : World := { w with module := w.module.setRow s t }
def setEntry (w : World) (s : Nat) (h : Handler) : World :=
  { w with module := w.module.setEntry s h }

/-- The kernel as the calling process sees it, if there is such a process. -/
def caller (w : World) (current : Pid) (uid : Nat) (kmalloc : Bool) : Option Caller :=
  if h : (w.owner current).isSome then
    some { pid := current, uid := uid, owner := w.owner, kmalloc := kmalloc, alive := h }
  else none

variable {w : World} {s i : Nat} {t : MyTable} {h : Handler}

@[simp] theorem row_setRow : (w.setRow s t).row i = if i = s then t else w.row i := by
  simp only [row, setRow, Module.table_setRow, Function.update_apply]

@[simp] theorem row_setEntry : (w.setEntry s h).row i = w.row i := rfl
@[simp] theorem entry_setRow : (w.setRow s t).entry i = w.entry i := rfl

@[simp] theorem entry_setEntry :
    (w.setEntry s h).entry i = if i = s then h else w.entry i := by
  simp only [entry, setEntry, Module.sysCallTable_setEntry, Function.update_apply]

@[simp] theorem setRow_row : w.setRow s (w.row s) = w := by simp [setRow, row]

end World

/-! ## Control states -/

/-- The places in the three functions, named by the statement that comes next. In the states named
after a mode, and in `releaseDestroy`, `interceptorMonitored` and `exitRow`, that is one that reads
or edits a list, its length or the mode. -/
inductive Pc where
  | start
  | interceptLock
  | interceptCheck
  | interceptMark
  | interceptLockSys
  | interceptSave
  | interceptUnlock
  | interceptHijack
  | interceptUnlockSys
  | releaseLock
  | releaseCheck
  | releaseClear
  | releaseDestroy
  | releaseLockSys
  | releaseRestore
  | releaseUnlock
  | releaseUnlockSys
  | startLock
  | startCheck
  | startMonitored
  | startBlacklist
  | startList
  | startNone
  | stopLock
  | stopMonitored
  | stopList
  | stopBlacklist
  | unlockReturn (r : Int)
  | interceptorLock
  | interceptorMonitored
  | interceptorUnlock
  | interceptorCall
  | exitLoop (s : Nat)
  | exitRow (s : Nat)
  | exitCall
  | returned (r : Int)
deriving DecidableEq

/-- A process that is not there has no task. -/
inductive Fault where
  | noTask
deriving DecidableEq

abbrev Op : Type := Instr Lock Empty World Pc Fault

/-- A branch on what is shared. -/
def branch (f : World → Pc) : Op := .compute fun w => .ok (w, f w)

/-- A step that edits a row. -/
def edit (s : Nat) (f : MyTable → MyTable) (next : Pc) : Op :=
  .compute fun w => .ok (w.setRow s (f (w.row s)), next)

/-- A step that edits a row; then `my_table_lock` is released and the call returns. -/
def editReturn (s : Nat) (f : MyTable → Int × MyTable) : Op :=
  .compute fun w => .ok (w.setRow s (f (w.row s)).2, .unlockReturn (f (w.row s)).1)

/-! ## my_syscall -/

/-- The checks of `my_syscall` for the command: where a request goes that passes them. -/
def checked (k : Kernel) (c : Caller) (cmd syscall pid : Int) : Pc :=
  if cmd > 4 ∨ cmd < 1 then .returned (-EINVAL)
  else if cmd = REQUEST_SYSCALL_INTERCEPT then
    if checkIntercept k c syscall ≠ 0 then .returned (checkIntercept k c syscall)
    else .interceptLock
  else if cmd = REQUEST_SYSCALL_RELEASE then
    if checkIntercept k c syscall ≠ 0 then .returned (checkIntercept k c syscall)
    else .releaseLock
  else if cmd = REQUEST_START_MONITORING then
    if checkMonitoring k c syscall pid ≠ 0 then .returned (checkMonitoring k c syscall pid)
    else .startLock
  else if cmd = REQUEST_STOP_MONITORING then
    if checkMonitoring k c syscall pid ≠ 0 then .returned (checkMonitoring k c syscall pid)
    else .stopLock
  else .returned 0

/-- START_MONITORING with the blacklist in force. -/
def startBlacklist (pid : Pid) (t : MyTable) : Int × MyTable :=
  if checkPidMonitored t pid = 0 then (-EBUSY, t) else (0, (delPidSysc pid t).2)

/-- START_MONITORING while some pids are monitored. -/
def startList (kmalloc : Bool) (pid : Pid) (t : MyTable) : Int × MyTable :=
  if checkPidMonitored t pid = 1 then (-EBUSY, t)
  else if pid = 0 then (0, { destroyList t with monitored := 2 })
  else
    let (r, t') := addPidSysc kmalloc pid t
    if r ≠ 0 then (-ENOMEM, t) else (0, t')

/-- START_MONITORING while no pid is. -/
def startNone (kmalloc : Bool) (pid : Pid) (t : MyTable) : Int × MyTable :=
  if pid = 0 then (0, { t with monitored := 2 })
  else
    let (r, t') := addPidSysc kmalloc pid t
    if r ≠ 0 then (-ENOMEM, t) else (0, { t' with monitored := 1 })

/-- STOP_MONITORING while some pids are monitored. -/
def stopList (pid : Pid) (t : MyTable) : Int × MyTable :=
  if checkPidMonitored t pid = 0 then (-EINVAL, t) else (0, (delPidSysc pid t).2)

/-- STOP_MONITORING with the blacklist in force. -/
def stopBlacklist (kmalloc : Bool) (pid : Pid) (t : MyTable) : Int × MyTable :=
  if pid = 0 then (0, destroyList t)
  else if checkPidMonitored t pid = 1 then (-EINVAL, t)
  else
    let (r, t') := addPidSysc kmalloc pid t
    if r ≠ 0 then (-ENOMEM, t) else (0, t')

/-- `my_syscall`, where `s` is the call that the request names. -/
def mySyscallCode (k : Kernel) (current : Pid) (uid : Nat) (kmalloc : Bool)
    (cmd syscall pid : Int) : Pc → Op :=
  let s := syscall.toNat
  fun
  | .start => .compute fun w =>
      match w.caller current uid kmalloc with
      | none => .error .noTask
      | some c => .ok (w, checked k c cmd syscall pid)
  -- REQUEST_SYSCALL_INTERCEPT
  | .interceptLock => .lock .myTable .interceptCheck
  | .interceptCheck => branch fun w =>
      if (w.row s).intercepted = 1 then .unlockReturn (-EBUSY) else .interceptMark
  | .interceptMark => edit s (fun t => { t with intercepted := 1 }) .interceptLockSys
  | .interceptLockSys => .lock .sysCallTable .interceptSave
  | .interceptSave => .compute fun w =>
      .ok (w.setRow s { w.row s with f := w.entry s }, .interceptUnlock)
  -- The entry is written after `my_table_lock` is given up.
  | .interceptUnlock => .unlock .myTable .interceptHijack
  | .interceptHijack => .compute fun w => .ok (w.setEntry s .interceptor, .interceptUnlockSys)
  | .interceptUnlockSys => .unlock .sysCallTable (.returned 0)
  -- REQUEST_SYSCALL_RELEASE
  | .releaseLock => .lock .myTable .releaseCheck
  | .releaseCheck => branch fun w =>
      if (w.row s).intercepted = 0 then .unlockReturn (-EINVAL) else .releaseClear
  | .releaseClear => edit s (fun t => { t with intercepted := 0 }) .releaseDestroy
  | .releaseDestroy => edit s destroyList .releaseLockSys
  | .releaseLockSys => .lock .sysCallTable .releaseRestore
  | .releaseRestore => .compute fun w => .ok (w.setEntry s (w.row s).f, .releaseUnlock)
  | .releaseUnlock => .unlock .myTable .releaseUnlockSys
  | .releaseUnlockSys => .unlock .sysCallTable (.returned 0)
  -- REQUEST_START_MONITORING
  | .startLock => .lock .myTable .startCheck
  | .startCheck => branch fun w =>
      if (w.row s).intercepted = 0 then .unlockReturn (-EINVAL) else .startMonitored
  | .startMonitored => branch fun w =>
      if (w.row s).monitored = 2 then .startBlacklist
      else if (w.row s).monitored = 1 then .startList
      else if (w.row s).monitored = 0 then .startNone
      else .unlockReturn 0
  | .startBlacklist => editReturn s (startBlacklist pid)
  | .startList => editReturn s (startList kmalloc pid)
  | .startNone => editReturn s (startNone kmalloc pid)
  -- REQUEST_STOP_MONITORING
  | .stopLock => .lock .myTable .stopMonitored
  | .stopMonitored => branch fun w =>
      if (w.row s).monitored = 0 then .unlockReturn (-EINVAL)
      else if (w.row s).monitored = 1 then .stopList
      else if (w.row s).monitored = 2 then .stopBlacklist
      else .unlockReturn 0
  | .stopList => editReturn s (stopList pid)
  | .stopBlacklist => editReturn s (stopBlacklist kmalloc pid)
  | .unlockReturn r => .unlock .myTable (.returned r)
  | _ => .exit

/-! ## interceptor and my_exit_group -/

/-- Whether `interceptor` logs the call. -/
def logs (current : Pid) (t : MyTable) : Bool :=
  t.monitored ≠ 0 ∧ (t.monitored = 2 ∨ checkPidMonitored t current ≠ 0)

/-- `interceptor`. -/
def interceptorCode (invoke : Handler → PtRegs → Int) (current : Pid) (reg : PtRegs) : Pc → Op
  | .start => branch fun _ => .interceptorLock
  | .interceptorLock => .lock .myTable .interceptorMonitored
  | .interceptorMonitored => .compute fun w =>
      .ok (if logs current (w.row reg.ax) then { w with log := w.log ++ [logMessage current reg] }
        else w, .interceptorUnlock)
  | .interceptorUnlock => .unlock .myTable .interceptorCall
  -- The handler is read without the lock.
  | .interceptorCall => .compute fun w =>
      .ok ({ w with calls := w.calls ++ [((w.row reg.ax).f, reg)] },
        .returned (invoke (w.row reg.ax).f reg))
  | _ => .exit

/-- `my_exit_group`: the loop of `del_pid` over the rows, without a lock, and the original
`exit_group`, after which the process is gone. -/
def myExitGroupCode (k : Kernel) (current : Pid) (status : Int) : Pc → Op
  | .start => branch fun _ => .exitLoop 1
  | .exitLoop s => branch fun _ => if s < k.nrSyscalls then .exitRow s else .exitCall
  | .exitRow s => edit s (delPidRow current) (.exitLoop (s + 1))
  | .exitCall => .compute fun w =>
      .ok ({ w with owner := Function.update w.owner current none }, .returned status)
  | _ => .exit

/-- The program of a call. -/
def Call.code (k : Kernel) (invoke : Handler → PtRegs → Int) : Call → Pc → Op
  | .mySyscall current uid kmalloc cmd syscall pid =>
    mySyscallCode k current uid kmalloc cmd syscall pid
  | .interceptor current reg => interceptorCode invoke current reg
  | .myExitGroup current status => myExitGroupCode k current status

/-! ## Concurrent calls -/

variable {T : Type}

abbrev State (T : Type) : Type := Threads.State T Lock Empty World fun _ => Pc

/-- The programs of the calls that are made. -/
def code (k : Kernel) (invoke : Handler → PtRegs → Int) (call : T → Call) (t : T) : Pc → Op :=
  (call t).code k invoke

/-- The calls before their first steps. -/
def start (T : Type) (w : World) : State T where
  mem := w
  status _ := .running .start
  owner _ := none

/-- The kernel with the module just loaded. -/
def loaded (k : Kernel) (entries : Nat → Nat) (owner : Pid → Option Nat) : World :=
  { module := initFunction k fun i => .outside (entries i), owner := owner, log := [], calls := [] }

/-- The calls run in an order: the state after the steps of the threads. -/
def runCalls [DecidableEq T] [Fintype T] (k : Kernel) (invoke : Handler → PtRegs → Int)
    (call : T → Call) (w : World) (order : List T) : Except (Stop Fault) (State T) :=
  exec (turn (code k invoke call)) order (start T w)

/-- The locks that a call holds. -/
def holds : Pc → Lock → Prop
  | .interceptCheck, l => l = .myTable
  | .interceptMark, l => l = .myTable
  | .interceptLockSys, l => l = .myTable
  | .interceptSave, _ => True
  | .interceptUnlock, _ => True
  | .interceptHijack, l => l = .sysCallTable
  | .interceptUnlockSys, l => l = .sysCallTable
  | .releaseCheck, l => l = .myTable
  | .releaseClear, l => l = .myTable
  | .releaseDestroy, l => l = .myTable
  | .releaseLockSys, l => l = .myTable
  | .releaseRestore, _ => True
  | .releaseUnlock, _ => True
  | .releaseUnlockSys, l => l = .sysCallTable
  | .startCheck, l => l = .myTable
  | .startMonitored, l => l = .myTable
  | .startBlacklist, l => l = .myTable
  | .startList, l => l = .myTable
  | .startNone, l => l = .myTable
  | .stopMonitored, l => l = .myTable
  | .stopList, l => l = .myTable
  | .stopBlacklist, l => l = .myTable
  | .unlockReturn _, l => l = .myTable
  | .interceptorMonitored, l => l = .myTable
  | .interceptorUnlock, l => l = .myTable
  | _, _ => False

/-! ## The discipline -/

section

variable {k : Kernel} {invoke : Handler → PtRegs → Int} {call : Call} {c next : Pc} {l : Lock}
  {f : World → Except Fault (World × Pc)} {w w' : World}

/-- The first step of a request makes its checks. -/
theorem checked_of_effect_start {current pid : Pid} {uid : Nat} {kmalloc : Bool}
    {cmd syscall : Int}
    (h : (mySyscallCode k current uid kmalloc cmd syscall pid .start).Effect w next w') :
    w' = w ∧ ∃ c, next = checked k c cmd syscall pid := by
  simp only [mySyscallCode, Instr.Effect] at h
  split at h
  · cases h
  · cases h
    exact ⟨rfl, _, rfl⟩

/-- Only an exit changes which processes there are. -/
theorem owner_of_effect {call : Call} (h : (call.code k invoke c).Effect w next w')
    (hexit : ∀ current status, call ≠ .myExitGroup current status) : w'.owner = w.owner := by
  cases call with
  | mySyscall current uid kmalloc cmd syscall pid =>
    cases c with
    | start =>
      obtain ⟨rfl, _⟩ := checked_of_effect_start h
      rfl
    | _ => first | exact h.elim | exact congrArg World.owner h.2 | (cases h; rfl)
  | interceptor current reg =>
    cases c with
    | interceptorMonitored =>
      cases h
      split <;> rfl
    | _ => first | exact h.elim | exact congrArg World.owner h.2 | (cases h; rfl)
  | myExitGroup current status => exact absurd rfl (hexit current status)

/-- A request holds no lock when its checks are made. -/
theorem not_holds_checked (k : Kernel) (c : Caller) (cmd syscall pid : Int) (l : Lock) :
    ¬holds (checked k c cmd syscall pid) l := by
  unfold checked
  repeat' split
  all_goals simp [holds]

theorem holds_lock (h : call.code k invoke c = .lock l next) (l' : Lock) :
    holds next l' ↔ l' = l ∨ holds c l' := by
  cases call with
  | mySyscall =>
    cases c <;> cases h
    all_goals cases l' <;> simp [holds]
  | interceptor =>
    cases c <;> cases h
    cases l' <;> simp [holds]
  | myExitGroup => cases c <;> cases h

theorem holds_unlock (h : call.code k invoke c = .unlock l next) :
    holds c l ∧ ∀ l', holds next l' ↔ holds c l' ∧ l' ≠ l := by
  refine ⟨?_, fun l' => ?_⟩
  · cases call with
    | mySyscall =>
      cases c <;> cases h
      all_goals simp [holds]
    | interceptor =>
      cases c <;> cases h
      simp [holds]
    | myExitGroup => cases c <;> cases h
  · cases call with
    | mySyscall =>
      cases c <;> cases h
      all_goals cases l' <;> simp [holds]
    | interceptor =>
      cases c <;> cases h
      cases l' <;> simp [holds]
    | myExitGroup => cases c <;> cases h

theorem holds_ite (p : Prop) [Decidable p] (c d : Pc) (l : Lock) :
    holds (if p then c else d) l ↔ if p then holds c l else holds d l := by
  split <;> rfl

theorem holds_compute (h : call.code k invoke c = .compute f) (hf : f w = .ok (w', next))
    (l : Lock) : holds next l ↔ holds c l := by
  cases call with
  | mySyscall current uid kmalloc cmd syscall pid =>
    cases c
    case start =>
      cases h
      have hstart : (mySyscallCode k current uid kmalloc cmd syscall pid .start).Effect w next w' :=
        hf
      obtain ⟨_, _, rfl⟩ := checked_of_effect_start hstart
      exact iff_of_false (not_holds_checked _ _ _ _ _ _) (by simp [holds])
    all_goals
      cases h
      try cases hf
    all_goals
      try simp only [holds_ite]
      simp [holds]
  | interceptor =>
    cases c
    all_goals
      cases h
      try cases hf
    all_goals simp [holds]
  | myExitGroup =>
    cases c
    all_goals
      cases h
      try cases hf
    all_goals
      try simp only [holds_ite]
      simp [holds]

end

variable {k : Kernel} {invoke : Handler → PtRegs → Int} {call : T → Call}

theorem discipline (k : Kernel) (invoke : Handler → PtRegs → Int) (call : T → Call) :
    Discipline (code k invoke call) fun _ => holds where
  lock h := holds_lock h
  unlock h := holds_unlock h
  wait {_ _ v} := isEmptyElim v
  signal {_ _ v} := isEmptyElim v
  compute h hf := holds_compute h hf

theorem owned_start (w : World) : Owned (code k invoke call) (fun _ => holds) (start T w) :=
  .start (fun _ => rfl) fun _ => ⟨.start, rfl, fun _ => by simp [holds]⟩

/-! ## A call alone -/

/-- No lock is held. -/
def free : Lock → Option T := fun _ => none

theorem free_relock (l : Lock) (t : T) :
    Function.update (Function.update free l (some t)) l none = free := by
  funext l'
  by_cases hl : l' = l
  · simp [hl, free]
  · simp [hl]

section Alone

variable [DecidableEq T] [Fintype T] {prog : T → Pc → Op} {t : T} {s : State T} {w : World}
  {c : Caller} {current pid : Pid} {uid : Nat} {kmalloc : Bool} {cmd syscall : Int}
  {reg : PtRegs} {status : Int}

theorem branch_alone {pc next : Pc} {f : World → Pc} {owner : Lock → Option T} {s' : State T}
    (hcode : prog t pc = branch f) (hf : f w = next) (h : Alone prog t (s.put t next w owner) s') :
    Alone prog t (s.put t pc w owner) s' :=
  .compute hcode (by rw [hf]) h

section Request

variable (hprog : prog t = mySyscallCode k current uid kmalloc cmd syscall pid)

include hprog

theorem unlockReturn_alone (r : Int) :
    Alone prog t (s.put t (.unlockReturn r) w (Function.update free .myTable (some t)))
      (s.put t (.returned r) w free) := by
  refine .unlock (by rw [hprog]; rfl) ?_
  rw [free_relock]
  exact .refl _

/-- The last edit of a row under `my_table_lock`, to the end of the call. -/
theorem editReturn_alone {pc : Pc} {i : Nat} {f : MyTable → Int × MyTable}
    (hcode : prog t pc = editReturn i f) :
    Alone prog t (s.put t pc w (Function.update free .myTable (some t)))
      (s.put t (.returned (f (w.row i)).1) (w.setRow i (f (w.row i)).2) free) :=
  .compute hcode rfl (unlockReturn_alone hprog _)

theorem intercept_alone :
    Alone prog t (s.put t .interceptLock w free)
      (s.put t (.returned (intercept syscall.toNat w.module).1)
        { w with module := (intercept syscall.toNat w.module).2 } free) := by
  refine .lock (by rw [hprog]; rfl) rfl ?_
  by_cases hint : (w.module.table syscall.toNat).intercepted = 1
  · refine branch_alone (by rw [hprog]; rfl) (if_pos hint) ?_
    rw [intercept, if_pos hint]
    exact unlockReturn_alone hprog _
  rw [intercept, if_neg hint]
  refine branch_alone (by rw [hprog]; rfl) (if_neg hint) ?_
  refine .compute (by rw [hprog]; rfl) rfl ?_
  refine .lock (by rw [hprog]; rfl) (by simp [free]) ?_
  refine .compute (by rw [hprog]; rfl) rfl ?_
  refine .unlock (by rw [hprog]; rfl) ?_
  refine .compute (by rw [hprog]; rfl) rfl ?_
  refine .unlock (by rw [hprog]; rfl) (.done ?_ ?_)
  · simp [World.setRow, World.setEntry, World.row, World.entry, Module.setRow, Module.setEntry]
  · funext l
    cases l <;> simp [free]

theorem release_alone :
    Alone prog t (s.put t .releaseLock w free)
      (s.put t (.returned (release syscall.toNat w.module).1)
        { w with module := (release syscall.toNat w.module).2 } free) := by
  refine .lock (by rw [hprog]; rfl) rfl ?_
  by_cases hint : (w.module.table syscall.toNat).intercepted = 0
  · refine branch_alone (by rw [hprog]; rfl) (if_pos hint) ?_
    rw [release, if_pos hint]
    exact unlockReturn_alone hprog _
  rw [release, if_neg hint]
  refine branch_alone (by rw [hprog]; rfl) (if_neg hint) ?_
  refine .compute (by rw [hprog]; rfl) rfl ?_
  refine .compute (by rw [hprog]; rfl) rfl ?_
  refine .lock (by rw [hprog]; rfl) (by simp [free]) ?_
  refine .compute (by rw [hprog]; rfl) rfl ?_
  refine .unlock (by rw [hprog]; rfl) ?_
  refine .unlock (by rw [hprog]; rfl) (.done ?_ ?_)
  · simp [World.setRow, World.setEntry, World.row, Module.setRow, Module.setEntry, destroyList]
  · funext l
    cases l <;> simp [free]

theorem start_alone :
    Alone prog t (s.put t .startLock w free)
      (s.put t (.returned (startMonitoring kmalloc pid (w.row syscall.toNat)).1)
        (w.setRow syscall.toNat (startMonitoring kmalloc pid (w.row syscall.toNat)).2) free) := by
  refine .lock (by rw [hprog]; rfl) rfl ?_
  by_cases hint : (w.row syscall.toNat).intercepted = 0
  · refine branch_alone (by rw [hprog]; rfl) (if_pos hint) ?_
    rw [startMonitoring, if_pos hint, World.setRow_row]
    exact unlockReturn_alone hprog _
  rw [startMonitoring, if_neg hint]
  refine branch_alone (by rw [hprog]; rfl) (if_neg hint) ?_
  by_cases h2 : (w.row syscall.toNat).monitored = 2
  · rw [if_pos h2]
    refine branch_alone (by rw [hprog]; rfl) (if_pos h2) ?_
    exact editReturn_alone hprog (f := startBlacklist pid) (by rw [hprog]; rfl)
  rw [if_neg h2]
  by_cases h1 : (w.row syscall.toNat).monitored = 1
  · rw [if_pos h1]
    refine branch_alone (by rw [hprog]; rfl) ((if_neg h2).trans (if_pos h1)) ?_
    exact editReturn_alone hprog (f := startList kmalloc pid) (by rw [hprog]; rfl)
  rw [if_neg h1]
  by_cases h0 : (w.row syscall.toNat).monitored = 0
  · rw [if_pos h0]
    refine branch_alone (by rw [hprog]; rfl)
      ((if_neg h2).trans ((if_neg h1).trans (if_pos h0))) ?_
    exact editReturn_alone hprog (f := startNone kmalloc pid) (by rw [hprog]; rfl)
  · rw [if_neg h0, World.setRow_row]
    refine branch_alone (by rw [hprog]; rfl)
      ((if_neg h2).trans ((if_neg h1).trans (if_neg h0))) ?_
    exact unlockReturn_alone hprog _

theorem stop_alone :
    Alone prog t (s.put t .stopLock w free)
      (s.put t (.returned (stopMonitoring kmalloc pid (w.row syscall.toNat)).1)
        (w.setRow syscall.toNat (stopMonitoring kmalloc pid (w.row syscall.toNat)).2) free) := by
  refine .lock (by rw [hprog]; rfl) rfl ?_
  by_cases h0 : (w.row syscall.toNat).monitored = 0
  · refine branch_alone (by rw [hprog]; rfl) (if_pos h0) ?_
    rw [stopMonitoring, if_pos h0, World.setRow_row]
    exact unlockReturn_alone hprog _
  rw [stopMonitoring, if_neg h0]
  by_cases h1 : (w.row syscall.toNat).monitored = 1
  · rw [if_pos h1]
    refine branch_alone (by rw [hprog]; rfl) ((if_neg h0).trans (if_pos h1)) ?_
    exact editReturn_alone hprog (f := stopList pid) (by rw [hprog]; rfl)
  rw [if_neg h1]
  by_cases h2 : (w.row syscall.toNat).monitored = 2
  · rw [if_pos h2]
    refine branch_alone (by rw [hprog]; rfl)
      ((if_neg h0).trans ((if_neg h1).trans (if_pos h2))) ?_
    exact editReturn_alone hprog (f := stopBlacklist kmalloc pid) (by rw [hprog]; rfl)
  · rw [if_neg h2, World.setRow_row]
    refine branch_alone (by rw [hprog]; rfl)
      ((if_neg h0).trans ((if_neg h1).trans (if_neg h2))) ?_
    exact unlockReturn_alone hprog _

/-- A request that no other call interrupts does what `my_syscall` does. -/
theorem mySyscall_alone (hcaller : w.caller current uid kmalloc = some c) :
    Alone prog t (s.put t .start w free)
      (s.put t (.returned (mySyscall k c cmd syscall pid w.module).1)
        { w with module := (mySyscall k c cmd syscall pid w.module).2 } free) := by
  have hkmalloc : c.kmalloc = kmalloc := by
    unfold World.caller at hcaller
    split at hcaller
    · cases hcaller
      rfl
    · cases hcaller
  refine .compute (f := fun w => match w.caller current uid kmalloc with
    | none => .error .noTask
    | some c => .ok (w, checked k c cmd syscall pid)) (by rw [hprog]; rfl) (by rw [hcaller]) ?_
  unfold checked mySyscall
  split
  · exact .refl _
  split
  · split
    · exact .refl _
    · exact intercept_alone hprog
  split
  · split
    · exact .refl _
    · exact release_alone hprog
  split
  · split
    · exact .refl _
    · rw [hkmalloc]
      exact start_alone hprog
  split
  · split
    · exact .refl _
    · rw [hkmalloc]
      exact stop_alone hprog
  · exact .refl _

end Request

/-- A call of `interceptor` that runs alone logs, calls and returns what `interceptor` does. -/
theorem interceptor_alone (hprog : prog t = interceptorCode invoke current reg) :
    Alone prog t (s.put t .start w free)
      (s.put t (.returned (interceptor invoke current reg w.module).result)
        { w with
          log := w.log ++ (interceptor invoke current reg w.module).log
          calls := w.calls ++ (interceptor invoke current reg w.module).calls } free) := by
  have hlogs : (interceptor invoke current reg w.module).log =
      if logs current (w.row reg.ax) then [logMessage current reg] else [] := by
    simp only [interceptor, logs, World.row]
    by_cases h0 : (w.module.table reg.ax).monitored = 0
    · simp [h0]
    · by_cases h2 : (w.module.table reg.ax).monitored = 2
      · simp [h2]
      · by_cases hlist : checkPidMonitored (w.module.table reg.ax) current = 0
        · simp [h0, h2, hlist]
        · simp [h0, h2, hlist]
  obtain ⟨hcalls, hresult⟩ := interceptor_calls invoke current reg w.module
  rw [hlogs, hcalls, hresult]
  refine branch_alone (by rw [hprog]; rfl) rfl ?_
  refine .lock (by rw [hprog]; rfl) rfl ?_
  refine .compute (by rw [hprog]; rfl) rfl ?_
  refine .unlock (by rw [hprog]; rfl) ?_
  rw [free_relock]
  split
  · exact .compute (by rw [hprog]; rfl) rfl (.refl _)
  · exact .compute (by rw [hprog]; rfl) rfl (.done (by simp [World.row]) rfl)

/-- The loop of `del_pid` from a row on. -/
theorem exitLoop_alone (hprog : prog t = myExitGroupCode k current status) {n i : Nat}
    (hn : i + n = max i k.nrSyscalls) :
    Alone prog t (s.put t (.exitLoop i) w free)
      (s.put t .exitCall
        { w with module := { w.module with
          table := (List.range' i n).foldl
            (fun tbl j => Function.update tbl j (delPidRow current (tbl j))) w.module.table } }
        free) := by
  induction n generalizing i w with
  | zero =>
    have hge : ¬i < k.nrSyscalls := by omega
    exact branch_alone (by rw [hprog]; rfl) (if_neg hge) (.refl _)
  | succ n ih =>
    have hlt : i < k.nrSyscalls := by omega
    refine branch_alone (by rw [hprog]; rfl) (if_pos hlt) ?_
    have hn' : i + 1 + n = max (i + 1) k.nrSyscalls := by omega
    exact .compute (by rw [hprog]; rfl) rfl (ih hn')

/-- An exit that runs alone does what `my_exit_group` does, and the process is gone. -/
theorem myExitGroup_alone (hprog : prog t = myExitGroupCode k current status) :
    Alone prog t (s.put t .start w free)
      (s.put t (.returned status)
        { w with
          module := (myExitGroup k current status w.module).1
          owner := Function.update w.owner current none } free) := by
  have hk := k.exitGroup_lt
  refine branch_alone (by rw [hprog]; rfl) rfl ?_
  refine (exitLoop_alone hprog (n := k.nrSyscalls - 1) (by omega)).trans ?_
  exact .compute (by rw [hprog]; rfl) rfl (.refl _)

end Alone

end Interceptor

-- SUMMARY: The interceptor module as a state machine: loading, the four requests, exits, the generic interceptor, unloading.
import OperatingSystems.Interceptor.Table

/-!
# The module

The globals of the module and the functions that change them: `init_function`, `my_syscall` with
its four commands, `my_exit_group` and `exit_function`, and `interceptor`, which reads them. The
part of `my_syscall` that runs under `my_table_lock` is a function of its own for each command.
-/

namespace Interceptor

/-! ## Globals and callers -/

/-- The globals of the module, with the kernel's system call table. -/
structure Module where
  table : Nat → MyTable
  sysCallTable : Nat → Handler
  origCustomSyscall : Handler
  origExitGroup : Handler

/-- What a request can see of the kernel: the calling process, `current_uid()`, the owner of each
live process (`pid_task(find_vpid(pid))->real_cred->uid`), and whether `kmalloc` finds memory. -/
structure Caller where
  pid : Pid
  uid : Nat
  owner : Pid → Option Nat
  kmalloc : Bool
  alive : (owner pid).isSome

namespace Module

def setRow (m : Module) (s : Nat) (t : MyTable) : Module :=
  { m with table := Function.update m.table s t }

def setEntry (m : Module) (s : Nat) (h : Handler) : Module :=
  { m with sysCallTable := Function.update m.sysCallTable s h }

@[simp] theorem table_setRow (m : Module) (s : Nat) (t : MyTable) :
    (m.setRow s t).table = Function.update m.table s t := rfl

@[simp] theorem sysCallTable_setRow (m : Module) (s : Nat) (t : MyTable) :
    (m.setRow s t).sysCallTable = m.sysCallTable := rfl

@[simp] theorem table_setEntry (m : Module) (s : Nat) (h : Handler) :
    (m.setEntry s h).table = m.table := rfl

@[simp] theorem sysCallTable_setEntry (m : Module) (s : Nat) (h : Handler) :
    (m.setEntry s h).sysCallTable = Function.update m.sysCallTable s h := rfl

@[simp] theorem setRow_self (m : Module) (s : Nat) : m.setRow s (m.table s) = m := by
  simp [setRow]

end Module

/-! ## Checks -/

/-- `check_pids_same_owner`. No result stands for the null dereference on a pid without a task. -/
def checkPidsSameOwner (c : Caller) (pid1 pid2 : Pid) : Option Int :=
  match c.owner pid1, c.owner pid2 with
  | some u1, some u2 => some (if u1 ≠ u2 then -EPERM else 0)
  | _, _ => none

/-- `check_valid_syscall`. -/
def checkValidSyscall (k : Kernel) (syscall : Int) : Int :=
  if syscall < 0 ∨ syscall > k.nrSyscalls - 1 ∨ syscall = MY_CUSTOM_SYSCALL then -EINVAL else 0

/-- `check_valid_pid`. -/
def checkValidPid (c : Caller) (pid : Int) : Int :=
  if pid < 0 ∨ (c.owner pid = none ∧ pid ≠ 0) then -EINVAL else 0

/-- A pid that passed `check_valid_pid` has a task, and so has the caller: where `my_syscall`
compares owners, no null pointer is dereferenced. -/
theorem checkPidsSameOwner_isSome {c : Caller} {pid : Pid} (hvalid : checkValidPid c pid = 0)
    (hpid : pid ≠ 0) : (checkPidsSameOwner c c.pid pid).isSome := by
  obtain ⟨u1, h1⟩ := Option.isSome_iff_exists.mp c.alive
  have h2 : c.owner pid ≠ none := by
    intro hnone
    simp [checkValidPid, hnone, hpid, EINVAL] at hvalid
  obtain ⟨u2, h2⟩ := Option.ne_none_iff_exists'.mp h2
  simp [checkPidsSameOwner, h1, h2]

/-! ## Requests -/

def REQUEST_SYSCALL_INTERCEPT : Int := 1
def REQUEST_SYSCALL_RELEASE : Int := 2
def REQUEST_START_MONITORING : Int := 3
def REQUEST_STOP_MONITORING : Int := 4

/-- The checks of `my_syscall` for the first two commands: `0` when they pass. -/
def checkIntercept (k : Kernel) (c : Caller) (syscall : Int) : Int :=
  if checkValidSyscall k syscall ≠ 0 then -EINVAL
  else if c.uid ≠ 0 then -EPERM
  else 0

/-- The checks of `my_syscall` for the last two commands: `0` when they pass. -/
def checkMonitoring (k : Kernel) (c : Caller) (syscall pid : Int) : Int :=
  if checkValidSyscall k syscall ≠ 0 then -EINVAL
  else if checkValidPid c pid ≠ 0 then -EINVAL
  else if c.uid ≠ 0 ∧ (pid = 0 ∨ checkPidsSameOwner c c.pid pid ≠ some 0) then -EPERM
  else 0

/-- `REQUEST_SYSCALL_INTERCEPT` under the locks. -/
def intercept (s : Nat) (m : Module) : Int × Module :=
  let t := m.table s
  if t.intercepted = 1 then (-EBUSY, m)
  else
    -- What is saved is the entry of now, be it the kernel's or the module's own.
    (0, (m.setRow s { t with intercepted := 1, f := m.sysCallTable s }).setEntry s
      .interceptor)

/-- `REQUEST_SYSCALL_RELEASE` under the locks. -/
def release (s : Nat) (m : Module) : Int × Module :=
  let t := m.table s
  if t.intercepted = 0 then (-EINVAL, m)
  else
    (0, (m.setRow s (destroyList { t with intercepted := 0 })).setEntry s t.f)

/-- `REQUEST_START_MONITORING` under `my_table_lock`, on the row of the call. -/
def startMonitoring (kmalloc : Bool) (pid : Pid) (t : MyTable) : Int × MyTable :=
  if t.intercepted = 0 then (-EINVAL, t)
  else if t.monitored = 2 then
    -- The list is the blacklist: a pid that is not in it is monitored already.
    if checkPidMonitored t pid = 0 then (-EBUSY, t)
    else (0, (delPidSysc pid t).2)
  else if t.monitored = 1 then
    -- The list is of the pids monitored, and pid 0 is never in it.
    if checkPidMonitored t pid = 1 then (-EBUSY, t)
    else if pid = 0 then (0, { destroyList t with monitored := 2 })
    else
      let (r, t') := addPidSysc kmalloc pid t
      if r ≠ 0 then (-ENOMEM, t) else (0, t')
  else if t.monitored = 0 then
    if pid = 0 then (0, { t with monitored := 2 })
    else
      let (r, t') := addPidSysc kmalloc pid t
      if r ≠ 0 then (-ENOMEM, t) else (0, { t' with monitored := 1 })
  else (0, t)

/-- `REQUEST_STOP_MONITORING` under `my_table_lock`, on the row of the call. -/
def stopMonitoring (kmalloc : Bool) (pid : Pid) (t : MyTable) : Int × MyTable :=
  if t.monitored = 0 then (-EINVAL, t)
  else if t.monitored = 1 then
    -- There is no case for pid 0: all pids can be stopped only if all are monitored.
    if checkPidMonitored t pid = 0 then (-EINVAL, t)
    else (0, (delPidSysc pid t).2)
  else if t.monitored = 2 then
    if pid = 0 then (0, destroyList t)
    else if checkPidMonitored t pid = 1 then (-EINVAL, t)
    else
      let (r, t') := addPidSysc kmalloc pid t
      if r ≠ 0 then (-ENOMEM, t) else (0, t')
  else (0, t)

/-- Run the part of a request that edits one row, and store the row. -/
def Module.editRow (m : Module) (s : Nat) (edit : MyTable → Int × MyTable) : Int × Module :=
  ((edit (m.table s)).1, m.setRow s (edit (m.table s)).2)

/-- `my_syscall`. -/
def mySyscall (k : Kernel) (c : Caller) (cmd syscall pid : Int) (m : Module) : Int × Module :=
  if cmd > 4 ∨ cmd < 1 then (-EINVAL, m)
  else if cmd = REQUEST_SYSCALL_INTERCEPT then
    if checkIntercept k c syscall ≠ 0 then (checkIntercept k c syscall, m)
    else intercept syscall.toNat m
  else if cmd = REQUEST_SYSCALL_RELEASE then
    if checkIntercept k c syscall ≠ 0 then (checkIntercept k c syscall, m)
    else release syscall.toNat m
  else if cmd = REQUEST_START_MONITORING then
    if checkMonitoring k c syscall pid ≠ 0 then (checkMonitoring k c syscall pid, m)
    else m.editRow syscall.toNat (startMonitoring c.kmalloc pid)
  else if cmd = REQUEST_STOP_MONITORING then
    if checkMonitoring k c syscall pid ≠ 0 then (checkMonitoring k c syscall pid, m)
    else m.editRow syscall.toNat (stopMonitoring c.kmalloc pid)
  else (0, m)

/-! ## Exits, loading and unloading -/

/-- `my_exit_group`: the module afterwards, and the call it makes to the original handler with the
exit status. -/
def myExitGroup (k : Kernel) (current : Pid) (status : Int) (m : Module) :
    Module × Handler × Int :=
  ({ m with table := (delPid k current m.table).2 }, m.origExitGroup, status)

/-- `init_function`, from the system call table the kernel has. -/
def initFunction (k : Kernel) (sysCallTable : Nat → Handler) : Module :=
  let custom := Function.update sysCallTable MY_CUSTOM_SYSCALL .mySyscall
  { table := fun _ => MyTable.empty
    sysCallTable := Function.update custom k.nrExitGroup .myExitGroup
    origCustomSyscall := sysCallTable MY_CUSTOM_SYSCALL
    -- Read after the first of the two hooks is in place.
    origExitGroup := custom k.nrExitGroup }

/-- The body of the loop in `deinterceptor`. -/
def deinterceptRow (m : Module) (i : Nat) : Module :=
  let t := m.table i
  if t.intercepted ≠ 0 then
    let m := m.setEntry i t.f
    if t.monitored > 0 then m.setRow i (destroyList t) else m
  else m

/-- `deinterceptor`. -/
def deinterceptor (k : Kernel) (m : Module) : Module :=
  (List.range' 1 (k.nrSyscalls - 1)).foldl deinterceptRow m

/-- `exit_function`. -/
def exitFunction (k : Kernel) (m : Module) : Module :=
  -- The two hooks of `init_function` are off before the intercepted calls are looked at.
  deinterceptor k
    ((m.setEntry MY_CUSTOM_SYSCALL m.origCustomSyscall).setEntry k.nrExitGroup m.origExitGroup)

/-! ## The generic interceptor -/

/-- The registers a system call is made with. -/
structure PtRegs where
  ax : Nat
  bx : Nat
  cx : Nat
  dx : Nat
  si : Nat
  di : Nat
  bp : Nat
deriving DecidableEq, Repr

/-- The arguments of `log_message`. -/
structure LogMessage where
  pid : Pid
  syscall : Nat
  args : List Nat
deriving DecidableEq, Repr

def logMessage (pid : Pid) (reg : PtRegs) : LogMessage :=
  { pid := pid, syscall := reg.ax, args := [reg.bx, reg.cx, reg.dx, reg.si, reg.di, reg.bp] }

/-- What one call of `interceptor` does: the messages it logs, the handlers it calls with their
registers, and its result. -/
structure Intercepted where
  log : List LogMessage
  calls : List (Handler × PtRegs)
  result : Int
deriving DecidableEq, Repr

/-- `interceptor`. `invoke` is the result of calling a handler of the kernel. -/
def interceptor (invoke : Handler → PtRegs → Int) (current : Pid) (reg : PtRegs)
    (m : Module) : Intercepted :=
  let t := m.table reg.ax
  if t.monitored = 0 then
    { log := [], calls := [(t.f, reg)], result := invoke t.f reg }
  else if t.monitored = 2 then
    -- The list, here the blacklist, is not looked at.
    { log := [logMessage current reg], calls := [(t.f, reg)], result := invoke t.f reg }
  else if t.monitored ≠ 0 ∧ checkPidMonitored t current ≠ 0 then
    { log := [logMessage current reg], calls := [(t.f, reg)], result := invoke t.f reg }
  else
    { log := [], calls := [(t.f, reg)], result := invoke t.f reg }

/-! ## Runs of the loaded module -/

/-- What happens to the loaded module: a request by some caller, or the exit of a process. -/
inductive Event where
  | request (c : Caller) (cmd syscall pid : Int)
  | exitGroup (current : Pid) (status : Int)

/-- The module after one event. -/
def Module.next (k : Kernel) (m : Module) : Event → Module
  | .request c cmd syscall pid => (mySyscall k c cmd syscall pid m).2
  | .exitGroup current status => (myExitGroup k current status m).1

/-- The module after it was loaded over a system call table that points outside the module, and
the events happened in order. -/
def run (k : Kernel) (entries : Nat → Nat) (events : List Event) : Module :=
  events.foldl (Module.next k) (initFunction k fun i => .outside (entries i))

end Interceptor

-- SUMMARY: The contract of my_syscall on the monitored pids, and when interceptor logs what the requests asked for.
import OperatingSystems.Interceptor.Monitoring
import Mathlib.Data.Set.Insert

/-!
# The contract of the requests and the log

The first part is the contract that the comment over `my_syscall` states, on the set of pids a call
is monitored for. The second part compares `interceptor` with the requests: it logs what they asked
for, except that a pid on the blacklist of a call monitored for all pids is logged as well.
-/

namespace Interceptor

open Library

variable {k : Kernel} {entries : Nat → Nat} {m : Module}

/-- The pids call `s` is effectively monitored for. -/
def Module.effective (m : Module) (s : Nat) : Set Pid :=
  if (m.table s).monitored = 0 then ∅
  else if (m.table s).monitored = 1 then {q | q ∈ (m.table s).myList}
  else {q | q ∉ (m.table s).myList}

theorem Module.WellFormed.mem_effective (h : m.WellFormed k) {s : Nat} {q : Pid} :
    q ∈ m.effective s ↔ q ∈ (m.table s).monitor := by
  rcases (h.row s).mode with h0 | h1 | h2
  · simp [effective, h0, (h.row s).monitor_of_zero h0]
  · simp [effective, h1, MyTable.monitor_of_one h1]
  · simp [effective, h2, MyTable.monitor_of_two h2]

theorem Module.effective_congr {m' : Module} {s : Nat} (h : m'.table s = m.table s) :
    m'.effective s = m.effective s := by
  simp only [effective, h]

/-! ## The contract of the monitoring requests -/

section Start

variable {c : Caller} {syscall pid : Int}

/-- START_MONITORING for one pid, once the checks have passed. -/
theorem start_contract (h : m.WellFormed k) (hc : checkMonitoring k c syscall pid = 0)
    (hpid : 0 < pid) :
    let out := mySyscall k c REQUEST_START_MONITORING syscall pid m
    (out.1 = -EINVAL ↔ (m.table syscall.toNat).intercepted = 0) ∧
    ((m.table syscall.toNat).intercepted ≠ 0 →
      (out.1 = -EBUSY ↔ pid ∈ m.effective syscall.toNat)) ∧
    ((m.table syscall.toNat).intercepted ≠ 0 → pid ∉ m.effective syscall.toNat →
      (out.1 = -ENOMEM ∧ c.kmalloc = false) ∨
        (out.1 = 0 ∧ out.2.effective syscall.toNat =
          insert pid (m.effective syscall.toNat))) := by
  obtain ⟨hpos, hlt⟩ := checkMonitoring_eq_zero hc
  have hwf := h.outcome (mySyscall_start_outcome c syscall pid h)
  rw [mySyscall_start, if_neg (by simp [hc]), Module.editRow] at hwf ⊢
  simp only [h.mem_effective]
  rcases startMonitoring_cases (h.row syscall.toNat) c.kmalloc pid with
    ⟨hint, ho⟩ | ⟨hint, hmem, ho⟩ | ⟨hint, hmem, hk, ho⟩ | ⟨hint, hmem, t, ho, -, -, hmon⟩
  · simp [ho, hint]
  · simp [ho, hint, hmem, EBUSY, EINVAL]
  · rw [ho]
    simp [hint, hmem, hk, EBUSY, EINVAL, ENOMEM]
  · rw [ho] at hwf ⊢
    refine ⟨by simp [hint, EINVAL], fun _ => by simp [hmem, EBUSY], fun _ _ => .inr ⟨rfl, ?_⟩⟩
    ext q
    rw [hwf.mem_effective, Set.mem_insert_iff, h.mem_effective]
    simp [hmon, show pid ≠ 0 by omega, or_comm]

/-- STOP_MONITORING for one pid, once the checks have passed. -/
theorem stop_contract (h : m.WellFormed k) (hc : checkMonitoring k c syscall pid = 0)
    (hpid : 0 < pid) :
    let out := mySyscall k c REQUEST_STOP_MONITORING syscall pid m
    (out.1 = -EINVAL ↔ pid ∉ m.effective syscall.toNat) ∧
    (pid ∈ m.effective syscall.toNat →
      (out.1 = -ENOMEM ∧ c.kmalloc = false) ∨
        (out.1 = 0 ∧ out.2.effective syscall.toNat = m.effective syscall.toNat \ {pid})) := by
  obtain ⟨hpos, hlt⟩ := checkMonitoring_eq_zero hc
  have hwf := h.outcome (mySyscall_stop_outcome c syscall pid h)
  rw [mySyscall_stop, if_neg (by simp [hc]), Module.editRow] at hwf ⊢
  simp only [h.mem_effective]
  rcases stopMonitoring_cases (h.row syscall.toNat) c.kmalloc pid with
    ⟨hmem, ho⟩ | ⟨hmem, hk, ho⟩ | ⟨hmem, t, ho, -, -, hmon⟩
  · simp [ho, hmem]
  · rw [ho]
    simp [hmem, hk, EINVAL, ENOMEM]
  · rw [ho] at hwf ⊢
    refine ⟨by simp [hmem, EINVAL], fun _ => .inr ⟨rfl, ?_⟩⟩
    ext q
    rw [hwf.mem_effective, Set.mem_sdiff_singleton, h.mem_effective]
    simp [hmon, show pid ≠ 0 by omega]

end Start

/-- A request that succeeds for all pids, or releases the call, leaves all or none. -/
theorem all_pids_contract (h : m.WellFormed k) (c : Caller) (cmd syscall pid : Int)
    (hok : (mySyscall k c cmd syscall pid m).1 = 0) :
    (cmd = REQUEST_START_MONITORING → pid = 0 →
      (mySyscall k c cmd syscall pid m).2.effective syscall.toNat = Set.univ) ∧
    (cmd = REQUEST_STOP_MONITORING → pid = 0 →
      (mySyscall k c cmd syscall pid m).2.effective syscall.toNat = ∅) ∧
    (cmd = REQUEST_SYSCALL_RELEASE →
      (mySyscall k c cmd syscall pid m).2.effective syscall.toNat = ∅) := by
  have ho := mySyscall_outcome h c cmd syscall pid
  have hwf := h.outcome ho
  generalize mySyscall k c cmd syscall pid m = out at ho hok hwf
  have hset : ∀ S : Set Pid, (∀ q, q ∈ (out.2.table syscall.toNat).monitor ↔ q ∈ S) →
      out.2.effective syscall.toNat = S := fun S hS => by
    ext q; rw [hwf.mem_effective, hS]
  cases ho with
  | rejected r hr => exact absurd hok hr
  | intercepted s hcmd => subst hcmd; refine ⟨?_, ?_, ?_⟩ <;> exact fun hcmd => absurd hcmd (by decide)
  | released s hcmd hs =>
    subst hcmd hs
    refine ⟨fun hcmd => absurd hcmd (by decide), fun hcmd => absurd hcmd (by decide), fun _ => hset ∅ fun q => ?_⟩
    simp [MyTable.monitor_destroyList]
  | started s t hcmd hs hpos hlt _ _ hmon =>
    subst hcmd hs
    refine ⟨fun _ hpid => hset _ fun q => ?_, fun hcmd => absurd hcmd (by decide), fun hcmd => absurd hcmd (by decide)⟩
    simp [hmon, hpid]
  | stopped s t hcmd hs hpos hlt _ _ hmon =>
    subst hcmd hs
    refine ⟨fun hcmd => absurd hcmd (by decide), fun _ hpid => hset _ fun q => ?_, fun hcmd => absurd hcmd (by decide)⟩
    simp [hmon, hpid]

/-- A request that fails changes nothing, and no request touches the row of another call. -/
theorem request_frame (h : m.WellFormed k) (c : Caller) (cmd syscall pid : Int) :
    ((mySyscall k c cmd syscall pid m).1 ≠ 0 → (mySyscall k c cmd syscall pid m).2 = m) ∧
    ∀ s : Nat, (s : Int) ≠ syscall →
      (mySyscall k c cmd syscall pid m).2.table s = m.table s := by
  have ho := mySyscall_outcome h c cmd syscall pid
  generalize mySyscall k c cmd syscall pid m = out at ho
  cases ho with
  | rejected r hr => exact ⟨fun _ => rfl, fun _ _ => rfl⟩
  | intercepted s' hcmd hs | released s' hcmd hs | started s' t hcmd hs | stopped s' t hcmd hs =>
    refine ⟨fun h0 => absurd rfl h0, fun s hne => ?_⟩
    have hss : s ≠ s' := fun he => hne (he ▸ hs.symm)
    simp [hss]

/-- The monitoring table refines a set of pids for each call, in every state the module reaches. -/
theorem requests_refine_pid_sets (k : Kernel) (entries : Nat → Nat) (events : List Event)
    (c : Caller) (syscall pid : Int) :
    let m := run k entries events
    let s := syscall.toNat
    let start := mySyscall k c REQUEST_START_MONITORING syscall pid m
    let stop := mySyscall k c REQUEST_STOP_MONITORING syscall pid m
    let release := mySyscall k c REQUEST_SYSCALL_RELEASE syscall pid m
    (checkMonitoring k c syscall pid = 0 → 0 < pid →
      ((start.1 = -EINVAL ↔ (m.table s).intercepted = 0) ∧
        ((m.table s).intercepted ≠ 0 → (start.1 = -EBUSY ↔ pid ∈ m.effective s)) ∧
        ((m.table s).intercepted ≠ 0 → pid ∉ m.effective s →
          (start.1 = -ENOMEM ∧ c.kmalloc = false) ∨
            (start.1 = 0 ∧ start.2.effective s = insert pid (m.effective s)))) ∧
      ((stop.1 = -EINVAL ↔ pid ∉ m.effective s) ∧
        (pid ∈ m.effective s →
          (stop.1 = -ENOMEM ∧ c.kmalloc = false) ∨
            (stop.1 = 0 ∧ stop.2.effective s = m.effective s \ {pid})))) ∧
    (pid = 0 → start.1 = 0 → start.2.effective s = Set.univ) ∧
    (pid = 0 → stop.1 = 0 → stop.2.effective s = ∅) ∧
    (release.1 = 0 → release.2.effective s = ∅) ∧
    ∀ cmd : Int,
      ((mySyscall k c cmd syscall pid m).1 ≠ 0 →
        (mySyscall k c cmd syscall pid m).2.table = m.table ∧
        (mySyscall k c cmd syscall pid m).2.sysCallTable = m.sysCallTable) ∧
      ∀ s' : Nat, (s' : Int) ≠ syscall →
        (mySyscall k c cmd syscall pid m).2.effective s' = m.effective s' ∧
        ((mySyscall k c cmd syscall pid m).2.table s').intercepted = (m.table s').intercepted := by
  intro m s start stop release
  have h := run_wellFormed k entries events
  refine ⟨fun hc hpid => ⟨start_contract h hc hpid, stop_contract h hc hpid⟩,
    fun hpid hok => (all_pids_contract h c _ syscall pid hok).1 rfl hpid,
    fun hpid hok => (all_pids_contract h c _ syscall pid hok).2.1 rfl hpid,
    fun hok => (all_pids_contract h c _ syscall pid hok).2.2 rfl, fun cmd => ⟨?_, ?_⟩⟩
  · intro herr
    rw [(request_frame h c cmd syscall pid).1 herr]
    exact ⟨rfl, rfl⟩
  · intro s' hne
    have hrow := (request_frame h c cmd syscall pid).2 s' hne
    exact ⟨Module.effective_congr hrow, by rw [hrow]⟩

/-! ## Requests for all pids -/

/-- The superuser, on a kernel where processes 1000 and 2000 are alive. -/
def root : Caller where
  pid := 1000
  uid := 0
  owner p := if p = 1000 ∨ p = 2000 then some 0 else none
  kmalloc := true
  alive := by decide

/-- The system calls of a 32-bit kernel. -/
def i386 : Kernel where
  nrSyscalls := 337
  nrExitGroup := 252
  exitGroup_pos := by decide
  exitGroup_lt := by decide

/-- START_MONITORING with pid 0 is busy only where every pid is monitored already, and otherwise
makes all pids monitored. -/
def StartsAll (k : Kernel) (c : Caller) (s : Nat) (m : Module) : Prop :=
  let out := mySyscall k c REQUEST_START_MONITORING s 0 m
  (out.1 = -EBUSY → m.effective s = Set.univ) ∧
    (out.1 ≠ -EBUSY → out.1 = 0 ∧ out.2.effective s = Set.univ)

/-- STOP_MONITORING with pid 0 is invalid only where no pid is monitored, and otherwise leaves none
monitored. -/
def StopsAll (k : Kernel) (c : Caller) (s : Nat) (m : Module) : Prop :=
  let out := mySyscall k c REQUEST_STOP_MONITORING s 0 m
  (out.1 = -EINVAL → m.effective s = ∅) ∧
    (out.1 ≠ -EINVAL → out.1 = 0 ∧ out.2.effective s = ∅)

section AllPids

variable {c : Caller} {s : Nat}

/-- Only calls that a request can name are ever intercepted. -/
theorem Module.WellFormed.named (h : m.WellFormed k) (hint : (m.table s).intercepted = 1) :
    0 < s ∧ s < k.nrSyscalls := by
  by_contra hout
  have hempty : m.table s = .empty := h.outside s (by omega)
  rw [hempty] at hint
  cases hint

/-- For the superuser and pid 0 there is nothing to check but the call. -/
theorem checkMonitoring_root (hroot : c.uid = 0) (hs : 0 < s ∧ s < k.nrSyscalls) :
    checkMonitoring k c s 0 = 0 := by
  have hsyscall : checkValidSyscall k s = 0 := by
    rw [checkValidSyscall, MY_CUSTOM_SYSCALL, if_neg (by omega)]
  have hpid : checkValidPid c 0 = 0 := by simp [checkValidPid]
  simp [checkMonitoring, hsyscall, hpid, hroot]

theorem startsAll_iff (h : m.WellFormed k) (hroot : c.uid = 0)
    (hint : (m.table s).intercepted = 1) :
    StartsAll k c s m ↔ ((m.table s).monitored = 2 → (m.table s).myList = []) := by
  have hcheck := checkMonitoring_root hroot (h.named hint)
  have hstart := startMonitoring_zero (h.row s) hint c.kmalloc
  have hout : mySyscall k c REQUEST_START_MONITORING s 0 m =
      m.editRow s (startMonitoring c.kmalloc 0) := by
    rw [mySyscall_start, if_neg (by simp [hcheck]), Int.toNat_natCast]
  simp only [StartsAll, hout, Module.editRow, hstart]
  by_cases h2 : (m.table s).monitored = 2
  · -- Busy: fine only with nobody on the blacklist.
    simp only [h2, Module.effective]
    simp [Set.eq_univ_iff_forall, List.eq_nil_iff_forall_not_mem]
  · simp [h2, Module.effective, destroyList, EBUSY]

theorem stopsAll_iff (h : m.WellFormed k) (hroot : c.uid = 0)
    (hint : (m.table s).intercepted = 1) :
    StopsAll k c s m ↔ (m.table s).monitored ≠ 1 := by
  have hcheck := checkMonitoring_root hroot (h.named hint)
  have hstop := stopMonitoring_zero (h.row s) c.kmalloc
  have hout : mySyscall k c REQUEST_STOP_MONITORING s 0 m =
      m.editRow s (stopMonitoring c.kmalloc 0) := by
    rw [mySyscall_stop, if_neg (by simp [hcheck]), Int.toNat_natCast]
  simp only [StopsAll, hout, Module.editRow, hstop]
  rcases (h.row s).mode with h0 | h1 | h2
  · simp [h0, Module.effective]
  · -- Refused, although the list is not empty.
    obtain ⟨q, hq⟩ := List.exists_mem_of_ne_nil _ ((h.row s).ne_nil_of_one h1)
    have hmem : q ∈ m.effective s := by simpa [Module.effective, h1] using hq
    simp only [h1]
    refine iff_of_false ?_ (by simp)
    rintro ⟨hnone, -⟩
    rw [hnone rfl] at hmem
    exact hmem
  · simp [h2, Module.effective, destroyList, EINVAL]

end AllPids

/-- In every state that the module reaches, requests of the superuser for all pids of an intercepted
call behave as they should, except for START_MONITORING while there is a blacklist and
STOP_MONITORING while single pids are monitored. -/
theorem run_allPids_iff (k : Kernel) (entries : Nat → Nat) (events : List Event) {c : Caller}
    {s : Nat} (hroot : c.uid = 0)
    (hint : ((run k entries events).table s).intercepted = 1) :
    (StartsAll k c s (run k entries events) ↔
      (((run k entries events).table s).monitored = 2 →
        ((run k entries events).table s).myList = [])) ∧
    (StopsAll k c s (run k entries events) ↔
      ((run k entries events).table s).monitored ≠ 1) := by
  have h := run_wellFormed k entries events
  exact ⟨startsAll_iff h hroot hint, stopsAll_iff h hroot hint⟩

/-- Call 5 is monitored for all pids but 2000. -/
theorem run_allPids_iff_root :
    ¬StartsAll i386 root 5 (run i386 id
      [.request root REQUEST_SYSCALL_INTERCEPT 5 0, .request root REQUEST_START_MONITORING 5 0,
        .request root REQUEST_STOP_MONITORING 5 2000]) ∧
    StopsAll i386 root 5 (run i386 id
      [.request root REQUEST_SYSCALL_INTERCEPT 5 0, .request root REQUEST_START_MONITORING 5 0,
        .request root REQUEST_STOP_MONITORING 5 2000]) := by
  obtain ⟨hstart, hstop⟩ := run_allPids_iff i386 id
    [.request root REQUEST_SYSCALL_INTERCEPT 5 0, .request root REQUEST_START_MONITORING 5 0,
      .request root REQUEST_STOP_MONITORING 5 2000] (c := root) (s := 5) rfl (by decide)
  refine ⟨fun h => ?_, hstop.mpr (by decide)⟩
  exact absurd (hstart.mp h (by decide)) (by decide)

/-- Monitoring call 5 for all pids is refused as busy while pid 2000 is on the blacklist, and
stopping it for all pids is refused as invalid while pid 2000 alone is monitored. -/
theorem not_startsAll_blacklist :
    ¬StartsAll i386 root 5 (run i386 id
      [.request root REQUEST_SYSCALL_INTERCEPT 5 0, .request root REQUEST_START_MONITORING 5 0,
        .request root REQUEST_STOP_MONITORING 5 2000]) ∧
    ¬StopsAll i386 root 5 (run i386 id
      [.request root REQUEST_SYSCALL_INTERCEPT 5 0,
        .request root REQUEST_START_MONITORING 5 2000]) := by
  refine ⟨fun h => ?_, fun h => ?_⟩
  · have hmem := Set.eq_univ_iff_forall.mp (h.1 (by decide)) 2000
    rw [(run_wellFormed i386 id _).mem_effective] at hmem
    exact absurd hmem (by decide)
  · have hmem := Set.eq_empty_iff_forall_notMem.mp (h.1 (by decide)) 2000
    rw [(run_wellFormed i386 id _).mem_effective] at hmem
    exact hmem (by decide)

/-! ## The log -/

/-- One call of `interceptor` behaves as the requests so far ask: it logs the call if and only if
the caller is monitored for it, and it calls the saved handler once, with the same registers, and
returns its result. -/
def LogsAsRequested (k : Kernel) (entries : Nat → Nat) (events : List Event)
    (invoke : Handler → PtRegs → Int) (q : Pid) (reg : PtRegs) : Prop :=
  let m := run k entries events
  let out := interceptor invoke q reg m
  out.log = (if q ∈ requested k entries events reg.ax then [logMessage q reg] else []) ∧
  out.calls = [((m.table reg.ax).f, reg)] ∧
  out.result = invoke (m.table reg.ax).f reg

/-- In every mode, `interceptor` calls the saved handler once and returns what it returns. -/
theorem interceptor_calls (invoke : Handler → PtRegs → Int) (q : Pid) (reg : PtRegs) (m : Module) :
    (interceptor invoke q reg m).calls = [((m.table reg.ax).f, reg)] ∧
    (interceptor invoke q reg m).result = invoke (m.table reg.ax).f reg := by
  simp only [interceptor]
  split
  · exact ⟨rfl, rfl⟩
  split
  · exact ⟨rfl, rfl⟩
  split <;> exact ⟨rfl, rfl⟩

/-- `interceptor` logs by the list while some pids are monitored, and always while all are. -/
theorem interceptor_log (h : m.WellFormed k) (invoke : Handler → PtRegs → Int) (q : Pid)
    (reg : PtRegs) :
    (interceptor invoke q reg m).log =
      if (m.table reg.ax).monitored = 2 ∨ q ∈ (m.table reg.ax).monitor then [logMessage q reg]
      else [] := by
  simp only [interceptor]
  rcases (h.row reg.ax).mode with h0 | h1 | h2
  · simp [h0, (h.row reg.ax).monitor_of_zero h0]
  · by_cases hmem : q ∈ (m.table reg.ax).myList
    · simp [h1, MyTable.monitor_of_one h1, hmem, checkPidMonitored]
    · simp [h1, MyTable.monitor_of_one h1, hmem, checkPidMonitored]
  · simp [h2]

/-- After any run, `interceptor` logs what the requests ask for exactly when the calling pid is
not on the blacklist of a call monitored for all pids. -/
theorem logsAsRequested_iff (k : Kernel) (entries : Nat → Nat) (events : List Event)
    (invoke : Handler → PtRegs → Int) (q : Pid) (reg : PtRegs) :
    LogsAsRequested k entries events invoke q reg ↔
      ¬(((run k entries events).table reg.ax).monitored = 2 ∧
        q ∈ ((run k entries events).table reg.ax).myList) := by
  have h := run_wellFormed k entries events
  have hcalls := interceptor_calls invoke q reg (run k entries events)
  simp only [LogsAsRequested, hcalls, and_true, interceptor_log h, ← run_monitor]
  -- Only while all pids are monitored can the log and the set asked for differ.
  by_cases h2 : ((run k entries events).table reg.ax).monitored = 2
  · by_cases hmem : q ∈ ((run k entries events).table reg.ax).myList
    · simp [h2, hmem, MyTable.monitor_of_two h2]
    · simp [h2, hmem, MyTable.monitor_of_two h2]
  · simp [h2]

/-- Intercept call 5, monitor it for all pids, stop monitoring it for pid 2000: the next call of
pid 2000 is logged nevertheless. -/
theorem blacklisted_pid_logged :
    let events : List Event :=
      [.request root REQUEST_SYSCALL_INTERCEPT 5 0, .request root REQUEST_START_MONITORING 5 0,
        .request root REQUEST_STOP_MONITORING 5 2000]
    let reg : PtRegs := { ax := 5, bx := 1, cx := 2, dx := 3, si := 4, di := 5, bp := 6 }
    ((run i386 id events).table 5).intercepted = 1 ∧
    (2000 : Pid) ∉ requested i386 id events 5 ∧
    (interceptor (fun _ _ => 0) 2000 reg (run i386 id events)).log = [logMessage 2000 reg] ∧
    ¬LogsAsRequested i386 id events (fun _ _ => 0) 2000 reg := by
  refine ⟨by decide, by decide, by decide, fun h => ?_⟩
  exact absurd h.1 (by decide)

end Interceptor

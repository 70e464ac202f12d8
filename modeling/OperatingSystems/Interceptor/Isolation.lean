-- SUMMARY: What requests of other users cannot change for a process: its log, the hooks, and whether it is monitored.
import OperatingSystems.Interceptor.Contract

/-!
# Isolation of users

All users share the list of a call and its mode. A request that passes the checks without being the
superuser's names one process of the caller's own, so it moves one pid in or out of the set that
the row stands for; neither reading of the list shows that to another process.
-/

namespace Interceptor

open Library

variable {k : Kernel} {m m' : Module} {q : Pid}

/-! ## Requests of strangers -/

/-- A call of `my_syscall`, with its caller and its arguments. -/
structure Request where
  caller : Caller
  cmd : Int
  syscall : Int
  pid : Int

def Request.event (r : Request) : Event := .request r.caller r.cmd r.syscall r.pid

/-- The caller is not the superuser, and does not own the process. -/
structure Request.ByStranger (q : Pid) (r : Request) : Prop where
  uid : r.caller.uid ≠ 0
  owner : r.caller.owner r.caller.pid ≠ r.caller.owner q

/-- A pid that passes the checks of a caller other than the superuser has the caller's owner. -/
theorem checkMonitoring_own {c : Caller} {syscall pid : Int} (huid : c.uid ≠ 0)
    (h : checkMonitoring k c syscall pid = 0) : pid ≠ 0 ∧ c.owner c.pid = c.owner pid := by
  simp only [checkMonitoring] at h
  split at h
  · cases h
  split at h
  · cases h
  split at h
  · cases h
  rename_i hown
  have hpid : pid ≠ 0 := fun hzero => hown ⟨huid, .inl hzero⟩
  have hsame : checkPidsSameOwner c c.pid pid = some 0 := by
    by_contra hne
    exact hown ⟨huid, .inr hne⟩
  refine ⟨hpid, ?_⟩
  simp only [checkPidsSameOwner] at hsame
  split at hsame
  · rename_i u₁ u₂ h₁ h₂
    split at hsame
    · cases hsame
    · rename_i heq
      rw [h₁, h₂, not_ne_iff.mp heq]
  · cases hsame

/-- A stranger's request changes nothing, or it starts or stops monitoring for some other pid. -/
theorem Request.ByStranger.turned_away {r : Request} (h : r.ByStranger q) (m : Module) :
    m.next k r.event = m ∨
      r.pid ≠ 0 ∧ r.pid ≠ q ∧
        (r.cmd = REQUEST_START_MONITORING ∨ r.cmd = REQUEST_STOP_MONITORING) := by
  have hroot : ∀ syscall, checkIntercept k r.caller syscall ≠ 0 := by
    intro syscall
    simp only [checkIntercept]
    split
    · decide
    · rw [if_pos h.uid]
      decide
  have hown : checkMonitoring k r.caller r.syscall r.pid = 0 → r.pid ≠ 0 ∧ r.pid ≠ q := by
    intro hc
    obtain ⟨hpid, howner⟩ := checkMonitoring_own h.uid hc
    exact ⟨hpid, fun heq => h.owner (heq ▸ howner)⟩
  simp only [Request.event, Module.next, mySyscall]
  split
  · exact .inl rfl
  split
  · rw [if_pos (hroot _)]
    exact .inl rfl
  split
  · rw [if_pos (hroot _)]
    exact .inl rfl
  split
  · rename_i hcmd
    by_cases hc : checkMonitoring k r.caller r.syscall r.pid = 0
    · exact .inr ⟨(hown hc).1, (hown hc).2, .inl hcmd⟩
    · rw [if_pos hc]
      exact .inl rfl
  split
  · rename_i hcmd
    by_cases hc : checkMonitoring k r.caller r.syscall r.pid = 0
    · exact .inr ⟨(hown hc).1, (hown hc).2, .inr hcmd⟩
    · rw [if_pos hc]
      exact .inl rfl
  · exact .inl rfl

/-! ## What a process can see -/

/-- Two rows that are the same to a process: its pid is monitored in both or in neither, and so are
all pids. -/
structure MyTable.SameTo (q : Pid) (t t' : MyTable) : Prop where
  intercepted : t'.intercepted = t.intercepted
  all : t'.monitored = 2 ↔ t.monitored = 2
  mem : q ∈ t'.monitor ↔ q ∈ t.monitor

theorem MyTable.SameTo.refl (q : Pid) (t : MyTable) : t.SameTo q t := ⟨rfl, Iff.rfl, Iff.rfl⟩

/-- Two modules that are the same to a process. -/
structure Module.SameTo (q : Pid) (m m' : Module) : Prop where
  sysCallTable : m'.sysCallTable = m.sysCallTable
  row : ∀ s, (m.table s).SameTo q (m'.table s)

namespace Module.SameTo

theorem refl (q : Pid) (m : Module) : m.SameTo q m := ⟨rfl, fun _ => .refl q _⟩

theorem trans {m'' : Module} (h : m.SameTo q m') (h' : m'.SameTo q m'') : m.SameTo q m'' where
  sysCallTable := h'.sysCallTable.trans h.sysCallTable
  row s :=
    { intercepted := (h'.row s).intercepted.trans (h.row s).intercepted
      all := (h'.row s).all.trans (h.row s).all
      mem := (h'.row s).mem.trans (h.row s).mem }

theorem setRow {s : Nat} {t : MyTable} (h : (m.table s).SameTo q t) :
    m.SameTo q (m.setRow s t) where
  sysCallTable := rfl
  row i := by
    by_cases hi : i = s
    · subst hi
      simpa using h
    · simpa [hi] using MyTable.SameTo.refl q (m.table i)

/-- `interceptor` decides by what the process can see. -/
theorem log (h : m.SameTo q m') (hwf : m.WellFormed k) (hwf' : m'.WellFormed k)
    (invoke : Handler → PtRegs → Int) (reg : PtRegs) :
    (interceptor invoke q reg m').log = (interceptor invoke q reg m).log := by
  rw [interceptor_log hwf, interceptor_log hwf']
  simp only [(h.row reg.ax).all, (h.row reg.ax).mem]

theorem effective (h : m.SameTo q m') (hwf : m.WellFormed k) (hwf' : m'.WellFormed k) (s : Nat) :
    q ∈ m'.effective s ↔ q ∈ m.effective s := by
  rw [hwf.mem_effective, hwf'.mem_effective]
  exact (h.row s).mem

end Module.SameTo

/-- The mode of a row is the way its set is given. -/
theorem MyTable.cofinite_monitor {t : MyTable} : t.monitor.cofinite ↔ t.monitored = 2 := by
  unfold MyTable.monitor
  split <;> simp [*]

/-- A row whose set gains or loses another pid. -/
theorem MyTable.SameCall.sameTo {t t' : MyTable} {pid : Pid} (h : t.SameCall t') (hpid : q ≠ pid)
    (hmon : t'.monitor = t.monitor.add pid ∨ t'.monitor = t.monitor.remove pid) :
    t.SameTo q t' where
  intercepted := h.intercepted
  all := by
    rw [← cofinite_monitor, ← cofinite_monitor]
    rcases hmon with hmon | hmon
    · rw [hmon, CoSet.cofinite_add]
    · rw [hmon, CoSet.cofinite_remove]
  mem := by
    rcases hmon with hmon | hmon
    · simp [hmon, hpid]
    · simp [hmon, hpid]

/-! ## Runs -/

/-- The step: a stranger's request leaves the module the same to the process. -/
theorem Request.ByStranger.sameTo {r : Request} (h : r.ByStranger q) (hwf : m.WellFormed k) :
    m.SameTo q (m.next k r.event) := by
  rcases h.turned_away m with hsame | ⟨hpid, hq, hcmd⟩
  · rw [hsame]
    exact .refl q m
  have ho := mySyscall_outcome hwf r.caller r.cmd r.syscall r.pid
  change m.SameTo q (mySyscall k r.caller r.cmd r.syscall r.pid m).2
  generalize mySyscall k r.caller r.cmd r.syscall r.pid m = out at ho
  cases ho with
  | rejected => exact .refl q m
  | intercepted s hcmd' | released s hcmd' =>
    rcases hcmd with hcmd | hcmd
    · exact absurd (hcmd'.symm.trans hcmd) (by decide)
    · exact absurd (hcmd'.symm.trans hcmd) (by decide)
  | started s t _ _ _ _ _ hsame hmon =>
    rw [if_neg hpid] at hmon
    exact .setRow (hsame.sameTo hq.symm (.inl hmon))
  | stopped s t _ _ _ _ _ hsame hmon =>
    rw [if_neg hpid] at hmon
    exact .setRow (hsame.sameTo hq.symm (.inr hmon))

/-- The run, from any state the module reaches. -/
theorem run_sameTo (k : Kernel) (entries : Nat → Nat) (events : List Event)
    {requests : List Request} (h : ∀ r ∈ requests, r.ByStranger q) :
    (run k entries events).SameTo q (run k entries (events ++ requests.map Request.event)) := by
  induction requests using List.reverseRecOn with
  | nil => simpa using Module.SameTo.refl q _
  | append_singleton requests r ih =>
    have hrun : run k entries (events ++ (requests ++ [r]).map Request.event) =
        (run k entries (events ++ requests.map Request.event)).next k r.event := by
      simp [run]
    rw [hrun]
    refine (ih fun r' hr' => h r' (by simp [hr'])).trans ?_
    exact (h r (by simp)).sameTo (run_wellFormed k entries _)

/-- Requests of unprivileged callers who do not own process `q`, in any number and after any run,
change nothing for `q`: what `interceptor` logs of its calls, the system call table, which calls
are intercepted, and which of them `q` is monitored for. -/
theorem strangers_change_nothing (k : Kernel) (entries : Nat → Nat) (events : List Event) (q : Pid)
    {requests : List Request} (h : ∀ r ∈ requests, r.ByStranger q)
    (invoke : Handler → PtRegs → Int) :
    let m := run k entries events
    let m' := run k entries (events ++ requests.map Request.event)
    (∀ reg, (interceptor invoke q reg m').log = (interceptor invoke q reg m).log) ∧
    m'.sysCallTable = m.sysCallTable ∧
    ∀ s, (m'.table s).intercepted = (m.table s).intercepted ∧
      (q ∈ m'.effective s ↔ q ∈ m.effective s) := by
  intro m m'
  have hsame : m.SameTo q m' := run_sameTo k entries events h
  have hwf : m.WellFormed k := run_wellFormed k entries _
  have hwf' : m'.WellFormed k := run_wellFormed k entries _
  exact ⟨hsame.log hwf hwf' invoke, hsame.sysCallTable,
    fun s => ⟨(hsame.row s).intercepted, hsame.effective hwf hwf' s⟩⟩

/-- The owner of process 3000, on a kernel where the superuser owns processes 1000 and 2000. -/
def user : Caller where
  pid := 3000
  uid := 500
  owner p := if p = 3000 then some 500 else if p = 1000 ∨ p = 2000 then some 0 else none
  kmalloc := true
  alive := by decide

/-- Call 5 is monitored for all pids; the user takes the own pid out, and process 2000 does not
notice. -/
theorem user_changes_nothing :
    let events : List Event :=
      [.request root REQUEST_SYSCALL_INTERCEPT 5 0, .request root REQUEST_START_MONITORING 5 0]
    let requests : List Request := [⟨user, REQUEST_STOP_MONITORING, 5, 3000⟩]
    let m := run i386 id events
    let m' := run i386 id (events ++ requests.map Request.event)
    (m'.table 5).myList = [3000] ∧
    (∀ reg, (interceptor (fun _ _ => 0) 2000 reg m').log =
      (interceptor (fun _ _ => 0) 2000 reg m).log) ∧
    m'.sysCallTable = m.sysCallTable ∧
    ∀ s, (m'.table s).intercepted = (m.table s).intercepted ∧
      (2000 ∈ m'.effective s ↔ 2000 ∈ m.effective s) := by
  refine ⟨by decide, strangers_change_nothing i386 id _ 2000 ?_ _⟩
  simp only [List.mem_singleton, forall_eq]
  exact ⟨by decide, by decide⟩

end Interceptor

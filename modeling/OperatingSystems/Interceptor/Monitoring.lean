-- SUMMARY: Every run of the interceptor module keeps, for each call, the set of pids its requests asked for; logging agrees with it off the blacklist.
import OperatingSystems.Interceptor.Rows

/-!
# Monitoring over whole runs

The abstract model of the module is a set of pids for each system call, changed by the requests
that succeed and by exits. `run_monitor` says that the table refines it. On top of it stand the
contract of `my_syscall` and the agreement of `interceptor` with the requests.
-/

namespace Interceptor

open Library

variable {k : Kernel} {entries : Nat → Nat} {m : Module}

/-- Every row of the table is consistent, and the rows no request can name are untouched. -/
structure Module.WellFormed (k : Kernel) (m : Module) : Prop where
  row : ∀ s, (m.table s).WellFormed
  outside : ∀ s, s = 0 ∨ k.nrSyscalls ≤ s → m.table s = .empty

/-! ## One request -/

theorem checkValidSyscall_eq_zero {syscall : Int} (h : checkValidSyscall k syscall = 0) :
    0 < syscall ∧ syscall.toNat < k.nrSyscalls := by
  simp only [checkValidSyscall, MY_CUSTOM_SYSCALL, EINVAL] at h
  omega

theorem checkIntercept_eq_zero {c : Caller} {syscall : Int} (h : checkIntercept k c syscall = 0) :
    0 < syscall ∧ syscall.toNat < k.nrSyscalls := by
  by_cases hv : checkValidSyscall k syscall = 0
  · exact checkValidSyscall_eq_zero hv
  · simp [checkIntercept, hv, EINVAL] at h

theorem checkMonitoring_eq_zero {c : Caller} {syscall pid : Int}
    (h : checkMonitoring k c syscall pid = 0) :
    0 < syscall ∧ syscall.toNat < k.nrSyscalls := by
  by_cases hv : checkValidSyscall k syscall = 0
  · exact checkValidSyscall_eq_zero hv
  · simp [checkMonitoring, hv, EINVAL] at h

theorem MyTable.wellFormed_released (t : MyTable) :
    (destroyList { t with intercepted := 0 }).WellFormed := by
  constructor <;> simp [destroyList]

theorem MyTable.WellFormed.hooked {t : MyTable} (h : t.WellFormed) (f : Handler) :
    MyTable.WellFormed { t with intercepted := 1, f := f } :=
  { h with intercepted := .inr rfl, intercepted_of_monitored := fun _ => rfl }

/-- What a request can do to a consistent module. A request that is turned away changes nothing;
the others rewrite the row of their call and, for the first two commands, its entry. -/
inductive Outcome (k : Kernel) (m : Module) (cmd syscall pid : Int) : Int × Module → Prop
  | rejected (r : Int) : r ≠ 0 → Outcome k m cmd syscall pid (r, m)
  | intercepted (s : Nat) :
      cmd = REQUEST_SYSCALL_INTERCEPT → syscall = s → 0 < s → s < k.nrSyscalls →
      (m.table s).intercepted = 0 →
      Outcome k m cmd syscall pid
        (0, (m.setRow s { m.table s with intercepted := 1, f := m.sysCallTable s }).setEntry s
          .interceptor)
  | released (s : Nat) :
      cmd = REQUEST_SYSCALL_RELEASE → syscall = s → 0 < s → s < k.nrSyscalls →
      (m.table s).intercepted = 1 →
      Outcome k m cmd syscall pid
        (0, (m.setRow s (destroyList { m.table s with intercepted := 0 })).setEntry s
          (m.table s).f)
  | started (s : Nat) (t : MyTable) :
      cmd = REQUEST_START_MONITORING → syscall = s → 0 < s → s < k.nrSyscalls →
      t.WellFormed → (m.table s).SameCall t →
      t.monitor = (if pid = 0 then .allBut ∅ else (m.table s).monitor.add pid) →
      Outcome k m cmd syscall pid (0, m.setRow s t)
  | stopped (s : Nat) (t : MyTable) :
      cmd = REQUEST_STOP_MONITORING → syscall = s → 0 < s → s < k.nrSyscalls →
      t.WellFormed → (m.table s).SameCall t →
      t.monitor = (if pid = 0 then .only ∅ else (m.table s).monitor.remove pid) →
      Outcome k m cmd syscall pid (0, m.setRow s t)

section Commands

variable (c : Caller) (syscall pid : Int)

theorem mySyscall_intercept :
    mySyscall k c REQUEST_SYSCALL_INTERCEPT syscall pid m =
      if checkIntercept k c syscall ≠ 0 then (checkIntercept k c syscall, m)
      else intercept syscall.toNat m := rfl

theorem mySyscall_release :
    mySyscall k c REQUEST_SYSCALL_RELEASE syscall pid m =
      if checkIntercept k c syscall ≠ 0 then (checkIntercept k c syscall, m)
      else release syscall.toNat m := rfl

theorem mySyscall_start :
    mySyscall k c REQUEST_START_MONITORING syscall pid m =
      if checkMonitoring k c syscall pid ≠ 0 then (checkMonitoring k c syscall pid, m)
      else m.editRow syscall.toNat (startMonitoring c.kmalloc pid) := rfl

theorem mySyscall_stop :
    mySyscall k c REQUEST_STOP_MONITORING syscall pid m =
      if checkMonitoring k c syscall pid ≠ 0 then (checkMonitoring k c syscall pid, m)
      else m.editRow syscall.toNat (stopMonitoring c.kmalloc pid) := rfl

theorem mySyscall_intercept_outcome (h : m.WellFormed k) :
    Outcome k m REQUEST_SYSCALL_INTERCEPT syscall pid
      (mySyscall k c REQUEST_SYSCALL_INTERCEPT syscall pid m) := by
  rw [mySyscall_intercept]
  by_cases hc : checkIntercept k c syscall = 0
  · obtain ⟨hpos, hlt⟩ := checkIntercept_eq_zero hc
    rw [if_neg (by simp [hc]), intercept]
    rcases (h.row syscall.toNat).intercepted with hint | hint
    · rw [if_neg (by omega)]
      exact .intercepted _ rfl (by omega) (by omega) hlt hint
    · rw [if_pos hint]
      exact .rejected _ (by decide)
  · rw [if_pos hc]
    exact .rejected _ hc

theorem mySyscall_release_outcome (h : m.WellFormed k) :
    Outcome k m REQUEST_SYSCALL_RELEASE syscall pid
      (mySyscall k c REQUEST_SYSCALL_RELEASE syscall pid m) := by
  rw [mySyscall_release]
  by_cases hc : checkIntercept k c syscall = 0
  · obtain ⟨hpos, hlt⟩ := checkIntercept_eq_zero hc
    rw [if_neg (by simp [hc]), release]
    rcases (h.row syscall.toNat).intercepted with hint | hint
    · rw [if_pos hint]
      exact .rejected _ (by decide)
    · rw [if_neg (by omega)]
      exact .released _ rfl (by omega) (by omega) hlt hint
  · rw [if_pos hc]
    exact .rejected _ hc

theorem mySyscall_start_outcome (h : m.WellFormed k) :
    Outcome k m REQUEST_START_MONITORING syscall pid
      (mySyscall k c REQUEST_START_MONITORING syscall pid m) := by
  rw [mySyscall_start]
  by_cases hc : checkMonitoring k c syscall pid = 0
  · obtain ⟨hpos, hlt⟩ := checkMonitoring_eq_zero hc
    rw [if_neg (by simp [hc]), Module.editRow]
    rcases startMonitoring_cases (h.row syscall.toNat) c.kmalloc pid with
      ⟨-, ho⟩ | ⟨-, -, ho⟩ | ⟨-, -, -, ho⟩ | ⟨-, -, t, ho, hwf, hsame, hmon⟩
    all_goals rw [ho]
    · simpa using Outcome.rejected _ (show -EINVAL ≠ 0 by decide)
    · simpa using Outcome.rejected _ (show -EBUSY ≠ 0 by decide)
    · simpa using Outcome.rejected _ (show -ENOMEM ≠ 0 by decide)
    · exact .started _ _ rfl (by omega) (by omega) hlt hwf hsame hmon
  · rw [if_pos hc]
    exact .rejected _ hc

theorem mySyscall_stop_outcome (h : m.WellFormed k) :
    Outcome k m REQUEST_STOP_MONITORING syscall pid
      (mySyscall k c REQUEST_STOP_MONITORING syscall pid m) := by
  rw [mySyscall_stop]
  by_cases hc : checkMonitoring k c syscall pid = 0
  · obtain ⟨hpos, hlt⟩ := checkMonitoring_eq_zero hc
    rw [if_neg (by simp [hc]), Module.editRow]
    rcases stopMonitoring_cases (h.row syscall.toNat) c.kmalloc pid with
      ⟨-, ho⟩ | ⟨-, -, ho⟩ | ⟨-, t, ho, hwf, hsame, hmon⟩
    all_goals rw [ho]
    · simpa using Outcome.rejected _ (show -EINVAL ≠ 0 by decide)
    · simpa using Outcome.rejected _ (show -ENOMEM ≠ 0 by decide)
    · exact .stopped _ _ rfl (by omega) (by omega) hlt hwf hsame hmon
  · rw [if_pos hc]
    exact .rejected _ hc

end Commands

/-- Every request on a consistent module has one of the outcomes. -/
theorem mySyscall_outcome (h : m.WellFormed k) (c : Caller) (cmd syscall pid : Int) :
    Outcome k m cmd syscall pid (mySyscall k c cmd syscall pid m) := by
  by_cases hcmd : cmd > 4 ∨ cmd < 1
  · rw [mySyscall, if_pos hcmd]
    exact .rejected _ (by decide)
  have hrange : cmd = 1 ∨ cmd = 2 ∨ cmd = 3 ∨ cmd = 4 := by omega
  rcases hrange with rfl | rfl | rfl | rfl
  · exact mySyscall_intercept_outcome c syscall pid h
  · exact mySyscall_release_outcome c syscall pid h
  · exact mySyscall_start_outcome c syscall pid h
  · exact mySyscall_stop_outcome c syscall pid h

/-! ## The invariant along a run -/

namespace Module.WellFormed

theorem setRow (h : m.WellFormed k) {s : Nat} {t : MyTable} (hpos : 0 < s) (hlt : s < k.nrSyscalls)
    (ht : t.WellFormed) : (m.setRow s t).WellFormed k where
  row i := by
    by_cases hi : i = s
    · subst hi; simpa using ht
    · simpa [hi] using h.row i
  outside i hi := by
    have hne : i ≠ s := by omega
    simpa [hne] using h.outside i hi

theorem setEntry (h : m.WellFormed k) (s : Nat) (f : Handler) : (m.setEntry s f).WellFormed k :=
  ⟨h.row, h.outside⟩

theorem exitGroup (h : m.WellFormed k) (current : Pid) (status : Int) :
    (myExitGroup k current status m).1.WellFormed k where
  row s := by
    simp only [myExitGroup]
    rw [delPid_row (h.row s)]
    split
    · rename_i hc; exact (h.row s).unlink hc.2.2
    · exact h.row s
  outside s hs := by
    simp only [myExitGroup]
    rw [delPid_row (h.row s), if_neg (by omega)]
    exact h.outside s hs

theorem outcome (h : m.WellFormed k) {cmd syscall pid : Int} {out : Int × Module}
    (ho : Outcome k m cmd syscall pid out) : out.2.WellFormed k := by
  cases ho with
  | rejected r hr => exact h
  | intercepted s hcmd hs hpos hlt => exact (h.setRow hpos hlt ((h.row s).hooked _)).setEntry _ _
  | released s hcmd hs hpos hlt =>
    exact (h.setRow hpos hlt (MyTable.wellFormed_released _)).setEntry _ _
  | started s t hcmd hs hpos hlt hwf => exact h.setRow hpos hlt hwf
  | stopped s t hcmd hs hpos hlt hwf => exact h.setRow hpos hlt hwf

theorem next (h : m.WellFormed k) (e : Event) : (m.next k e).WellFormed k := by
  cases e with
  | request c cmd syscall pid => exact h.outcome (mySyscall_outcome h c cmd syscall pid)
  | exitGroup current status => exact h.exitGroup current status

end Module.WellFormed

theorem initFunction_wellFormed (tbl : Nat → Handler) : (initFunction k tbl).WellFormed k :=
  ⟨fun _ => MyTable.empty_wellFormed, fun _ _ => rfl⟩

theorem run_wellFormed (k : Kernel) (entries : Nat → Nat) (events : List Event) :
    (run k entries events).WellFormed k :=
  Run.foldl_invariant (I := fun _ m => Module.WellFormed k m) (initFunction_wellFormed _)
    (fun _ e _ h => h.next e) events

/-- The metadata of every call is in order in every state that the module reaches, whatever the
requests, the memory they find, and the exits. -/
theorem run_metadata (k : Kernel) (entries : Nat → Nat) (events : List Event) (s : Nat) :
    let t := (run k entries events).table s
    t.listcount = t.myList.length ∧ t.myList.Nodup ∧ (0 : Pid) ∉ t.myList ∧
      (t.monitored = 0 ∨ t.monitored = 1 ∨ t.monitored = 2) ∧
      (t.monitored = 0 → t.myList = []) ∧ (t.monitored = 1 → t.myList ≠ []) ∧
      (0 < t.monitored → t.intercepted = 1) := by
  intro t
  have h : t.WellFormed := (run_wellFormed k entries events).row s
  refine ⟨h.listcount, h.nodup, h.zero_notMem, h.mode, h.nil_of_zero, h.ne_nil_of_one, ?_⟩
  intro hpos
  exact h.intercepted_of_monitored hpos.ne'

/-! ## The pids the requests ask for -/

/-- What an event asks for call `s`, given the set asked for so far. A successful request adds or
removes a pid, pid 0 standing for all of them; an exit drops the pid from the list. -/
def Module.ask (k : Kernel) (m : Module) (s : Nat) (S : CoSet Pid) : Event → CoSet Pid
  | .request c cmd syscall pid =>
    if (mySyscall k c cmd syscall pid m).1 = 0 ∧ syscall = s then
      if cmd = REQUEST_SYSCALL_RELEASE then .only ∅
      else if cmd = REQUEST_START_MONITORING then if pid = 0 then .allBut ∅ else S.add pid
      else if cmd = REQUEST_STOP_MONITORING then if pid = 0 then .only ∅ else S.remove pid
      else S
    else S
  | .exitGroup current _ => S.forget current

/-- The module and the pids asked for call by call, after one more event. -/
def askNext (k : Kernel) (x : Module × (Nat → CoSet Pid)) (e : Event) :
    Module × (Nat → CoSet Pid) :=
  (x.1.next k e, fun s => x.1.ask k s (x.2 s) e)

/-- The pids asked for call by call, after the events. -/
def requested (k : Kernel) (entries : Nat → Nat) (events : List Event) : Nat → CoSet Pid :=
  (events.foldl (askNext k) (initFunction k fun i => .outside (entries i), fun _ => .only ∅)).2

/-- The step of the refinement: an event changes the set a row stands for as it asks. -/
theorem Module.WellFormed.monitor_next (h : m.WellFormed k) (e : Event) (s : Nat) :
    ((m.next k e).table s).monitor = m.ask k s (m.table s).monitor e := by
  cases e with
  | request c cmd syscall pid =>
    have ho := mySyscall_outcome h c cmd syscall pid
    simp only [Module.next, Module.ask]
    generalize mySyscall k c cmd syscall pid m = out at ho
    cases ho with
    | rejected r hr => simp [hr]
    | intercepted s' hcmd hs =>
      subst hcmd hs
      by_cases hss : s' = s
      · subst hss
        simp [REQUEST_SYSCALL_INTERCEPT, REQUEST_SYSCALL_RELEASE, REQUEST_START_MONITORING,
          REQUEST_STOP_MONITORING, MyTable.monitor]
      · have hcast : (s' : Int) ≠ s := by omega
        simp [hcast, Ne.symm hss]
    | released s' hcmd hs =>
      subst hcmd hs
      by_cases hss : s' = s
      · subst hss; simp [MyTable.monitor_destroyList]
      · have hcast : (s' : Int) ≠ s := by omega
        simp [hcast, Ne.symm hss]
    | started s' t hcmd hs hpos hlt hwf hsame hmon =>
      subst hcmd hs
      by_cases hss : s' = s
      · subst hss
        simp [hmon, REQUEST_SYSCALL_RELEASE, REQUEST_START_MONITORING]
      · have hcast : (s' : Int) ≠ s := by omega
        simp [hcast, Ne.symm hss]
    | stopped s' t hcmd hs hpos hlt hwf hsame hmon =>
      subst hcmd hs
      by_cases hss : s' = s
      · subst hss
        simp [hmon, REQUEST_SYSCALL_RELEASE, REQUEST_START_MONITORING, REQUEST_STOP_MONITORING]
      · have hcast : (s' : Int) ≠ s := by omega
        simp [hcast, Ne.symm hss]
  | exitGroup current status =>
    simp only [Module.next, Module.ask, myExitGroup]
    rw [delPid_row (h.row s)]
    split
    · exact (h.row s).monitor_unlink
    · rename_i hc
      by_cases hout : s = 0 ∨ k.nrSyscalls ≤ s
      · rw [h.outside s hout]; rfl
      · have hmem : current ∉ (m.table s).myList := fun hmem => hc ⟨by omega, by omega, hmem⟩
        simp only [MyTable.monitor]
        split <;> simp [CoSet.forget, hmem]

/-- The table refines the abstract model: after every run each row stands for the set of pids its
requests asked for. -/
theorem run_monitor (k : Kernel) (entries : Nat → Nat) (events : List Event) (s : Nat) :
    ((run k entries events).table s).monitor = requested k entries events s := by
  have hrel : ∀ x, x = events.foldl (askNext k)
      (initFunction k fun i => .outside (entries i), fun _ => .only ∅) →
      x.1 = run k entries events ∧ ∀ s, (x.1.table s).monitor = x.2 s := by
    -- The fold runs the module alongside; the step of its second half needs the first.
    induction events using List.reverseRecOn with
    | nil => rintro x rfl; exact ⟨rfl, fun _ => rfl⟩
    | append_singleton events e ih =>
      rintro x rfl
      obtain ⟨hrun, hmon⟩ := ih _ rfl
      simp only [List.foldl_append, List.foldl_cons, List.foldl_nil, run, askNext] at hrun ⊢
      refine ⟨by rw [hrun], fun s => ?_⟩
      rw [← hmon]
      refine Module.WellFormed.monitor_next ?_ e s
      rw [hrun]
      exact run_wellFormed k entries events
  obtain ⟨hrun, hmon⟩ := hrel _ rfl
  rw [← hrun]
  exact hmon s

end Interceptor

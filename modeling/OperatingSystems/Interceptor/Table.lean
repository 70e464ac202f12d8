-- SUMMARY: The metadata table of the interceptor module and the operations on its lists of pids.
import OperatingSystems.Library.CoSet
import OperatingSystems.Library.Run
import Mathlib.Data.Finset.Dedup
import Mathlib.Logic.Function.Basic

/-!
# The metadata table

One row for each system call: the saved original handler, whether the call is intercepted, and
which pids are monitored. A row's list of pids is read in two ways. While some pids are monitored
(`monitored = 1`) it lists them; while all are monitored (`monitored = 2`) it is the blacklist of
those that are not.
-/

namespace Interceptor

open Library

/-! ## What the kernel provides -/

abbrev Pid := Int

/-- The constants of `asm/unistd.h` the module is compiled against. Call 0 is
`MY_CUSTOM_SYSCALL`, so `exit_group` is a different call. -/
structure Kernel where
  nrSyscalls : Nat
  nrExitGroup : Nat
  exitGroup_pos : 0 < nrExitGroup
  exitGroup_lt : nrExitGroup < nrSyscalls

/-- A function pointer: an address outside the module, `NULL` among them, or one of the three
functions the module installs. -/
inductive Handler where
  | outside (addr : Nat)
  | mySyscall
  | myExitGroup
  | interceptor
deriving DecidableEq, Repr

def Handler.null : Handler := .outside 0

def MY_CUSTOM_SYSCALL : Nat := 0

def EPERM : Int := 1
def ENOMEM : Int := 12
def EBUSY : Int := 16
def EINVAL : Int := 22

/-! ## Rows -/

/-- `mytable`: the metadata of one system call. -/
structure MyTable where
  f : Handler
  intercepted : Int
  monitored : Int
  listcount : Int
  myList : List Pid
deriving DecidableEq, Repr

/-- A row of the zero-initialised table, with an initialised list head. -/
def MyTable.empty : MyTable :=
  { f := .null, intercepted := 0, monitored := 0, listcount := 0, myList := [] }

/-- `add_pid_sysc`. The node is linked in at the head; `kmalloc` says whether memory was
available. -/
def addPidSysc (kmalloc : Bool) (pid : Pid) (t : MyTable) : Int × MyTable :=
  if kmalloc then
    (0, { t with myList := pid :: t.myList, listcount := t.listcount + 1 })
  else (-ENOMEM, t)

/-- One node is unlinked: the first that holds `pid`. Monitoring stops with the last pid unless
it is for all pids. -/
def MyTable.unlink (pid : Pid) (t : MyTable) : MyTable :=
  let t := { t with myList := t.myList.erase pid, listcount := t.listcount - 1 }
  -- The last pid takes the monitoring with it; an empty blacklist is still one.
  if t.listcount = 0 ∧ t.monitored = 1 then { t with monitored := 0 } else t

/-- `del_pid_sysc`. -/
def delPidSysc (pid : Pid) (t : MyTable) : Int × MyTable :=
  if pid ∈ t.myList then (0, t.unlink pid) else (-EINVAL, t)

/-- The inner loop of `del_pid`: the nodes still to visit, and the row so far. Every earlier node
with `pid` is gone when a node is visited, so the first one left is the visited one. -/
def delPidLoop (pid : Pid) : List Pid → MyTable → MyTable
  | [], t => t
  | p :: rest, t => delPidLoop pid rest (if p = pid then t.unlink pid else t)

def delPidRow (pid : Pid) (t : MyTable) : MyTable :=
  delPidLoop pid t.myList t

/-- `del_pid`: remove the pid from every list. Row 0 is not visited. -/
def delPid (k : Kernel) (pid : Pid) (table : Nat → MyTable) : Int × (Nat → MyTable) :=
  let rows := List.range' 1 (k.nrSyscalls - 1)
  let table' := rows.foldl (fun t s => Function.update t s (delPidRow pid (t s))) table
  (if rows.any (fun s => pid ∈ (table s).myList) then 0 else -1, table')

/-- `destroy_list`. -/
def destroyList (t : MyTable) : MyTable :=
  { t with myList := [], listcount := 0, monitored := 0 }

/-- `check_pid_monitored`: whether the pid is in the row's list, in either reading of it. -/
def checkPidMonitored (t : MyTable) (pid : Pid) : Int :=
  if pid ∈ t.myList then 1 else 0

/-! ## Which pids a row monitors -/

/-- The set of pids a row stands for. -/
def MyTable.monitor (t : MyTable) : CoSet Pid :=
  if t.monitored = 2 then .allBut t.myList.toFinset else .only t.myList.toFinset

/-- The metadata of a row is consistent. -/
structure MyTable.WellFormed (t : MyTable) : Prop where
  listcount : t.listcount = t.myList.length
  nodup : t.myList.Nodup
  zero_notMem : (0 : Pid) ∉ t.myList
  mode : t.monitored = 0 ∨ t.monitored = 1 ∨ t.monitored = 2
  nil_of_zero : t.monitored = 0 → t.myList = []
  ne_nil_of_one : t.monitored = 1 → t.myList ≠ []
  intercepted : t.intercepted = 0 ∨ t.intercepted = 1
  intercepted_of_monitored : t.monitored ≠ 0 → t.intercepted = 1

theorem MyTable.empty_wellFormed : MyTable.empty.WellFormed := by
  constructor <;> simp [MyTable.empty]

/-! ## Specifications of the list operations -/

namespace MyTable

variable {t : MyTable} {pid q : Pid}

theorem unlink_f : (t.unlink pid).f = t.f := by
  simp only [unlink]; split <;> rfl

theorem unlink_intercepted : (t.unlink pid).intercepted = t.intercepted := by
  simp only [unlink]; split <;> rfl

theorem unlink_myList : (t.unlink pid).myList = t.myList.erase pid := by
  simp only [unlink]; split <;> rfl

theorem unlink_listcount : (t.unlink pid).listcount = t.listcount - 1 := by
  simp only [unlink]; split <;> rfl

theorem unlink_monitored : (t.unlink pid).monitored =
    if t.listcount - 1 = 0 ∧ t.monitored = 1 then 0 else t.monitored := by
  simp only [unlink]; split <;> rfl

/-- Unlinking a listed pid takes it off the list and keeps every other pid. -/
theorem WellFormed.mem_unlink (h : t.WellFormed) :
    q ∈ (t.unlink pid).myList ↔ q ≠ pid ∧ q ∈ t.myList := by
  rw [unlink_myList, h.nodup.mem_erase_iff]

theorem WellFormed.length_unlink (h : t.WellFormed) (hmem : pid ∈ t.myList) :
    ((t.unlink pid).myList.length : Int) = t.listcount - 1 := by
  have hpos := List.length_pos_of_mem hmem
  rw [unlink_myList, List.length_erase_of_mem hmem, h.listcount]
  omega

theorem WellFormed.unlink (h : t.WellFormed) (hmem : pid ∈ t.myList) :
    (t.unlink pid).WellFormed := by
  have hlen := h.length_unlink hmem
  have hmon := @unlink_monitored t pid
  refine ⟨?_, ?_, ?_, ?_, ?_, ?_, ?_, ?_⟩
  · rw [unlink_listcount, hlen]
  · rw [unlink_myList]; exact h.nodup.erase _
  · rw [h.mem_unlink]; exact fun h0 => h.zero_notMem h0.2
  · rw [hmon]; split
    · exact .inl rfl
    · exact h.mode
  · intro h0
    rw [hmon] at h0
    split at h0
    · rename_i hc
      rw [hc.1] at hlen
      exact List.eq_nil_of_length_eq_zero (by omega)
    · rw [h.nil_of_zero h0] at hmem
      cases hmem
  · intro h1 hnil
    rw [hmon] at h1
    rw [hnil] at hlen
    split at h1
    · cases h1
    · rename_i hc
      exact hc ⟨by simpa using hlen.symm, h1⟩
  · rw [unlink_intercepted]; exact h.intercepted
  · intro h0
    rw [unlink_intercepted]
    apply h.intercepted_of_monitored
    intro hz
    rw [hmon, hz] at h0
    simp at h0

theorem WellFormed.toFinset_unlink (h : t.WellFormed) :
    (t.unlink pid).myList.toFinset = t.myList.toFinset.erase pid := by
  ext q
  rw [List.mem_toFinset, h.mem_unlink, Finset.mem_erase, List.mem_toFinset]

theorem unlink_monitored_eq_two : (t.unlink pid).monitored = 2 ↔ t.monitored = 2 := by
  rw [unlink_monitored]
  split
  · rename_i hc; rw [hc.2]; decide
  · rfl

/-- A pid taken off the list is forgotten, whichever way the list is read. -/
theorem WellFormed.monitor_unlink (h : t.WellFormed) :
    (t.unlink pid).monitor = t.monitor.forget pid := by
  simp only [monitor, unlink_monitored_eq_two, h.toFinset_unlink]
  split <;> rfl

theorem monitor_destroyList : (destroyList t).monitor = .only ∅ := rfl

theorem WellFormed.destroyed (h : t.WellFormed) : (destroyList t).WellFormed := by
  constructor <;> simp [destroyList, h.intercepted]

/-- A row that monitors no call at all stands for the empty set. -/
theorem WellFormed.monitor_of_zero (h : t.WellFormed) (h0 : t.monitored = 0) :
    t.monitor = .only ∅ := by
  simp [monitor, h0, h.nil_of_zero h0]

theorem monitor_of_one (h1 : t.monitored = 1) : t.monitor = .only t.myList.toFinset := by
  simp [monitor, h1]

theorem monitor_of_two (h2 : t.monitored = 2) : t.monitor = .allBut t.myList.toFinset := by
  simp [monitor, h2]

end MyTable

/-! ### Removing an exiting pid -/

/-- A pid occurs at most once, so the loop over the row unlinks it once or not at all. -/
theorem delPidLoop_eq {pid : Pid} {rest : List Pid} {t : MyTable} (h : rest.Nodup) :
    delPidLoop pid rest t = if pid ∈ rest then t.unlink pid else t := by
  induction rest generalizing t with
  | nil => rfl
  | cons p rest ih =>
      obtain ⟨hp, hrest⟩ := List.nodup_cons.mp h
      rw [delPidLoop, ih hrest]
      by_cases hpid : p = pid
      · subst hpid
        simp [hp]
      · have : pid ≠ p := Ne.symm hpid
        simp [hpid, this]

theorem delPidRow_eq {pid : Pid} {t : MyTable} (h : t.WellFormed) :
    delPidRow pid t = if pid ∈ t.myList then t.unlink pid else t :=
  delPidLoop_eq h.nodup

theorem delPid_row {k : Kernel} {pid : Pid} {table : Nat → MyTable} {s : Nat}
    (h : (table s).WellFormed) :
    (delPid k pid table).2 s =
      if 1 ≤ s ∧ s < k.nrSyscalls ∧ pid ∈ (table s).myList then (table s).unlink pid
      else table s := by
  have hk := k.exitGroup_lt
  simp only [delPid]
  rw [Run.foldl_update (fun _ t => delPidRow pid t), delPidRow_eq h]
  have : (1 ≤ s ∧ s < 1 + (k.nrSyscalls - 1)) ↔ (1 ≤ s ∧ s < k.nrSyscalls) := by omega
  simp only [this]
  by_cases hs : 1 ≤ s ∧ s < k.nrSyscalls
  · simp [hs]
  · rw [if_neg hs, if_neg (fun h0 => hs ⟨h0.1, h0.2.1⟩)]

end Interceptor

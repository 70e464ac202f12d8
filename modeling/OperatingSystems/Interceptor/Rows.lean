-- SUMMARY: What a monitoring request does to one row of the table, stated on the set of pids the row stands for.
import OperatingSystems.Interceptor.Requests

/-!
# Monitoring requests on a row

`startMonitoring` and `stopMonitoring` treat the three modes of a row apart. On the set of pids the
row stands for, each of them is one operation with one reason to fail; the case distinction below
is made once, and every later result is read off it.
-/

namespace Interceptor

open Library

variable {t : MyTable} {pid : Pid} {kmalloc : Bool}

theorem checkPidMonitored_eq_zero : checkPidMonitored t pid = 0 ↔ pid ∉ t.myList := by
  simp [checkPidMonitored]

theorem checkPidMonitored_eq_one : checkPidMonitored t pid = 1 ↔ pid ∈ t.myList := by
  simp [checkPidMonitored]

theorem delPidSysc_of_mem (h : pid ∈ t.myList) : delPidSysc pid t = (0, t.unlink pid) := by
  simp [delPidSysc, h]

@[simp] theorem addPidSysc_true : addPidSysc true pid t =
    (0, { t with myList := pid :: t.myList, listcount := t.listcount + 1 }) := rfl

@[simp] theorem addPidSysc_false : addPidSysc false pid t = (-ENOMEM, t) := rfl

/-- A new pid at the head of the list keeps the row consistent in either monitoring mode. -/
theorem MyTable.WellFormed.link (h : t.WellFormed) (hpid : pid ≠ 0) (hmem : pid ∉ t.myList)
    (hint : t.intercepted = 1) {mode : Int} (hmode : mode = 1 ∨ mode = 2) :
    MyTable.WellFormed
      { t with myList := pid :: t.myList, listcount := t.listcount + 1, monitored := mode } where
  listcount := by simp [h.listcount]
  nodup := List.nodup_cons.mpr ⟨hmem, h.nodup⟩
  zero_notMem := by simp [h.zero_notMem, Ne.symm hpid]
  mode := .inr hmode
  nil_of_zero := by rcases hmode with rfl | rfl <;> simp
  ne_nil_of_one := by simp
  intercepted := h.intercepted
  intercepted_of_monitored := fun _ => hint

/-- A row whose calls are monitored for all pids. -/
theorem MyTable.wellFormed_all (hint : t.intercepted = 1) :
    MyTable.WellFormed { destroyList t with monitored := 2 } := by
  constructor <;> simp [destroyList, hint]

/-- What a row keeps through every monitoring request. -/
structure MyTable.SameCall (t t' : MyTable) : Prop where
  f : t'.f = t.f
  intercepted : t'.intercepted = t.intercepted

theorem MyTable.sameCall_unlink : t.SameCall (t.unlink pid) :=
  ⟨unlink_f, unlink_intercepted⟩

/-! ## START_MONITORING -/

/-- The outcomes of `startMonitoring` on a consistent row: the call is not intercepted, the pid is
monitored already, memory ran out, or the pid (for pid 0, every pid) is monitored from now on. -/
theorem startMonitoring_cases (h : t.WellFormed) (kmalloc : Bool) (pid : Pid) :
    (t.intercepted = 0 ∧ startMonitoring kmalloc pid t = (-EINVAL, t)) ∨
    (t.intercepted = 1 ∧ pid ∈ t.monitor ∧ startMonitoring kmalloc pid t = (-EBUSY, t)) ∨
    (t.intercepted = 1 ∧ pid ∉ t.monitor ∧ kmalloc = false ∧
      startMonitoring kmalloc pid t = (-ENOMEM, t)) ∨
    (t.intercepted = 1 ∧ pid ∉ t.monitor ∧ ∃ t', startMonitoring kmalloc pid t = (0, t') ∧
      t'.WellFormed ∧ t.SameCall t' ∧
      t'.monitor = if pid = 0 then .allBut ∅ else t.monitor.add pid) := by
  rcases h.intercepted with hint | hint
  · exact .inl ⟨hint, by simp [startMonitoring, hint]⟩
  right
  rcases h.mode with hmon | hmon | hmon
  · -- no pid is monitored: the list is empty
    have hnil := h.nil_of_zero hmon
    have hmem : pid ∉ t.myList := by simp [hnil]
    have hset := h.monitor_of_zero hmon
    have hnot : pid ∉ t.monitor := by simp [hset]
    right
    by_cases hpid : pid = 0
    · refine .inr ⟨hint, hnot, { t with monitored := 2 }, ?_, ?_, ⟨rfl, rfl⟩, ?_⟩
      · simp [startMonitoring, hint, hmon, hpid]
      · constructor <;> simp [h.listcount, hnil, hint]
      · simp [MyTable.monitor, hnil, hpid]
    · cases kmalloc with
      | false => exact .inl ⟨hint, hnot, rfl, by simp [startMonitoring, hint, hmon, hpid, ENOMEM]⟩
      | true =>
        refine .inr ⟨hint, hnot, _, ?_, h.link hpid hmem hint (.inl rfl), ⟨rfl, rfl⟩, ?_⟩
        · simp [startMonitoring, hint, hmon, hpid]
        · rw [hset, if_neg hpid]
          simp [MyTable.monitor, hnil, CoSet.add]
  · -- the listed pids are monitored
    have hset := MyTable.monitor_of_one hmon
    by_cases hmem : pid ∈ t.myList
    · exact .inl ⟨hint, by simp [hset, hmem],
        by simp [startMonitoring, hint, hmon, checkPidMonitored_eq_one, hmem]⟩
    have hnot : pid ∉ t.monitor := by simp [hset, hmem]
    right
    by_cases hpid : pid = 0
    · refine .inr ⟨hint, hnot, { destroyList t with monitored := 2 }, ?_, MyTable.wellFormed_all hint,
        ⟨rfl, rfl⟩, ?_⟩
      · subst hpid
        simp [startMonitoring, hint, hmon, checkPidMonitored_eq_one, hmem]
      · simp [MyTable.monitor, destroyList, hpid]
    · cases kmalloc with
      | false =>
        exact .inl ⟨hint, hnot, rfl, by
          simp [startMonitoring, hint, hmon, hpid, checkPidMonitored_eq_one, hmem, ENOMEM]⟩
      | true =>
        refine .inr ⟨hint, hnot, _, ?_, h.link hpid hmem hint (.inl hmon), ⟨rfl, rfl⟩, ?_⟩
        · simp [startMonitoring, hint, hmon, hpid, checkPidMonitored_eq_one, hmem]
        · rw [hset, if_neg hpid]
          simp [MyTable.monitor, hmon, CoSet.add]
  · -- every pid off the blacklist is monitored
    have hset := MyTable.monitor_of_two hmon
    by_cases hmem : pid ∈ t.myList
    · have hpid : pid ≠ 0 := fun h0 => h.zero_notMem (h0 ▸ hmem)
      refine .inr (.inr ⟨hint, by simp [hset, hmem], t.unlink pid, ?_, h.unlink hmem,
        MyTable.sameCall_unlink, ?_⟩)
      · simp [startMonitoring, hint, hmon, checkPidMonitored_eq_zero, hmem, delPidSysc_of_mem]
      · rw [h.monitor_unlink, hset, if_neg hpid]
        rfl
    · exact .inl ⟨hint, by simp [hset, hmem],
        by simp [startMonitoring, hint, hmon, checkPidMonitored_eq_zero, hmem]⟩

/-! ## STOP_MONITORING -/

/-- The outcomes of `stopMonitoring` on a consistent row: the pid is not monitored, memory ran out,
or the pid (for pid 0, every pid) is not monitored any more. -/
theorem stopMonitoring_cases (h : t.WellFormed) (kmalloc : Bool) (pid : Pid) :
    (pid ∉ t.monitor ∧ stopMonitoring kmalloc pid t = (-EINVAL, t)) ∨
    (pid ∈ t.monitor ∧ kmalloc = false ∧ stopMonitoring kmalloc pid t = (-ENOMEM, t)) ∨
    (pid ∈ t.monitor ∧ ∃ t', stopMonitoring kmalloc pid t = (0, t') ∧
      t'.WellFormed ∧ t.SameCall t' ∧
      t'.monitor = if pid = 0 then .only ∅ else t.monitor.remove pid) := by
  rcases h.mode with hmon | hmon | hmon
  · exact .inl ⟨by simp [h.monitor_of_zero hmon], by simp [stopMonitoring, hmon]⟩
  · -- the listed pids are monitored
    have hset := MyTable.monitor_of_one hmon
    by_cases hmem : pid ∈ t.myList
    · have hpid : pid ≠ 0 := fun h0 => h.zero_notMem (h0 ▸ hmem)
      refine .inr (.inr ⟨by simp [hset, hmem], t.unlink pid, ?_, h.unlink hmem,
        MyTable.sameCall_unlink, ?_⟩)
      · simp [stopMonitoring, hmon, checkPidMonitored_eq_zero, hmem, delPidSysc_of_mem]
      · rw [h.monitor_unlink, hset, if_neg hpid]
        rfl
    · exact .inl ⟨by simp [hset, hmem],
        by simp [stopMonitoring, hmon, checkPidMonitored_eq_zero, hmem]⟩
  · -- every pid off the blacklist is monitored, pid 0 standing for all of them
    have hset := MyTable.monitor_of_two hmon
    have hint : t.intercepted = 1 := h.intercepted_of_monitored (by omega)
    by_cases hpid : pid = 0
    · refine .inr (.inr ⟨by simp [hset, hpid, h.zero_notMem], destroyList t, ?_, h.destroyed,
        ⟨rfl, rfl⟩, ?_⟩)
      · simp [stopMonitoring, hmon, hpid]
      · simp [MyTable.monitor_destroyList, hpid]
    by_cases hmem : pid ∈ t.myList
    · exact .inl ⟨by simp [hset, hmem],
        by simp [stopMonitoring, hmon, hpid, checkPidMonitored_eq_one, hmem]⟩
    have hin : pid ∈ t.monitor := by simp [hset, hmem]
    right
    cases kmalloc with
    | false =>
      exact .inl ⟨hin, rfl, by
        simp [stopMonitoring, hmon, hpid, checkPidMonitored_eq_one, hmem, ENOMEM]⟩
    | true =>
      refine .inr ⟨hin, _, ?_, h.link hpid hmem hint (.inr hmon), ⟨rfl, rfl⟩, ?_⟩
      · simp [stopMonitoring, hmon, hpid, checkPidMonitored_eq_one, hmem]
      · rw [hset, if_neg hpid]
        simp [MyTable.monitor, hmon, CoSet.remove]

/-! ## Requests for all pids -/

/-- With pid 0, `startMonitoring` turns a row with a list of pids into one for all pids, and is
busy where the row is one already, whatever its blacklist. -/
theorem startMonitoring_zero (h : t.WellFormed) (hint : t.intercepted = 1) (kmalloc : Bool) :
    startMonitoring kmalloc 0 t =
      if t.monitored = 2 then (-EBUSY, t) else (0, { destroyList t with monitored := 2 }) := by
  have hzero := checkPidMonitored_eq_zero.mpr h.zero_notMem
  rcases h.mode with hmon | hmon | hmon
  · have hnil := h.nil_of_zero hmon
    have hcount : t.listcount = 0 := by simp [h.listcount, hnil]
    simp [startMonitoring, destroyList, hint, hmon, hnil, hcount]
  · simp [startMonitoring, hint, hmon, hzero]
  · simp [startMonitoring, hint, hmon, hzero]

/-- With pid 0, `stopMonitoring` clears a row for all pids. A row with a list of pids never lists
pid 0. -/
theorem stopMonitoring_zero (h : t.WellFormed) (kmalloc : Bool) :
    stopMonitoring kmalloc 0 t =
      if t.monitored = 2 then (0, destroyList t) else (-EINVAL, t) := by
  have hzero := checkPidMonitored_eq_zero.mpr h.zero_notMem
  rcases h.mode with hmon | hmon | hmon
  · simp [stopMonitoring, hmon]
  · simp [stopMonitoring, hmon, hzero]
  · simp [stopMonitoring, hmon]

end Interceptor

-- SUMMARY: What unloading the interceptor module leaves in the system call table.
import OperatingSystems.Interceptor.Monitoring

/-!
# Unloading

While the module is loaded, the entry of an intercepted call points to `interceptor` and its row
holds the entry that `init_function` left there; every other entry is still that one. `deinterceptor`
therefore takes the table back to its state after loading. `exit_function` has put the two entries
hooked at loading back before that, so an intercepted `exit_group` gets the hook back.
-/

namespace Interceptor

open Library

variable {k : Kernel} {entries : Nat → Nat} {m : Module}

/-- The system call table right after loading. -/
def hooked (k : Kernel) (entries : Nat → Nat) : Nat → Handler :=
  (initFunction k fun i => .outside (entries i)).sysCallTable

/-- Entries and saved handlers agree with the rows: an intercepted call has the generic handler in
its entry and the old entry in its row. -/
structure Module.Coherent (k : Kernel) (entries : Nat → Nat) (m : Module) : Prop where
  origCustomSyscall : m.origCustomSyscall = .outside (entries MY_CUSTOM_SYSCALL)
  origExitGroup : m.origExitGroup = .outside (entries k.nrExitGroup)
  intercepted : ∀ s, (m.table s).intercepted = 1 →
    m.sysCallTable s = .interceptor ∧ (m.table s).f = hooked k entries s
  notIntercepted : ∀ s, (m.table s).intercepted = 0 → m.sysCallTable s = hooked k entries s

theorem initFunction_coherent :
    (initFunction k fun i => .outside (entries i)).Coherent k entries where
  origCustomSyscall := rfl
  origExitGroup := by
    have hne : k.nrExitGroup ≠ MY_CUSTOM_SYSCALL := Nat.pos_iff_ne_zero.mp k.exitGroup_pos
    simp [initFunction, hne]
  intercepted s h := by simp [initFunction, MyTable.empty] at h
  notIntercepted _ _ := rfl

namespace Module.Coherent

/-- Only what an edit changes, the row and the entry of one call, is to be looked at. -/
theorem edit {m' : Module} {s : Nat} (h : m.Coherent k entries)
    (hcustom : m'.origCustomSyscall = m.origCustomSyscall)
    (hexit : m'.origExitGroup = m.origExitGroup)
    (hother : ∀ i, i ≠ s → m'.table i = m.table i ∧ m'.sysCallTable i = m.sysCallTable i)
    (hint : (m'.table s).intercepted = 1 →
      m'.sysCallTable s = .interceptor ∧ (m'.table s).f = hooked k entries s)
    (hnot : (m'.table s).intercepted = 0 → m'.sysCallTable s = hooked k entries s) :
    m'.Coherent k entries where
  origCustomSyscall := hcustom.trans h.origCustomSyscall
  origExitGroup := hexit.trans h.origExitGroup
  intercepted i hi := by
    by_cases his : i = s
    · subst his
      exact hint hi
    · rw [(hother i his).1] at hi ⊢
      rw [(hother i his).2]
      exact h.intercepted i hi
  notIntercepted i hi := by
    by_cases his : i = s
    · subst his
      exact hnot hi
    · rw [(hother i his).1] at hi
      rw [(hother i his).2]
      exact h.notIntercepted i hi

/-- A row may change as long as its interception does not. -/
theorem setRow (h : m.Coherent k entries) {s : Nat} {t : MyTable} (ht : (m.table s).SameCall t) :
    (m.setRow s t).Coherent k entries := by
  refine h.edit (s := s) rfl rfl (fun i hi => ⟨Function.update_of_ne hi .., rfl⟩) ?_ ?_
  · intro hint
    simp only [table_setRow, Function.update_self, ht.intercepted, ht.f] at hint ⊢
    exact h.intercepted s hint
  · intro hnot
    simp only [table_setRow, Function.update_self, ht.intercepted] at hnot
    exact h.notIntercepted s hnot

theorem intercept (h : m.Coherent k entries) {s : Nat} (hint : (m.table s).intercepted = 0) :
    ((m.setRow s { m.table s with intercepted := 1, f := m.sysCallTable s }).setEntry s
      .interceptor).Coherent k entries := by
  refine h.edit (s := s) rfl rfl
    (fun i hi => ⟨Function.update_of_ne hi .., Function.update_of_ne hi ..⟩) ?_ ?_
  · intro _
    simpa using h.notIntercepted s hint
  · intro hnot
    simp at hnot

theorem release (h : m.Coherent k entries) {s : Nat} (hint : (m.table s).intercepted = 1) :
    ((m.setRow s (destroyList { m.table s with intercepted := 0 })).setEntry s
      (m.table s).f).Coherent k entries := by
  refine h.edit (s := s) rfl rfl
    (fun i hi => ⟨Function.update_of_ne hi .., Function.update_of_ne hi ..⟩) ?_ ?_
  · intro hnot
    simp [destroyList] at hnot
  · intro _
    simpa using (h.intercepted s hint).2

theorem outcome (h : m.Coherent k entries) {cmd syscall pid : Int} {out : Int × Module}
    (ho : Outcome k m cmd syscall pid out) : out.2.Coherent k entries := by
  cases ho with
  | rejected r hr => exact h
  | intercepted s _ _ _ _ hint => exact h.intercept hint
  | released s _ _ _ _ hint => exact h.release hint
  | started s t _ _ _ _ _ hsame => exact h.setRow hsame
  | stopped s t _ _ _ _ _ hsame => exact h.setRow hsame

/-- An exit edits lists only. -/
theorem exitGroup (h : m.Coherent k entries) (hwf : m.WellFormed k) (current : Pid)
    (status : Int) : (myExitGroup k current status m).1.Coherent k entries := by
  have hsame : ∀ s, (m.table s).SameCall ((myExitGroup k current status m).1.table s) := by
    intro s
    simp only [myExitGroup]
    rw [delPid_row (hwf.row s)]
    split
    · exact MyTable.sameCall_unlink
    · exact ⟨rfl, rfl⟩
  refine ⟨h.origCustomSyscall, h.origExitGroup, fun s hs => ?_, fun s hs => ?_⟩
  · rw [(hsame s).intercepted] at hs
    rw [(hsame s).f]
    exact h.intercepted s hs
  · rw [(hsame s).intercepted] at hs
    exact h.notIntercepted s hs

end Module.Coherent

theorem run_coherent (k : Kernel) (entries : Nat → Nat) (events : List Event) :
    (run k entries events).Coherent k entries := by
  refine (Run.foldl_invariant
    (I := fun _ m => Module.WellFormed k m ∧ Module.Coherent k entries m)
    ⟨initFunction_wellFormed _, initFunction_coherent⟩ (fun _ e m h => ⟨h.1.next e, ?_⟩) events).2
  cases e with
  | request c cmd syscall pid => exact h.2.outcome (mySyscall_outcome h.1 c cmd syscall pid)
  | exitGroup current status => exact h.2.exitGroup h.1 current status

/-! ## The loop of deinterceptor -/

theorem deinterceptRow_table (i s : Nat) :
    (m.table s).SameCall ((deinterceptRow m i).table s) := by
  simp only [deinterceptRow]
  split
  · split
    · by_cases hs : s = i
      · subst hs
        simp only [Module.table_setRow, Function.update_self]
        exact ⟨rfl, rfl⟩
      · simp only [Module.table_setRow, Function.update_of_ne hs]
        exact ⟨rfl, rfl⟩
    · exact ⟨rfl, rfl⟩
  · exact ⟨rfl, rfl⟩

theorem deinterceptRow_sysCallTable (i : Nat) :
    (deinterceptRow m i).sysCallTable =
      Function.update m.sysCallTable i
        (if (m.table i).intercepted ≠ 0 then (m.table i).f else m.sysCallTable i) := by
  simp only [deinterceptRow]
  split
  · split <;> rfl
  · rw [Function.update_eq_self]

/-- Since the loop keeps interception and saved handlers, it is a loop over the entries alone. -/
theorem foldl_deinterceptRow_sysCallTable {t : Nat → MyTable} (rows : List Nat) (m : Module)
    (h : ∀ s, (t s).SameCall (m.table s)) :
    (rows.foldl deinterceptRow m).sysCallTable =
      rows.foldl (fun e i =>
        Function.update e i (if (t i).intercepted ≠ 0 then (t i).f else e i)) m.sysCallTable := by
  -- `t` is the table before the loop, which the rows still to come agree with on what is read.
  induction rows generalizing m with
  | nil => rfl
  | cons i rows ih =>
    have hstep : ∀ s, (t s).SameCall ((deinterceptRow m i).table s) := fun s =>
      have hrow := @deinterceptRow_table m i s
      ⟨hrow.f.trans (h s).f, hrow.intercepted.trans (h s).intercepted⟩
    rw [List.foldl_cons, List.foldl_cons, ih _ hstep, deinterceptRow_sysCallTable,
      (h i).intercepted, (h i).f]

/-- `deinterceptor` gives every intercepted call its saved handler back. -/
theorem deinterceptor_sysCallTable (k : Kernel) (m : Module) (i : Nat) :
    (deinterceptor k m).sysCallTable i =
      if 1 ≤ i ∧ i < k.nrSyscalls ∧ (m.table i).intercepted ≠ 0 then (m.table i).f
      else m.sysCallTable i := by
  have hk := k.exitGroup_lt
  rw [deinterceptor, foldl_deinterceptRow_sysCallTable _ _ (fun _ => ⟨rfl, rfl⟩),
    Run.foldl_update (fun i e => if (m.table i).intercepted ≠ 0 then (m.table i).f else e)]
  have hrange : (1 ≤ i ∧ i < 1 + (k.nrSyscalls - 1)) ↔ (1 ≤ i ∧ i < k.nrSyscalls) := by omega
  simp only [hrange]
  by_cases hi : 1 ≤ i ∧ i < k.nrSyscalls
  · simp [hi]
  · rw [if_neg hi, if_neg (fun h => hi ⟨h.1, h.2.1⟩)]

/-! ## exit_function -/

theorem exitFunction_eq (k : Kernel) (m : Module) (i : Nat) :
    (exitFunction k m).sysCallTable i =
      if 1 ≤ i ∧ i < k.nrSyscalls ∧ (m.table i).intercepted ≠ 0 then (m.table i).f
      else if i = k.nrExitGroup then m.origExitGroup
      else if i = MY_CUSTOM_SYSCALL then m.origCustomSyscall
      else m.sysCallTable i := by
  rw [exitFunction, deinterceptor_sysCallTable]
  simp only [Module.sysCallTable_setEntry, Function.update_apply]
  rfl

/-- What `exit_function` leaves behind: the table from before loading, but for an intercepted
`exit_group`, whose entry gets the module's own hook. -/
theorem exitFunction_sysCallTable (k : Kernel) (entries : Nat → Nat) (events : List Event)
    (i : Nat) :
    (exitFunction k (run k entries events)).sysCallTable i =
      if i = k.nrExitGroup ∧ ((run k entries events).table i).intercepted = 1 then .myExitGroup
      else .outside (entries i) := by
  have hwf := run_wellFormed k entries events
  have h := run_coherent k entries events
  have hpos := k.exitGroup_pos
  have hlt := k.exitGroup_lt
  rw [exitFunction_eq]
  by_cases hint : ((run k entries events).table i).intercepted = 1
  · -- the row is in range, since no request can name another
    have hi : 1 ≤ i ∧ i < k.nrSyscalls := by
      by_contra hout
      rw [hwf.outside i (by omega)] at hint
      cases hint
    have hcond : 1 ≤ i ∧ i < k.nrSyscalls ∧
        ((run k entries events).table i).intercepted ≠ 0 := ⟨hi.1, hi.2, by omega⟩
    rw [if_pos hcond, (h.intercepted i hint).2]
    have hcustom : i ≠ MY_CUSTOM_SYSCALL := by simp only [MY_CUSTOM_SYSCALL]; omega
    by_cases hexit : i = k.nrExitGroup
    · rw [if_pos ⟨hexit, hint⟩, hexit]
      simp only [hooked, initFunction, Function.update_self]
    · rw [if_neg (fun hc => hexit hc.1)]
      simp [hooked, initFunction, hexit, hcustom]
  · have hzero : ((run k entries events).table i).intercepted = 0 := by
      rcases (hwf.row i).intercepted with h0 | h1
      · exact h0
      · exact absurd h1 hint
    have hcond : ¬(1 ≤ i ∧ i < k.nrSyscalls ∧
        ((run k entries events).table i).intercepted ≠ 0) := fun hc => hc.2.2 hzero
    have hhook : ¬(i = k.nrExitGroup ∧ ((run k entries events).table i).intercepted = 1) :=
      fun hc => hint hc.2
    rw [if_neg hcond, if_neg hhook]
    by_cases hexit : i = k.nrExitGroup
    · rw [if_pos hexit, h.origExitGroup, hexit]
    · rw [if_neg hexit]
      by_cases hcustom : i = MY_CUSTOM_SYSCALL
      · rw [if_pos hcustom, h.origCustomSyscall, hcustom]
      · rw [if_neg hcustom, h.notIntercepted i hzero]
        simp [hooked, initFunction, hexit, hcustom]

/-- Unloading restores the whole system call table if and only if `exit_group` is not intercepted
at that moment. -/
theorem exitFunction_restores_iff (k : Kernel) (entries : Nat → Nat) (events : List Event) :
    (∀ i, (exitFunction k (run k entries events)).sysCallTable i = .outside (entries i)) ↔
      ((run k entries events).table k.nrExitGroup).intercepted = 0 := by
  have hrow := (run_wellFormed k entries events).row k.nrExitGroup
  simp only [exitFunction_sysCallTable]
  constructor
  · intro h
    rcases hrow.intercepted with h0 | h1
    · exact h0
    · have := h k.nrExitGroup
      simp [h1] at this
  · intro h0 i
    rw [if_neg]
    rintro ⟨rfl, h1⟩
    omega

/-- Intercepting `exit_group` and unloading leaves its entry pointing into the module. -/
theorem exitFunction_leaves_hook :
    let k : Kernel := ⟨337, 252, by decide, by decide⟩
    let root : Caller := ⟨1000, 0, fun _ => some 0, true, rfl⟩
    let events : List Event := [.request root REQUEST_SYSCALL_INTERCEPT 252 0]
    (exitFunction k (run k id events)).sysCallTable 252 = .myExitGroup ∧
    ¬∀ i, (exitFunction k (run k id events)).sysCallTable i = .outside (id i) := by
  refine ⟨?_, ?_⟩
  · rw [exitFunction_sysCallTable]; decide
  · intro h
    have h252 := h 252
    rw [exitFunction_sysCallTable] at h252
    exact absurd h252 (by decide)

end Interceptor

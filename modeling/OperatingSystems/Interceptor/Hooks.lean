-- SUMMARY: The system call table agrees with the intercepted flags whenever both locks are free, under any interleaving.
import OperatingSystems.Interceptor.Exclusion
import OperatingSystems.Interceptor.Unload

/-!
# The hijacked entries

A request to intercept a call gives up `my_table_lock` before it writes the entry, so the flag of
the row runs ahead of the system call table. A release of the same call may start in between: it
waits for `sys_call_table_lock` with the flag already cleared. The invariant reads the entry as the
one that is about to be written, and says for each place of a request what is still to be done.
-/

namespace Interceptor

open Library Library.Run Library.Threads

variable {T : Type} {k : Kernel} {invoke : Handler → PtRegs → Int} {w w' : World} {c next : Pc}
  {i n : Nat}

/-! ## What a step does to the hooks -/

/-- What is recorded of a call: its flag, the saved handler, and the entry. -/
structure Hook where
  intercepted : Int
  f : Handler
  entry : Handler

def World.hook (w : World) (i : Nat) : Hook :=
  { intercepted := (w.row i).intercepted, f := (w.row i).f, entry := w.entry i }

/-- The places of a request where something is known about the row, or still to be done. -/
def Pc.Busy : Pc → Prop
  | .interceptMark => True
  | .interceptLockSys => True
  | .interceptSave => True
  | .interceptUnlock => True
  | .interceptHijack => True
  | .releaseClear => True
  | .releaseDestroy => True
  | .releaseLockSys => True
  | .releaseRestore => True
  | _ => False

/-- The steps of a call from a place to the next one, with the hook of its number before and
afterwards. -/
inductive HookStep (x : Hook) : Pc → Pc → Hook → Prop
  | quiet {c next : Pc} : ¬c.Busy → ¬next.Busy → HookStep x c next x
  | interceptCheck : x.intercepted ≠ 1 → HookStep x .interceptCheck .interceptMark x
  | interceptMark : HookStep x .interceptMark .interceptLockSys { x with intercepted := 1 }
  | interceptLockSys : HookStep x .interceptLockSys .interceptSave x
  | interceptSave : HookStep x .interceptSave .interceptUnlock { x with f := x.entry }
  | interceptUnlock : HookStep x .interceptUnlock .interceptHijack x
  | interceptHijack :
      HookStep x .interceptHijack .interceptUnlockSys { x with entry := .interceptor }
  | releaseCheck : x.intercepted ≠ 0 → HookStep x .releaseCheck .releaseClear x
  | releaseClear : HookStep x .releaseClear .releaseDestroy { x with intercepted := 0 }
  | releaseDestroy : HookStep x .releaseDestroy .releaseLockSys x
  | releaseLockSys : HookStep x .releaseLockSys .releaseRestore x
  | releaseRestore : HookStep x .releaseRestore .releaseUnlock { x with entry := x.f }

/-- The hook of one number takes a step, and the others stay as they are. -/
def HookMove (n : Nat) (w : World) (c next : Pc) (w' : World) : Prop :=
  ∃ x, w'.hook = Function.update w.hook n x ∧ HookStep (w.hook n) c next x

theorem HookMove.of_eq (hhook : w'.hook = w.hook) (hstep : HookStep (w.hook n) c next (w.hook n)) :
    HookMove n w c next w' :=
  ⟨_, by rw [hhook, Function.update_eq_self], hstep⟩

theorem hook_setRow_eq {t : MyTable} : (w.setRow n t).hook =
    Function.update w.hook n { w.hook n with intercepted := t.intercepted, f := t.f } := by
  funext i
  by_cases hi : i = n
  · subst hi
    simp [World.hook]
  · simp [World.hook, hi]

/-- An edit of a row that leaves its flag and its handler alone. -/
theorem hook_setRow {t : MyTable} (h : (w.row n).SameCall t) : (w.setRow n t).hook = w.hook := by
  rw [hook_setRow_eq, h.f, h.intercepted]
  exact Function.update_eq_self n w.hook

theorem hook_setEntry {h : Handler} :
    (w.setEntry n h).hook = Function.update w.hook n { w.hook n with entry := h } := by
  funext i
  by_cases hi : i = n
  · subst hi
    simp [World.hook]
  · simp [World.hook, hi]

namespace MyTable.SameCall

variable {t : MyTable} {pid : Pid}

theorem refl (t : MyTable) : t.SameCall t := ⟨rfl, rfl⟩

theorem delPidSysc (pid : Pid) (t : MyTable) : t.SameCall (delPidSysc pid t).2 := by
  unfold Interceptor.delPidSysc
  split
  · exact sameCall_unlink
  · exact .refl t

theorem delPidLoop (pid : Pid) (rest : List Pid) (t : MyTable) :
    t.SameCall (delPidLoop pid rest t) := by
  induction rest generalizing t with
  | nil => exact .refl t
  | cons p rest ih =>
    rw [Interceptor.delPidLoop]
    split
    · have hrest := ih (t.unlink pid)
      exact ⟨hrest.f.trans unlink_f, hrest.intercepted.trans unlink_intercepted⟩
    · exact ih t

theorem delPidRow (pid : Pid) (t : MyTable) : t.SameCall (delPidRow pid t) :=
  .delPidLoop pid t.myList t

theorem destroyList (t : MyTable) : t.SameCall (destroyList t) := ⟨rfl, rfl⟩

theorem startBlacklist (pid : Pid) (t : MyTable) : t.SameCall (startBlacklist pid t).2 := by
  unfold Interceptor.startBlacklist
  split
  · exact .refl t
  · exact .delPidSysc pid t

theorem startList (kmalloc : Bool) (pid : Pid) (t : MyTable) :
    t.SameCall (startList kmalloc pid t).2 := by
  cases kmalloc
  all_goals
    simp only [Interceptor.startList, addPidSysc_true, addPidSysc_false]
    repeat' split
    all_goals exact ⟨rfl, rfl⟩

theorem startNone (kmalloc : Bool) (pid : Pid) (t : MyTable) :
    t.SameCall (startNone kmalloc pid t).2 := by
  cases kmalloc
  all_goals
    simp only [Interceptor.startNone, addPidSysc_true, addPidSysc_false]
    repeat' split
    all_goals exact ⟨rfl, rfl⟩

theorem stopList (pid : Pid) (t : MyTable) : t.SameCall (stopList pid t).2 := by
  unfold Interceptor.stopList
  split
  · exact .refl t
  · exact .delPidSysc pid t

theorem stopBlacklist (kmalloc : Bool) (pid : Pid) (t : MyTable) :
    t.SameCall (stopBlacklist kmalloc pid t).2 := by
  cases kmalloc
  all_goals
    simp only [Interceptor.stopBlacklist, addPidSysc_true, addPidSysc_false]
    repeat' split
    all_goals exact ⟨rfl, rfl⟩

end MyTable.SameCall

theorem not_busy_checked (k : Kernel) (c : Caller) (cmd syscall pid : Int) :
    ¬(checked k c cmd syscall pid).Busy := by
  unfold checked
  repeat' split
  all_goals exact id

section

variable {pid : Pid} {uid : Nat} {kmalloc : Bool} {cmd syscall : Int}

theorem hookMove_mySyscall {current : Pid}
    (h : (mySyscallCode k current uid kmalloc cmd syscall pid c).Effect w next w') :
    HookMove syscall.toNat w c next w' := by
  have hedit : ∀ {f : MyTable → Int × MyTable} {pc : Pc}, ¬pc.Busy →
      (∀ t : MyTable, t.SameCall (f t).2) → (editReturn syscall.toNat f).Effect w next w' →
      HookMove syscall.toNat w pc next w' := by
    intro f pc hpc hf heffect
    cases heffect
    exact .of_eq (hook_setRow (hf _)) (.quiet hpc id)
  have hbranch : ∀ {f : World → Pc} {pc : Pc}, ¬pc.Busy → ¬(f w).Busy →
      (branch f).Effect w next w' → HookMove syscall.toNat w pc next w' := by
    intro f pc hpc hf heffect
    cases heffect
    exact .of_eq rfl (.quiet hpc hf)
  cases c with
  | start =>
    obtain ⟨rfl, _, rfl⟩ := checked_of_effect_start h
    exact .of_eq rfl (.quiet id (not_busy_checked _ _ _ _ _))
  | interceptCheck =>
    cases h
    dsimp only
    split
    · exact .of_eq rfl (.quiet id id)
    · exact .of_eq rfl (.interceptCheck ‹_›)
  | interceptMark =>
    cases h
    exact ⟨_, hook_setRow_eq, .interceptMark⟩
  | interceptSave =>
    cases h
    exact ⟨_, hook_setRow_eq, .interceptSave⟩
  | interceptHijack =>
    cases h
    exact ⟨_, hook_setEntry, .interceptHijack⟩
  | releaseCheck =>
    cases h
    dsimp only
    split
    · exact .of_eq rfl (.quiet id id)
    · exact .of_eq rfl (.releaseCheck ‹_›)
  | releaseClear =>
    cases h
    exact ⟨_, hook_setRow_eq, .releaseClear⟩
  | releaseDestroy =>
    cases h
    exact .of_eq (hook_setRow (.destroyList _)) .releaseDestroy
  | releaseRestore =>
    cases h
    exact ⟨_, hook_setEntry, .releaseRestore⟩
  | startCheck =>
    refine hbranch id ?_ h
    split <;> exact id
  | startMonitored =>
    refine hbranch id ?_ h
    repeat' split
    all_goals exact id
  | stopMonitored =>
    refine hbranch id ?_ h
    repeat' split
    all_goals exact id
  | startBlacklist => exact hedit id (.startBlacklist pid) h
  | startList => exact hedit id (.startList kmalloc pid) h
  | startNone => exact hedit id (.startNone kmalloc pid) h
  | stopList => exact hedit id (.stopList pid) h
  | stopBlacklist => exact hedit id (.stopBlacklist kmalloc pid) h
  | interceptLockSys =>
    obtain ⟨rfl, rfl⟩ := h
    exact .of_eq rfl .interceptLockSys
  | interceptUnlock =>
    obtain ⟨rfl, rfl⟩ := h
    exact .of_eq rfl .interceptUnlock
  | releaseLockSys =>
    obtain ⟨rfl, rfl⟩ := h
    exact .of_eq rfl .releaseLockSys
  | interceptLock | interceptUnlockSys | releaseLock | releaseUnlock | releaseUnlockSys
  | startLock | stopLock | unlockReturn =>
    obtain ⟨rfl, rfl⟩ := h
    exact .of_eq rfl (.quiet id id)
  | interceptorLock | interceptorMonitored | interceptorUnlock | interceptorCall | exitLoop
  | exitRow | exitCall | returned => exact h.elim

end

/-- A call changes the hook of its own number only, and where it stands says how. -/
theorem hookMove_of_effect {call : Call} (h : (call.code k invoke c).Effect w next w') :
    HookMove call.number w c next w' := by
  cases call with
  | mySyscall current uid kmalloc cmd syscall pid => exact hookMove_mySyscall h
  | interceptor current reg =>
    cases c with
    | start =>
      cases h
      exact .of_eq rfl (.quiet id id)
    | interceptorLock | interceptorUnlock =>
      obtain ⟨rfl, rfl⟩ := h
      exact .of_eq rfl (.quiet id id)
    | interceptorMonitored =>
      cases h
      split <;> exact .of_eq rfl (.quiet id id)
    | interceptorCall =>
      cases h
      exact .of_eq rfl (.quiet id id)
    | _ => exact h.elim
  | myExitGroup current status =>
    cases c with
    | start =>
      cases h
      exact .of_eq rfl (.quiet id id)
    | exitLoop s =>
      cases h
      dsimp only
      split <;> exact .of_eq rfl (.quiet id id)
    | exitRow s =>
      cases h
      exact .of_eq (hook_setRow (.delPidRow current _)) (.quiet id id)
    | exitCall =>
      cases h
      exact .of_eq rfl (.quiet id id)
    | _ => exact h.elim

/-! ## The invariant -/

/-- Nothing is left to do for a call with entry `o` before it was intercepted; `b` says that the
entry is just about to be written. -/
inductive Settled (o : Handler) (b : Prop) (x : Hook) : Prop
  | hooked : x.intercepted = 1 → x.f = o → x.entry = .interceptor ∨ b → Settled o b x
  | unhooked : x.intercepted = 0 → x.entry = o → ¬b → x.f = .null ∨ x.f = o → Settled o b x

/-- What a request knows about the call at each of its places. -/
def At (o : Handler) (b : Prop) (x : Hook) : Pc → Prop
  | .interceptMark => x.intercepted = 0
  | .interceptLockSys => x.intercepted = 1 ∧ x.entry = o ∧ ¬b ∧ (x.f = .null ∨ x.f = o)
  | .interceptSave => x.intercepted = 1 ∧ x.entry = o ∧ ¬b ∧ (x.f = .null ∨ x.f = o)
  | .interceptUnlock => x.intercepted = 1 ∧ x.f = o
  | .releaseClear => x.intercepted = 1
  | .releaseDestroy => x.intercepted = 0 ∧ x.f = o ∧ (x.entry = .interceptor ∨ b)
  | .releaseLockSys => x.intercepted = 0 ∧ x.f = o ∧ (x.entry = .interceptor ∨ b)
  | .releaseRestore => x.intercepted = 0 ∧ x.f = o
  | _ => True

/-- The places where something is left to do under `my_table_lock`. -/
def Pc.Unsettled : Pc → Prop
  | .interceptLockSys => True
  | .interceptSave => True
  | .interceptUnlock => True
  | .releaseDestroy => True
  | .releaseLockSys => True
  | .releaseRestore => True
  | _ => False

theorem Pc.Unsettled.busy (h : c.Unsettled) : c.Busy := by
  cases c <;> first | exact trivial | exact h

theorem Pc.Unsettled.holds (h : c.Unsettled) : holds c .myTable := by
  cases c <;> first | exact trivial | exact rfl | exact h.elim

theorem at_of_not_holds {o : Handler} {b : Prop} {x : Hook} (h : ¬holds c .myTable) :
    At o b x c := by
  cases c <;> first | exact trivial | exact absurd rfl h | exact absurd trivial h

theorem at_of_not_busy {o : Handler} {b : Prop} {x : Hook} (h : ¬c.Busy) : At o b x c := by
  cases c <;> first | exact trivial | exact absurd trivial h

/-- The hook of a number fits the places where the calls about it are. -/
structure Coherent (o : Handler) (x : Hook) (A : Pc → Prop) : Prop where
  at_ : ∀ c, A c → At o (A .interceptHijack) x c
  settled : (∀ c, A c → ¬c.Unsettled) → Settled o (A .interceptHijack) x

/-- The places of a call and of others. -/
def With (c : Pc) (B : Pc → Prop) (d : Pc) : Prop := d = c ∨ B d

section

variable {o : Handler} {x x' : Hook} {B : Pc → Prop}

theorem with_hijack (hc : c ≠ .interceptHijack) :
    With c B .interceptHijack = B .interceptHijack := by
  simp [With, hc.symm]

/-- What a call with `my_table_lock` finds when nothing is left to do. -/
theorem Coherent.settled_of_holds (h : Coherent o x (With c B)) (hc : ¬c.Unsettled)
    (hne : c ≠ .interceptHijack) (hothers : ∀ d, B d → ¬holds d .myTable) :
    Settled o (B .interceptHijack) x := by
  rw [← with_hijack (B := B) hne]
  refine h.settled ?_
  rintro d (rfl | hd) hun
  · exact hc hun
  · exact hothers d hd hun.holds

/-- What a call with `my_table_lock` leaves: the others know nothing about the row. -/
theorem Coherent.of_holds (hothers : ∀ d, B d → ¬holds d .myTable)
    (hat : At o (With next B .interceptHijack) x' next)
    (hsettled : ¬next.Unsettled → Settled o (With next B .interceptHijack) x') :
    Coherent o x' (With next B) where
  at_ := by
    rintro d (rfl | hd)
    · exact hat
    · exact at_of_not_holds (hothers d hd)
  settled hnone := hsettled (hnone next (.inl rfl))

/-- What it leaves when its work on the row is done. -/
theorem Coherent.of_settled (hothers : ∀ d, B d → ¬holds d .myTable)
    (hne : next ≠ .interceptHijack) (hat : At o (B .interceptHijack) x' next)
    (hsettled : Settled o (B .interceptHijack) x') : Coherent o x' (With next B) :=
  .of_holds hothers (by rwa [with_hijack hne]) fun _ => by rwa [with_hijack hne]

/-- What it leaves in the middle of its work. -/
theorem Coherent.of_unsettled (hothers : ∀ d, B d → ¬holds d .myTable)
    (hne : next ≠ .interceptHijack) (hun : next.Unsettled)
    (hat : At o (B .interceptHijack) x' next) : Coherent o x' (With next B) :=
  .of_holds hothers (by rwa [with_hijack hne]) fun hn => absurd hun hn

/-- The step keeps the hook coherent. -/
theorem Coherent.step (h : Coherent o x (With c B)) (hstep : HookStep x c next x')
    (htable : holds c .myTable → ∀ d, B d → ¬holds d .myTable)
    (hsys : holds c .sysCallTable → ∀ d, B d → ¬holds d .sysCallTable) :
    Coherent o x' (With next B) := by
  have hat := h.at_ c (.inl rfl)
  cases hstep with
  | quiet hc hnext =>
    have hb : ∀ {d : Pc}, ¬d.Busy → With d B .interceptHijack = B .interceptHijack :=
      fun hd => with_hijack fun heq => hd (heq ▸ trivial)
    refine ⟨?_, ?_⟩
    · rintro d (rfl | hd)
      · exact at_of_not_busy hnext
      · rw [hb hnext, ← hb hc]
        exact h.at_ d (.inr hd)
    · intro hnone
      rw [hb hnext, ← hb hc]
      refine h.settled ?_
      rintro d (rfl | hd)
      · exact fun hun => hc hun.busy
      · exact hnone d (.inr hd)
  | interceptCheck hint =>
    have hsettled := h.settled_of_holds id (by decide) (htable rfl)
    refine .of_settled (htable rfl) (by decide) ?_ hsettled
    cases hsettled with
    | hooked h1 => exact absurd h1 hint
    | unhooked h0 => exact h0
  | interceptMark =>
    refine .of_unsettled (htable rfl) (by decide) trivial ?_
    cases h.settled_of_holds id (by decide) (htable rfl) with
    | hooked h1 => cases hat.symm.trans h1
    | unhooked _ hentry hb hf => exact ⟨rfl, hentry, hb, hf⟩
  | interceptLockSys =>
    rw [with_hijack (by decide)] at hat
    exact .of_unsettled (htable rfl) (by decide) trivial hat
  | interceptSave =>
    exact .of_unsettled (htable trivial) (by decide) trivial ⟨hat.1, hat.2.1⟩
  | interceptUnlock =>
    exact .of_holds (htable trivial) trivial fun _ => .hooked hat.1 hat.2 (.inr (.inl rfl))
  | interceptHijack =>
    -- The entry was read as written already; now it is, and no other request is about to.
    have hnone : ¬B .interceptHijack := fun hB => hsys rfl _ hB rfl
    have hb : With .interceptHijack B .interceptHijack := .inl rfl
    refine ⟨?_, ?_⟩
    · rintro d (rfl | hd)
      · exact trivial
      · have hold := h.at_ d (.inr hd)
        cases d with
        | interceptLockSys | interceptSave => exact absurd hb hold.2.2.1
        | releaseDestroy | releaseLockSys => exact ⟨hold.1, hold.2.1, .inl rfl⟩
        | interceptMark | interceptUnlock | releaseClear | releaseRestore => exact hold
        | _ => exact trivial
    · intro hdone
      have hsettled := h.settled ?_
      · cases hsettled with
        | hooked h1 hf _ => exact .hooked h1 hf (.inl rfl)
        | unhooked _ _ hno => exact absurd hb hno
      · rintro d (rfl | hd)
        · exact id
        · exact hdone d (.inr hd)
  | releaseCheck hint =>
    have hsettled := h.settled_of_holds id (by decide) (htable rfl)
    refine .of_settled (htable rfl) (by decide) ?_ hsettled
    cases hsettled with
    | hooked h1 => exact h1
    | unhooked h0 => exact absurd h0 hint
  | releaseClear =>
    refine .of_unsettled (htable rfl) (by decide) trivial ?_
    cases h.settled_of_holds id (by decide) (htable rfl) with
    | hooked _ hf hentry => exact ⟨rfl, hf, hentry⟩
    | unhooked h0 => cases hat.symm.trans h0
  | releaseDestroy =>
    rw [with_hijack (by decide)] at hat
    exact .of_unsettled (htable rfl) (by decide) trivial hat
  | releaseLockSys =>
    exact .of_unsettled (htable rfl) (by decide) trivial ⟨hat.1, hat.2.1⟩
  | releaseRestore =>
    refine .of_settled (htable trivial) (by decide) trivial ?_
    exact .unhooked hat.1 hat.2 (fun hB => hsys trivial _ hB rfl) (.inr hat.2)

end

/-! ## Runs -/

/-- The places of the calls about a number. -/
def places (call : T → Call) (s : State T) (i : Nat) (c : Pc) : Prop :=
  ∃ t, (call t).number = i ∧ s.pc t = c

/-- No handler called so far is `interceptor`. -/
def NoLoop (w : World) : Prop := ∀ x ∈ w.calls, x.1 ≠ .interceptor

/-- Every hook fits the calls under way, and the saved handlers are the old entries. -/
structure Agreed (o : Nat → Handler) (call : T → Call) (s : State T) : Prop where
  coherent : ∀ i, Coherent (o i) (s.mem.hook i) (places call s i)
  saved : ∀ i, (s.mem.row i).f = .null ∨ (s.mem.row i).f = o i
  noLoop : NoLoop s.mem

theorem hooked_ne_interceptor (k : Kernel) (entries : Nat → Nat) (i : Nat) :
    hooked k entries i ≠ .interceptor := by
  simp only [hooked, initFunction, Function.update_apply]
  repeat' split
  all_goals exact fun h => by cases h

section

variable {o : Handler} {x x' : Hook} {b : Prop}

/-- The handler is only ever saved while the entry is the old one. -/
theorem HookStep.f_cases (h : HookStep x c next x') (hat : At o b x c) : x'.f = x.f ∨ x'.f = o := by
  cases h with
  | interceptSave => exact .inr hat.2.1
  | _ => exact .inl rfl

/-- Once the entry is `interceptor`, the old one has been saved. -/
theorem Coherent.f_of_entry {A : Pc → Prop} (h : Coherent o x A) (ho : o ≠ .interceptor)
    (hentry : x.entry = .interceptor) : x.f = o := by
  by_cases hdone : ∀ c, A c → ¬c.Unsettled
  · cases h.settled hdone with
    | hooked _ hf => exact hf
    | unhooked _ hold => exact absurd (hold.symm.trans hentry) ho
  · push Not at hdone
    obtain ⟨c, hc, hun⟩ := hdone
    have hat := h.at_ c hc
    cases c with
    | interceptLockSys | interceptSave => exact absurd (hat.2.1.symm.trans hentry) ho
    | interceptUnlock | releaseRestore => exact hat.2
    | releaseDestroy | releaseLockSys => exact hat.2.1
    | _ => exact hun.elim

end

/-- What `interceptor` calls is the saved handler; nothing else calls a handler. -/
theorem calls_of_effect {call : Call} (h : (call.code k invoke c).Effect w next w') :
    w'.calls = w.calls ∨ ∃ reg, w'.calls = w.calls ++ [((w.row reg.ax).f, reg)] := by
  cases call with
  | mySyscall current uid kmalloc cmd syscall pid =>
    refine .inl ?_
    cases c
    case start =>
      exact congrArg World.calls (checked_of_effect_start h).1
    all_goals
      first
      | exact h.elim
      | exact congrArg World.calls h.2
      | cases h; rfl
  | interceptor current reg =>
    cases c with
    | start =>
      cases h
      exact .inl rfl
    | interceptorLock | interceptorUnlock => exact .inl (congrArg World.calls h.2)
    | interceptorMonitored =>
      cases h
      split <;> exact .inl rfl
    | interceptorCall =>
      cases h
      exact .inr ⟨reg, rfl⟩
    | _ => exact h.elim
  | myExitGroup current status =>
    refine .inl ?_
    cases c
    all_goals
      first
      | exact h.elim
      | cases h; rfl

section

variable {call : T → Call} {s s' : State T} {t : T} {o : Nat → Handler}

theorem places_eq_with (t : T) :
    places call s (call t).number =
      With (s.pc t) fun c => ∃ u, u ≠ t ∧ (call u).number = (call t).number ∧ s.pc u = c := by
  funext c
  refine propext ⟨?_, ?_⟩
  · rintro ⟨u, hnum, hu⟩
    by_cases hut : u = t
    · subst hut
      exact .inl hu.symm
    · exact .inr ⟨u, hut, hnum, hu⟩
  · rintro (rfl | ⟨u, _, hnum, hu⟩)
    · exact ⟨t, rfl, rfl⟩
    · exact ⟨u, hnum, hu⟩

theorem agreed_start (k : Kernel) (entries : Nat → Nat) (call : T → Call)
    (owner : Pid → Option Nat) :
    Agreed (hooked k entries) call (start T (loaded k entries owner)) where
  coherent i := by
    have hstart : ∀ c, places call (start T (loaded k entries owner)) i c → c = .start :=
      fun c ⟨_, _, hc⟩ => hc.symm
    refine ⟨fun c hc => ?_, fun _ => ?_⟩
    · rw [hstart c hc]
      trivial
    · refine .unhooked rfl rfl (fun hb => ?_) (.inl rfl)
      cases hstart _ hb
  saved _ := .inl rfl
  noLoop _ hx := by cases hx

/-- The step: one call moves, on the hook of its own number. -/
theorem Agreed.stepped (h : Agreed o call s) (ho : ∀ i, o i ≠ .interceptor)
    (howned : Owned (code k invoke call) (fun _ => holds) s)
    (hstep : Stepped (code k invoke call) s s' t) : Agreed o call s' := by
  obtain ⟨x, hhook, hmove⟩ := hookMove_of_effect hstep.effect
  have hothers : ∀ l : Lock, holds (s.pc t) l →
      ∀ c, (∃ u, u ≠ t ∧ (call u).number = (call t).number ∧ s.pc u = c) → ¬holds c l := by
    rintro l ht c ⟨u, hut, _, rfl⟩ hu
    exact hut (howned.unique hu ht)
  have hcoherent := h.coherent (call t).number
  rw [places_eq_with] at hcoherent
  have hrow : ∀ i, s'.mem.hook i = if i = (call t).number then x else s.mem.hook i := by
    intro i
    rw [hhook, Function.update_apply]
  refine ⟨fun i => ?_, fun i => ?_, ?_⟩
  · by_cases hi : i = (call t).number
    · subst hi
      rw [hrow, if_pos rfl, places_eq_with]
      have hrest : (fun c => ∃ u, u ≠ t ∧ (call u).number = (call t).number ∧ s'.pc u = c) =
          fun c => ∃ u, u ≠ t ∧ (call u).number = (call t).number ∧ s.pc u = c := by
        funext c
        refine propext (exists_congr fun u => and_congr_right fun hut => ?_)
        rw [hstep.others u hut]
      rw [hrest]
      exact hcoherent.step hmove (hothers .myTable) (hothers .sysCallTable)
    · rw [hrow, if_neg hi]
      have hsame : places call s' i = places call s i := by
        funext c
        refine propext (exists_congr fun u => and_congr_right fun hnum => ?_)
        rw [hstep.others u (by rintro rfl; exact hi hnum.symm)]
      rw [hsame]
      exact h.coherent i
  · change (s'.mem.hook i).f = _ ∨ (s'.mem.hook i).f = _
    rw [hrow]
    split
    case isTrue hi =>
      subst hi
      rcases hmove.f_cases (hcoherent.at_ _ (.inl rfl)) with hf | hf
      · rw [hf]
        exact h.saved _
      · exact .inr hf
    case isFalse => exact h.saved i
  · intro y hy
    rcases calls_of_effect hstep.effect with hcalls | ⟨reg, hcalls⟩
    · rw [hcalls] at hy
      exact h.noLoop y hy
    · rw [hcalls, List.mem_append, List.mem_singleton] at hy
      rcases hy with hy | rfl
      · exact h.noLoop y hy
      · rcases h.saved reg.ax with hf | hf
        · rw [hf]
          exact fun heq => by cases heq
        · rw [hf]
          exact ho _

/-- A saved handler is not saved over. -/
theorem Agreed.f_stepped (h : Agreed o call s) (hstep : Stepped (code k invoke call) s s' t)
    {i : Nat} (hf : (s.mem.row i).f = o i) : (s'.mem.row i).f = o i := by
  obtain ⟨x, hhook, hmove⟩ := hookMove_of_effect hstep.effect
  change (s'.mem.hook i).f = _
  rw [hhook, Function.update_apply]
  split
  case isTrue hi =>
    subst hi
    rcases hmove.f_cases ((h.coherent _).at_ _ ⟨t, rfl, rfl⟩) with hx | hx
    · exact hx.trans hf
    · exact hx
  case isFalse => exact hf

/-- Without `my_table_lock` held nothing is left to do under it. -/
theorem Agreed.settled (h : Agreed o call s)
    (howned : Owned (code k invoke call) (fun _ => holds) s) (hfree : s.owner .myTable = none) (i : Nat) :
    Settled (o i) (places call s i .interceptHijack) (s.mem.hook i) := by
  refine (h.coherent i).settled ?_
  rintro c ⟨t, _, rfl⟩ hun
  have hheld := howned.owner_iff.mpr hun.holds
  rw [hfree] at hheld
  cases hheld

end

/-- In every interleaving, when both locks are free the entry of a call is `interceptor` exactly if
its flag is 1, and otherwise the entry from before. A call that has been intercepted keeps this
entry as its handler, no handler is ever `interceptor`, and so `interceptor` never calls itself. -/
theorem hooks_coherent [DecidableEq T] [Fintype T] (k : Kernel) (invoke : Handler → PtRegs → Int)
    (call : T → Call) (entries : Nat → Nat) (owner : Pid → Option Nat) {order : List T}
    {s : State T} (hrun : runCalls k invoke call (loaded k entries owner) order = .ok s) :
    ((∀ l, s.owner l = none) → ∀ i,
      (s.mem.entry i = .interceptor ↔ (s.mem.row i).intercepted = 1) ∧
      ((s.mem.row i).intercepted ≠ 1 → s.mem.entry i = hooked k entries i)) ∧
    (∀ i, s.mem.entry i = .interceptor ∨
        s.owner .myTable = none ∧ (s.mem.row i).intercepted = 1 →
      ∀ more s', runCalls k invoke call (loaded k entries owner) (order ++ more) = .ok s' →
        (s'.mem.row i).f = hooked k entries i) ∧
    (∀ i, (s.mem.row i).f ≠ .interceptor) ∧ ∀ x ∈ s.mem.calls, x.1 ≠ .interceptor := by
  have ho := hooked_ne_interceptor k entries
  obtain ⟨howned, hagreed⟩ := exec_turns_of_forall (I := Agreed (hooked k entries) call)
    (discipline k invoke call) (owned_start _) (agreed_start k entries call owner)
    (fun _ _ _ howned hI hstep => hI.stepped ho howned hstep) hrun
  refine ⟨fun hfree i => ?_, fun i hi more s' hmore => ?_, fun i => ?_, hagreed.noLoop⟩
  · have hb : ¬places call s i .interceptHijack := by
      rintro ⟨t, _, ht⟩
      have hheld := howned.owner_iff (t := t) (m := .sysCallTable)
      rw [hfree, ht] at hheld
      cases hheld.mpr rfl
    cases hagreed.settled howned (hfree .myTable) i with
    | hooked h1 _ hentry =>
      exact ⟨iff_of_true (hentry.resolve_right hb) h1, fun hne => absurd h1 hne⟩
    | unhooked h0 hentry =>
      refine ⟨iff_of_false (fun heq => ho i (hentry.symm.trans heq)) ?_, fun _ => hentry⟩
      exact fun h1 => by cases h0.symm.trans h1
  · have hf : (s.mem.row i).f = hooked k entries i := by
      rcases hi with hentry | ⟨hfree, h1⟩
      · exact (hagreed.coherent i).f_of_entry (ho i) hentry
      · cases hagreed.settled howned hfree i with
        | hooked _ hf => exact hf
        | unhooked h0 => cases h0.symm.trans h1
    rw [runCalls, exec_append_of_ok hrun] at hmore
    exact (exec_turns_of_forall
      (I := fun s => Agreed (hooked k entries) call s ∧ (s.mem.row i).f = hooked k entries i)
      (discipline k invoke call) howned ⟨hagreed, hf⟩
      (fun _ _ _ howned hI hstep => ⟨hI.1.stepped ho howned hstep, hI.1.f_stepped hstep hI.2⟩)
      hmore).2.2
  · rcases hagreed.saved i with hf | hf
    · rw [hf]
      exact fun heq => by cases heq
    · rw [hf]
      exact ho i

/-- The superuser intercepts call 5 and releases it. -/
def interceptAndRelease : Bool → Call
  | false => .mySyscall 1000 0 true REQUEST_SYSCALL_INTERCEPT 5 0
  | true => .mySyscall 1000 0 true REQUEST_SYSCALL_RELEASE 5 0

/-- The release begins before the entry is written, and waits for `sys_call_table_lock`. -/
theorem hooks_coherent_window :
    ∃ s, runCalls i386 (fun _ _ => 0) interceptAndRelease (loaded i386 id root.owner)
        [false, false, false, false, false, false, false, true, true, true, true, true, false, false,
          true, true, true, true] = .ok s ∧
      s.pc false = .returned 0 ∧ s.pc true = .returned 0 ∧
      (s.mem.entry 5 = .interceptor ↔ (s.mem.row 5).intercepted = 1) ∧
      s.mem.entry 5 = hooked i386 id 5 ∧ (s.mem.row 5).f = hooked i386 id 5 ∧
      ∀ x ∈ s.mem.calls, x.1 ≠ .interceptor := by
  have hrun := @hooks_coherent Bool _ _ i386 (fun _ _ => 0) interceptAndRelease id root.owner
    [false, false, false, false, false, false, false, true, true, true, true, true, false, false,
      true, true, true, true] _ rfl
  -- The entry has just been written, with the flag cleared already.
  have hhijack := @hooks_coherent Bool _ _ i386 (fun _ _ => 0) interceptAndRelease id root.owner
    [false, false, false, false, false, false, false, true, true, true, true, true, false] _ rfl
  have hlocks := hrun.1 (fun l => by cases l <;> rfl) 5
  have hsaved := hhijack.2.1 5 (.inl rfl) [false, true, true, true, true] _ rfl
  exact ⟨_, rfl, rfl, rfl, hlocks.1, hlocks.2 (by decide), hsaved, hrun.2.2.2⟩

end Interceptor

-- SUMMARY: Concurrent requests and intercepted calls take effect one at a time, in an order that every later call respects.
import OperatingSystems.Interceptor.Hooks

/-!
# Linearization

A request takes effect when it gives up `my_table_lock`, or when its checks turn it away. A request
to intercept a call still has its entry to write then, so the system call table is read as if that
were done. What has been said of the requests one at a time thus holds of requests that interleave.
-/

namespace Interceptor

open Library Library.Run Library.Threads

variable {T : Type} {k : Kernel} {invoke : Handler → PtRegs → Int} {w w' : World} {c next : Pc}

/-! ## One call at a time -/

/-- The world without the record of the handlers called. -/
def World.bare (w : World) : World := { w with calls := [] }

/-- What a call does while no other one is under way: its result, and the world afterwards. A
process that is not there makes no request. -/
def atomically (k : Kernel) (invoke : Handler → PtRegs → Int) (call : Call) (w : World) :
    Option (Int × World) :=
  match call with
  | .mySyscall current uid kmalloc cmd syscall pid =>
    (w.caller current uid kmalloc).map fun c =>
      ((mySyscall k c cmd syscall pid w.module).1,
        { w with module := (mySyscall k c cmd syscall pid w.module).2 })
  | .interceptor current reg =>
    some ((interceptor invoke current reg w.module).result,
      { w with log := w.log ++ (interceptor invoke current reg w.module).log })
  | .myExitGroup current status =>
    some (status,
      { w with
        module := (myExitGroup k current status w.module).1
        owner := Function.update w.owner current none })

/-- Calls made one at a time from a world on, with their results, and the world they leave. -/
inductive Serial (k : Kernel) (invoke : Handler → PtRegs → Int) (call : T → Call) (w₀ : World) :
    List (T × Int) → World → Prop
  | nil : Serial k invoke call w₀ [] w₀
  | concat {lin : List (T × Int)} {w w' : World} {t : T} {r : Int} :
      Serial k invoke call w₀ lin w → atomically k invoke (call t) w = some (r, w') →
      Serial k invoke call w₀ (lin ++ [(t, r)]) w'

/-! ## What is still to be written -/

/-- The number of the call whose entry is about to be written. -/
def pending (call : T → Call) (s : State T) : Option Nat :=
  (s.owner .sysCallTable).bind fun u =>
    if s.pc u = .interceptHijack then some (call u).number else none

/-- The world as if that entry were written, without the record of the handlers called. -/
def World.settle (p : Option Nat) (w : World) : World :=
  match p with
  | none => w.bare
  | some i => w.bare.setEntry i .interceptor

/-- What is done to a row is done to the settled world as well. -/
theorem World.settle_setRow (p : Option Nat) (w : World) (i : Nat) (t : MyTable) :
    (w.setRow i t).settle p = (w.settle p).setRow i t := by
  cases p <;> rfl

theorem World.row_settle (p : Option Nat) (w : World) (i : Nat) :
    (w.settle p).row i = w.row i := by
  cases p <;> rfl

theorem World.caller_settle (p : Option Nat) (w : World) (current : Pid) (uid : Nat)
    (kmalloc : Bool) : (w.settle p).caller current uid kmalloc = w.caller current uid kmalloc := by
  cases p <;> rfl

/-- A step that does not touch the entries has the same effect on the settled world. -/
theorem effect_settle {call : Call} {p : Option Nat}
    (h : (call.code k invoke c).Effect w next w') (hcall : c ≠ .interceptorCall)
    (hp : p = none ∨ c ≠ .interceptSave ∧ c ≠ .releaseRestore ∧ c ≠ .interceptHijack) :
    (call.code k invoke c).Effect (w.settle p) next (w'.settle p) := by
  cases call with
  | mySyscall current uid kmalloc cmd syscall pid =>
    cases c with
    | start =>
      simp only [Call.code, mySyscallCode, Instr.Effect, World.caller_settle] at h ⊢
      split at h
      · cases h
      · cases h
        rfl
    | interceptSave | releaseRestore | interceptHijack =>
      obtain rfl : p = none := hp.resolve_right fun hne => by simp at hne
      cases h
      rfl
    | interceptCheck | releaseCheck | startCheck | startMonitored | stopMonitored =>
      cases h
      simp only [Call.code, mySyscallCode, Instr.Effect, branch, World.row_settle]
    | interceptMark | releaseClear | releaseDestroy | startBlacklist | startList | startNone
      | stopList | stopBlacklist =>
      cases h
      simp only [Call.code, mySyscallCode, Instr.Effect, edit, editReturn, World.row_settle,
        World.settle_setRow]
    | interceptLock | interceptLockSys | interceptUnlock | interceptUnlockSys | releaseLock
      | releaseLockSys | releaseUnlock | releaseUnlockSys | startLock | stopLock
      | unlockReturn r =>
      obtain ⟨rfl, rfl⟩ := h
      exact ⟨rfl, rfl⟩
    | _ => exact h.elim
  | interceptor current reg =>
    cases c with
    | start =>
      cases h
      rfl
    | interceptorLock | interceptorUnlock =>
      obtain ⟨rfl, rfl⟩ := h
      exact ⟨rfl, rfl⟩
    | interceptorMonitored =>
      cases h
      simp only [Call.code, interceptorCode, Instr.Effect, World.row_settle]
      split <;> cases p <;> rfl
    | interceptorCall => exact absurd rfl hcall
    | _ => exact h.elim
  | myExitGroup current status =>
    cases c with
    | start =>
      cases h
      rfl
    | exitLoop i =>
      cases h
      rfl
    | exitRow i =>
      cases h
      simp only [Call.code, myExitGroupCode, Instr.Effect, edit, World.row_settle,
        World.settle_setRow]
    | exitCall =>
      cases h
      cases p <;> rfl
    | _ => exact h.elim

/-! ## A call to its end -/

section

variable [DecidableEq T] [Fintype T] {call : T → Call} {s s' : State T} {t u : T} {r : Int}
  {own own' : Lock → Option T}

/-- One call at a place, while no other one has begun. -/
def solo (t : T) (c : Pc) (w : World) (own : Lock → Option T) : State T :=
  (start T w).put t c w own

/-- A call that runs alone from a place on returns `r` and leaves a world like `w'`. -/
def Ends (k : Kernel) (invoke : Handler → PtRegs → Int) (call : T → Call) (t : T) (c : Pc)
    (w : World) (own : Lock → Option T) (r : Int) (w' : World) : Prop :=
  ∃ calls, Alone (code k invoke call) t (solo t c w own)
    (solo t (.returned r) { w' with calls := calls } free)

theorem ends_start (h : atomically k invoke (call t) w = some (r, w')) :
    Ends k invoke call t .start w free r w' := by
  cases hcall : call t with
  | mySyscall current uid kmalloc cmd syscall pid =>
    rw [hcall] at h
    obtain ⟨c, hc, heq⟩ := Option.map_eq_some_iff.mp h
    cases heq
    exact ⟨w.calls, mySyscall_alone (by simp [code, hcall, Call.code]) hc⟩
  | interceptor current reg =>
    rw [hcall] at h
    cases h
    exact ⟨_, interceptor_alone (by simp [code, hcall, Call.code])⟩
  | myExitGroup current status =>
    rw [hcall] at h
    cases h
    exact ⟨w.calls, myExitGroup_alone (by simp [code, hcall, Call.code])⟩

theorem returned_code (call : Call) (r : Int) : call.code k invoke (.returned r) = .exit := by
  cases call <;> rfl

theorem turn_solo_exit (hcode : (call t).code k invoke c = .exit) :
    turn (code k invoke call) t (solo t c w own) ≠ .ok s' := by
  simp [turn, step, solo, State.put, code, hcode]

theorem turn_solo_unlock {l : Lock} (hcode : (call t).code k invoke c = .unlock l next) :
    turn (code k invoke call) t (solo t c w own) =
      .ok (solo t next w (Function.update own l none)) := by
  simp [turn, step, solo, State.put, code, hcode, State.release, State.setStatus]

theorem turn_solo_compute {f : World → Except Fault (World × Pc)} {w₁ : World}
    (hcode : (call t).code k invoke c = .compute f) (hf : f w = .ok (w₁, next)) :
    turn (code k invoke call) t (solo t c w own) = .ok (solo t next w₁ own) := by
  simp only [turn, step, solo, State.put, Function.update_self, code, hcode, hf, State.setStatus,
    Function.update_idem]
  rfl

namespace Ends

/-- What is left to do after a step. -/
theorem after {c' : Pc} {w₁ : World} (h : Ends k invoke call t c w own r w')
    (hturn : turn (code k invoke call) t (solo t c w own) = .ok (solo t c' w₁ own')) :
    Ends k invoke call t c' w₁ own' r w' := by
  obtain ⟨calls, halone⟩ := h
  refine ⟨calls, halone.tail hturn ?_⟩
  intro heq
  rw [heq] at hturn
  exact turn_solo_exit (returned_code _ _) hturn

/-- A step among other calls, if the world without them goes along. -/
theorem stepped {w₁ : World} (h : Ends k invoke call t (s.pc t) w (s.own t) r w')
    (howned : Owned (code k invoke call) (fun _ => holds) s)
    (hturn : turn (code k invoke call) t s = .ok s')
    (heffect : ((call t).code k invoke (s.pc t)).Effect w (s'.pc t) w₁) :
    Ends k invoke call t (s'.pc t) w₁ (s'.own t) r w' :=
  h.after (turn_own howned hturn heffect)

/-- At the end of its program a call has returned. -/
theorem of_exit (h : Ends k invoke call t c w own r w')
    (hcode : (call t).code k invoke c = .exit) : c = .returned r ∧ w.bare = w'.bare := by
  obtain ⟨calls, halone⟩ := h
  have heq := halone.eq_of_stuck fun _ => turn_solo_exit hcode
  have hmem : w = { w' with calls := calls } := congrArg Threads.State.mem heq
  have hstatus := congrArg (fun s : State T => s.status t) heq
  simp only [solo, State.put, Function.update_self, Status.running.injEq] at hstatus
  exact ⟨hstatus, by rw [hmem]; rfl⟩

end Ends

/-! ## The places of a call -/

/-- The call is past the section under `my_table_lock`. -/
def Pc.Finishes : Pc → Prop
  | .interceptHijack => True
  | .interceptUnlockSys => True
  | .releaseUnlockSys => True
  | .interceptorCall => True
  | .returned _ => True
  | _ => False

theorem Pc.Finishes.not_holds (h : c.Finishes) : ¬holds c .myTable := by
  cases c <;> first | exact h.elim | simp [holds]

/-- The result that a call is about to return, or has returned. -/
def Yields (invoke : Handler → PtRegs → Int) (call : Call) (w : World) (r : Int) : Pc → Prop
  | .interceptHijack => r = 0
  | .interceptUnlockSys => r = 0
  | .releaseUnlockSys => r = 0
  | .interceptorCall => ∀ current reg, call = .interceptor current reg →
      r = invoke (w.row reg.ax).f reg
  | .returned r' => r = r'
  | _ => False

/-- What a call past its section still does to the world. -/
def finish (call : Call) (c : Pc) (w : World) : World :=
  if c = .interceptHijack then w.setEntry call.number .interceptor else w

/-- Past its section it is clear what a call returns, and what it leaves. -/
theorem Ends.yields (h : Ends k invoke call t c w own r w') (hc : c.Finishes) :
    Yields invoke (call t) w r c ∧ (finish (call t) c w).bare = w'.bare := by
  have hreturned : ∀ {r'}, Ends k invoke call t (.returned r') w own r w' →
      r = r' ∧ w.bare = w'.bare := by
    intro r' h
    obtain ⟨hret, hbare⟩ := h.of_exit (returned_code _ _)
    cases hret
    exact ⟨rfl, hbare⟩
  cases hcall : call t with
  | mySyscall current uid kmalloc cmd syscall pid =>
    cases c with
    | interceptHijack =>
      have h₁ := h.after (turn_solo_compute (by rw [hcall]; rfl) rfl)
      have h₂ := h₁.after (turn_solo_unlock (by rw [hcall]; rfl))
      obtain ⟨hret, hbare⟩ := h₂.of_exit (returned_code _ _)
      cases hret
      exact ⟨rfl, hbare⟩
    | interceptUnlockSys | releaseUnlockSys =>
      have h₁ := h.after (turn_solo_unlock (by rw [hcall]; rfl))
      obtain ⟨hret, hbare⟩ := h₁.of_exit (returned_code _ _)
      cases hret
      exact ⟨rfl, hbare⟩
    | interceptorCall =>
      obtain ⟨hret, _⟩ := h.of_exit (by rw [hcall]; rfl)
      cases hret
    | returned r' => exact hreturned h
    | _ => exact hc.elim
  | interceptor current reg =>
    cases c with
    | interceptHijack | interceptUnlockSys | releaseUnlockSys =>
      obtain ⟨hret, _⟩ := h.of_exit (by rw [hcall]; rfl)
      cases hret
    | interceptorCall =>
      have h₁ := h.after (turn_solo_compute (by rw [hcall]; rfl) rfl)
      obtain ⟨hret, hbare⟩ := h₁.of_exit (returned_code _ _)
      cases hret
      refine ⟨?_, hbare⟩
      rintro current' reg' heq
      cases heq
      rfl
    | returned r' => exact hreturned h
    | _ => exact hc.elim
  | myExitGroup current status =>
    cases c with
    | returned r' => exact hreturned h
    | interceptHijack | interceptUnlockSys | releaseUnlockSys | interceptorCall =>
      obtain ⟨hret, _⟩ := h.of_exit (by rw [hcall]; rfl)
      cases hret
    | _ => exact hc.elim

/-! ## Steps -/

theorem checked_cases (k : Kernel) (c : Caller) (cmd syscall pid : Int) :
    ¬holds (checked k c cmd syscall pid) .myTable ∧
      ((checked k c cmd syscall pid).Finishes → ∃ r, checked k c cmd syscall pid = .returned r) ∧
      checked k c cmd syscall pid ≠ .start := by
  unfold checked
  repeat' split
  all_goals simp [holds, Pc.Finishes]

/-- A call that has not come to its section makes its checks, or takes the lock. -/
theorem waiting_step {call : Call} (h : (call.code k invoke c).Effect w next w')
    (hexit : ∀ current status, call ≠ .myExitGroup current status)
    (hc : ¬holds c .myTable) (hf : ¬c.Finishes) :
    w' = w ∧ (next.Finishes → ∃ r, next = .returned r) ∧ next ≠ .start ∧
      (c = .start ∧ ¬holds next .myTable ∨ c ≠ .start ∧ holds next .myTable) := by
  cases call with
  | mySyscall current uid kmalloc cmd syscall pid =>
    cases c with
    | start =>
      obtain ⟨rfl, c, rfl⟩ := checked_of_effect_start h
      obtain ⟨hheld, hfinishes, hstart⟩ := checked_cases k c cmd syscall pid
      exact ⟨rfl, hfinishes, hstart, .inl ⟨rfl, hheld⟩⟩
    | interceptLock | releaseLock | startLock | stopLock =>
      obtain ⟨rfl, rfl⟩ := h
      exact ⟨rfl, fun hf => hf.elim, by simp, .inr ⟨by simp, rfl⟩⟩
    | _ =>
      first
      | exact h.elim
      | exact absurd rfl hc
      | exact absurd trivial hc
      | exact absurd trivial hf
  | interceptor current reg =>
    cases c with
    | start =>
      cases h
      exact ⟨rfl, fun hf => hf.elim, by simp, .inl ⟨rfl, by simp [holds]⟩⟩
    | interceptorLock =>
      obtain ⟨rfl, rfl⟩ := h
      exact ⟨rfl, fun hf => hf.elim, by simp, .inr ⟨by simp, rfl⟩⟩
    | _ => first | exact h.elim | exact absurd rfl hc | exact absurd trivial hf
  | myExitGroup current status => exact absurd rfl (hexit current status)

/-- A call that gives up the lock is past its section. -/
theorem section_step {call : Call} (h : (call.code k invoke c).Effect w next w')
    (hc : holds c .myTable) (hnext : ¬holds next .myTable) :
    w' = w ∧ next.Finishes ∧ c ≠ .interceptSave ∧ c ≠ .releaseRestore ∧
      (next = .interceptHijack → c = .interceptUnlock) := by
  cases hcode : call.code k invoke c with
  | lock l next' =>
    rw [hcode] at h
    obtain ⟨rfl, rfl⟩ := h
    exact absurd ((holds_lock hcode _).mpr (.inr hc)) hnext
  | unlock l next' =>
    have heffect := h
    rw [hcode] at heffect
    obtain ⟨rfl, rfl⟩ := heffect
    refine ⟨rfl, ?_⟩
    cases call with
    | mySyscall current uid kmalloc cmd syscall pid =>
      cases c with
      | interceptUnlockSys | releaseUnlockSys => exact absurd hc (by simp [holds])
      | interceptUnlock | releaseUnlock | unlockReturn r =>
        cases hcode
        exact ⟨trivial, by simp, by simp, by simp⟩
      | _ => cases hcode
    | interceptor current reg =>
      cases c with
      | interceptorUnlock =>
        cases hcode
        exact ⟨trivial, by simp, by simp, by simp⟩
      | _ => cases hcode
    | myExitGroup current status => cases c <;> cases hcode
  | wait v m next' => exact isEmptyElim v
  | signal v next' => exact isEmptyElim v
  | compute f =>
    rw [hcode] at h
    exact absurd ((holds_compute hcode h _).mpr hc) hnext
  | exit =>
    rw [hcode] at h
    exact h.elim

/-- A call past its section stays so, returns what it was about to, and finishes what it left. -/
theorem finishes_step {call : Call} {r : Int} (h : (call.code k invoke c).Effect w next w')
    (hc : c.Finishes) (hyields : Yields invoke call w r c) :
    next.Finishes ∧ next ≠ .interceptHijack ∧ (c = .interceptHijack → holds next .sysCallTable) ∧
      Yields invoke call w' r next ∧ w'.bare = (finish call c w).bare := by
  cases call with
  | mySyscall current uid kmalloc cmd syscall pid =>
    cases c with
    | interceptHijack =>
      cases h
      exact ⟨trivial, by simp, fun _ => rfl, hyields, rfl⟩
    | interceptUnlockSys | releaseUnlockSys =>
      obtain ⟨rfl, rfl⟩ := h
      exact ⟨trivial, by simp, by simp, hyields, rfl⟩
    | _ => first | exact h.elim | exact hc.elim
  | interceptor current reg =>
    cases c with
    | interceptorCall =>
      cases h
      exact ⟨trivial, by simp, by simp, hyields _ _ rfl, rfl⟩
    | _ => first | exact h.elim | exact hc.elim
  | myExitGroup current status => cases c <;> first | exact h.elim | exact hc.elim

/-- A call that could be made in one world can be made in another with the same processes. -/
theorem atomically_of_start {call : Call} {w₁ : World}
    (h : (call.code k invoke .start).Effect w next w') (howner : w₁.owner = w.owner)
    (hexit : ∀ current status, call ≠ .myExitGroup current status) :
    (call.code k invoke .start).Effect w₁ next w₁ ∧
      ∃ r w', atomically k invoke call w₁ = some (r, w') := by
  cases call with
  | mySyscall current uid kmalloc cmd syscall pid =>
    have hcaller : w₁.caller current uid kmalloc = w.caller current uid kmalloc := by
      simp only [World.caller, howner]
    simp only [Call.code, mySyscallCode, Instr.Effect, atomically, hcaller] at h ⊢
    split at h
    case h_1 => cases h
    case h_2 c hc =>
      cases h
      exact ⟨rfl, _, _, by rw [hc]; rfl⟩
  | interceptor current reg =>
    cases h
    exact ⟨rfl, _, _, rfl⟩
  | myExitGroup current status => exact absurd rfl (hexit current status)

/-- A call keeps the processes and the record of the handlers called. -/
theorem atomically_frame {call : Call} {r : Int} (h : atomically k invoke call w = some (r, w'))
    (hexit : ∀ current status, call ≠ .myExitGroup current status) :
    w'.owner = w.owner ∧ w'.calls = w.calls := by
  cases call with
  | mySyscall current uid kmalloc cmd syscall pid =>
    obtain ⟨c, _, heq⟩ := Option.map_eq_some_iff.mp h
    cases heq
    exact ⟨rfl, rfl⟩
  | interceptor current reg =>
    cases h
    exact ⟨rfl, rfl⟩
  | myExitGroup current status => exact absurd rfl (hexit current status)

/-! ## The entry about to be written -/

omit [DecidableEq T] [Fintype T] in
theorem pending_eq_some (howned : Owned (code k invoke call) (fun _ => holds) s) {i : Nat} :
    pending call s = some i ↔ ∃ u, s.pc u = .interceptHijack ∧ (call u).number = i := by
  have howner : ∀ u, s.pc u = .interceptHijack → s.owner .sysCallTable = some u := by
    intro u hu
    rw [howned.owner_iff, hu]
    rfl
  constructor
  · intro h
    obtain ⟨u, _, hu⟩ := Option.bind_eq_some_iff.mp h
    split at hu
    case isTrue hpc => exact ⟨u, hpc, Option.some.inj hu⟩
    case isFalse => cases hu
  · rintro ⟨u, hu, rfl⟩
    rw [pending, howner u hu, Option.bind_some, if_pos hu]

omit [Fintype T] in
/-- The entry about to be written stays the same while no call comes to its place or leaves it. -/
theorem pending_eq (howned : Owned (code k invoke call) (fun _ => holds) s)
    (howned' : Owned (code k invoke call) (fun _ => holds) s')
    (hstep : Stepped (code k invoke call) s s' t) (hc : s.pc t ≠ .interceptHijack)
    (hc' : s'.pc t ≠ .interceptHijack) : pending call s' = pending call s := by
  have hpc : ∀ u, s'.pc u = .interceptHijack ↔ s.pc u = .interceptHijack := by
    intro u
    by_cases hu : u = t
    · subst hu
      exact iff_of_false hc' hc
    · rw [hstep.others u hu]
  ext i
  simp only [pending_eq_some howned, pending_eq_some howned', hpc]

omit [DecidableEq T] [Fintype T] in
/-- No entry is about to be written by others while a call holds `sys_call_table_lock`. -/
theorem pending_eq_none (howned : Owned (code k invoke call) (fun _ => holds) s)
    (hheld : holds (s.pc t) .sysCallTable) (hc : s.pc t ≠ .interceptHijack) :
    pending call s = none := by
  rw [pending, howned.owner_iff.mpr hheld, Option.bind_some, if_neg hc]

/-- The world as the calls see it that are not in their sections. -/
def settled (call : T → Call) (s : State T) : World := s.mem.settle (pending call s)

omit [DecidableEq T] [Fintype T] in
/-- It is as if a call that is about to write its entry had written it. -/
theorem settled_of_hijack (howned : Owned (code k invoke call) (fun _ => holds) s)
    (hc : s.pc t = .interceptHijack) :
    settled call s = (finish (call t) (s.pc t) s.mem).bare := by
  rw [settled, (pending_eq_some howned).mpr ⟨t, hc, rfl⟩, finish, if_pos hc]
  rfl

theorem settle_congr {p : Option Nat} (h : w'.bare = w.bare) : w'.settle p = w.settle p := by
  cases p with
  | none => exact h
  | some i =>
    simp only [World.settle, h]

theorem bare_settle (p : Option Nat) (w : World) : (w.settle p).bare = w.settle p := by
  cases p <;> rfl

theorem bare_finish (call : Call) (c : Pc) (w : World) :
    (finish call c w.bare).bare = (finish call c w).bare := by
  simp only [finish]
  split <;> rfl

theorem bare_of_calls (h : w.calls = []) : w.bare = w := by
  rw [World.bare, ← h]

theorem finish_of_ne {call : Call} (hc : c ≠ .interceptHijack) : finish call c w = w := if_neg hc

/-! ## The invariant -/

/-- The calls that are not in their sections see the world `w`, and a call in its section does what
it would do there alone. -/
structure Sees (k : Kernel) (invoke : Handler → PtRegs → Int) (call : T → Call) (s : State T)
    (w : World) : Prop where
  settled : (∀ t, ¬holds (s.pc t) .myTable) → settled call s = w
  inside : ∀ t, holds (s.pc t) .myTable → ∃ r w', atomically k invoke (call t) w = some (r, w') ∧
    Ends k invoke call t (s.pc t) (Interceptor.settled call s) (s.own t) r w'

/-- The calls that have taken effect are those in `lin`, in this order and with these results. -/
structure Linear (k : Kernel) (invoke : Handler → PtRegs → Int) (call : T → Call) (w₀ : World)
    (s : State T) (lin : List (T × Int)) : Prop where
  nodup : (lin.map Prod.fst).Nodup
  owner : s.mem.owner = w₀.owner
  ahead : ∀ t, ¬(s.pc t).Finishes → t ∉ lin.map Prod.fst
  past : ∀ t, (s.pc t).Finishes → ∃ r, (t, r) ∈ lin ∧ Yields invoke (call t) s.mem r (s.pc t)
  waiting : ∀ t, ¬holds (s.pc t) .myTable → ¬(s.pc t).Finishes → s.pc t ≠ .start →
    ∀ w, w.owner = w₀.owner → ∃ r w', atomically k invoke (call t) w = some (r, w') ∧
      Ends k invoke call t (s.pc t) w (s.own t) r w'
  serial : ∃ w, Serial k invoke call w₀ lin w ∧ w.owner = w₀.owner ∧ w.calls = [] ∧
    Sees k invoke call s w

theorem Yields.congr {call : Call} (h : Yields invoke call w r c)
    (hf : ∀ current reg, call = .interceptor current reg → c = .interceptorCall →
      (w'.row reg.ax).f = (w.row reg.ax).f) : Yields invoke call w' r c := by
  cases c with
  | interceptorCall =>
    intro current reg hcall
    rw [hf current reg hcall rfl]
    exact h current reg hcall
  | _ => exact h

namespace Sees

/-- The step of a call that is not in its section. -/
theorem outside (h : Sees k invoke call s w)
    (howned : Owned (code k invoke call) (fun _ => holds) s)
    (howned' : Owned (code k invoke call) (fun _ => holds) s')
    (hstep : Stepped (code k invoke call) s s' t) (hc : ¬holds (s.pc t) .myTable)
    (hc' : ¬holds (s'.pc t) .myTable)
    (hsettled : Interceptor.settled call s' = Interceptor.settled call s) :
    Sees k invoke call s' w where
  settled hfree := by
    rw [hsettled]
    refine h.settled fun u => ?_
    by_cases hu : u = t
    · rw [hu]
      exact hc
    · rw [← hstep.others u hu]
      exact hfree u
  inside u hheld := by
    have hu : u ≠ t := by
      rintro rfl
      exact hc' hheld
    rw [hstep.others u hu] at hheld ⊢
    rw [hsettled, own_of_ne howned howned' hstep hu]
    exact h.inside u hheld

/-- The call that holds the lock is the only one in its section. -/
theorem of_inside (howned' : Owned (code k invoke call) (fun _ => holds) s')
    (hc' : holds (s'.pc t) .myTable)
    (hends : ∃ r w', atomically k invoke (call t) w = some (r, w') ∧
      Ends k invoke call t (s'.pc t) (Interceptor.settled call s') (s'.own t) r w') :
    Sees k invoke call s' w where
  settled hfree := absurd hc' (hfree t)
  inside u hheld := by
    obtain rfl := howned'.unique hheld hc'
    exact hends

/-- After the section, the others see what the call has done. -/
theorem of_outside (howned : Owned (code k invoke call) (fun _ => holds) s)
    (hstep : Stepped (code k invoke call) s s' t) (hc : holds (s.pc t) .myTable)
    (hc' : ¬holds (s'.pc t) .myTable) (hsettled : Interceptor.settled call s' = w) :
    Sees k invoke call s' w where
  settled _ := hsettled
  inside u hheld := by
    have hu : u ≠ t := by
      rintro rfl
      exact hc' hheld
    rw [hstep.others u hu] at hheld
    exact absurd (howned.unique hheld hc) hu

end Sees

omit [Fintype T] in
theorem own_of_start (howned : Owned (code k invoke call) (fun _ => holds) s)
    (hc : s.pc t = .start) : s.own t = free := by
  funext l
  have hno : s.owner l ≠ some t := by
    rw [Ne, howned.owner_iff, hc]
    simp [holds]
  simp only [State.own, if_neg hno, free]

namespace Linear

variable {w₀ : World} {lin : List (T × Int)}

/-- A step after which the same calls have taken effect. -/
theorem quiet (h : Linear k invoke call w₀ s lin)
    (howned : Owned (code k invoke call) (fun _ => holds) s)
    (howned' : Owned (code k invoke call) (fun _ => holds) s')
    (hstep : Stepped (code k invoke call) s s' t) (howner : s'.mem.owner = s.mem.owner)
    (hsaved : ∀ u current reg, call u = .interceptor current reg → s.pc u = .interceptorCall →
      (s'.mem.row reg.ax).f = (s.mem.row reg.ax).f)
    (hside : (s'.pc t).Finishes ↔ (s.pc t).Finishes)
    (hyields : ∀ r, (s.pc t).Finishes → Yields invoke (call t) s.mem r (s.pc t) →
      Yields invoke (call t) s'.mem r (s'.pc t))
    (hwaiting : ¬holds (s'.pc t) .myTable → ¬(s'.pc t).Finishes → s'.pc t ≠ .start →
      ∀ w, w.owner = w₀.owner → ∃ r w', atomically k invoke (call t) w = some (r, w') ∧
        Ends k invoke call t (s'.pc t) w (s'.own t) r w')
    (hserial : ∃ w, Serial k invoke call w₀ lin w ∧ w.owner = w₀.owner ∧ w.calls = [] ∧
      Sees k invoke call s' w) : Linear k invoke call w₀ s' lin where
  nodup := h.nodup
  owner := howner.trans h.owner
  ahead u hu := by
    by_cases hut : u = t
    · subst hut
      exact h.ahead u (hside.not.mp hu)
    · rw [hstep.others u hut] at hu
      exact h.ahead u hu
  past u hu := by
    by_cases hut : u = t
    · subst hut
      obtain ⟨r, hr, hy⟩ := h.past u (hside.mp hu)
      exact ⟨r, hr, hyields r (hside.mp hu) hy⟩
    · rw [hstep.others u hut] at hu ⊢
      obtain ⟨r, hr, hy⟩ := h.past u hu
      exact ⟨r, hr, hy.congr (hsaved u)⟩
  waiting u hheld hu hne := by
    by_cases hut : u = t
    · subst hut
      exact hwaiting hheld hu hne
    · rw [hstep.others u hut] at hheld hu hne ⊢
      rw [own_of_ne howned howned' hstep hut]
      exact h.waiting u hheld hu hne
  serial := hserial

/-- The step with which a call takes effect. -/
theorem commit (h : Linear k invoke call w₀ s lin)
    (howned : Owned (code k invoke call) (fun _ => holds) s)
    (howned' : Owned (code k invoke call) (fun _ => holds) s')
    (hstep : Stepped (code k invoke call) s s' t) (howner : s'.mem.owner = s.mem.owner)
    (hsaved : ∀ u current reg, call u = .interceptor current reg → s.pc u = .interceptorCall →
      (s'.mem.row reg.ax).f = (s.mem.row reg.ax).f)
    (hbefore : ¬(s.pc t).Finishes) (hafter : (s'.pc t).Finishes)
    (hyields : Yields invoke (call t) s'.mem r (s'.pc t))
    (hserial : ∃ w, Serial k invoke call w₀ (lin ++ [(t, r)]) w ∧ w.owner = w₀.owner ∧
      w.calls = [] ∧ Sees k invoke call s' w) :
    Linear k invoke call w₀ s' (lin ++ [(t, r)]) where
  nodup := by
    rw [List.map_append, List.nodup_append]
    refine ⟨h.nodup, List.nodup_singleton _, ?_⟩
    rintro u hu v hv rfl
    obtain rfl : u = t := List.mem_singleton.mp hv
    exact h.ahead u hbefore hu
  owner := howner.trans h.owner
  ahead u hu := by
    have hut : u ≠ t := by
      rintro rfl
      exact hu hafter
    rw [hstep.others u hut] at hu
    simpa [hut] using h.ahead u hu
  past u hu := by
    by_cases hut : u = t
    · subst hut
      exact ⟨r, by simp, hyields⟩
    · rw [hstep.others u hut] at hu ⊢
      obtain ⟨r', hr', hy⟩ := h.past u hu
      exact ⟨r', List.mem_append_left _ hr', hy.congr (hsaved u)⟩
  waiting u hheld hu hne := by
    have hut : u ≠ t := by
      rintro rfl
      exact hu hafter
    rw [hstep.others u hut] at hheld hu hne ⊢
    rw [own_of_ne howned howned' hstep hut]
    exact h.waiting u hheld hu hne
  serial := hserial

omit [Fintype T] in
/-- What a step of a call past its section leaves to the others. -/
theorem settled_of_finishes (howned : Owned (code k invoke call) (fun _ => holds) s)
    (howned' : Owned (code k invoke call) (fun _ => holds) s')
    (hstep : Stepped (code k invoke call) s s' t)
    (hnext : s'.pc t ≠ .interceptHijack)
    (hheld : s.pc t = .interceptHijack → holds (s'.pc t) .sysCallTable)
    (hbare : s'.mem.bare = (finish (call t) (s.pc t) s.mem).bare) :
    settled call s' = settled call s := by
  by_cases hc : s.pc t = .interceptHijack
  · rw [settled_of_hijack howned hc, settled, pending_eq_none howned' (hheld hc) hnext]
    exact hbare
  · rw [finish_of_ne hc] at hbare
    rw [settled, settled, pending_eq howned howned' hstep hc hnext, settle_congr hbare]

section

variable (h : Linear k invoke call w₀ s lin)
  (howned : Owned (code k invoke call) (fun _ => holds) s)
  (howned' : Owned (code k invoke call) (fun _ => holds) s')
  (hturn : turn (code k invoke call) t s = .ok s')
  (hexit : ∀ t current status, call t ≠ .myExitGroup current status)
  (hsaved : ∀ u current reg, call u = .interceptor current reg → s.pc u = .interceptorCall →
    (s'.mem.row reg.ax).f = (s.mem.row reg.ax).f)

include h howned howned' hturn hexit hsaved

/-- A call that has taken effect goes on. -/
theorem step_past (hfin : (s.pc t).Finishes) : Linear k invoke call w₀ s' lin := by
  have hstep := stepped_of_turn howned hturn
  have heffect : ((call t).code k invoke (s.pc t)).Effect s.mem (s'.pc t) s'.mem := hstep.effect
  have howner := owner_of_effect heffect (hexit t)
  obtain ⟨w, hserial, hwowner, hwcalls, hsees⟩ := h.serial
  obtain ⟨r, -, hy⟩ := h.past t hfin
  obtain ⟨hfin', hnext, hheld, -, hbare⟩ := finishes_step heffect hfin hy
  have hsettled := settled_of_finishes howned howned' hstep hnext hheld hbare
  refine h.quiet howned howned' hstep howner hsaved (iff_of_true hfin' hfin) ?_
    (fun _ hno => absurd hfin' hno) ⟨w, hserial, hwowner, hwcalls, ?_⟩
  · intro r' _ hy'
    exact (finishes_step heffect hfin hy').2.2.2.1
  · exact hsees.outside howned howned' hstep hfin.not_holds hfin'.not_holds hsettled

/-- A call in its section goes on there, or leaves it and takes effect. -/
theorem step_inside (hheld : holds (s.pc t) .myTable) :
    ∃ more, Linear k invoke call w₀ s' (lin ++ more) := by
  have hfin : ¬(s.pc t).Finishes := fun hf => hf.not_holds hheld
  have hstep := stepped_of_turn howned hturn
  have heffect : ((call t).code k invoke (s.pc t)).Effect s.mem (s'.pc t) s'.mem := hstep.effect
  have howner := owner_of_effect heffect (hexit t)
  obtain ⟨w, hserial, hwowner, hwcalls, hsees⟩ := h.serial
  obtain ⟨r, w', hatomic, hends⟩ := hsees.inside t hheld
  have hc : s.pc t ≠ .interceptHijack := by
    intro hc
    rw [hc] at hheld
    cases hheld
  have hp : pending call s = none ∨ s.pc t ≠ .interceptSave ∧ s.pc t ≠ .releaseRestore ∧
      s.pc t ≠ .interceptHijack := by
    by_cases hsys : holds (s.pc t) .sysCallTable
    · exact .inl (pending_eq_none howned hsys hc)
    · refine .inr ⟨?_, ?_, hc⟩
      · intro hsave
        exact hsys (by rw [hsave]; trivial)
      · intro hrestore
        exact hsys (by rw [hrestore]; trivial)
  have hcall : s.pc t ≠ .interceptorCall := by
    intro hc
    rw [hc] at hheld
    exact hheld
  have hends' := hends.stepped howned hturn (effect_settle heffect hcall hp)
  by_cases hheld' : holds (s'.pc t) .myTable
  · -- It is in its section and stays there.
    have hfin' : ¬(s'.pc t).Finishes := fun hf => hf.not_holds hheld'
    have hc' : s'.pc t ≠ .interceptHijack := by
      intro hc'
      rw [hc'] at hheld'
      cases hheld'
    refine ⟨[], ?_⟩
    rw [List.append_nil]
    refine h.quiet howned howned' hstep howner hsaved (iff_of_false hfin' hfin)
      (fun _ hf => absurd hf hfin) (fun hno => absurd hheld' hno)
      ⟨w, hserial, hwowner, hwcalls, .of_inside howned' hheld' ⟨r, w', hatomic, ?_⟩⟩
    rw [settled, pending_eq howned howned' hstep hc hc']
    exact hends'
  · -- It leaves its section, and takes effect.
    obtain ⟨hmem, hfin', -, -, hunlock⟩ := section_step heffect hheld hheld'
    obtain ⟨hyields, hbare⟩ := hends'.yields hfin'
    obtain ⟨hwowner', hwcalls'⟩ := atomically_frame hatomic (hexit t)
    rw [bare_of_calls (hwcalls'.trans hwcalls)] at hbare
    have hsettled : settled call s' = w' := by
      by_cases hc' : s'.pc t = .interceptHijack
      · have hsys : holds (s.pc t) .sysCallTable := by
          rw [hunlock hc']
          trivial
        rw [pending_eq_none howned hsys hc] at hbare
        rw [settled_of_hijack howned' hc', ← hbare]
        exact (bare_finish _ _ _).symm
      · rw [finish_of_ne hc', bare_settle] at hbare
        rw [settled, pending_eq howned howned' hstep hc hc', hbare]
    refine ⟨[(t, r)], h.commit howned howned' hstep howner hsaved hfin hfin' ?_
      ⟨w', hserial.concat hatomic, hwowner'.trans hwowner, hwcalls'.trans hwcalls,
        .of_outside howned hstep hheld hheld' hsettled⟩⟩
    exact hyields.congr fun _ _ _ _ => by rw [World.row_settle]

/-- A call that has not come to its section makes its checks, or enters the section. -/
theorem step_waiting (hheld : ¬holds (s.pc t) .myTable) (hfin : ¬(s.pc t).Finishes) :
    ∃ more, Linear k invoke call w₀ s' (lin ++ more) := by
  have hstep := stepped_of_turn howned hturn
  have heffect : ((call t).code k invoke (s.pc t)).Effect s.mem (s'.pc t) s'.mem := hstep.effect
  have howner := owner_of_effect heffect (hexit t)
  obtain ⟨w, hserial, hwowner, hwcalls, hsees⟩ := h.serial
  obtain ⟨hmem, hfinishes, hne, hcases⟩ := waiting_step heffect (hexit t) hheld hfin
  have hc : s.pc t ≠ .interceptHijack := by
    intro hc
    exact hfin (by rw [hc]; trivial)
  have hc' : s'.pc t ≠ .interceptHijack := by
    intro hc'
    obtain ⟨r, hr⟩ := hfinishes (by rw [hc']; trivial)
    cases hc'.symm.trans hr
  have hsettled : settled call s' = settled call s := by
    rw [settled, settled, pending_eq howned howned' hstep hc hc', hmem]
  rcases hcases with ⟨hstart, hheld'⟩ | ⟨hstart, hheld'⟩
  · -- It makes its checks.
    have hends : ∀ w₁, w₁.owner = w₀.owner →
        ∃ r w', atomically k invoke (call t) w₁ = some (r, w') ∧ Ends k invoke call t (s'.pc t) w₁
          (s'.own t) r w' := by
      intro w₁ hw₁
      have hfirst := heffect
      rw [hstart] at hfirst
      obtain ⟨hfirst, r, w', hatomic⟩ :=
        atomically_of_start hfirst (hw₁.trans h.owner.symm) (hexit t)
      have hend : Ends k invoke call t (s.pc t) w₁ (s.own t) r w' := by
        rw [own_of_start howned hstart, hstart]
        exact ends_start hatomic
      exact ⟨r, w', hatomic, hend.stepped howned hturn (by rw [hstart]; exact hfirst)⟩
    by_cases hfin' : (s'.pc t).Finishes
    · obtain ⟨r, w', hatomic, hend⟩ := hends w hwowner
      obtain ⟨hyields, hbare⟩ := hend.yields hfin'
      obtain ⟨hwowner', hwcalls'⟩ := atomically_frame hatomic (hexit t)
      rw [finish_of_ne hc', bare_of_calls hwcalls, bare_of_calls (hwcalls'.trans hwcalls)] at hbare
      subst hbare
      refine ⟨[(t, r)], h.commit howned howned' hstep howner hsaved hfin hfin' ?_
        ⟨w, hserial.concat hatomic, hwowner, hwcalls,
          hsees.outside howned howned' hstep hheld hheld' hsettled⟩⟩
      refine hyields.congr fun _ _ _ hcall => ?_
      obtain ⟨r', hr'⟩ := hfinishes hfin'
      cases hcall.symm.trans hr'
    · refine ⟨[], ?_⟩
      rw [List.append_nil]
      exact h.quiet howned howned' hstep howner hsaved (iff_of_false hfin' hfin)
        (fun _ hf => absurd hf hfin) (fun _ _ _ => hends)
        ⟨w, hserial, hwowner, hwcalls, hsees.outside howned howned' hstep hheld hheld' hsettled⟩
  · -- It enters its section, where nobody else is.
    have hfin' : ¬(s'.pc t).Finishes := fun hf => hf.not_holds hheld'
    have hnobody : ∀ u, ¬holds (s.pc u) .myTable := by
      intro u hu
      by_cases hut : u = t
      · exact hheld (hut ▸ hu)
      · rw [← hstep.others u hut] at hu
        exact hut (howned'.unique hu hheld')
    have hw : settled call s = w := hsees.settled hnobody
    obtain ⟨r, w', hatomic, hend⟩ := h.waiting t hheld hfin hstart w hwowner
    have hpart := effect_settle (p := pending call s) heffect
      (fun hcall => hfin (by rw [hcall]; trivial))
      (.inr ⟨fun hs => hheld (by rw [hs]; trivial), fun hs => hheld (by rw [hs]; trivial), hc⟩)
    rw [hmem] at hpart
    have hsame : s.mem.settle (pending call s) = w := hw
    rw [hsame] at hpart
    refine ⟨[], ?_⟩
    rw [List.append_nil]
    refine h.quiet howned howned' hstep howner hsaved (iff_of_false hfin' hfin)
      (fun _ hf => absurd hf hfin) (fun hno => absurd hheld' hno)
      ⟨w, hserial, hwowner, hwcalls, .of_inside howned' hheld' ⟨r, w', hatomic, ?_⟩⟩
    rw [hsettled, hw]
    exact hend.stepped howned hturn hpart

/-- Every step keeps the invariant, and at most one more call takes effect. -/
theorem step : ∃ more, Linear k invoke call w₀ s' (lin ++ more) := by
  by_cases hfin : (s.pc t).Finishes
  · refine ⟨[], ?_⟩
    rw [List.append_nil]
    exact h.step_past howned howned' hturn hexit hsaved hfin
  by_cases hheld : holds (s.pc t) .myTable
  · exact h.step_inside howned howned' hturn hexit hsaved hheld
  · exact h.step_waiting howned howned' hturn hexit hsaved hheld hfin

end

end Linear

end

/-! ## Runs -/

section

variable [DecidableEq T] [Fintype T] {call : T → Call} {s s' : State T} {t : T}
  {o : Nat → Handler} {w₀ : World} {lin : List (T × Int)}

/-- The condition on a step: `interceptor` is called through the system call table. -/
def Dispatched (call : T → Call) (t : T) (s : State T) : Prop :=
  ∀ current reg, call t = .interceptor current reg → s.pc t = .start →
    s.mem.entry reg.ax = .interceptor

/-- The handlers that calls under way are to go on to are the ones from before. -/
def Saved (o : Nat → Handler) (call : T → Call) (s : State T) : Prop :=
  ∀ t current reg, call t = .interceptor current reg → s.pc t ≠ .start →
    (s.mem.row reg.ax).f = o reg.ax

omit [Fintype T] in
theorem Saved.stepped (h : Saved o call s) (hagreed : Agreed o call s)
    (ho : ∀ i, o i ≠ .interceptor) (hP : Dispatched call t s)
    (hstep : Stepped (code k invoke call) s s' t) : Saved o call s' := by
  intro u current reg hcall hu
  apply hagreed.f_stepped hstep
  by_cases hut : u = t
  · subst hut
    by_cases hstart : s.pc u = .start
    · exact (hagreed.coherent reg.ax).f_of_entry (ho reg.ax) (hP current reg hcall hstart)
    · exact h u current reg hcall hstart
  · rw [hstep.others u hut] at hu
    exact h u current reg hcall hu

/-- What holds in every state of a run. -/
structure Runs (k : Kernel) (invoke : Handler → PtRegs → Int) (call : T → Call)
    (o : Nat → Handler) (w₀ : World) (s : State T) (lin : List (T × Int)) : Prop where
  owned : Owned (code k invoke call) (fun _ => holds) s
  agreed : Agreed o call s
  saved : Saved o call s
  linear : Linear k invoke call w₀ s lin

theorem Runs.turn (h : Runs k invoke call o w₀ s lin) (ho : ∀ i, o i ≠ .interceptor)
    (hexit : ∀ t current status, call t ≠ .myExitGroup current status)
    (hP : Dispatched call t s) (hturn : Threads.turn (code k invoke call) t s = .ok s') :
    ∃ more, Runs k invoke call o w₀ s' (lin ++ more) := by
  have hstep := stepped_of_turn h.owned hturn
  have howned' := h.owned.moves (discipline k invoke call) (moves_of_step hturn)
  have hsaved' := h.saved.stepped h.agreed ho hP hstep
  have hsaved : ∀ u current reg, call u = .interceptor current reg →
      s.pc u = .interceptorCall → (s'.mem.row reg.ax).f = (s.mem.row reg.ax).f := by
    intro u current reg hcall hpc
    have hf := h.saved u current reg hcall (by rw [hpc]; simp)
    rw [hf, h.agreed.f_stepped hstep hf]
  obtain ⟨more, hlinear⟩ := h.linear.step h.owned howned' hturn hexit hsaved
  exact ⟨more, howned', h.agreed.stepped ho h.owned hstep, hsaved', hlinear⟩

theorem runs_start (k : Kernel) (invoke : Handler → PtRegs → Int) (call : T → Call)
    (entries : Nat → Nat) (owner : Pid → Option Nat) :
    Runs k invoke call (hooked k entries) (loaded k entries owner)
      (start T (loaded k entries owner)) [] where
  owned := owned_start _
  agreed := agreed_start k entries call owner
  saved _ _ _ _ hno := absurd rfl hno
  linear :=
    { nodup := .nil
      owner := rfl
      ahead := fun _ _ => List.not_mem_nil
      past := fun _ hf => hf.elim
      waiting := fun _ _ _ hno => absurd rfl hno
      serial := ⟨_, .nil, rfl, rfl, ⟨fun _ => rfl, fun _ hheld => by cases hheld⟩⟩ }

end

/-- The calls of a run that have taken effect, in this order and with these results: all that have
returned, none that have not begun, and while no lock is held the module and the log are what these
calls leave when they are made one at a time. -/
structure Linearized (k : Kernel) (invoke : Handler → PtRegs → Int) (call : T → Call) (w₀ : World)
    (s : State T) (lin : List (T × Int)) : Prop where
  once : (lin.map Prod.fst).Nodup
  begun : ∀ t r, (t, r) ∈ lin → s.pc t ≠ .start
  returned : ∀ t r, s.pc t = .returned r → (t, r) ∈ lin
  serial : ∃ w, Serial k invoke call w₀ lin w ∧
    ((∀ l, s.owner l = none) → s.mem.module = w.module ∧ s.mem.log = w.log)

theorem Runs.linearized {call : T → Call} {s : State T} {o : Nat → Handler} {w₀ : World}
    {lin : List (T × Int)} [DecidableEq T] [Fintype T] (h : Runs k invoke call o w₀ s lin) :
    Linearized k invoke call w₀ s lin := by
  obtain ⟨w, hserial, _, hwcalls, hsees⟩ := h.linear.serial
  refine ⟨h.linear.nodup, ?_, ?_, w, hserial, ?_⟩
  · intro t r hmem hstart
    exact h.linear.ahead t (by rw [hstart]; exact id) (List.mem_map.mpr ⟨_, hmem, rfl⟩)
  · intro t r hr
    obtain ⟨r', hmem, hyields⟩ := h.linear.past t (by rw [hr]; trivial)
    rw [hr] at hyields
    obtain rfl : r' = r := hyields
    exact hmem
  · intro hfree
    have hw : settled call s = w := by
      refine hsees.settled fun t ht => ?_
      have hheld := h.owned.owner_iff.mpr ht
      rw [hfree] at hheld
      cases hheld
    have hpending : pending call s = none := by
      rw [pending, hfree]
      rfl
    rw [settled, hpending] at hw
    subst hw
    exact ⟨rfl, rfl⟩

/-- Requests and intercepted calls are linearizable: in every interleaving of them, each takes effect at
one moment between its first step and its return, with the result and the changes of the call made alone
at that moment. There is one order for each run, and the order of a longer run begins with it. -/
theorem calls_linearize [DecidableEq T] [Fintype T] (k : Kernel)
    (invoke : Handler → PtRegs → Int) (call : T → Call) (entries : Nat → Nat)
    (owner : Pid → Option Nat)
    (hexit : ∀ t current status, call t ≠ .myExitGroup current status) :
    ∃ lins : List T → List (T × Int), (∀ order more, lins order <+: lins (order ++ more)) ∧
      ∀ order s, Along (turn (code k invoke call)) (Dispatched call) order
          (start T (loaded k entries owner)) →
        runCalls k invoke call (loaded k entries owner) order = .ok s →
        Linearized k invoke call (loaded k entries owner) s (lins order) := by
  have ho := hooked_ne_interceptor k entries
  obtain ⟨lins, hgrow, hruns⟩ := Along.exists_grown (runs_start k invoke call entries owner)
    fun t s s' lin h hP hturn => h.turn ho hexit hP hturn
  exact ⟨lins, hgrow, fun order s halong hrun => (hruns order s halong hrun).linearized⟩

/-- The superuser intercepts call 5, which process 2000 makes. -/
def interceptAndCall : Bool → Call
  | false => .mySyscall 1000 0 true REQUEST_SYSCALL_INTERCEPT 5 0
  | true => .interceptor 2000 ⟨5, 0, 0, 0, 0, 0, 0⟩

/-- The call is made when the entry is written, before the request has returned. -/
theorem calls_linearize_intercept :
    ∃ s lin, Linearized i386 (fun _ _ => 7) interceptAndCall (loaded i386 id root.owner) s lin ∧
      s.pc true = .returned 7 ∧ (true, 7) ∈ lin := by
  obtain ⟨lins, _, hlins⟩ := calls_linearize i386 (fun _ _ => 7) interceptAndCall id root.owner
    fun t _ _ => by cases t <;> simp [interceptAndCall]
  have h := hlins [false, false, false, false, false, false, false, false, true, true, true, true, true, false]
    _ (by
      refine ⟨?_, ?_, ?_, ?_, ?_, ?_, ?_, ?_, ?_, ?_, ?_, ?_, ?_, ?_, trivial⟩
      all_goals
        intro current reg hcall _
        cases hcall
      all_goals rfl) rfl
  exact ⟨_, _, h, rfl, h.returned true 7 rfl⟩

end Interceptor

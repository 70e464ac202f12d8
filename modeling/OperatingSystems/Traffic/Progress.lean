-- SUMMARY: The simulation never deadlocks: no circle of locks, and no lost wake-up.
import OperatingSystems.Traffic.Conservation

/-!
# Progress

A thread that sleeps at a buffer does so because the buffer is full or empty, unless the other
thread of the lane is about to signal. Together with the order of the mutexes this leaves no state
in which a thread has work to do but nobody can take a step.
-/

namespace Traffic

open Library Library.Threads

variable {schedule : List Car} {cap : Nat} {d e : Direction} {g g' : Intersection}
  {a a' : ArrivePc} {c c' : CrossPc} {s s' : State} {t u : Thread} {v : CondVar}

/-! ## Buffers -/

/-- How many cars there are in the buffer, and how many there can be. -/
def Lane.fill (l : Lane) : Nat × Nat := (l.inBuf, l.capacity)

theorem writeToBuf_fill (hwrite : writeToBuf d g = .ok g') (he : e ≠ d) :
    (g'.lanes e).fill = (g.lanes e).fill := by
  rcases writeToBuf_cases hwrite with rfl | ⟨buffer, inCars, rfl⟩
  · rfl
  · rw [Intersection.lanes_modifyLane_of_ne he]

theorem readFromBuf_fill {crossingCar : Option CarPtr}
    (hread : readFromBuf d g = .ok (crossingCar, g')) :
    (g'.lanes e).fill = (g.lanes e).fill := by
  rcases readFromBuf_cases hread with ⟨-, rfl⟩ | ⟨-, rfl⟩
  · rfl
  · exact Intersection.congr_modifyLane (F := Lane.fill) rfl

/-- `car_arrive` writes to its own buffer only, goes to sleep only if that is full, and signals
after it has written. -/
theorem arrive_fill (h : (carArrive d a).Effect g a' g') :
    (∃ i, a = .write i ∧ a' = .signal i ∧ ∀ e, e ≠ d → (g'.lanes e).fill = (g.lanes e).fill) ∨
      (∀ e, (g'.lanes e).fill = (g.lanes e).fill) ∧
        ∀ i, a' = .sleep i → (g.lanes d).inBuf = (g.lanes d).capacity := by
  cases a with
  | loop i =>
    cases h
    refine .inr ⟨fun _ => rfl, ?_⟩
    intro j hj
    split at hj
    · cases hj
    · cases hj
  | test i =>
    cases h
    refine .inr ⟨fun _ => rfl, ?_⟩
    intro j hj
    split at hj
    case isTrue hfull => exact hfull
    case isFalse => cases hj
  | write i =>
    obtain ⟨g₁, hwrite, heq⟩ := Run.bind_eq_ok.mp h
    cases heq
    exact .inl ⟨i, rfl, rfl, fun e he => writeToBuf_fill hwrite he⟩
  | done => exact h.elim
  | _ =>
    obtain ⟨rfl, rfl⟩ := h
    refine .inr ⟨fun _ => rfl, ?_⟩
    intro j hj
    cases hj

/-- `car_cross` reads from its own buffer only, goes to sleep only if that is empty, and signals
after it has read. -/
theorem cross_fill (h : (carCross schedule d c).Effect g c' g') :
    (∃ i car, c = .read i ∧ c' = .signal i car ∧
      ∀ e, e ≠ d → (g'.lanes e).fill = (g.lanes e).fill) ∨
      (∀ e, (g'.lanes e).fill = (g.lanes e).fill) ∧
        ∀ i, c' = .sleep i → (g.lanes d).inBuf = 0 := by
  cases c with
  | loop i =>
    cases h
    refine .inr ⟨fun _ => rfl, ?_⟩
    intro j hj
    split at hj
    · cases hj
    · cases hj
  | test i =>
    cases h
    refine .inr ⟨fun _ => rfl, ?_⟩
    intro j hj
    split at hj
    case isTrue hempty => exact hempty
    case isFalse => cases hj
  | read i =>
    obtain ⟨⟨crossingCar, g₁⟩, hread, heq⟩ := Run.bind_eq_ok.mp h
    cases crossingCar with
    | none => cases heq
    | some car =>
      cases heq
      refine .inl ⟨i, car, rfl, rfl, ?_⟩
      intro e he
      rw [Intersection.lanes_modifyLane_of_ne he, readFromBuf_fill hread]
  | acquire i car k | release i car k =>
    simp only [carCross, setIsectionLocks_path] at h
    split at h
    · obtain ⟨rfl, rfl⟩ := h
      exact .inr ⟨fun _ => rfl, fun j hj => by cases hj⟩
    · cases h
      exact .inr ⟨fun _ => rfl, fun j hj => by cases hj⟩
  | link i car | print i car =>
    cases h
    exact .inr ⟨fun _ => rfl, fun j hj => by cases hj⟩
  | push i car | pass i car | free =>
    cases h
    exact .inr ⟨fun _ => Intersection.congr_modifyLane (F := Lane.fill) rfl, fun j hj => by cases hj⟩
  | done => exact h.elim
  | _ =>
    obtain ⟨rfl, rfl⟩ := h
    exact .inr ⟨fun _ => rfl, fun j hj => by cases hj⟩

/-! ## Who sleeps where -/

/-- The condition variable that a thread waits for. -/
def Thread.cv : Thread → CondVar
  | .carArrive d => .producerCv d
  | .carCross d => .consumerCv d

theorem Thread.cv_injective (h : t.cv = u.cv) : t = u := by
  cases t with
  | carArrive d =>
    cases u with
    | carArrive e =>
      cases h
      rfl
    | carCross e => cases h
  | carCross d =>
    cases u with
    | carArrive e => cases h
    | carCross e =>
      cases h
      rfl

theorem code_wait {pc next : t.Pc} {m : Mutex} (h : code schedule t pc = .wait v m next) :
    v = t.cv := by
  cases t with
  | carArrive d =>
    obtain ⟨_, _, hv, _⟩ := carArrive_wait h
    exact hv
  | carCross d =>
    obtain ⟨_, _, hv, _⟩ := carCross_wait h
    exact hv

theorem sleepsOn_cv (hown : Owned (code schedule) (holds schedule) s) (h : SleepsOn s t v) :
    v = t.cv := by
  obtain ⟨m, c, hs⟩ := h
  obtain ⟨pc, hcode⟩ := hown.asleep t v m c hs
  exact code_wait hcode

/-- A signal to the condition variable of a thread wakes the thread. -/
theorem awake_of_signal (hown : Owned (code schedule) (holds schedule) s) {pc : t.Pc}
    (hran : Ran (code schedule) s s' t pc) (hne : u ≠ t) {next : t.Pc}
    (hcode : code schedule t pc = .signal u.cv next) : ¬Asleep s' u := by
  rintro ⟨v, hv⟩
  have hold := hran.asleep u v hne hv
  obtain rfl := sleepsOn_cv hown hold
  refine hran.signals u.cv next u hcode ?_ hv
  intro w hw
  exact (Thread.cv_injective (sleepsOn_cv hown hw)).symm

theorem arrive_of_asleep (hown : Owned (code schedule) (holds schedule) s)
    (h : Asleep s (.carArrive d)) : ∃ i, s.arrive d = .test i := by
  obtain ⟨v, m, c, hs⟩ := h
  obtain ⟨pc, hcode⟩ := hown.asleep _ v m c hs
  obtain ⟨i, _, _, _, rfl⟩ := carArrive_wait hcode
  exact ⟨i, congrArg Status.ctrl hs⟩

theorem cross_of_asleep (hown : Owned (code schedule) (holds schedule) s)
    (h : Asleep s (.carCross d)) : ∃ i, s.cross d = .test i := by
  obtain ⟨v, m, c, hs⟩ := h
  obtain ⟨pc, hcode⟩ := hown.asleep _ v m c hs
  obtain ⟨i, _, _, _, rfl⟩ := carCross_wait hcode
  exact ⟨i, congrArg Status.ctrl hs⟩

/-! ## Wake-ups -/

/-- No wake-up of the lane is lost: a thread goes to sleep, or sleeps, only while the buffer is as
full or as empty as it found it, unless the other thread is about to signal. -/
structure Wakeups (s : State) (d : Direction) : Prop where
  full : ∀ i, s.arrive d = .sleep i → (s.mem.lanes d).inBuf = (s.mem.lanes d).capacity
  empty : ∀ i, s.cross d = .sleep i → (s.mem.lanes d).inBuf = 0
  producer : Asleep s (.carArrive d) → (s.mem.lanes d).inBuf = (s.mem.lanes d).capacity ∨
    ∃ i car, s.cross d = .signal i car
  consumer : Asleep s (.carCross d) → (s.mem.lanes d).inBuf = 0 ∨ ∃ i, s.arrive d = .signal i

/-- Only these parts of a state matter. -/
theorem Wakeups.congr (h : Wakeups s d) (hfill : (s'.mem.lanes d).fill = (s.mem.lanes d).fill)
    (harr : s'.arrive d = s.arrive d) (hcrs : s'.cross d = s.cross d)
    (hproducer : Asleep s' (.carArrive d) → Asleep s (.carArrive d))
    (hconsumer : Asleep s' (.carCross d) → Asleep s (.carCross d)) : Wakeups s' d := by
  simp only [Lane.fill, Prod.mk.injEq] at hfill
  obtain ⟨hinBuf, hcap⟩ := hfill
  refine ⟨?_, ?_, ?_, ?_⟩
  · rw [harr, hinBuf, hcap]
    exact h.full
  · rw [hcrs, hinBuf]
    exact h.empty
  · rw [hcrs, hinBuf, hcap]
    exact fun hs => h.producer (hproducer hs)
  · rw [harr, hinBuf]
    exact fun hs => h.consumer (hconsumer hs)

/-- A thread that runs sends nobody to sleep but itself. -/
theorem asleep_of_ran {pc : t.Pc} (hran : Ran (code schedule) s s' t pc) (hne : u ≠ t)
    (h : Asleep s' u) : Asleep s u := by
  obtain ⟨v, hv⟩ := h
  exact ⟨v, hran.asleep u v hne hv⟩

/-- What the threads of other lanes do. -/
theorem Wakeups.other {pc : t.Pc} (h : Wakeups s e) (hran : Ran (code schedule) s s' t pc)
    (harrive : .carArrive e ≠ t) (hcross : .carCross e ≠ t)
    (hfill : (s'.mem.lanes e).fill = (s.mem.lanes e).fill) : Wakeups s' e :=
  h.congr hfill (hran.ctrl _ harrive) (hran.ctrl _ hcross) (asleep_of_ran hran harrive)
    (asleep_of_ran hran hcross)

/-- The threads of a lane are not both at its buffer. -/
theorem buffer_exclusive (hown : Owned (code schedule) (holds schedule) s)
    (ha : s.status (.carArrive d) = .running a)
    (haheld : holds schedule (.carArrive d) a (.lock d))
    (hc : s.status (.carCross d) = .running c)
    (hcheld : holds schedule (.carCross d) c (.lock d)) : False := by
  have hheld : (s.status (.carArrive d)).Held (holds schedule (.carArrive d)) (.lock d) := by
    rw [ha]
    exact haheld
  have hheld' : (s.status (.carCross d)).Held (holds schedule (.carCross d)) (.lock d) := by
    rw [hc]
    exact hcheld
  cases hown.exclusive hheld hheld'

theorem arrive_sleeps (hran : Ran (code schedule) s s' (.carArrive d) a)
    (h : Asleep s' (.carArrive d)) : ∃ i, a = .sleep i := by
  obtain ⟨v, hv⟩ := h
  obtain ⟨m, next, hcode⟩ := hran.waits v hv
  obtain ⟨i, hi, _⟩ := carArrive_wait hcode
  exact ⟨i, hi⟩

theorem cross_sleeps (hran : Ran (code schedule) s s' (.carCross d) c)
    (h : Asleep s' (.carCross d)) : ∃ i, c = .sleep i := by
  obtain ⟨v, hv⟩ := h
  obtain ⟨m, next, hcode⟩ := hran.waits v hv
  obtain ⟨i, hi, _⟩ := carCross_wait hcode
  exact ⟨i, hi⟩

/-- `car_arrive` and the wake-ups of its own lane. -/
theorem Wakeups.arrive (hown : Owned (code schedule) (holds schedule) s) (h : Wakeups s d)
    (hran : Ran (code schedule) s s' (.carArrive d) a) : Wakeups s' d := by
  have ha : s.arrive d = a := congrArg Status.ctrl hran.running
  have hcrs : s'.cross d = s.cross d := hran.ctrl (.carCross d) (by simp)
  rcases arrive_fill hran.effect with ⟨i, rfl, ha', _⟩ | ⟨hfill, hsleep⟩
  · -- It has written, and the signal is next. It holds the lock, so `car_cross` is not about to
    -- sleep.
    refine ⟨?_, ?_, ?_, fun _ => .inr ⟨i, ha'⟩⟩
    · intro j hj
      cases ha'.symm.trans hj
    · intro j hj
      rw [hcrs] at hj
      exact (buffer_exclusive hown hran.running rfl (running_cross hown hj (by simp)) rfl).elim
    · intro hs
      obtain ⟨j, hj⟩ := arrive_sleeps hran hs
      cases hj
  · have hfill := hfill d
    simp only [Lane.fill, Prod.mk.injEq] at hfill
    obtain ⟨hinBuf, hcap⟩ := hfill
    refine ⟨?_, ?_, ?_, ?_⟩
    · rw [hinBuf, hcap]
      exact hsleep
    · rw [hcrs, hinBuf]
      exact h.empty
    · intro hs
      obtain ⟨i, rfl⟩ := arrive_sleeps hran hs
      rw [hinBuf, hcap]
      exact .inl (h.full i ha)
    · intro hs
      rw [hinBuf]
      rcases h.consumer (asleep_of_ran hran (by simp) hs) with hempty | ⟨i, hi⟩
      · exact .inl hempty
      · -- The signal was next, and it wakes `car_cross`.
        obtain rfl := ha.symm.trans hi
        exact absurd hs (awake_of_signal hown hran (by simp) rfl)

/-- `car_cross` and the wake-ups of its own lane. -/
theorem Wakeups.cross (hown : Owned (code schedule) (holds schedule) s) (h : Wakeups s d)
    (hran : Ran (code schedule) s s' (.carCross d) c) : Wakeups s' d := by
  have hc : s.cross d = c := congrArg Status.ctrl hran.running
  have harr : s'.arrive d = s.arrive d := hran.ctrl (.carArrive d) (by simp)
  rcases cross_fill hran.effect with ⟨i, car, rfl, hc', _⟩ | ⟨hfill, hsleep⟩
  · -- It has read, and the signal is next. It holds the lock, so `car_arrive` is not about to
    -- sleep.
    refine ⟨?_, ?_, fun _ => .inr ⟨i, car, hc'⟩, ?_⟩
    · intro j hj
      rw [harr] at hj
      exact (buffer_exclusive hown (running_arrive hown hj (by simp)) rfl hran.running rfl).elim
    · intro j hj
      cases hc'.symm.trans hj
    · intro hs
      obtain ⟨j, hj⟩ := cross_sleeps hran hs
      cases hj
  · have hfill := hfill d
    simp only [Lane.fill, Prod.mk.injEq] at hfill
    obtain ⟨hinBuf, hcap⟩ := hfill
    refine ⟨?_, ?_, ?_, ?_⟩
    · rw [harr, hinBuf, hcap]
      exact h.full
    · rw [hinBuf]
      exact hsleep
    · intro hs
      rw [hinBuf, hcap]
      rcases h.producer (asleep_of_ran hran (by simp) hs) with hfull | ⟨i, car, hi⟩
      · exact .inl hfull
      · -- The signal was next, and it wakes `car_arrive`.
        obtain rfl := hc.symm.trans hi
        exact absurd hs (awake_of_signal hown hran (by simp) rfl)
    · intro hs
      obtain ⟨i, rfl⟩ := cross_sleeps hran hs
      rw [hinBuf]
      exact .inl (h.empty i hc)

/-- A thread changes how full the buffer of its own lane is, and no other one. -/
theorem arrive_fill_of_ne (h : (carArrive d a).Effect g a' g') (he : e ≠ d) :
    (g'.lanes e).fill = (g.lanes e).fill := by
  rcases arrive_fill h with ⟨_, _, _, hfill⟩ | ⟨hfill, _⟩
  · exact hfill e he
  · exact hfill e

theorem cross_fill_of_ne (h : (carCross schedule d c).Effect g c' g') (he : e ≠ d) :
    (g'.lanes e).fill = (g.lanes e).fill := by
  rcases cross_fill h with ⟨_, _, _, _, hfill⟩ | ⟨hfill, _⟩
  · exact hfill e he
  · exact hfill e

/-- No step loses a wake-up. -/
theorem wakeups_moves (hown : Owned (code schedule) (holds schedule) s)
    (h : ∀ d, Wakeups s d) (hmoves : Moves (code schedule) s s') (d : Direction) :
    Wakeups s' d := by
  rcases hmoves.cases with hidle | ⟨t, c, hran⟩
  · have hasleep : ∀ u, Asleep s' u → Asleep s u := by
      rintro u ⟨v, hv⟩
      exact ⟨v, hidle.asleep u v hv⟩
    exact (h d).congr (by rw [hidle.mem]) (hidle.ctrl _) (hidle.ctrl _) (hasleep _) (hasleep _)
  · cases t with
    | carArrive e =>
      by_cases hd : d = e
      · subst hd
        exact (h d).arrive hown hran
      · exact (h d).other hran (by simpa using hd) (by simp) (arrive_fill_of_ne hran.effect hd)
    | carCross e =>
      by_cases hd : d = e
      · subst hd
        exact (h d).cross hown hran
      · exact (h d).other hran (by simp) (by simpa using hd) (cross_fill_of_ne hran.effect hd)

theorem not_asleep_start {laneLength : Nat} : ¬Asleep (start laneLength schedule) t := by
  rintro ⟨v, m, c, hs⟩
  cases t with
  | carArrive d => cases hs
  | carCross d => cases hs

theorem wakeups_start {laneLength : Nat} (d : Direction) :
    Wakeups (start laneLength schedule) d where
  full i hi := by cases hi
  empty i hi := by cases hi
  producer hs := absurd hs not_asleep_start
  consumer hs := absurd hs not_asleep_start

/-! ## Faults -/

/-- No thread follows a pointer that is null or to freed memory, reads past a path, or exits. -/
theorem faultless (h : Inv schedule cap s.mem s.arrive s.cross) :
    Faultless (code schedule) s := by
  obtain ⟨crossed, outs, hc⟩ := h
  intro t pc f err hs hcode hf
  cases t with
  | carArrive d =>
    have ha : s.arrive d = pc := congrArg Status.ctrl hs
    obtain ⟨queue, rest, hl⟩ := hc.lanes d
    cases pc with
    | loop i =>
      cases hcode
      cases hf
    | test i =>
      cases hcode
      cases hf
    | write i =>
      cases hcode
      rw [ha] at hl
      obtain ⟨_, _, _, _, hwrite, _⟩ := hl.write
      simp only [hwrite] at hf
      cases hf
    | _ => cases hcode
  | carCross d =>
    have hcr : s.cross d = pc := congrArg Status.ctrl hs
    obtain ⟨queue, rest, hl⟩ := hc.lanes d
    cases pc with
    | read i =>
      cases hcode
      rw [hcr] at hl
      obtain ⟨_, _, _, _, _, hread, _⟩ := hl.read
      simp only [hread] at hf
      cases hf
    | acquire i car k =>
      simp only [code, carCross, setIsectionLocks_path] at hcode
      split at hcode
      · cases hcode
      · cases hcode
        cases hf
    | release i car k =>
      simp only [code, carCross, setIsectionLocks_path] at hcode
      split at hcode
      · cases hcode
      · cases hcode
        cases hf
    | lock i => cases hcode
    | sleep i => cases hcode
    | signal i car => cases hcode
    | unlock i car => cases hcode
    | done => cases hcode
    | _ =>
      cases hcode
      cases hf

/-! ## Progress -/

theorem exited_arrive (h : Exited (code schedule) s (.carArrive d)) : s.arrive d = .done := by
  obtain ⟨pc, hs, hcode⟩ := h
  have hctrl : s.arrive d = pc := congrArg Status.ctrl hs
  rw [hctrl, carArrive_exit hcode]

section

variable {laneLength : Nat} {crossed : List CarPtr}

/-- The threads of a lane do not both sleep: the buffer would be full and empty. -/
theorem not_both_asleep (hlen : 0 < cap) (hown : Owned (code schedule) (holds schedule) s)
    (hwake : Wakeups s d)
    (hlane : LaneInv schedule cap d s.mem (s.arrive d) (s.cross d) crossed) :
    ¬(Asleep s (.carArrive d) ∧ Asleep s (.carCross d)) := by
  rintro ⟨harrive, hcross⟩
  obtain ⟨i, ha⟩ := arrive_of_asleep hown harrive
  obtain ⟨j, hc⟩ := cross_of_asleep hown hcross
  obtain ⟨queue, rest, hl⟩ := hlane
  rcases hwake.producer harrive with hfull | ⟨_, _, hsignal⟩
  · rcases hwake.consumer hcross with hempty | ⟨_, hsignal⟩
    · rw [hempty, hl.capacity] at hfull
      omega
    · cases ha.symm.trans hsignal
  · cases hc.symm.trans hsignal

/-- `car_arrive` does not sleep once `car_cross` has returned, which has read all cars. -/
theorem not_asleep_of_cross_done (hlen : 0 < cap)
    (hwake : Wakeups s d)
    (hlane : LaneInv schedule cap d s.mem (s.arrive d) (s.cross d) crossed)
    (hdone : s.cross d = .done) : ¬Asleep s (.carArrive d) := by
  intro hs
  obtain ⟨queue, rest, hl⟩ := hlane
  rcases hwake.producer hs with hfull | ⟨_, _, hsignal⟩
  · rw [hdone] at hl
    have hcars := congrArg List.length hl.cars
    rw [← hl.crossed_of_done] at hcars
    simp only [CrossPc.hand, List.append_nil, List.length_append] at hcars
    rw [hl.inBuf, hl.capacity] at hfull
    omega
  · cases hdone.symm.trans hsignal

/-- `car_cross` does not sleep once `car_arrive` has returned, which has written all cars: as long
as it has not read them all, there is one in the buffer. -/
theorem not_asleep_of_arrive_done (hown : Owned (code schedule) (holds schedule) s)
    (hwake : Wakeups s d)
    (hlane : LaneInv schedule cap d s.mem (s.arrive d) (s.cross d) crossed)
    (hdone : s.arrive d = .done) : ¬Asleep s (.carCross d) := by
  intro hs
  obtain ⟨i, hc⟩ := cross_of_asleep hown hs
  obtain ⟨queue, rest, hl⟩ := hlane
  rcases hwake.consumer hs with hempty | ⟨_, hsignal⟩
  · have hwrote := hl.wrote
    have htook := hl.took
    rw [hdone] at hwrote
    rw [hc] at htook hwrote
    simp only [ArrivePc.Wrote, CrossPc.Took, List.length_append] at hwrote htook
    rw [hl.inBuf] at hempty
    omega
  · cases hdone.symm.trans hsignal

end

/-! ## Runs -/

/-- In every state that a run gets to, the mutexes have the right owners, and no wake-up is lost. -/
theorem run_wakeups {run : List (Action Thread)}
    (hrun : Run.exec (step schedule) run (start LANE_LENGTH schedule) = .ok s) :
    Owned (code schedule) (holds schedule) s ∧ ∀ d, Wakeups s d :=
  exec_owned (I := fun (s : State) => ∀ d, Wakeups s d) discipline
    (owned_start LANE_LENGTH schedule) wakeups_start
    (fun _ _ hown hwake hmoves => wakeups_moves hown hwake hmoves) hrun

/-- The threads of a lane do not both sleep. -/
theorem run_awake {run : List (Action Thread)}
    (hrun : Run.exec (step schedule) run (start LANE_LENGTH schedule) = .ok s) (d : Direction) :
    ¬(Asleep s (.carArrive d) ∧ Asleep s (.carCross d)) := by
  have hlen : 0 < LANE_LENGTH := by decide
  obtain ⟨hown, hwake⟩ := run_wakeups hrun
  obtain ⟨_, _, _, hc⟩ := run_inv hlen hrun
  exact not_both_asleep hlen hown (hwake d) (hc.lanes d)

/-- As long as a thread has not returned, some thread can take a step. -/
theorem exists_step {run : List (Action Thread)}
    (hrun : Run.exec (step schedule) run (start LANE_LENGTH schedule) = .ok s)
    (h : ∃ t, ¬Exited (code schedule) s t) :
    ∃ t waiter s', step schedule (.run t waiter) s = .ok s' := by
  have hlen : 0 < LANE_LENGTH := by decide
  obtain ⟨hown, hwake⟩ := run_wakeups hrun
  obtain ⟨_, hinv⟩ := run_inv hlen hrun
  have hfault := faultless hinv
  obtain ⟨_, _, hc⟩ := hinv
  obtain ⟨t, ht⟩ := h
  by_contra hstuck
  have hall := stuck_all discipline ordered hown rank_le hfault
    fun t waiter s' hstep => hstuck ⟨t, waiter, s', hstep⟩
  -- A thread that is stuck sleeps, and then the other one of its lane can neither have returned
  -- nor sleep.
  have hsleep : Asleep s t := (hall t).resolve_left ht
  cases t with
  | carArrive d =>
    rcases hall (.carCross d) with hexit | hs
    · exact not_asleep_of_cross_done hlen (hwake d) (hc.lanes d) (exited_cross hexit) hsleep
    · exact run_awake hrun d ⟨hsleep, hs⟩
  | carCross d =>
    rcases hall (.carArrive d) with hexit | hs
    · exact not_asleep_of_arrive_done hown (hwake d) (hc.lanes d) (exited_arrive hexit) hsleep
    · exact run_awake hrun d ⟨hs, hsleep⟩

/-- What keeps a state of the simulation from being stuck. -/
structure Live (schedule : List Car) (s : State) : Prop where
  progress : (∃ t, ¬Exited (code schedule) s t) →
    ∃ t waiter s', step schedule (.run t waiter) s = .ok s'
  acyclic : ∀ t, ¬Relation.TransGen (WaitsFor (code schedule) s) t t
  awake : ∀ d, ¬(Asleep s (.carArrive d) ∧ Asleep s (.carCross d))
  wakeups : ∀ d, Wakeups s d
  safe : ∀ a err, step schedule a s ≠ .error (.fault err)

/-- The intersection never deadlocks: in every state that a run of the simulation gets to, if some
thread has not returned, a thread can run its next instruction, no threads wait for each other's
mutexes in a circle, the two threads of a lane are not both asleep, and no wake-up is lost. -/
theorem run_progresses {schedule : List Car} {run : List (Action Thread)} {s : State}
    (hrun : Run.exec (step schedule) run (start LANE_LENGTH schedule) = .ok s) :
    Live schedule s := by
  obtain ⟨hown, hwake⟩ := run_wakeups hrun
  obtain ⟨_, hinv⟩ := run_inv (by decide) hrun
  exact
    { progress := exists_step hrun
      acyclic := fun t => ordered.acyclic discipline hown
      awake := run_awake hrun
      wakeups := hwake
      safe := (faultless hinv).step }

theorem run_progresses_asleep :
    ∃ s, Run.exec (step [⟨7, .north, .west⟩])
      (List.replicate 4 (.run (.carCross .north) none))
      (start LANE_LENGTH [⟨7, .north, .west⟩]) = .ok s ∧
      Asleep s (.carCross .north) ∧ Live [⟨7, .north, .west⟩] s := by
  have hrun : ∃ s, Run.exec (step [⟨7, .north, .west⟩])
      (List.replicate 4 (.run (.carCross .north) none))
      (start LANE_LENGTH [⟨7, .north, .west⟩]) = .ok s ∧ Asleep s (.carCross .north) :=
    ⟨_, rfl, .consumerCv .north, .lock .north, .test 0, rfl⟩
  obtain ⟨s, hs, hasleep⟩ := hrun
  exact ⟨s, hs, hasleep, run_progresses hs⟩

end Traffic

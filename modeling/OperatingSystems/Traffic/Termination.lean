-- SUMMARY: The simulation comes to an end, whatever the scheduler does: a bound on the steps of a run.
import Mathlib.Algebra.BigOperators.Ring.Finset
import OperatingSystems.Library.Budgets
import OperatingSystems.Traffic.Progress

/-!
# Termination

A car costs its two threads a bounded number of steps: nine to get to the buffer, and twenty-three
to get from there across. The signal after a car pays for the thread that it wakes, which tests the
buffer once more. So a run is bounded by the length of the schedule, up to wake-ups that no signal
caused.
-/

namespace Traffic

open Library Library.Threads

variable {schedule : List Car} {s : State} {d : Direction} {n : Nat}

/-! ## Budgets -/

/-- The steps that `car_arrive` can still take in a lane of `n` cars. -/
def ArrivePc.cost (n : Nat) : ArrivePc → Nat
  | .loop i => 9 * (n - i) + 1
  | .lock i => 9 * (n - (i + 1)) + 9
  | .test i => 9 * (n - (i + 1)) + 8
  | .sleep i => 9 * (n - (i + 1)) + 7
  | .write i => 9 * (n - (i + 1)) + 7
  | .signal i => 9 * (n - (i + 1)) + 6
  | .unlock i => 9 * (n - (i + 1)) + 2
  | .done => 0

/-- The steps that `car_cross` can still take in a lane of `n` cars. -/
def CrossPc.cost (schedule : List Car) (n : Nat) : CrossPc → Nat
  | .loop i => 23 * (n - i) + 2
  | .lock i => 23 * (n - (i + 1)) + 24
  | .test i => 23 * (n - (i + 1)) + 23
  | .sleep i => 23 * (n - (i + 1)) + 22
  | .read i => 23 * (n - (i + 1)) + 22
  | .signal i car => 23 * (n - (i + 1)) + 13 + 2 * (path schedule car).length
  | .unlock i car => 23 * (n - (i + 1)) + 9 + 2 * (path schedule car).length
  | .acquire i car k =>
      23 * (n - (i + 1)) + 8 + (path schedule car).length + ((path schedule car).length - k)
  | .link i car => 23 * (n - (i + 1)) + 7 + (path schedule car).length
  | .push i car => 23 * (n - (i + 1)) + 6 + (path schedule car).length
  | .pass i car => 23 * (n - (i + 1)) + 5 + (path schedule car).length
  | .release i car k => 23 * (n - (i + 1)) + 4 + ((path schedule car).length - k)
  | .print i _ => 23 * (n - (i + 1)) + 3
  | .free => 1
  | .done => 0

/-- The steps that a thread can still take. -/
def Thread.cost (schedule : List Car) : (t : Thread) → t.Pc → Nat
  | .carArrive d => ArrivePc.cost (laneCars schedule d).length
  | .carCross d => CrossPc.cost schedule (laneCars schedule d).length

/-- The lanes have counted their cars. -/
def Loaded (schedule : List Car) (g : Intersection) : Prop :=
  ∀ d, (g.lanes d).inc = (laneCars schedule d).length

theorem length_path_le (schedule : List Car) (car : CarPtr) : (path schedule car).length ≤ 4 := by
  rw [length_path, quadsReq]
  cases computeTurn (carAt schedule car).inDir (carAt schedule car).outDir <;> decide

/-- Every instruction of `car_arrive` takes something off its budget. -/
theorem carArrive_affordable (a : ArrivePc) :
    (carArrive d a).Affordable (Loaded schedule) (ArrivePc.cost (laneCars schedule d).length)
      (a.cost (laneCars schedule d).length) := by
  cases a with
  | loop i =>
    intro g g' next hg heq
    cases heq
    rw [hg d]
    split
    · simp only [ArrivePc.cost]
      omega
    · exact Nat.succ_pos _
  | test i =>
    intro g g' next hg heq
    cases heq
    split <;> simp [ArrivePc.cost]
  | write i =>
    intro g g' next hg heq
    obtain ⟨g₁, _, heq⟩ := Run.bind_eq_ok.mp heq
    cases heq
    simp [ArrivePc.cost]
  | done => trivial
  | _ => simp [carArrive, Instr.Affordable, ArrivePc.cost]

/-- Every instruction of `car_cross` takes something off its budget. -/
theorem carCross_affordable (c : CrossPc) :
    (carCross schedule d c).Affordable (Loaded schedule)
      (CrossPc.cost schedule (laneCars schedule d).length)
      (c.cost schedule (laneCars schedule d).length) := by
  cases c with
  | loop i =>
    intro g g' next hg heq
    cases heq
    rw [hg d]
    split
    · simp only [CrossPc.cost]
      omega
    · simp only [CrossPc.cost]
      omega
  | test i =>
    intro g g' next hg heq
    cases heq
    split <;> simp [CrossPc.cost]
  | read i =>
    intro g g' next hg heq
    obtain ⟨⟨crossingCar, g₁⟩, _, heq⟩ := Run.bind_eq_ok.mp heq
    cases crossingCar with
    | none => cases heq
    | some car =>
      cases heq
      have hlen := length_path_le schedule car
      simp only [CrossPc.cost]
      omega
  | acquire i car k | release i car k =>
    simp only [carCross, setIsectionLocks_path]
    split
    · simp only [Instr.Affordable, CrossPc.cost]
      omega
    · intro g g' next hg heq
      cases heq
      simp only [CrossPc.cost]
      omega
  | link i car | push i car | pass i car | print i car | free =>
    intro g g' next hg heq
    cases heq
    simp only [CrossPc.cost]
    omega
  | done => trivial
  | _ =>
    simp only [carCross, Instr.Affordable, CrossPc.cost]
    omega

theorem budget (schedule : List Car) :
    Budget (code schedule) (Loaded schedule) (Thread.cost schedule) := by
  intro t pc
  cases t with
  | carArrive d => exact carArrive_affordable pc
  | carCross d => exact carCross_affordable pc

/-! ## The budget of the whole simulation -/

/-- The lanes have all cars of the schedule. -/
theorem sum_length_laneCars (schedule : List Car) :
    (Finset.univ.sum fun d => (laneCars schedule d).length) = schedule.length := by
  induction schedule using List.reverseRecOn with
  | nil => rfl
  | append_singleton schedule c ih =>
    have hlane : ∀ d, (laneCars (schedule ++ [c]) d).length =
        (laneCars schedule d).length + if c.inDir = d then 1 else 0 := by
      intro d
      rw [laneCars_concat]
      split <;> simp
    simp only [hlane, Finset.sum_add_distrib, ih, Finset.sum_ite_eq, Finset.mem_univ, if_true,
      List.length_append, List.length_singleton]

theorem sum_threads (f : Thread → Nat) : Finset.univ.sum f =
    (Finset.univ.sum fun d => f (.carArrive d)) + Finset.univ.sum fun d => f (.carCross d) := by
  have hdisjoint : Disjoint (Finset.univ.image Thread.carArrive)
      (Finset.univ.image Thread.carCross) := by decide
  have huniv : (Finset.univ : Finset Thread) =
      Finset.univ.image Thread.carArrive ∪ Finset.univ.image Thread.carCross := rfl
  rw [huniv, Finset.sum_union hdisjoint, Finset.sum_image fun _ _ _ _ h => Thread.carArrive.inj h,
    Finset.sum_image fun _ _ _ _ h => Thread.carCross.inj h]

/-- What the simulation may cost at the start. -/
theorem cost_start (laneLength : Nat) (schedule : List Car) :
    (start laneLength schedule).cost (Thread.cost schedule) = 32 * schedule.length + 12 := by
  have harrive : (Finset.univ.sum fun d => 9 * (laneCars schedule d).length + 1) =
      9 * schedule.length + 4 := by
    rw [Finset.sum_add_distrib, ← Finset.mul_sum, sum_length_laneCars]
    rfl
  have hcross : (Finset.univ.sum fun d => 23 * (laneCars schedule d).length + 2) =
      23 * schedule.length + 8 := by
    rw [Finset.sum_add_distrib, ← Finset.mul_sum, sum_length_laneCars]
    rfl
  have hcost : (start laneLength schedule).cost (Thread.cost schedule) =
      (Finset.univ.sum fun d => 9 * (laneCars schedule d).length + 1) +
        Finset.univ.sum fun d => 23 * (laneCars schedule d).length + 2 :=
    sum_threads _
  rw [hcost, harrive, hcross]
  omega

/-! ## Runs -/

theorem run_loaded {run : List (Action Thread)}
    (hrun : Run.exec (step schedule) run (start LANE_LENGTH schedule) = .ok s) :
    Loaded schedule s.mem := by
  obtain ⟨_, _, _, hc⟩ := run_inv (by decide) hrun
  intro d
  obtain ⟨_, _, hl⟩ := hc.lanes d
  exact hl.inc

/-- From every state that a run gets to, all threads get to return. -/
theorem run_completes {run : List (Action Thread)}
    (hrun : Run.exec (step schedule) run (start LANE_LENGTH schedule) = .ok s) :
    ∃ rest s', (∀ a ∈ rest, Action.isWake a = false) ∧
      Run.exec (step schedule) rest s = .ok s' ∧ ∀ t, Exited (code schedule) s' t := by
  have happend : ∀ {rest s'}, Run.exec (step schedule) rest s = .ok s' →
      Run.exec (step schedule) (run ++ rest) (start LANE_LENGTH schedule) = .ok s' := by
    intro rest s' hrest
    rw [Run.exec_append_of_ok hrun, hrest]
  exact (budget schedule).completes (fun _ _ h => run_loaded (happend h)) fun _ _ h => exists_step (happend h)

/-- The simulation comes to an end: no run is longer than thirty-two steps for each car and twelve
more, and four for each wake-up that no signal caused, and from every state that a run gets to, all
threads get to return. -/
theorem run_terminates {schedule : List Car} {run : List (Action Thread)} {s : State}
    (hrun : Run.exec (step schedule) run (start LANE_LENGTH schedule) = .ok s) :
    run.length ≤ 32 * schedule.length + 12 + 4 * run.countP Action.isWake ∧
      ∃ rest s', (∀ a ∈ rest, Action.isWake a = false) ∧
        Run.exec (step schedule) rest s = .ok s' ∧ ∀ t, Exited (code schedule) s' t := by
  refine ⟨?_, run_completes hrun⟩
  have hle : run.length + s.cost (Thread.cost schedule) ≤
      (start LANE_LENGTH schedule).cost (Thread.cost schedule) + 4 * run.countP Action.isWake :=
    (budget schedule).length_le (fun _ _ h => run_loaded h) hrun
  rw [cost_start] at hle
  omega

/-- From the middle of the run the cars all get across, in a hundred and eight steps at most. -/
theorem run_terminates_three :
    (crossTogether.take 36).length ≤ 108 ∧ ∃ rest s', (∀ a ∈ rest, Action.isWake a = false) ∧
      Run.exec (step threeCars) (crossTogether.take 36 ++ rest) (start LANE_LENGTH threeCars) = .ok s' := by
  obtain ⟨s', hs', _⟩ := exec_crossTogether
  rw [← List.take_append_drop 36 crossTogether, Run.exec_append] at hs'
  obtain ⟨s, hs, _⟩ := Run.bind_eq_ok.mp hs'
  obtain ⟨hlen, rest, s'', hrest, hexec, _⟩ := run_terminates hs
  refine ⟨hlen, rest, s'', hrest, ?_⟩
  rw [Run.exec_append_of_ok hs, hexec]

end Traffic

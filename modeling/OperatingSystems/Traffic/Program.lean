-- SUMMARY: The eight threads of the traffic simulation: their programs, and the mutexes they hold at each point.
import Mathlib.Data.Finset.Image
import OperatingSystems.Library.Threads
import OperatingSystems.Traffic.Intersection

/-!
# The threads

The programs of `car_arrive` and `car_cross`, with a control state before each operation on a mutex
or condition variable, before each access to the list of cars that have left, and before the other
parts of the loop body. A lane has one thread of each kind.
-/

namespace Traffic

open Library Library.Threads

inductive Thread where
  | carArrive (d : Direction)
  | carCross (d : Direction)
deriving DecidableEq

instance : Fintype Thread where
  elems := Finset.univ.image Thread.carArrive ∪ Finset.univ.image Thread.carCross
  complete t := by cases t <;> simp

/-- The control states of `car_arrive`; `i` is the loop variable. -/
inductive ArrivePc where
  | loop (i : Nat)
  | lock (i : Nat)
  | test (i : Nat)
  | sleep (i : Nat)
  | write (i : Nat)
  | signal (i : Nat)
  | unlock (i : Nat)
  | done

/-- The control states of `car_cross`; `car` is `crossing_car`, and `k` the loop variable of
`set_isection_locks`. -/
inductive CrossPc where
  | loop (i : Nat)
  | lock (i : Nat)
  | test (i : Nat)
  | sleep (i : Nat)
  | read (i : Nat)
  | signal (i : Nat) (car : CarPtr)
  | unlock (i : Nat) (car : CarPtr)
  | acquire (i : Nat) (car : CarPtr) (k : Nat)
  | link (i : Nat) (car : CarPtr)
  | push (i : Nat) (car : CarPtr)
  | pass (i : Nat) (car : CarPtr)
  | release (i : Nat) (car : CarPtr) (k : Nat)
  | print (i : Nat) (car : CarPtr)
  | free
  | done

def Thread.Pc : Thread → Type
  | .carArrive _ => ArrivePc
  | .carCross _ => CrossPc

/-- An instruction of a program with control states `D`. -/
abbrev Op (D : Type) : Type := Instr Mutex CondVar Intersection D Fault

/-- `car_arrive`. -/
def carArrive (d : Direction) : ArrivePc → Op ArrivePc
  | .loop i => .compute fun g => .ok (g, if i < (g.lanes d).inc then .lock i else .done)
  | .lock i => .lock (.lock d) (.test i)
  -- The condition of the `while` loop, to which a wait returns.
  | .test i => .compute fun g =>
      .ok (g, if (g.lanes d).inBuf = (g.lanes d).capacity then .sleep i else .write i)
  | .sleep i => .wait (.producerCv d) (.lock d) (.test i)
  | .write i => .compute fun g => do
      let g ← writeToBuf d g
      .ok (g, .signal i)
  | .signal i => .signal (.consumerCv d) (.unlock i)
  | .unlock i => .unlock (.lock d) (.loop (i + 1))
  | .done => .exit

/-- A round of the loop of `set_isection_locks`, or the way out of it. -/
def setIsectionLocks {D : Type} (quadsReq : Nat) (pathArr : List Nat) (k : Nat)
    (mutexFn : Mutex → Op D) (after : D) : Op D :=
  if k < quadsReq then
    match pathArr[k]? with
    | none => .compute fun _ => .error .outOfBounds
    | some q => mutexFn (quadAddr q)
  else .compute fun g => .ok (g, after)

/-- `num_of_quads` for a car. -/
def quadsReq (schedule : List Car) (car : CarPtr) : Nat :=
  (computeTurn (carAt schedule car).inDir (carAt schedule car).outDir).toNat

/-- `path` for a car. -/
def path (schedule : List Car) (car : CarPtr) : List Nat :=
  computePath (carAt schedule car).inDir (carAt schedule car).outDir

/-- `car_cross`. The two assignments of `complete_cross` are the control states `link` and
`push`. -/
def carCross (schedule : List Car) (d : Direction) : CrossPc → Op CrossPc
  | .loop i => .compute fun g => .ok (g, if i < (g.lanes d).inc then .lock i else .free)
  | .lock i => .lock (.lock d) (.test i)
  | .test i => .compute fun g => .ok (g, if (g.lanes d).inBuf = 0 then .sleep i else .read i)
  | .sleep i => .wait (.consumerCv d) (.lock d) (.test i)
  | .read i => .compute fun g => do
      let (crossingCar, g) ← readFromBuf d g
      match crossingCar with
      -- The buffer was empty after all.
      | none => .error .exit
      | some car => .ok (g.modifyLane d fun l => { l with inBuf := l.inBuf - 1 }, .signal i car)
  | .signal i car => .signal (.producerCv d) (.unlock i car)
  -- The buffer is free for others while the car crosses.
  | .unlock i car => .unlock (.lock d) (.acquire i car 0)
  | .acquire i car k =>
      setIsectionLocks (quadsReq schedule car) (path schedule car) k
        (fun m => .lock m (.acquire i car (k + 1))) (.link i car)
  | .link i car => .compute fun g =>
      let crossLane := g.lanes (carAt schedule car).outDir
      .ok ({ g with next := Function.update g.next car crossLane.outCars }, .push i car)
  | .push i car => .compute fun g =>
      .ok (g.modifyLane (carAt schedule car).outDir fun l => { l with outCars := some car },
        .pass i car)
  | .pass i car => .compute fun g =>
      .ok (g.modifyLane d fun l => { l with passed := l.passed + 1 }, .release i car 0)
  | .release i car k =>
      setIsectionLocks (quadsReq schedule car) (path schedule car) k
        (fun m => .unlock m (.release i car (k + 1))) (.print i car)
  | .print i car => .compute fun g =>
      let c := carAt schedule car
      .ok ({ g with stdout := g.stdout ++ [(c.inDir.toNat, c.outDir.toNat, c.id)] }, .loop (i + 1))
  | .free => .compute fun g => .ok (g.modifyLane d fun l => { l with buffer := none }, .done)
  | .done => .exit

/-- The program of each thread. -/
def code (schedule : List Car) : (t : Thread) → t.Pc → Op t.Pc
  | .carArrive d => carArrive d
  | .carCross d => carCross schedule d

abbrev State : Type := Threads.State Thread Mutex CondVar Intersection Thread.Pc

/-- The start of the threads, in lanes of the given length. -/
def start (laneLength : Nat) (schedule : List Car) : State where
  mem := parseSchedule schedule (initIntersection laneLength .zero)
  status
    | .carArrive _ => .running (.loop 0 : ArrivePc)
    | .carCross _ => .running (.loop 0 : CrossPc)
  owner _ := none

/-- A step of the simulation. -/
def step (schedule : List Car) : Action Thread → State → Except (Stop Fault) State :=
  Threads.step (code schedule)

/-! ## The mutexes held -/

/-- The quadrants of a part of a path. -/
def Quads (qs : List Nat) (m : Mutex) : Prop := ∃ q ∈ qs, quadAddr q = m

/-- The mutexes that a thread holds at a control state: the lock of its lane while it is at the
buffer, and the quadrants of the path of a car while the car crosses. -/
def holds (schedule : List Car) : (t : Thread) → t.Pc → Mutex → Prop
  | .carArrive d, pc, m =>
    match (pc : ArrivePc) with
    | .test _ => m = .lock d
    | .sleep _ => m = .lock d
    | .write _ => m = .lock d
    | .signal _ => m = .lock d
    | .unlock _ => m = .lock d
    | _ => False
  | .carCross d, pc, m =>
    match (pc : CrossPc) with
    | .test _ => m = .lock d
    | .sleep _ => m = .lock d
    | .read _ => m = .lock d
    | .signal _ _ => m = .lock d
    | .unlock _ _ => m = .lock d
    | .acquire _ car k => Quads ((path schedule car).take k) m
    | .link _ car => Quads (path schedule car) m
    | .push _ car => Quads (path schedule car) m
    | .pass _ car => Quads (path schedule car) m
    | .release _ car k => Quads ((path schedule car).drop k) m
    | _ => False

variable {schedule : List Car} {car : CarPtr} {k : Nat}

theorem length_path (schedule : List Car) (car : CarPtr) :
    (path schedule car).length = quadsReq schedule car := length_computePath _ _

/-- `set_isection_locks` gets to each quadrant of the path and then out of the loop. -/
theorem setIsectionLocks_path {D : Type} (mutexFn : Mutex → Op D) (after : D) :
    setIsectionLocks (quadsReq schedule car) (path schedule car) k mutexFn after =
      if h : k < (path schedule car).length then mutexFn (quadAddr (path schedule car)[k])
      else .compute fun g => .ok (g, after) := by
  unfold setIsectionLocks
  rw [← length_path]
  by_cases hk : k < (path schedule car).length
  · rw [if_pos hk, dif_pos hk, List.getElem?_eq_getElem hk]
  · rw [if_neg hk, dif_neg hk]

end Traffic

-- SUMMARY: The intersection: its lanes, cars and mutexes, the schedule, and the paths of the cars.
import Mathlib.Data.Fintype.Defs
import Mathlib.Data.Finset.Insert
import Mathlib.Logic.Function.Basic
import OperatingSystems.Library.Links

/-!
# The intersection

The data of `traffic.h` and the functions of `cars.c` that are not about threads: the schedule is
parsed into the lanes, and the path of a car is computed from its directions. A car is known by its
line in the schedule, which stands for the pointer to it.
-/

namespace Traffic

open Library

/-- Why a thread fails: it follows a null pointer or one to freed memory, reads past an array, or
calls `exit`. -/
inductive Fault where
  | nullPointer
  | freed
  | outOfBounds
  | exit
deriving DecidableEq, Repr

/-! ## Data -/

inductive Direction where
  | north
  | west
  | south
  | east
deriving DecidableEq, Repr

instance : Fintype Direction where
  elems := {.north, .west, .south, .east}
  complete d := by cases d <;> decide

def Direction.toNat : Direction → Nat
  | .north => 0
  | .west => 1
  | .south => 2
  | .east => 3

/-- What `struct car` keeps of a line of the schedule. -/
structure Car where
  id : Int
  inDir : Direction
  outDir : Direction
deriving DecidableEq, Repr

instance : Inhabited Car := ⟨⟨0, .north, .north⟩⟩

/-- A pointer to a car. -/
abbrev CarPtr := Nat

/-- `struct lane` without its mutex and condition variables. Numbers are natural numbers, and the
buffer has a pointer once it is allocated, until it is freed. -/
structure Lane where
  inCars : Option CarPtr
  outCars : Option CarPtr
  inc : Nat
  passed : Nat
  buffer : Option (Nat → Option CarPtr)
  head : Nat
  tail : Nat
  capacity : Nat
  inBuf : Nat

def Lane.zero : Lane :=
  { inCars := none, outCars := none, inc := 0, passed := 0, buffer := none, head := 0, tail := 0,
    capacity := 0, inBuf := 0 }

/-- The lanes, the `next` fields of the cars, and what has been printed. -/
structure Intersection where
  lanes : Direction → Lane
  next : CarPtr → Option CarPtr
  stdout : List (Nat × Nat × Int)

def Intersection.zero : Intersection :=
  { lanes := fun _ => .zero, next := fun _ => none, stdout := [] }

/-- Assign to fields of a lane. -/
def Intersection.modifyLane (g : Intersection) (d : Direction) (f : Lane → Lane) : Intersection :=
  { g with lanes := Function.update g.lanes d (f (g.lanes d)) }

section

variable {g : Intersection} {d d' : Direction} {f : Lane → Lane}

@[simp] theorem Intersection.lanes_modifyLane : (g.modifyLane d f).lanes d = f (g.lanes d) :=
  Function.update_self _ _ _

theorem Intersection.lanes_modifyLane_of_ne (h : d' ≠ d) :
    (g.modifyLane d f).lanes d' = g.lanes d' := Function.update_of_ne h _ _

/-- What an assignment keeps in its own lane, it keeps in all lanes. -/
theorem Intersection.congr_modifyLane {β : Type} {F : Lane → β}
    (h : F (f (g.lanes d)) = F (g.lanes d)) : F ((g.modifyLane d f).lanes d') = F (g.lanes d') := by
  by_cases hd : d' = d
  · subst hd
    rw [lanes_modifyLane, h]
  · rw [lanes_modifyLane_of_ne hd]

@[simp] theorem Intersection.next_modifyLane : (g.modifyLane d f).next = g.next := rfl

end

/-- The mutexes that `init_intersection` initialises. -/
inductive Mutex where
  | quad (i : Fin 4)
  | lock (d : Direction)
deriving DecidableEq

inductive CondVar where
  | producerCv (d : Direction)
  | consumerCv (d : Direction)
deriving DecidableEq

/-- `&isection.quad[i]`. The array has four elements; right after it lies `isection.lanes[0]`, which
begins with its lock. -/
def quadAddr (i : Nat) : Mutex := if h : i < 4 then .quad ⟨i, h⟩ else .lock .north

/-! ## Schedule -/

def LANE_LENGTH : Nat := 10

/-- The car that a pointer points to. -/
def carAt (schedule : List Car) (car : CarPtr) : Car := schedule.getD car default

/-- `init_intersection`, with the length of the lanes as a parameter. -/
def initIntersection (laneLength : Nat) (g : Intersection) : Intersection :=
  { g with lanes := fun d =>
      { g.lanes d with capacity := laneLength, buffer := some fun _ => none } }

/-- One line of the schedule. -/
def parseLine (g : Intersection) (line : Car × CarPtr) : Intersection :=
  -- The new car goes in front, so the list is in reverse order.
  let g := { g with next := Function.update g.next line.2 (g.lanes line.1.inDir).inCars }
  g.modifyLane line.1.inDir fun l => { l with inCars := some line.2, inc := l.inc + 1 }

/-- `parse_schedule`. -/
def parseSchedule (schedule : List Car) (g : Intersection) : Intersection :=
  schedule.zipIdx.foldl parseLine g

/-- The cars of a lane, as the list of the lane has them at first: from the last one in the schedule
to the first one. -/
def laneCars (schedule : List Car) (d : Direction) : List CarPtr :=
  ((List.range schedule.length).filter fun car => (carAt schedule car).inDir = d).reverse

theorem mem_laneCars {schedule : List Car} {d : Direction} {car : CarPtr} :
    car ∈ laneCars schedule d ↔ car < schedule.length ∧ (carAt schedule car).inDir = d := by
  simp [laneCars]

theorem laneCars_nodup (schedule : List Car) (d : Direction) : (laneCars schedule d).Nodup :=
  List.nodup_reverse.mpr (List.nodup_range.filter _)

theorem carAt_append_left {schedule cars : List Car} {car : CarPtr} (h : car < schedule.length) :
    carAt (schedule ++ cars) car = carAt schedule car := by
  simp [carAt, List.getElem?_append_left h]

theorem carAt_concat (schedule : List Car) (c : Car) :
    carAt (schedule ++ [c]) schedule.length = c := by
  simp [carAt]

theorem laneCars_concat (schedule : List Car) (c : Car) (d : Direction) :
    laneCars (schedule ++ [c]) d =
      if c.inDir = d then schedule.length :: laneCars schedule d else laneCars schedule d := by
  have hold : (List.range schedule.length).filter
        (fun car => (carAt (schedule ++ [c]) car).inDir = d) =
      (List.range schedule.length).filter fun car => (carAt schedule car).inDir = d := by
    apply List.filter_congr
    intro car hcar
    rw [carAt_append_left (List.mem_range.mp hcar)]
  rw [laneCars, List.length_append, List.length_singleton, List.range_succ, List.filter_append,
    hold, List.reverse_append]
  by_cases hd : c.inDir = d
  · simp [carAt_concat, hd, laneCars]
  · simp [carAt_concat, hd, laneCars]

/-- `parse_schedule` fills the list of each lane, and counts its cars. -/
theorem parseSchedule_spec (schedule : List Car) {g : Intersection}
    (hg : ∀ d, (g.lanes d).inCars = none ∧ (g.lanes d).inc = 0) (d : Direction) :
    ∃ first, Follows (parseSchedule schedule g).next first (laneCars schedule d) ∧
      (parseSchedule schedule g).lanes d =
        { g.lanes d with inCars := first, inc := (laneCars schedule d).length } := by
  induction schedule using List.reverseRecOn generalizing d with
  | nil =>
    refine ⟨none, rfl, ?_⟩
    obtain ⟨hin, hinc⟩ := hg d
    change g.lanes d = { g.lanes d with inCars := none, inc := 0 }
    rw [← hin, ← hinc]
  | append_singleton schedule c ih =>
    have hparse : parseSchedule (schedule ++ [c]) g =
        parseLine (parseSchedule schedule g) (c, schedule.length) := by
      simp [parseSchedule, List.zipIdx_append]
    -- The new car is in no list yet, so its link can be set.
    have hfresh : ∀ d, ∀ car ∈ laneCars schedule d, car ≠ schedule.length :=
      fun d car hcar => (mem_laneCars.mp hcar).1.ne
    obtain ⟨first, hfirst, hlane⟩ := ih d
    rw [hparse, laneCars_concat]
    by_cases hd : c.inDir = d
    · subst hd
      refine ⟨some schedule.length, ?_, ?_⟩
      · rw [if_pos rfl]
        refine ⟨rfl, ?_⟩
        have hhead : ((parseSchedule schedule g).lanes c.inDir).inCars = first := by rw [hlane]
        simp only [parseLine, Intersection.modifyLane, Function.update_self, hhead]
        exact hfirst.congr fun car hcar => Function.update_of_ne (hfresh _ car hcar) _ _
      · rw [if_pos rfl]
        simp [parseLine, Intersection.modifyLane, hlane]
    · refine ⟨first, ?_, ?_⟩
      · rw [if_neg hd]
        exact hfirst.congr fun car hcar => Function.update_of_ne (hfresh _ car hcar) _ _
      · rw [if_neg hd]
        simp [parseLine, Intersection.modifyLane, Function.update_of_ne (Ne.symm hd), hlane]

/-! ## Lanes -/

/-- `write_to_buf`. -/
def writeToBuf (d : Direction) (g : Intersection) : Except Fault Intersection :=
  let l := g.lanes d
  if l.inBuf ≠ l.capacity then
    match l.buffer with
    | none => .error .freed
    | some buffer =>
      match l.inCars with
      | none => .error .nullPointer
      | some car =>
        if l.tail < l.capacity then
          .ok (g.modifyLane d fun l =>
            { l with
              buffer := some (Function.update buffer l.tail (some car))
              inBuf := l.inBuf + 1
              inCars := g.next car
              tail := (l.tail + 1) % l.capacity })
        else .error .outOfBounds
  else .ok g

/-- `read_from_buf`, with the car it returns. -/
def readFromBuf (d : Direction) (g : Intersection) :
    Except Fault (Option CarPtr × Intersection) :=
  let l := g.lanes d
  if l.inBuf ≠ 0 then
    match l.buffer with
    | none => .error .freed
    | some buffer =>
      if l.head < l.capacity then
        .ok (buffer l.head, g.modifyLane d fun l => { l with head := (l.head + 1) % l.capacity })
      else .error .outOfBounds
  else .ok (none, g)

section

variable {g g' : Intersection} {d : Direction}

/-- Where `write_to_buf` returns, it has found no room or has written the first car. -/
theorem writeToBuf_cases (h : writeToBuf d g = .ok g') :
    g' = g ∨ ∃ buffer inCars, g' = g.modifyLane d fun l =>
      { l with
        buffer := buffer
        inBuf := l.inBuf + 1
        inCars := inCars
        tail := (l.tail + 1) % l.capacity } := by
  simp only [writeToBuf] at h
  split at h
  · split at h
    · cases h
    · split at h
      · cases h
      · split at h
        · cases h
          exact .inr ⟨_, _, rfl⟩
        · cases h
  · cases h
    exact .inl rfl

/-- Where `read_from_buf` returns, it has found no car or has moved the head. -/
theorem readFromBuf_cases {crossingCar : Option CarPtr}
    (h : readFromBuf d g = .ok (crossingCar, g')) :
    crossingCar = none ∧ g' = g ∨ (g.lanes d).inBuf ≠ 0 ∧
      g' = g.modifyLane d fun l => { l with head := (l.head + 1) % l.capacity } := by
  simp only [readFromBuf] at h
  split at h
  case isTrue hne =>
    split at h
    · cases h
    · split at h
      · cases h
        exact .inr ⟨hne, rfl⟩
      · cases h
  case isFalse =>
    cases h
    exact .inl ⟨rfl, rfl⟩

end

/-! ## Paths -/

inductive Turn where
  | rightTurn
  | noTurn
  | leftTurn
  | uTurn
deriving DecidableEq, Repr

def Turn.toNat : Turn → Nat
  | .rightTurn => 1
  | .noTurn => 2
  | .leftTurn => 3
  | .uTurn => 4

def QUAD_1 : Nat := 1
def QUAD_2 : Nat := 2
def QUAD_3 : Nat := 3
def QUAD_4 : Nat := 4

/-- `compute_turn`. -/
def computeTurn (inDir outDir : Direction) : Turn :=
  if inDir = outDir then .uTurn
  else if (((inDir.toNat + 1) % 4 : Nat) : Int) - outDir.toNat = 0 then .rightTurn
  else if (inDir.toNat : Int) - ((outDir.toNat + 1) % 4 : Nat) = 0 then .leftTurn
  else .noTurn

/-- `build_path_array`. -/
def buildPathArray (inDir : Direction) (turnType : Turn) : List Nat :=
  match turnType with
  | .uTurn => (List.range turnType.toNat).map fun i => i + 1
  | .rightTurn =>
    match inDir with
    | .north => [QUAD_2]
    | .west => [QUAD_3]
    | .south => [QUAD_4]
    | .east => [QUAD_1]
  | .leftTurn =>
    match inDir with
    | .north => [QUAD_2, QUAD_3, QUAD_4]
    | .west => [QUAD_1, QUAD_3, QUAD_4]
    | .south => [QUAD_1, QUAD_2, QUAD_4]
    | .east => [QUAD_1, QUAD_2, QUAD_3]
  | .noTurn =>
    match inDir with
    | .north => [QUAD_2, QUAD_3]
    | .west => [QUAD_3, QUAD_4]
    | .south => [QUAD_1, QUAD_4]
    | .east => [QUAD_1, QUAD_2]

/-- `compute_path`. -/
def computePath (inDir outDir : Direction) : List Nat :=
  buildPathArray inDir (computeTurn inDir outDir)

/-! ### What all paths have in common -/

/-- A path is as long as the number of quadrants that the turn takes. -/
theorem length_computePath (inDir outDir : Direction) :
    (computePath inDir outDir).length = (computeTurn inDir outDir).toNat := by
  revert inDir outDir
  decide

/-- A path takes the quadrants in rising order, and starts at the first one at the earliest. -/
theorem computePath_sorted (inDir outDir : Direction) :
    (computePath inDir outDir).Pairwise (· < ·) ∧
      ∀ i ∈ computePath inDir outDir, 1 ≤ i ∧ i ≤ 4 := by
  revert inDir outDir
  decide

/-- The quadrant that a car leaves the intersection through. -/
def exitQuad : Direction → Nat
  | .north => QUAD_1
  | .west => QUAD_2
  | .south => QUAD_3
  | .east => QUAD_4

/-- All paths to an exit share a quadrant. -/
theorem exitQuad_mem (inDir outDir : Direction) : exitQuad outDir ∈ computePath inDir outDir := by
  revert inDir outDir
  decide

/-- The quadrants of a path are different mutexes. -/
theorem quadAddr_injective {i j : Nat} (hi : i ≤ 4) (hj : j ≤ 4) (h : quadAddr i = quadAddr j) :
    i = j := by
  unfold quadAddr at h
  split at h
  · split at h
    · cases h
      rfl
    · cases h
  · split at h
    · cases h
    · omega

end Traffic

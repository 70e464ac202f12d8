-- SUMMARY: What the program prints: the cars as they leave, and after all threads have returned the lists of the exits.
import OperatingSystems.Traffic.Conservation

/-!
# Printing

A `car_cross` prints a line for each car after the car has left, without any mutex, so that the
lines of different lanes come in any order. When all threads are joined, `verify` prints the list of
each exit. The two parts of the output have the same lines, each once.
-/

namespace Traffic

open Library Library.Threads

variable {schedule : List Car} {cap fuel : Nat} {d e : Direction} {g g' : Intersection}
  {a a' : ArrivePc} {c c' : CrossPc} {crs : Direction → CrossPc} {s s' : State}
  {crossed outs : Direction → List CarPtr} {log : List CarPtr} {car : CarPtr}

/-! ## The output of the program -/

/-- The numbers that are printed for a car. -/
def Car.line (c : Car) : Nat × Nat × Int := (c.inDir.toNat, c.outDir.toNat, c.id)

inductive Line where
  | car (l : Nat × Nat × Int)
  | dashes
  | equals
deriving DecidableEq

/-- The directions, in the order of the lanes in the array. -/
def Direction.all : List Direction := [.north, .west, .south, .east]

/-- The inner loop of `verify`, with a bound on its rounds. -/
def printCars (schedule : List Car) (next : CarPtr → Option CarPtr) :
    Nat → Option CarPtr → Option (List Line)
  | 0, _ => none
  | _ + 1, none => some []
  | fuel + 1, some cur =>
    (printCars schedule next fuel (next cur)).map (.car (carAt schedule cur).line :: ·)

/-- `verify`. -/
def verify (schedule : List Car) (g : Intersection) (fuel : Nat) : Option (List Line) := do
  let lanes ← Direction.all.mapM fun i => printCars schedule g.next fuel (g.lanes i).outCars
  some (.dashes :: lanes.flatten ++ [.equals])

/-- What `main` has printed when it returns, where the threads that it joins leave the
intersection behind. -/
def mainOutput (schedule : List Car) (g : Intersection) (fuel : Nat) : Option (List Line) := do
  let lines ← verify schedule g fuel
  some (g.stdout.map .car ++ lines)

/-! ## The loop of `verify` -/

/-- The lines of some cars. -/
def carLines (schedule : List Car) (cars : List CarPtr) : List Line :=
  cars.map fun car => .car (carAt schedule car).line

theorem printCars_eq {next : CarPtr → Option CarPtr} {start : Option CarPtr} {cars : List CarPtr}
    (h : Follows next start cars) (hfuel : cars.length < fuel) :
    printCars schedule next fuel start = some (carLines schedule cars) := by
  induction cars generalizing start fuel with
  | nil =>
    obtain ⟨n, rfl⟩ := Nat.exists_eq_succ_of_ne_zero (Nat.ne_of_gt hfuel)
    cases h
    rfl
  | cons car cars ih =>
    obtain ⟨n, rfl⟩ := Nat.exists_eq_succ_of_ne_zero (Nat.ne_zero_of_lt hfuel)
    obtain ⟨rfl, hcars⟩ := h
    rw [printCars, ih hcars (Nat.lt_of_succ_lt_succ hfuel)]
    rfl

/-- The lists of the exits, one after the other. -/
def allOuts (outs : Direction → List CarPtr) : List CarPtr := Direction.all.flatMap outs

/-- `verify` prints the lists of the exits. -/
theorem verify_eq (h : ∀ o, Follows g.next (g.lanes o).outCars (outs o))
    (hfuel : ∀ o, (outs o).length < fuel) :
    verify schedule g fuel =
      some (.dashes :: carLines schedule (allOuts outs) ++ [.equals]) := by
  have hlane : ∀ o, printCars schedule g.next fuel (g.lanes o).outCars =
      some (carLines schedule (outs o)) := fun o => printCars_eq (h o) (hfuel o)
  simp [verify, Direction.all, allOuts, carLines, hlane]

/-! ## What has been printed -/

/-- The number of cars that `car_cross` has printed, in a lane of `n` cars. -/
def CrossPc.printed (n : Nat) : CrossPc → Nat
  | .loop i => i
  | .lock i => i
  | .test i => i
  | .sleep i => i
  | .read i => i
  | .signal i _ => i
  | .unlock i _ => i
  | .acquire i _ _ => i
  | .link i _ => i
  | .push i _ => i
  | .pass i _ => i
  | .release i _ _ => i
  | .print i _ => i
  | .free => n
  | .done => n

/-- The lines printed are those of the cars in `log`. Those of a lane are its first cars, and the
car at hand is the next one. -/
structure Printed (schedule : List Car) (g : Intersection) (crs : Direction → CrossPc)
    (log : List CarPtr) : Prop where
  stdout : g.stdout = log.map fun car => (carAt schedule car).line
  lanes : ∀ d, log.filter (fun car => (carAt schedule car).inDir = d) =
    (laneCars schedule d).take ((crs d).printed (laneCars schedule d).length)
  hand : ∀ d car, (crs d).crossingCar = some car →
    (laneCars schedule d)[(crs d).printed (laneCars schedule d).length]? = some car

/-- A car is printed after it has left. -/
theorem CrossPc.printed_le {n : Nat} {cs : List CarPtr} (h : c.Took n (cs ++ c.hand).length) :
    c.printed n ≤ cs.length := by
  cases c <;> simp [CrossPc.Took, CrossPc.hand, CrossPc.printed] at h ⊢ <;> omega

/-- `parse_schedule` prints nothing. -/
theorem parseSchedule_stdout (schedule : List Car) (g : Intersection) :
    (parseSchedule schedule g).stdout = g.stdout := by
  unfold parseSchedule
  generalize schedule.zipIdx = lines
  induction lines generalizing g with
  | nil => rfl
  | cons line lines ih =>
    rw [List.foldl_cons, ih]
    rfl

/-! ## The steps -/

theorem arrive_stdout (he : (carArrive d a).Effect g a' g') : g'.stdout = g.stdout := by
  cases a with
  | loop i | test i =>
    cases he
    rfl
  | write i =>
    obtain ⟨g₁, hwrite, heq⟩ := Run.bind_eq_ok.mp he
    cases heq
    rcases writeToBuf_cases hwrite with rfl | ⟨_, _, rfl⟩ <;> rfl
  | done => exact he.elim
  | _ =>
    obtain ⟨_, rfl⟩ := he
    rfl

/-- `car_cross` prints its car and goes on to the next one, or it keeps to the car at hand and
prints nothing. -/
theorem cross_stdout {n : Nat} (he : (carCross schedule d c).Effect g c' g')
    (hinc : (g.lanes d).inc = n) (htook : ∀ i, c = .loop i → i ≤ n) :
    (∃ i car, c = .print i car ∧ c' = .loop (i + 1) ∧
      g'.stdout = g.stdout ++ [(carAt schedule car).line]) ∨
      g'.stdout = g.stdout ∧ c'.printed n = c.printed n := by
  cases c with
  | loop i =>
    cases he
    rw [hinc]
    refine .inr ⟨rfl, ?_⟩
    split
    case isTrue hi => rfl
    case isFalse hi => exact Nat.le_antisymm (Nat.le_of_not_lt hi) (htook i rfl)
  | test i =>
    cases he
    refine .inr ⟨rfl, ?_⟩
    split <;> rfl
  | read i =>
    obtain ⟨⟨crossingCar, g₁⟩, hread, heq⟩ := Run.bind_eq_ok.mp he
    cases crossingCar with
    | none => cases heq
    | some car =>
      cases heq
      rcases readFromBuf_cases hread with ⟨hnone, -⟩ | ⟨-, rfl⟩
      · cases hnone
      · exact .inr ⟨rfl, rfl⟩
  | acquire i car k | release i car k =>
    simp only [carCross, setIsectionLocks_path] at he
    split at he
    · obtain ⟨rfl, rfl⟩ := he
      exact .inr ⟨rfl, rfl⟩
    · cases he
      exact .inr ⟨rfl, rfl⟩
  | link i car | push i car | pass i car | free =>
    cases he
    exact .inr ⟨rfl, rfl⟩
  | print i car =>
    cases he
    exact .inl ⟨i, car, rfl, rfl, rfl⟩
  | done => exact he.elim
  | _ =>
    obtain ⟨rfl, rfl⟩ := he
    exact .inr ⟨rfl, rfl⟩

/-- The car that is read is the next one of the lane. -/
theorem LaneState.hand_eq {queue rest cs : List CarPtr}
    (h : LaneState schedule cap d g a c cs queue rest) (hhand : c.hand = [car]) :
    (laneCars schedule d)[c.printed (laneCars schedule d).length]? = some car := by
  have hprinted : c.printed (laneCars schedule d).length = cs.length := by
    have htook := h.took
    cases c <;> simp [CrossPc.Took, CrossPc.hand, CrossPc.printed] at htook hhand ⊢ <;> omega
  have hcars : laneCars schedule d = cs ++ car :: (queue ++ rest) := by
    rw [h.cars, hhand]
    simp
  rw [hprinted, hcars, List.getElem?_append_right (Nat.le_refl _), Nat.sub_self]
  rfl

/-- A step that prints nothing. -/
theorem Printed.quiet (h : Printed schedule g crs log) (hstdout : g'.stdout = g.stdout)
    {crs' : Direction → CrossPc}
    (hprinted : ∀ d, (crs' d).printed (laneCars schedule d).length =
      (crs d).printed (laneCars schedule d).length)
    (hhand : ∀ d car, (crs' d).crossingCar = some car → (crs d).crossingCar = some car ∨
      (laneCars schedule d)[(crs' d).printed (laneCars schedule d).length]? = some car) :
    Printed schedule g' crs' log where
  stdout := by rw [hstdout, h.stdout]
  lanes d := by rw [h.lanes, hprinted]
  hand d car hcar := by
    rcases hhand d car hcar with hold | hnew
    · rw [hprinted]
      exact h.hand d car hold
    · exact hnew

/-- The step that prints a car. -/
theorem Printed.print {i : Nat} (h : Printed schedule g crs log) (hd : crs d = .print i car)
    (hstdout : g'.stdout = g.stdout ++ [(carAt schedule car).line]) :
    Printed schedule g' (Function.update crs d (.loop (i + 1))) (log ++ [car]) := by
  have hcar : (laneCars schedule d)[i]? = some car := by
    have hhand := h.hand d car (by rw [hd]; rfl)
    rwa [hd] at hhand
  have hdir := (mem_laneCars.mp (List.mem_of_getElem? hcar)).2
  refine ⟨?_, ?_, ?_⟩
  · rw [hstdout, h.stdout, List.map_append]
    rfl
  · intro e
    rw [List.filter_append, h.lanes]
    by_cases he : e = d
    · subst he
      rw [Function.update_self, hd, List.filter_cons_of_pos (by simpa using hdir)]
      simp only [CrossPc.printed, List.take_add_one, hcar]
      rfl
    · rw [Function.update_of_ne he, List.filter_cons_of_neg (by simpa [hdir] using Ne.symm he),
        List.filter_nil, List.append_nil]
  · intro e car' he
    by_cases hed : e = d
    · subst hed
      rw [Function.update_self] at he
      cases he
    · rw [Function.update_of_ne hed] at he ⊢
      exact h.hand e car' he

/-- Every step keeps what has been printed, and may add a line. -/
theorem printed_moves (hown : Owned (code schedule) (holds schedule) s)
    (hinv : Inv schedule cap s.mem s.arrive s.cross)
    (h : ∃ log, Printed schedule s.mem s.cross log) (hmoves : Moves (code schedule) s s') :
    ∃ log, Printed schedule s'.mem s'.cross log := by
  have hinv' := inv_moves hown hinv hmoves
  obtain ⟨log, h⟩ := h
  rcases hmoves.cases with hidle | ⟨t, c, hran⟩
  · have hcrs : s'.cross = s.cross := funext fun d => hidle.ctrl _
    refine ⟨log, ?_⟩
    rw [hidle.mem, hcrs]
    exact h
  · have heffect := hran.effect
    cases t with
    | carArrive d =>
      have hcrs : s'.cross = s.cross := funext fun e => hran.ctrl (.carCross e) (by simp)
      rw [hcrs]
      exact ⟨log, h.quiet (arrive_stdout heffect) (fun _ => rfl) fun _ _ hcar => .inl hcar⟩
    | carCross d =>
      have hc : s.cross d = c := congrArg Status.ctrl hran.running
      have hcrs : s'.cross = Function.update s.cross d (s'.cross d) := by
        funext e
        by_cases he : e = d
        · subst he
          rw [Function.update_self]
        · rw [Function.update_of_ne he]
          exact hran.ctrl (.carCross e) (by simpa using he)
      obtain ⟨_, _, hlanes⟩ := hinv
      obtain ⟨_, _, hl⟩ := hlanes.lanes d
      have htook : ∀ i, c = .loop i → i ≤ (laneCars schedule d).length := by
        rintro i rfl
        have htook := hl.took
        rw [hc] at htook
        exact htook.2
      rcases cross_stdout heffect hl.inc htook with ⟨i, car, rfl, hloop, hout⟩ | ⟨hout, hprinted⟩
      · rw [hcrs, show s'.cross d = .loop (i + 1) from hloop]
        exact ⟨log ++ [car], h.print hc hout⟩
      · refine ⟨log, h.quiet hout ?_ ?_⟩
        · intro e
          by_cases he : e = d
          · subst he
            rw [hc]
            exact hprinted
          · rw [hcrs, Function.update_of_ne he]
        · intro e car hcar
          by_cases he : e = d
          · subst he
            rcases car_of_effect heffect hcar with hold | hhand
            · exact .inl (hc ▸ hold)
            · obtain ⟨_, _, hlanes'⟩ := hinv'
              obtain ⟨_, _, hl'⟩ := hlanes'.lanes e
              have hhand' : (s'.cross e).hand = [car] := by
                revert hhand
                change car ∈ (s'.cross e).hand → _
                cases s'.cross e <;> simp +contextual [CrossPc.hand]
              exact .inr (hl'.hand_eq hhand')
          · rw [hcrs, Function.update_of_ne he] at hcar
            exact .inl hcar

/-! ## Runs -/

/-- What has been printed while a run has got to a state: the lines of some cars, where those of a
lane are printed from its last line in the schedule on, and only cars that have left. -/
structure Output (schedule : List Car) (s : State) (log : List CarPtr)
    (outs : Direction → List CarPtr) : Prop where
  stdout : s.mem.stdout = log.map fun car => (carAt schedule car).line
  lanes : ∀ d, log.filter (fun car => (carAt schedule car).inDir = d) <+: laneCars schedule d
  exits : ∀ o, Follows s.mem.next (s.mem.lanes o).outCars (outs o)
  left : ∀ car ∈ log, car ∈ outs (carAt schedule car).outDir

/-- A list in which every car is as often as in its lane has each car once. -/
theorem perm_range {cars : List CarPtr} (h : ∀ car,
    cars.count car = (laneCars schedule (carAt schedule car).inDir).count car) :
    cars.Perm (List.range schedule.length) := by
  refine List.perm_iff_count.mpr fun car => ?_
  rw [h, laneCars, List.count_reverse, List.count_filter (by simp)]

/-- When all cars of the lanes have left, the lists of the exits have each car once. -/
theorem Outs.perm (h : Outs schedule g crs crossed outs)
    (hall : ∀ d, crossed d = laneCars schedule d) :
    (allOuts outs).Perm (List.range schedule.length) := by
  refine perm_range fun car => ?_
  rw [← hall, ← h.count]
  have hother : ∀ o, o ≠ (carAt schedule car).outDir → (outs o).count car = 0 :=
    fun o ho => List.count_eq_zero.mpr fun hcar => ho (h.mem hcar).2.symm
  simp only [allOuts, Direction.all, List.flatMap_cons, List.flatMap_nil, List.count_append,
    List.count_nil]
  cases ho : (carAt schedule car).outDir with
  | _ =>
    rw [ho] at hother
    simp [hother]

/-- The cars whose lines are printed have left. -/
theorem Crossed.left {arr : Direction → ArrivePc}
    (h : Crossed schedule cap g arr crs crossed outs) (hlog : Printed schedule g crs log)
    (hcar : car ∈ log) : car ∈ outs (carAt schedule car).outDir := by
  obtain ⟨queue, rest, hl⟩ := h.lanes (carAt schedule car).inDir
  have hmem : car ∈ log.filter fun c => (carAt schedule c).inDir = (carAt schedule car).inDir :=
    List.mem_filter.mpr ⟨hcar, by simp⟩
  have htake : ∀ {k}, k ≤ (crossed (carAt schedule car).inDir).length →
      (laneCars schedule (carAt schedule car).inDir).take k =
        (crossed (carAt schedule car).inDir).take k := by
    intro k hk
    rw [hl.cars, List.append_assoc, List.append_assoc, List.take_append_of_le_length hk]
  rw [hlog.lanes, htake (CrossPc.printed_le hl.took)] at hmem
  rw [← List.count_pos_iff, h.outs.count, List.count_pos_iff]
  exact List.mem_of_mem_take hmem

theorem printed_start (laneLength : Nat) (schedule : List Car) :
    Printed schedule (start laneLength schedule).mem (start laneLength schedule).cross [] where
  stdout := parseSchedule_stdout schedule _
  lanes _ := rfl
  hand _ _ hcar := by cases hcar

/-- What holds in every state that a run gets to. -/
theorem run_printed {run : List (Action Thread)}
    (hrun : Run.exec (step schedule) run (start LANE_LENGTH schedule) = .ok s) :
    ∃ log, Printed schedule s.mem s.cross log :=
  (exec_owned (I := fun (s : State) => Inv schedule LANE_LENGTH s.mem s.arrive s.cross ∧
      ∃ log, Printed schedule s.mem s.cross log) discipline (owned_start LANE_LENGTH schedule)
    ⟨inv_start (by decide) schedule, [], printed_start LANE_LENGTH schedule⟩
    (fun _ _ hown h hmoves => ⟨inv_moves hown h.1 hmoves, printed_moves hown h.1 h.2 hmoves⟩)
    hrun).2.2

/-- In every state that a run of the simulation gets to, lines are printed only for cars that have
left, each once, and in each lane from its last line in the schedule on. When all threads have
returned, `main` prints the line of each car once more, exit after exit. -/
theorem run_prints {schedule : List Car} {run : List (Action Thread)} {s : State}
    (hrun : Run.exec (step schedule) run (start LANE_LENGTH schedule) = .ok s) :
    ∃ log outs, Output schedule s log outs ∧
      ((∀ t, Exited (code schedule) s t) →
        log.Perm (List.range schedule.length) ∧
        (allOuts outs).Perm (List.range schedule.length) ∧
        ∀ fuel, schedule.length < fuel → mainOutput schedule s.mem fuel =
          some (carLines schedule log ++ .dashes :: carLines schedule (allOuts outs) ++
            [.equals])) := by
  obtain ⟨_, crossed, outs, hc⟩ := run_inv (by decide) hrun
  obtain ⟨log, hlog⟩ := run_printed hrun
  refine ⟨log, outs, ⟨hlog.stdout, ?_, hc.outs.list, fun car => hc.left hlog⟩, ?_⟩
  · intro d
    rw [hlog.lanes]
    exact List.take_prefix _ _
  · intro hexit
    have hdone : ∀ d, s.cross d = .done := fun d => exited_cross (hexit (.carCross d))
    have hperm : (allOuts outs).Perm (List.range schedule.length) := by
      refine hc.outs.perm fun d => ?_
      obtain ⟨_, _, hl⟩ := hc.lanes d
      rw [hdone] at hl
      exact hl.crossed_of_done
    refine ⟨?_, hperm, ?_⟩
    · refine perm_range fun car => ?_
      have hlane := hlog.lanes (carAt schedule car).inDir
      rw [hdone, CrossPc.printed, List.take_length] at hlane
      rw [← hlane, List.count_filter (by simp)]
    · intro fuel hfuel
      have hlen : ∀ o, (outs o).length < fuel := by
        intro o
        have hsum := hperm.length_eq
        rw [List.length_range] at hsum
        simp only [allOuts, Direction.all, List.flatMap_cons, List.flatMap_nil,
          List.length_append, List.length_nil] at hsum
        cases o <;> omega
      simp [mainOutput, verify_eq hc.outs.list hlen, hlog.stdout, carLines]

theorem run_prints_three :
    ∃ s log outs, Run.exec (step threeCars) crossTogether (start LANE_LENGTH threeCars) = .ok s ∧
      Output threeCars s log outs ∧ log.Perm [0, 1, 2] := by
  obtain ⟨s, hs, hexit⟩ := exec_crossTogether
  obtain ⟨log, outs, hout, hend⟩ := run_prints hs
  exact ⟨s, log, outs, hs, hout, (hend hexit).1⟩

end Traffic

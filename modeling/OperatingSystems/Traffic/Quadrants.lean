-- SUMMARY: Quadrants and buffers: which mutexes the crossing cars take, and who takes the lock of a lane.
import OperatingSystems.Traffic.Printing
import OperatingSystems.Traffic.Termination

/-!
# Quadrants and buffers

The quadrants of the intersection are numbered from 1 to 4, the mutexes of the array from 0 to 3. A
car whose path has the fourth quadrant takes the lock of the first lane for it. Without such cars
the mutexes of the quadrants and those of the buffers have nothing to do with each other.
-/

namespace Traffic

open Library Library.Threads

variable {schedule : List Car} {car car' : CarPtr} {d d' : Direction} {c c' : CrossPc} {s : State}

/-! ## What is at stake -/

/-- The thread is in `set_isection_locks`. -/
def CrossPc.AtQuads : CrossPc → Prop
  | .acquire _ _ _ => True
  | .release _ _ _ => True
  | _ => False

/-- The thread has locked all quadrants of the path of a car and unlocked none. -/
def CrossPc.Crosses (schedule : List Car) (car : CarPtr) : CrossPc → Prop
  | .acquire _ car' k => car' = car ∧ quadsReq schedule car ≤ k
  | .link _ car' => car' = car
  | .push _ car' => car' = car
  | .pass _ car' => car' = car
  | .release _ car' k => car' = car ∧ k = 0
  | _ => False

/-- Every mutex operation of `set_isection_locks` is on one of the quadrants, the lock of a lane is
only held by its own two threads, and cars that cross at the same time share no quadrant. -/
structure Separate (schedule : List Car) (s : State) : Prop where
  quads : ∀ d m next, (s.cross d).AtQuads →
    carCross schedule d (s.cross d) = .lock m next ∨ carCross schedule d (s.cross d) = .unlock m next →
    ∃ i, m = .quad i
  lanes : ∀ d t, s.owner (.lock d) = some t → t = .carArrive d ∨ t = .carCross d
  paths : ∀ d d' car car', d ≠ d' → (s.cross d).Crosses schedule car →
    (s.cross d').Crosses schedule car' → ∀ q ∈ path schedule car, q ∉ path schedule car'

/-- The threads only have cars of the schedule. -/
theorem crossingCar_lt {run : List (Action Thread)}
    (hrun : Run.exec (step schedule) run (start LANE_LENGTH schedule) = .ok s)
    (hcar : (s.cross d).crossingCar = some car) : car < schedule.length := by
  obtain ⟨log, hlog⟩ := run_printed hrun
  exact (mem_laneCars.mp (List.mem_of_getElem? (hlog.hand d car hcar))).1

/-! ## The fourth quadrant -/

/-- No car of the schedule has the fourth quadrant on its path. -/
def AvoidsQuad4 (schedule : List Car) : Prop :=
  ∀ c ∈ schedule, QUAD_4 ∉ computePath c.inDir c.outDir

theorem AvoidsQuad4.path (h : AvoidsQuad4 schedule) (hcar : car < schedule.length) :
    QUAD_4 ∉ path schedule car := by
  have hat : carAt schedule car = schedule[car] := by simp [carAt, hcar]
  rw [Traffic.path, hat]
  exact h _ (List.getElem_mem hcar)

/-- The other quadrants have mutexes of their own. -/
theorem quadAddr_of_ne {q : Nat} (hq : q ∈ path schedule car) (hne : q ≠ QUAD_4) :
    ∃ i, quadAddr q = .quad i := by
  have hle := ((path_sorted schedule car).2 q hq).2
  have h4 : q < 4 := lt_of_le_of_ne hle hne
  exact ⟨⟨q, h4⟩, dif_pos h4⟩

theorem Quads.quad {qs : List Nat} {m : Mutex} (h : Quads qs m) (hqs : ∀ q ∈ qs, q ∈ path schedule car)
    (havoid : QUAD_4 ∉ path schedule car) : ∃ i, m = .quad i := by
  obtain ⟨q, hq, rfl⟩ := h
  exact quadAddr_of_ne (hqs q hq) fun heq => havoid (heq ▸ hqs q hq)

/-- A car that crosses holds all quadrants of its path. -/
theorem CrossPc.Crosses.holds (h : c.Crosses schedule car) {q : Nat} (hq : q ∈ path schedule car) :
    holds schedule (.carCross d) c (quadAddr q) := by
  cases c with
  | acquire i car₁ k =>
    obtain ⟨rfl, hk⟩ := h
    rw [← length_path] at hk
    refine ⟨q, ?_, rfl⟩
    rwa [List.take_of_length_le hk]
  | link i car₁ =>
    cases h
    exact ⟨q, hq, rfl⟩
  | push i car₁ =>
    cases h
    exact ⟨q, hq, rfl⟩
  | pass i car₁ =>
    cases h
    exact ⟨q, hq, rfl⟩
  | release i car₁ k =>
    obtain ⟨rfl, rfl⟩ := h
    exact ⟨q, hq, rfl⟩
  | _ => exact h.elim

/-- A thread that crosses is not in a wait. -/
theorem CrossPc.Crosses.ne_test (h : c.Crosses schedule car) (i : Nat) : c ≠ .test i := by
  rintro rfl
  exact h

theorem holds_lock_arrive {e : Direction} {a : ArrivePc}
    (h : holds schedule (.carArrive e) a (.lock d)) : e = d := by
  cases a with
  | loop i => exact h.elim
  | lock i => exact h.elim
  | done => exact h.elim
  | _ =>
    cases h
    rfl

/-- `car_cross` has the lock of its lane, or one that is a quadrant of its car's path. -/
theorem holds_lock_cross {e : Direction} (h : holds schedule (.carCross e) c (.lock d)) :
    e = d ∨ ∃ car qs, c.crossingCar = some car ∧ (∀ q ∈ qs, q ∈ path schedule car) ∧
      Quads qs (.lock d) := by
  cases c with
  | acquire i car k => exact .inr ⟨car, _, rfl, fun _ => List.mem_of_mem_take, h⟩
  | link i car => exact .inr ⟨car, _, rfl, fun _ => id, h⟩
  | push i car => exact .inr ⟨car, _, rfl, fun _ => id, h⟩
  | pass i car => exact .inr ⟨car, _, rfl, fun _ => id, h⟩
  | release i car k => exact .inr ⟨car, _, rfl, fun _ => List.mem_of_mem_drop, h⟩
  | loop i => exact h.elim
  | lock i => exact h.elim
  | print i car => exact h.elim
  | free => exact h.elim
  | done => exact h.elim
  | _ =>
    cases h
    exact .inl rfl

/-- What a thread holds at a control state, it holds in a wait at most. -/
theorem holds_of_held {t : Thread} {m : Mutex} (h : (s.status t).Held (holds schedule t) m) :
    holds schedule t (s.status t).ctrl m := by
  cases hs : s.status t with
  | running c =>
    rw [hs] at h
    exact h
  | asleep v m' c =>
    rw [hs] at h
    exact h.1
  | woken m' c =>
    rw [hs] at h
    exact h.1

/-- Quadrants and buffers are separate in every state that a run gets to, for every schedule whose
cars avoid the fourth quadrant. -/
theorem run_separate (havoid : AvoidsQuad4 schedule) {run : List (Action Thread)}
    (hrun : Run.exec (step schedule) run (start LANE_LENGTH schedule) = .ok s) :
    Separate schedule s := by
  obtain ⟨hown, _⟩ := run_inv (by decide) hrun
  refine ⟨?_, ?_, ?_⟩
  · intro d m next hat hop
    -- Each operation is on a quadrant of the path.
    have hquad : ∃ car q, (s.cross d).crossingCar = some car ∧ q ∈ path schedule car ∧
        m = quadAddr q := by
      rcases hop with hlock | hunlock
      · rcases carCross_lock hlock with ⟨i, hc, _⟩ | ⟨i, car, k, hk, hc, hm, _⟩
        · rw [hc] at hat
          exact hat.elim
        · exact ⟨car, _, by rw [hc]; rfl, List.getElem_mem hk, hm⟩
      · rcases carCross_unlock hunlock with ⟨i, car, hc, _⟩ | ⟨i, car, k, hk, hc, hm, _⟩
        · rw [hc] at hat
          exact hat.elim
        · exact ⟨car, _, by rw [hc]; rfl, List.getElem_mem hk, hm⟩
    obtain ⟨car, q, hcar, hq, rfl⟩ := hquad
    have hno := havoid.path (crossingCar_lt hrun hcar)
    exact quadAddr_of_ne hq fun heq => hno (heq ▸ hq)
  · intro d t howner
    have hheld := holds_of_held ((hown.owner _ _).mp howner)
    cases t with
    | carArrive e =>
      obtain rfl := holds_lock_arrive hheld
      exact .inl rfl
    | carCross e =>
      rcases holds_lock_cross hheld with rfl | ⟨car, qs, hcar, hqs, hquads⟩
      · exact .inr rfl
      · obtain ⟨i, hi⟩ := hquads.quad hqs (havoid.path (crossingCar_lt hrun hcar))
        cases hi
  · intro d d' car car' hne hcross hcross' q hq hq'
    have hheld : (s.status (.carCross d)).Held (holds schedule (.carCross d)) (quadAddr q) := by
      rw [running_cross hown rfl hcross.ne_test]
      exact hcross.holds hq
    have hheld' : (s.status (.carCross d')).Held (holds schedule (.carCross d')) (quadAddr q) := by
      rw [running_cross hown rfl hcross'.ne_test]
      exact hcross'.holds hq'
    have heq := hown.exclusive hheld hheld'
    cases heq
    exact hne rfl

/-! ## Runs that come to the fourth quadrant -/

/-- The quadrants that the thread has locked for the car at hand, up to now or before it unlocked them. -/
def CrossPc.locked (qs : List Nat) : CrossPc → List Nat
  | .acquire _ _ k => qs.take k
  | .link _ _ => qs
  | .push _ _ => qs
  | .pass _ _ => qs
  | .release _ _ _ => qs
  | .print _ _ => qs
  | _ => []

/-- The fourth quadrant has been locked for no car so far. -/
structure Clear (schedule : List Car) (crs : Direction → CrossPc) : Prop where
  printed : ∀ d, ∀ car ∈ (laneCars schedule d).take ((crs d).printed (laneCars schedule d).length),
    QUAD_4 ∉ path schedule car
  hand : ∀ d car, (crs d).crossingCar = some car → QUAD_4 ∉ (crs d).locked (path schedule car)

/-- What a step of `car_cross` adds to the quadrants locked for its car is the one that it locks. -/
theorem locked_of_effect {g g' : Intersection} {q : Nat} (he : (carCross schedule d c).Effect g c' g')
    (hcar : c'.crossingCar = some car) (hq : q ∈ c'.locked (path schedule car)) :
    c.crossingCar = some car ∧ q ∈ c.locked (path schedule car) ∨
      c.AtQuads ∧ ∃ next, carCross schedule d c = .lock (quadAddr q) next := by
  cases c with
  | loop i =>
    cases he
    split at hcar
    · cases hcar
    · cases hcar
  | lock i =>
    obtain ⟨rfl, rfl⟩ := he
    cases hcar
  | test i =>
    cases he
    split at hcar
    · cases hcar
    · cases hcar
  | sleep i =>
    obtain ⟨rfl, rfl⟩ := he
    cases hcar
  | read i =>
    obtain ⟨⟨crossingCar, g₁⟩, _, hread⟩ := Run.bind_eq_ok.mp he
    cases crossingCar with
    | none => cases hread
    | some car₁ =>
      cases hread
      exact absurd hq List.not_mem_nil
  | signal i car₁ =>
    obtain ⟨rfl, rfl⟩ := he
    exact absurd hq List.not_mem_nil
  | unlock i car₁ =>
    obtain ⟨rfl, rfl⟩ := he
    exact absurd hq List.not_mem_nil
  | acquire i car₁ k =>
    simp only [carCross, setIsectionLocks_path] at he ⊢
    split at he
    · rename_i hk
      obtain ⟨rfl, rfl⟩ := he
      cases hcar
      simp only [CrossPc.locked, List.take_add_one, List.getElem?_eq_getElem hk, List.mem_append] at hq
      rcases hq with hold | hnew
      · exact .inl ⟨rfl, hold⟩
      · obtain rfl : q = (path schedule car)[k] := by simpa using hnew
        exact .inr ⟨trivial, _, dif_pos hk⟩
    · rename_i hk
      cases he
      cases hcar
      refine .inl ⟨rfl, ?_⟩
      rw [CrossPc.locked, List.take_of_length_le (Nat.le_of_not_lt hk)]
      exact hq
  | link i car₁ | push i car₁ | pass i car₁ =>
    cases he
    exact .inl ⟨hcar, hq⟩
  | release i car₁ k =>
    simp only [carCross, setIsectionLocks_path] at he
    split at he
    · obtain ⟨rfl, rfl⟩ := he
      exact .inl ⟨hcar, hq⟩
    · cases he
      exact .inl ⟨hcar, hq⟩
  | print i car₁ =>
    cases he
    cases hcar
  | free =>
    cases he
    cases hcar
  | done => exact he.elim

/-- The quadrants are the only mutexes of `set_isection_locks` if the fourth one is not locked. -/
theorem Separate.ne_quad4 {q : Nat} {next : CrossPc} (h : Separate schedule s) (hat : (s.cross d).AtQuads)
    (hlock : carCross schedule d (s.cross d) = .lock (quadAddr q) next) : QUAD_4 ≠ q := by
  rintro rfl
  obtain ⟨i, hi⟩ := h.quads d _ _ hat (.inl hlock)
  cases hi

/-- A step from a state in which quadrants and buffers are separate does not lock the fourth quadrant. -/
theorem Clear.moves {cap : Nat} {s' : State} {log : List CarPtr} (h : Clear schedule s.cross)
    (hsep : Separate schedule s) (hinv : Inv schedule cap s.mem s.arrive s.cross)
    (hlog : Printed schedule s.mem s.cross log) (hmoves : Moves (code schedule) s s') :
    Clear schedule s'.cross := by
  have hsame : (∀ e, s'.cross e = s.cross e) → Clear schedule s'.cross := fun hcrs => by
    rwa [funext hcrs]
  rcases hmoves.cases with hidle | ⟨t, c, hran⟩
  · exact hsame fun e => hidle.ctrl (.carCross e)
  cases t with
  | carArrive d => exact hsame fun e => hran.ctrl (.carCross e) (by simp)
  | carCross d =>
    have hc : s.cross d = c := congrArg Status.ctrl hran.running
    subst hc
    have hother : ∀ e, e ≠ d → s'.cross e = s.cross e :=
      fun e he => hran.ctrl (.carCross e) (by simpa using he)
    have heffect : (carCross schedule d (s.cross d)).Effect s.mem (s'.cross d) s'.mem := hran.effect
    obtain ⟨_, _, hlanes⟩ := hinv
    obtain ⟨_, _, hl⟩ := hlanes.lanes d
    have htook : ∀ i, s.cross d = .loop i → i ≤ (laneCars schedule d).length := by
      intro i hloop
      have htook := hl.took
      rw [hloop] at htook
      exact htook.2
    refine ⟨fun e car hcar => ?_, fun e car hcar hquad => ?_⟩
    · by_cases he : e = d
      · subst he
        rcases cross_stdout heffect hl.inc htook with ⟨i, car', hprint, hloop, _⟩ | ⟨_, hprinted⟩
        · -- The car that is printed is the one at hand, all of whose quadrants have been locked.
          have hhand := hlog.hand e car' (by rw [hprint]; rfl)
          have hlocked := h.hand e car' (by rw [hprint]; rfl)
          have hold := h.printed e
          rw [hprint] at hhand hlocked hold
          rw [CrossPc.printed] at hhand
          rw [hloop, CrossPc.printed, List.take_add_one, hhand, List.mem_append] at hcar
          rcases hcar with hcar | hcar
          · exact hold car hcar
          · obtain rfl : car = car' := by simpa using hcar
            exact hlocked
        · rw [hprinted] at hcar
          exact h.printed e car hcar
      · rw [hother e he] at hcar
        exact h.printed e car hcar
    · by_cases he : e = d
      · subst he
        rcases locked_of_effect heffect hcar hquad with ⟨hcar, hquad⟩ | ⟨hat, next, hlock⟩
        · exact h.hand e car hcar hquad
        · exact hsep.ne_quad4 hat hlock rfl
      · rw [hother e he] at hcar hquad
        exact h.hand e car hcar hquad

theorem clear_start : Clear schedule (start LANE_LENGTH schedule).cross where
  printed _ _ hcar := by cases hcar
  hand _ _ hcar := by cases hcar

/-- If quadrants and buffers are separate after every run, the fourth quadrant is never locked. -/
theorem run_clear
    (hall : ∀ (run : List (Action Thread)) (s : State),
      Run.exec (step schedule) run (start LANE_LENGTH schedule) = .ok s → Separate schedule s)
    {run : List (Action Thread)} (hrun : Run.exec (step schedule) run (start LANE_LENGTH schedule) = .ok s) :
    Clear schedule s.cross := by
  refine (Run.exec_invariant
    (I := fun run s => Run.exec (step schedule) run (start LANE_LENGTH schedule) = .ok s ∧ Clear schedule s.cross)
    ⟨rfl, clear_start⟩ ?_ hrun).2
  rintro run a s s' ⟨hrun, h⟩ hstep
  obtain ⟨_, hinv⟩ := run_inv (by decide) hrun
  obtain ⟨log, hlog⟩ := run_printed hrun
  exact ⟨by rw [Run.exec_concat, hrun, Run.ok_bind, hstep],
    h.moves (hall run s hrun) hinv hlog (moves_of_step hstep)⟩

/-- Quadrants and buffers are separate after every run exactly if no car of the schedule has the fourth
quadrant on its path: the cars of any other schedule can all get across. -/
theorem runs_separate_iff : (∀ (run : List (Action Thread)) (s : State),
      Run.exec (step schedule) run (start LANE_LENGTH schedule) = .ok s → Separate schedule s) ↔
    AvoidsQuad4 schedule := by
  refine ⟨fun hall c hc => ?_, fun havoid run s hrun => run_separate havoid hrun⟩
  have hstart : Run.exec (step schedule) [] (start LANE_LENGTH schedule) = .ok (start LANE_LENGTH schedule) := rfl
  obtain ⟨run, s, _, hrun, hexit⟩ := run_completes hstart
  have hclear := run_clear hall hrun
  obtain ⟨car, hcar, rfl⟩ := List.mem_iff_getElem.mp hc
  have hat : carAt schedule car = schedule[car] := by simp [carAt, hcar]
  have hlane : car ∈ laneCars schedule schedule[car].inDir := mem_laneCars.mpr ⟨hcar, by rw [hat]⟩
  have hprinted := hclear.printed schedule[car].inDir car
  rw [exited_cross (hexit (.carCross _)), CrossPc.printed, List.take_length, path, hat] at hprinted
  exact hprinted hlane

/-- A run in which a car of the lane gets to lock the first quadrant of its path. -/
def toQuadrant (d : Direction) : List (Action Thread) :=
  List.replicate 7 (.run (.carArrive d) none) ++ List.replicate 7 (.run (.carCross d) none)

/-- A car that turns right from the south takes the lock of the northern lane. -/
theorem not_separate_south : ∃ s, Run.exec (step [⟨7, .south, .east⟩]) (toQuadrant .south)
    (start LANE_LENGTH [⟨7, .south, .east⟩]) = .ok s ∧ ¬Separate [⟨7, .south, .east⟩] s := by
  have hrun : ∃ s, Run.exec (step [⟨7, .south, .east⟩]) (toQuadrant .south)
      (start LANE_LENGTH [⟨7, .south, .east⟩]) = .ok s ∧
      s.owner (.lock .north) = some (.carCross .south) := ⟨_, rfl, rfl⟩
  obtain ⟨s, hs, howner⟩ := hrun
  refine ⟨s, hs, fun hseparate => ?_⟩
  rcases hseparate.lanes _ _ howner with heq | heq
  · cases heq
  · cases heq

end Traffic

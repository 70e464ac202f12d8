-- SUMMARY: The state of one lane between steps: which of its cars wait, are in the buffer, cross, and have left.
import OperatingSystems.Library.Ring
import OperatingSystems.Traffic.Locks

/-!
# Lanes

The cars of a lane leave its list in order, go through the buffer and cross. At any time the list
that the schedule gave the lane is the cars that have crossed, the one that crosses, those in the
buffer, and those still in the list, one after the other.
-/

namespace Traffic

open Library Library.Threads

/-! ## What the control states say -/

/-- The number of cars that `car_arrive` has written to the buffer. -/
def ArrivePc.Wrote (inc : Nat) : ArrivePc → Nat → Prop
  | .loop i, n => n = i ∧ i ≤ inc
  | .lock i, n => n = i ∧ i < inc
  | .test i, n => n = i ∧ i < inc
  | .sleep i, n => n = i ∧ i < inc
  | .write i, n => n = i ∧ i < inc
  | .signal i, n => n = i + 1 ∧ i < inc
  | .unlock i, n => n = i + 1 ∧ i < inc
  | .done, n => n = inc

/-- The number of cars that `car_cross` has read from the buffer. -/
def CrossPc.Took (inc : Nat) : CrossPc → Nat → Prop
  | .loop i, n => n = i ∧ i ≤ inc
  | .lock i, n => n = i ∧ i < inc
  | .test i, n => n = i ∧ i < inc
  | .sleep i, n => n = i ∧ i < inc
  | .read i, n => n = i ∧ i < inc
  | .signal i _, n => n = i + 1 ∧ i < inc
  | .unlock i _, n => n = i + 1 ∧ i < inc
  | .acquire i _ _, n => n = i + 1 ∧ i < inc
  | .link i _, n => n = i + 1 ∧ i < inc
  | .push i _, n => n = i + 1 ∧ i < inc
  | .pass i _, n => n = i + 1 ∧ i < inc
  | .release i _ _, n => n = i + 1 ∧ i < inc
  | .print i _, n => n = i + 1 ∧ i < inc
  | .free, n => n = inc
  | .done, n => n = inc

/-- The car in the hands of `car_cross`: read from the buffer, but not in the list of an exit. -/
def CrossPc.hand : CrossPc → List CarPtr
  | .signal _ car => [car]
  | .unlock _ car => [car]
  | .acquire _ car _ => [car]
  | .link _ car => [car]
  | .push _ car => [car]
  | _ => []

/-- The number of cars that have left but are not counted in `passed`. -/
def CrossPc.uncounted : CrossPc → Nat
  | .pass _ _ => 1
  | _ => 0

/-- `car_arrive` has found room in the buffer. -/
def ArrivePc.FoundRoom : ArrivePc → Prop
  | .write _ => True
  | _ => False

/-- `car_cross` has found a car in the buffer. -/
def CrossPc.FoundCar : CrossPc → Prop
  | .read _ => True
  | _ => False

/-! ## The state of a lane -/

/-- The cars of the lane that have crossed, those in its buffer, and those still in its list, in
this order with the car that crosses at its place. -/
structure LaneState (schedule : List Car) (cap : Nat) (d : Direction) (g : Intersection)
    (a : ArrivePc) (c : CrossPc) (crossed queue rest : List CarPtr) : Prop where
  cars : laneCars schedule d = crossed ++ c.hand ++ queue ++ rest
  list : Follows g.next (g.lanes d).inCars rest
  inc : (g.lanes d).inc = (laneCars schedule d).length
  capacity : (g.lanes d).capacity = cap
  inBuf : (g.lanes d).inBuf = queue.length
  room : queue.length ≤ cap
  buffer : ∀ b, (g.lanes d).buffer = some b → Ring cap (g.lanes d).head (g.lanes d).tail b queue
  freed : (g.lanes d).buffer = none → c = .done
  wrote : a.Wrote (laneCars schedule d).length (crossed ++ c.hand ++ queue).length
  took : c.Took (laneCars schedule d).length (crossed ++ c.hand).length
  passed : (g.lanes d).passed + c.uncounted = crossed.length
  foundRoom : a.FoundRoom → queue.length < cap
  foundCar : c.FoundCar → queue ≠ []

/-- The fields of a lane that only its own threads use. -/
def Lane.own (l : Lane) : Lane := { l with outCars := none }

variable {schedule : List Car} {cap : Nat} {d : Direction} {g g' : Intersection}
  {a a' : ArrivePc} {c c' : CrossPc} {crossed queue rest : List CarPtr} {car : CarPtr} {i k : Nat}

namespace LaneState

/-- What the other threads do to the intersection. -/
theorem congr (h : LaneState schedule cap d g a c crossed queue rest)
    (hown : (g'.lanes d).own = (g.lanes d).own) (hnext : ∀ car ∈ rest, g'.next car = g.next car) :
    LaneState schedule cap d g' a c crossed queue rest := by
  simp only [Lane.own, Lane.mk.injEq, true_and] at hown
  obtain ⟨hin, hinc, hpassed, hbuffer, hhead, htail, hcap, hinBuf⟩ := hown
  exact
    { h with
      list := by rw [hin]; exact h.list.congr hnext
      inc := by rw [hinc]; exact h.inc
      capacity := by rw [hcap]; exact h.capacity
      inBuf := by rw [hinBuf]; exact h.inBuf
      buffer := by rw [hbuffer, hhead, htail]; exact h.buffer
      freed := by rw [hbuffer]; exact h.freed
      passed := by rw [hpassed]; exact h.passed }

/-- After an assignment to fields of the lane, the state is read off these fields. -/
theorem modifyLane {f : Lane → Lane} (h : LaneState schedule cap d
    { g with lanes := fun _ => f (g.lanes d) } a c crossed queue rest) :
    LaneState schedule cap d (g.modifyLane d f) a c crossed queue rest :=
  h.congr (by rw [Intersection.lanes_modifyLane]) fun _ _ => rfl

/-- `car_arrive` goes on without touching memory. -/
theorem arriveTo (h : LaneState schedule cap d g a c crossed queue rest)
    (hwrote : ∀ n, a.Wrote (laneCars schedule d).length n → n ≤ (laneCars schedule d).length →
      a'.Wrote (laneCars schedule d).length n)
    (hroom : a'.FoundRoom → queue.length < cap) :
    LaneState schedule cap d g a' c crossed queue rest :=
  { h with
    wrote := by
      apply hwrote _ h.wrote
      rw [h.cars]
      exact (List.prefix_append _ rest).length_le
    foundRoom := hroom }

/-- `car_cross` goes on without touching memory. -/
theorem crossTo (h : LaneState schedule cap d g a c crossed queue rest) (hdone : c ≠ .done)
    (hhand : c'.hand = c.hand) (hcount : c'.uncounted = c.uncounted)
    (htook : ∀ n, c.Took (laneCars schedule d).length n → n ≤ (laneCars schedule d).length →
      c'.Took (laneCars schedule d).length n)
    (hcar : c'.FoundCar → queue ≠ []) :
    LaneState schedule cap d g a c' crossed queue rest :=
  { h with
    cars := by rw [hhand]; exact h.cars
    freed := fun hfreed => absurd (h.freed hfreed) hdone
    wrote := by rw [hhand]; exact h.wrote
    took := by
      rw [hhand]
      apply htook _ h.took
      rw [h.cars, List.append_assoc _ queue rest]
      exact (List.prefix_append _ (queue ++ rest)).length_le
    passed := by rw [hcount]; exact h.passed
    foundCar := hcar }

/-- At `write_to_buf` the list of the lane is not empty, and the buffer is not freed. -/
theorem rest_ne_nil (h : LaneState schedule cap d g (.write i) c crossed queue rest) :
    rest ≠ [] := by
  rintro rfl
  obtain ⟨hn, hi⟩ := h.wrote
  rw [h.cars, List.append_nil] at hi
  omega

theorem buffer_of_rest (h : LaneState schedule cap d g a c crossed queue rest)
    (hrest : queue ++ rest ≠ []) : ∃ b, (g.lanes d).buffer = some b := by
  cases hb : (g.lanes d).buffer with
  | some b => exact ⟨b, rfl⟩
  | none =>
    have htook := h.took
    rw [h.freed hb] at htook
    have hlen : (laneCars schedule d).length = crossed.length + (queue ++ rest).length := by
      rw [h.cars, h.freed hb]
      simp [CrossPc.hand]
    have hpos := List.length_pos_iff.mpr hrest
    simp only [CrossPc.Took, CrossPc.hand, List.append_nil] at htook
    omega

/-- `write_to_buf` moves a car from the list of the lane to its buffer. -/
theorem write (h : LaneState schedule cap d g (.write i) c crossed queue rest) :
    ∃ car rest' f, rest = car :: rest' ∧ writeToBuf d g = .ok (g.modifyLane d f) ∧
      LaneState schedule cap d (g.modifyLane d f) (.signal i) c crossed (queue ++ [car]) rest' ∧
      (f (g.lanes d)).outCars = (g.lanes d).outCars := by
  obtain ⟨car, rest', rfl⟩ := List.exists_cons_of_ne_nil h.rest_ne_nil
  obtain ⟨b, hb⟩ := h.buffer_of_rest (by simp)
  obtain ⟨hin, hrest⟩ := h.list
  have hring := h.buffer b hb
  -- The test of the loop still holds, since only `car_cross` has changed the buffer since.
  have hlt : queue.length < cap := h.foundRoom trivial
  have hroom : (g.lanes d).inBuf ≠ (g.lanes d).capacity := by
    rw [h.inBuf, h.capacity]
    exact hlt.ne
  let f : Lane → Lane := fun l =>
    { l with
      buffer := some (Function.update b l.tail (some car))
      inBuf := l.inBuf + 1
      inCars := g.next car
      tail := (l.tail + 1) % l.capacity }
  refine ⟨car, rest', f, rfl, ?_, ?_, ?_⟩
  · have htail := hring.tail_lt
    rw [← h.capacity] at htail
    simp only [writeToBuf, hb, hin, if_pos hroom, if_pos htail]
    rfl
  · have htail : (f (g.lanes d)).tail = ((g.lanes d).tail + 1) % cap := by rw [← h.capacity]
    obtain ⟨hn, hi⟩ := h.wrote
    exact modifyLane
      { h with
        cars := by
          rw [h.cars]
          simp
        list := hrest
        inBuf := by
          rw [List.length_append, List.length_singleton, ← h.inBuf]
        room := by
          rw [List.length_append, List.length_singleton]
          exact hlt
        buffer := by
          intro b' hb'
          cases hb'
          change Ring cap (g.lanes d).head (f (g.lanes d)).tail _ _
          rw [htail]
          exact hring.push hlt
        freed := fun hno => by cases hno
        wrote := by
          refine ⟨?_, hi⟩
          rw [← List.append_assoc, List.length_append, hn, List.length_singleton]
        foundRoom := fun hf => hf.elim
        foundCar := fun _ => by simp }
  · rfl

/-- `read_from_buf` takes a car from the buffer into the hands of `car_cross`. -/
theorem read (h : LaneState schedule cap d g a (.read i) crossed queue rest) :
    ∃ car queue' f₁ f₂, queue = car :: queue' ∧
      readFromBuf d g = .ok (some car, g.modifyLane d f₁) ∧
      (g.modifyLane d f₁).modifyLane d (fun l => { l with inBuf := l.inBuf - 1 }) =
        g.modifyLane d f₂ ∧
      LaneState schedule cap d (g.modifyLane d f₂) a (.signal i car) crossed queue' rest ∧
      (f₂ (g.lanes d)).outCars = (g.lanes d).outCars := by
  obtain ⟨car, queue', rfl⟩ := List.exists_cons_of_ne_nil (h.foundCar trivial)
  obtain ⟨b, hb⟩ := h.buffer_of_rest (by simp)
  have hhead := (h.buffer b hb).head_lt
  rw [← h.capacity] at hhead
  obtain ⟨hslot, hring⟩ := (h.buffer b hb).pop
  have hsome : (g.lanes d).inBuf ≠ 0 := by
    rw [h.inBuf]
    simp
  let f₁ : Lane → Lane := fun l => { l with head := (l.head + 1) % l.capacity }
  let f₂ : Lane → Lane := fun l =>
    { l with head := (l.head + 1) % l.capacity, inBuf := l.inBuf - 1 }
  refine ⟨car, queue', f₁, f₂, rfl, ?_, ?_, ?_, rfl⟩
  · simp only [readFromBuf, hb, hslot, if_pos hsome, if_pos hhead]
    rfl
  · simp [Intersection.modifyLane, f₁, f₂]
  · have hlen := h.room
    rw [List.length_cons] at hlen
    obtain ⟨hn, hi⟩ := h.took
    have hhead' : (f₂ (g.lanes d)).head = ((g.lanes d).head + 1) % cap := by rw [← h.capacity]
    exact modifyLane
      { h with
        cars := by
          rw [h.cars]
          simp [CrossPc.hand]
        inBuf := by
          change (g.lanes d).inBuf - 1 = _
          rw [h.inBuf, List.length_cons, Nat.add_sub_cancel]
        room := by omega
        buffer := by
          intro b' hb'
          obtain rfl : b = b' := Option.some.inj (hb.symm.trans hb')
          change Ring cap (f₂ (g.lanes d)).head (g.lanes d).tail _ _
          rw [hhead']
          exact hring
        freed := fun hno => absurd (hb.symm.trans hno) (by simp)
        wrote := by
          have hwrote := h.wrote
          simpa [CrossPc.hand] using hwrote
        took := by
          refine ⟨?_, hi⟩
          simp only [CrossPc.hand, List.append_nil] at hn
          simp [CrossPc.hand, hn]
        foundRoom := by
          intro hroom
          have hlt := h.foundRoom hroom
          rw [List.length_cons] at hlt
          omega
        foundCar := fun hf => hf.elim }

/-- `complete_cross` takes the car out of the hands of `car_cross`. -/
theorem push (h : LaneState schedule cap d g a (.push i car) crossed queue rest) :
    LaneState schedule cap d g a (.pass i car) (crossed ++ [car]) queue rest :=
  { h with
    cars := by
      rw [h.cars]
      simp [CrossPc.hand]
    freed := fun hfreed => by cases h.freed hfreed
    wrote := by
      have hwrote := h.wrote
      simpa [CrossPc.hand] using hwrote
    took := by
      have htook := h.took
      simpa [CrossPc.hand, CrossPc.Took] using htook
    passed := by
      have hpassed := h.passed
      simp only [CrossPc.uncounted, Nat.add_zero] at hpassed
      simp [CrossPc.uncounted, hpassed]
    foundCar := fun hf => hf.elim }

/-- The car that has left is counted. -/
theorem pass (h : LaneState schedule cap d g a (.pass i car) crossed queue rest) :
    LaneState schedule cap d (g.modifyLane d fun l => { l with passed := l.passed + 1 }) a
      (.release i car 0) crossed queue rest :=
  modifyLane
    { h with
      freed := fun hfreed => by cases h.freed hfreed
      passed := h.passed
      foundCar := fun hf => hf.elim }

/-- At the end the buffer is freed. -/
theorem free (h : LaneState schedule cap d g a .free crossed queue rest) :
    LaneState schedule cap d (g.modifyLane d fun l => { l with buffer := none }) a .done crossed
      queue rest :=
  modifyLane
    { h with
      buffer := fun b hb => by cases hb
      freed := fun _ => rfl
      foundCar := fun hf => hf.elim }

end LaneState

/-! ## The car at hand -/

/-- The car that the local variable `crossing_car` points to. -/
def CrossPc.crossingCar : CrossPc → Option CarPtr
  | .signal _ car => some car
  | .unlock _ car => some car
  | .acquire _ car _ => some car
  | .link _ car => some car
  | .push _ car => some car
  | .pass _ car => some car
  | .release _ car _ => some car
  | .print _ car => some car
  | _ => none

/-- A step of `car_cross` keeps its car, lets go of it, or has read one from the buffer. -/
theorem car_of_effect (he : (carCross schedule d c).Effect g c' g')
    (hcar : c'.crossingCar = some car) : c.crossingCar = some car ∨ car ∈ c'.hand := by
  cases c with
  | loop i =>
    cases he
    split at hcar
    · cases hcar
    · cases hcar
  | lock i =>
    obtain ⟨rfl, rfl⟩ := he
    cases hcar
  | test i =>
    cases he
    split at hcar
    · cases hcar
    · cases hcar
  | sleep i =>
    obtain ⟨rfl, rfl⟩ := he
    cases hcar
  | read i =>
    obtain ⟨⟨crossingCar, g₁⟩, _, hread⟩ := Run.bind_eq_ok.mp he
    cases crossingCar with
    | none => cases hread
    | some car₁ =>
      cases hread
      cases hcar
      exact .inr List.mem_cons_self
  | signal i car₁ =>
    obtain ⟨rfl, rfl⟩ := he
    exact .inl hcar
  | unlock i car₁ =>
    obtain ⟨rfl, rfl⟩ := he
    exact .inl hcar
  | acquire i car₁ k =>
    simp only [carCross, setIsectionLocks_path] at he
    split at he
    · obtain ⟨rfl, rfl⟩ := he
      exact .inl hcar
    · cases he
      exact .inl hcar
  | link i car₁ =>
    cases he
    exact .inl hcar
  | push i car₁ =>
    cases he
    exact .inl hcar
  | pass i car₁ =>
    cases he
    exact .inl hcar
  | release i car₁ k =>
    simp only [carCross, setIsectionLocks_path] at he
    split at he
    · obtain ⟨rfl, rfl⟩ := he
      exact .inl hcar
    · cases he
      exact .inl hcar
  | print i car₁ =>
    cases he
    cases hcar
  | free =>
    cases he
    cases hcar
  | done => exact he.elim

end Traffic

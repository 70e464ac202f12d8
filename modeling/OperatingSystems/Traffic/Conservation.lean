-- SUMMARY: No car is lost, duplicated or reordered, whatever the interleaving of the eight threads.
import OperatingSystems.Traffic.Lanes

/-!
# Conservation

The state of the whole intersection is the states of its lanes and the lists of the exits. An exit
has in its list the cars that have crossed towards it, those of each lane in the order of the lane,
last first. That the head of the list is read and written in two steps does no harm, because all
paths to the exit share a quadrant.
-/

namespace Traffic

open Library Library.Threads

variable {schedule : List Car} {cap : Nat} {d o : Direction} {g g' : Intersection}
  {arr : Direction → ArrivePc} {crs : Direction → CrossPc} {a' : ArrivePc} {c c' : CrossPc}
  {crossed outs : Direction → List CarPtr} {queue rest : List CarPtr} {car : CarPtr} {i k : Nat}

/-! ## The invariant -/

/-- The lists of the exits. `linked` is the state between the two steps of `complete_cross`. -/
structure Outs (schedule : List Car) (g : Intersection) (crs : Direction → CrossPc)
    (crossed outs : Direction → List CarPtr) : Prop where
  list : ∀ o, Follows g.next (g.lanes o).outCars (outs o)
  order : ∀ o i, (outs o).filter (fun car => (carAt schedule car).inDir = i) =
    ((crossed i).filter fun car => (carAt schedule car).outDir = o).reverse
  linked : ∀ d i car, crs d = .push i car →
    g.next car = (g.lanes (carAt schedule car).outDir).outCars

/-- The state of a lane, for some contents of its buffer and its list. -/
def LaneInv (schedule : List Car) (cap : Nat) (d : Direction) (g : Intersection)
    (a : ArrivePc) (c : CrossPc) (crossed : List CarPtr) : Prop :=
  ∃ queue rest, LaneState schedule cap d g a c crossed queue rest

/-- The state of the intersection, with the cars of each lane that have crossed. -/
structure Crossed (schedule : List Car) (cap : Nat) (g : Intersection)
    (arr : Direction → ArrivePc) (crs : Direction → CrossPc)
    (crossed outs : Direction → List CarPtr) : Prop where
  lanes : ∀ d, LaneInv schedule cap d g (arr d) (crs d) (crossed d)
  outs : Outs schedule g crs crossed outs

/-- The state of the intersection. -/
def Inv (schedule : List Car) (cap : Nat) (g : Intersection) (arr : Direction → ArrivePc)
    (crs : Direction → CrossPc) : Prop :=
  ∃ crossed outs, Crossed schedule cap g arr crs crossed outs

/-! ## Other lanes -/

theorem LaneInv.congr {a : ArrivePc} {cs : List CarPtr} (h : LaneInv schedule cap d g a c cs)
    (hown : (g'.lanes d).own = (g.lanes d).own)
    (hnext : ∀ car ∈ laneCars schedule d, g'.next car = g.next car) :
    LaneInv schedule cap d g' a c cs := by
  obtain ⟨queue, rest, h⟩ := h
  refine ⟨queue, rest, h.congr hown ?_⟩
  intro car hcar
  apply hnext car
  rw [h.cars]
  exact List.mem_append_right _ hcar

/-- A car in the list of an exit has crossed. -/
theorem Outs.mem (h : Outs schedule g crs crossed outs) (hcar : car ∈ outs o) :
    car ∈ crossed (carAt schedule car).inDir ∧ (carAt schedule car).outDir = o := by
  have hmem : car ∈ (outs o).filter
      (fun c => (carAt schedule c).inDir = (carAt schedule car).inDir) :=
    List.mem_filter.mpr ⟨hcar, by simp⟩
  rw [h.order, List.mem_reverse, List.mem_filter] at hmem
  simpa using hmem

/-- A change to the fields of a lane that only its own threads use. -/
theorem Outs.modifyLane (h : Outs schedule g crs crossed outs) {f : Lane → Lane}
    (hf : (f (g.lanes d)).outCars = (g.lanes d).outCars) :
    Outs schedule (g.modifyLane d f) crs crossed outs := by
  have hout : ∀ o, ((g.modifyLane d f).lanes o).outCars = (g.lanes o).outCars :=
    fun o => Intersection.congr_modifyLane (F := Lane.outCars) hf
  refine ⟨?_, h.order, ?_⟩
  · intro o
    rw [hout]
    exact h.list o
  · intro d i car hd
    rw [hout]
    exact h.linked d i car hd

/-- A cross thread that does not get to the second step of `complete_cross`. -/
theorem Outs.crossTo (h : Outs schedule g crs crossed outs) (hc : ∀ i car, c' ≠ .push i car) :
    Outs schedule g (Function.update crs d c') crossed outs where
  list := h.list
  order := h.order
  linked e i car he := by
    by_cases hed : e = d
    · subst hed
      rw [Function.update_self] at he
      exact absurd he (hc i car)
    · rw [Function.update_of_ne hed] at he
      exact h.linked e i car he

namespace Crossed

variable {a : ArrivePc} {cs : List CarPtr}

/-- The car in the hands of a thread. -/
theorem hand (h : Crossed schedule cap g arr crs crossed outs) (hcar : car ∈ (crs d).hand) :
    car ∈ laneCars schedule d ∧ car ∉ crossed d := by
  obtain ⟨queue, rest, hl⟩ := h.lanes d
  have hnodup := laneCars_nodup schedule d
  rw [hl.cars] at hnodup ⊢
  refine ⟨?_, ?_⟩
  · simp [hcar]
  · intro hin
    rw [List.append_assoc, List.append_assoc] at hnodup
    exact (List.nodup_append.mp hnodup).2.2 car hin car (by simp [hcar]) rfl

/-- A car in the hands of a thread is in no list of an exit. -/
theorem hand_not_mem_outs (h : Crossed schedule cap g arr crs crossed outs)
    (hcar : car ∈ (crs d).hand) (o : Direction) : car ∉ outs o := by
  intro hout
  obtain ⟨hlane, hnot⟩ := h.hand hcar
  have hcrossed := (h.outs.mem hout).1
  rw [(mem_laneCars.mp hlane).2] at hcrossed
  exact hnot hcrossed

/-- A thread changes the state of its own lane; to the others the intersection looks the same. -/
theorem ofLane (h : Crossed schedule cap g arr crs crossed outs)
    (hlane : LaneInv schedule cap d g' a c cs)
    (hother : ∀ e, e ≠ d → (g'.lanes e).own = (g.lanes e).own ∧
      ∀ car ∈ laneCars schedule e, g'.next car = g.next car) (e : Direction) :
    LaneInv schedule cap e g' (Function.update arr d a e) (Function.update crs d c e)
      (Function.update crossed d cs e) := by
  by_cases he : e = d
  · subst he
    simpa using hlane
  · simp only [Function.update_of_ne he]
    exact (h.lanes e).congr (hother e he).1 (hother e he).2

end Crossed

/-! ## The steps of `car_arrive` -/

theorem Crossed.ofArrive (h : Crossed schedule cap g arr crs crossed outs)
    (hlane : LaneInv schedule cap d g' a' (crs d) (crossed d))
    (hother : ∀ e, e ≠ d → (g'.lanes e).own = (g.lanes e).own ∧
      ∀ car ∈ laneCars schedule e, g'.next car = g.next car)
    (houts : Outs schedule g' crs crossed outs) :
    Inv schedule cap g' (Function.update arr d a') crs := by
  refine ⟨crossed, outs, ?_, houts⟩
  intro e
  have he := h.ofLane hlane hother e
  rwa [Function.update_eq_self, Function.update_eq_self] at he

/-- Every step of a `car_arrive` keeps the state of the intersection. -/
theorem Inv.arrive (h : Inv schedule cap g arr crs)
    (he : (carArrive d (arr d)).Effect g a' g') :
    Inv schedule cap g' (Function.update arr d a') crs := by
  obtain ⟨crossed, outs, hc⟩ := h
  obtain ⟨queue, rest, hl⟩ := hc.lanes d
  -- Steps that do not touch memory.
  have hquiet : ∀ a', (∀ n, (arr d).Wrote (laneCars schedule d).length n →
      n ≤ (laneCars schedule d).length → a'.Wrote (laneCars schedule d).length n) →
      (a'.FoundRoom → queue.length < cap) →
      Inv schedule cap g (Function.update arr d a') crs :=
    fun a' hwrote hroom => hc.ofArrive ⟨queue, rest, hl.arriveTo hwrote hroom⟩
      (fun _ _ => ⟨rfl, fun _ _ => rfl⟩) hc.outs
  cases ha : arr d with
  | loop i =>
    rw [ha] at he hquiet
    cases he
    rw [hl.inc]
    split
    case isTrue hi => exact hquiet _ (fun n hn _ => ⟨hn.1, hi⟩) fun hf => hf.elim
    case isFalse hi =>
      refine hquiet _ ?_ fun hf => hf.elim
      rintro n ⟨hn, hle⟩ _
      change n = _
      omega
  | test i =>
    rw [ha] at he hquiet
    cases he
    rw [hl.inBuf, hl.capacity]
    split
    case isTrue => exact hquiet _ (fun n hn _ => hn) fun hf => hf.elim
    case isFalse hne =>
      exact hquiet _ (fun n hn _ => hn) fun _ => lt_of_le_of_ne hl.room hne
  | write i =>
    rw [ha] at he hl
    obtain ⟨car, rest', f, rfl, hwrite, hl', hout⟩ := hl.write
    obtain ⟨g₁, hg₁, heq⟩ := Run.bind_eq_ok.mp he
    rw [hwrite] at hg₁
    cases hg₁
    cases heq
    refine hc.ofArrive ⟨_, _, hl'⟩ ?_ (hc.outs.modifyLane hout)
    intro e hne
    exact ⟨by rw [Intersection.lanes_modifyLane_of_ne hne], fun _ _ => rfl⟩
  | lock i | sleep i | signal i | unlock i =>
    rw [ha] at he hquiet
    obtain ⟨rfl, rfl⟩ := he
    exact hquiet _ (fun n hn _ => hn) fun hf => hf.elim
  | done =>
    rw [ha] at he
    exact he.elim

/-! ## The steps of `car_cross` -/

theorem Crossed.ofCross (h : Crossed schedule cap g arr crs crossed outs) {cs : List CarPtr}
    {outs' : Direction → List CarPtr} (hlane : LaneInv schedule cap d g' (arr d) c' cs)
    (hother : ∀ e, e ≠ d → (g'.lanes e).own = (g.lanes e).own ∧
      ∀ car ∈ laneCars schedule e, g'.next car = g.next car)
    (houts : Outs schedule g' (Function.update crs d c') (Function.update crossed d cs) outs') :
    Inv schedule cap g' arr (Function.update crs d c') := by
  refine ⟨Function.update crossed d cs, outs', ?_, houts⟩
  intro e
  have he := h.ofLane hlane hother e
  rwa [Function.update_eq_self] at he

/-- A step of a `car_cross` in which no car leaves. -/
theorem Crossed.ofCross' (h : Crossed schedule cap g arr crs crossed outs)
    (hlane : LaneInv schedule cap d g' (arr d) c' (crossed d))
    (hother : ∀ e, e ≠ d → (g'.lanes e).own = (g.lanes e).own ∧
      ∀ car ∈ laneCars schedule e, g'.next car = g.next car)
    (houts : Outs schedule g' (Function.update crs d c') crossed outs) :
    Inv schedule cap g' arr (Function.update crs d c') := by
  have houts' : Outs schedule g' (Function.update crs d c')
      (Function.update crossed d (crossed d)) outs := by
    rwa [Function.update_eq_self]
  exact h.ofCross hlane hother houts'

/-- The first step of `complete_cross`: nobody else looks at the link that it sets. -/
theorem Crossed.link (h : Crossed schedule cap g arr crs crossed outs)
    (hl : LaneState schedule cap d g (arr d) (.link i car) (crossed d) queue rest)
    (hd : crs d = .link i car) :
    Inv schedule cap
      { g with
        next := Function.update g.next car (g.lanes (carAt schedule car).outDir).outCars }
      arr (Function.update crs d (.push i car)) := by
  have hhand : car ∈ (crs d).hand := by rw [hd]; exact List.mem_singleton.mpr rfl
  have hdir := (mem_laneCars.mp (h.hand hhand).1).2
  -- The car is in no list, so no list runs over the link that changes.
  have hrest : ∀ c ∈ rest, c ≠ car := by
    rintro c hc rfl
    have hnodup := laneCars_nodup schedule d
    rw [hl.cars, List.append_assoc] at hnodup
    exact (List.nodup_append.mp hnodup).2.2 c (by simp [CrossPc.hand]) c (by simp [hc]) rfl
  have hlane : ∀ e, e ≠ d → ∀ c ∈ laneCars schedule e, c ≠ car := by
    rintro e he c hc rfl
    exact he ((mem_laneCars.mp hc).2.symm.trans hdir)
  refine h.ofCross' ⟨queue, rest, ?_⟩ ?_ ⟨?_, h.outs.order, ?_⟩
  · have hpush : LaneState schedule cap d g (arr d) (.push i car) (crossed d) queue rest :=
      hl.crossTo (by simp) rfl rfl (fun n hn _ => hn) fun hf => hf.elim
    refine hpush.congr rfl ?_
    intro c hc
    exact Function.update_of_ne (hrest c hc) _ _
  · intro e he
    exact ⟨rfl, fun c hc => Function.update_of_ne (hlane e he c hc) _ _⟩
  · intro o
    apply (h.outs.list o).congr
    rintro c hc
    refine Function.update_of_ne ?_ _ _
    rintro rfl
    exact h.hand_not_mem_outs hhand o hc
  · intro e i' car' he
    by_cases hed : e = d
    · subst hed
      rw [Function.update_self] at he
      cases he
      exact Function.update_self _ _ _
    · rw [Function.update_of_ne hed] at he
      have hcar' : car' ∈ laneCars schedule e :=
        (h.hand (by rw [he]; exact List.mem_singleton.mpr rfl)).1
      exact (Function.update_of_ne (hlane e hed car' hcar') _ _).trans (h.outs.linked e i' car' he)

/-- The second step of `complete_cross`: nobody else is between its two steps at this exit. -/
theorem Crossed.push (h : Crossed schedule cap g arr crs crossed outs)
    (hl : LaneState schedule cap d g (arr d) (.push i car) (crossed d) queue rest)
    (hd : crs d = .push i car)
    (hexcl : ∀ e i' car', e ≠ d → crs e = .push i' car' →
      (carAt schedule car').outDir ≠ (carAt schedule car).outDir) :
    Inv schedule cap (g.modifyLane (carAt schedule car).outDir fun l =>
      { l with outCars := some car }) arr (Function.update crs d (.pass i car)) := by
  have hhand : car ∈ (crs d).hand := by rw [hd]; exact List.mem_singleton.mpr rfl
  have hdir := (mem_laneCars.mp (h.hand hhand).1).2
  have hown : ∀ e, ((g.modifyLane (carAt schedule car).outDir fun l =>
      { l with outCars := some car }).lanes e).own = (g.lanes e).own :=
    fun e => Intersection.congr_modifyLane (F := Lane.own) rfl
  -- The list read at the first step is still the one there, by `linked`.
  have houts : Outs schedule (g.modifyLane (carAt schedule car).outDir fun l =>
      { l with outCars := some car }) (Function.update crs d (.pass i car))
      (Function.update crossed d (crossed d ++ [car]))
      (Function.update outs (carAt schedule car).outDir
        (car :: outs (carAt schedule car).outDir)) := by
    refine ⟨?_, ?_, ?_⟩
    · intro o
      by_cases ho : o = (carAt schedule car).outDir
      · subst ho
        rw [Intersection.lanes_modifyLane, Function.update_self]
        refine ⟨rfl, ?_⟩
        rw [Intersection.next_modifyLane, h.outs.linked d i car hd]
        exact h.outs.list _
      · rw [Intersection.lanes_modifyLane_of_ne ho, Function.update_of_ne ho]
        exact h.outs.list o
    · intro o e
      have hold := h.outs.order o e
      by_cases ho : o = (carAt schedule car).outDir
      · subst ho
        rw [Function.update_self]
        by_cases he : e = d
        · subst he
          rw [Function.update_self, List.filter_cons_of_pos (by simpa using hdir), hold]
          simp
        · rw [Function.update_of_ne he, List.filter_cons_of_neg (by simpa [hdir] using Ne.symm he)]
          exact hold
      · rw [Function.update_of_ne ho]
        by_cases he : e = d
        · subst he
          rw [Function.update_self, List.filter_append, hold]
          simp [Ne.symm ho]
        · rw [Function.update_of_ne he]
          exact hold
    · intro e i' car' he
      by_cases hed : e = d
      · subst hed
        rw [Function.update_self] at he
        cases he
      · rw [Function.update_of_ne hed] at he
        rw [Intersection.lanes_modifyLane_of_ne (hexcl e i' car' hed he)]
        exact h.outs.linked e i' car' he
  exact h.ofCross ⟨queue, rest, hl.push.congr (hown d) fun _ _ => rfl⟩
    (fun e _ => ⟨hown e, fun _ _ => rfl⟩) houts

/-- Every step of a `car_cross` keeps the state of the intersection. -/
theorem Inv.cross (h : Inv schedule cap g arr crs)
    (he : (carCross schedule d (crs d)).Effect g c' g')
    (hexcl : ∀ e i car i' car', crs d = .push i car → e ≠ d → crs e = .push i' car' →
      (carAt schedule car').outDir ≠ (carAt schedule car).outDir) :
    Inv schedule cap g' arr (Function.update crs d c') := by
  obtain ⟨crossed, outs, hc⟩ := h
  obtain ⟨queue, rest, hl⟩ := hc.lanes d
  -- Steps that do not touch memory.
  have hquiet : ∀ c', crs d ≠ .done → c'.hand = (crs d).hand →
      c'.uncounted = (crs d).uncounted →
      (∀ n, (crs d).Took (laneCars schedule d).length n → n ≤ (laneCars schedule d).length →
        c'.Took (laneCars schedule d).length n) →
      (c'.FoundCar → queue ≠ []) → (∀ i car, c' ≠ .push i car) →
      Inv schedule cap g arr (Function.update crs d c') :=
    fun c' hdone hhand hcount htook hcar hpush =>
      hc.ofCross' ⟨queue, rest, hl.crossTo hdone hhand hcount htook hcar⟩
        (fun _ _ => ⟨rfl, fun _ _ => rfl⟩) (hc.outs.crossTo hpush)
  -- Steps that assign to the lane of the thread.
  have hother : ∀ f, ∀ e, e ≠ d → ((g.modifyLane d f).lanes e).own = (g.lanes e).own ∧
      ∀ car ∈ laneCars schedule e, (g.modifyLane d f).next car = g.next car :=
    fun f e hne => ⟨by rw [Intersection.lanes_modifyLane_of_ne hne], fun _ _ => rfl⟩
  cases hd : crs d with
  | loop i =>
    rw [hd] at he hquiet
    cases he
    rw [hl.inc]
    split
    case isTrue hi =>
      exact hquiet _ (by simp) rfl rfl (fun n hn _ => ⟨hn.1, hi⟩) (fun hf => hf.elim) (by simp)
    case isFalse hi =>
      refine hquiet _ (by simp) rfl rfl ?_ (fun hf => hf.elim) (by simp)
      rintro n ⟨hn, hle⟩ _
      change n = _
      omega
  | test i =>
    rw [hd] at he hquiet
    cases he
    rw [hl.inBuf]
    split
    case isTrue =>
      exact hquiet _ (by simp) rfl rfl (fun n hn _ => hn) (fun hf => hf.elim) (by simp)
    case isFalse hne =>
      exact hquiet _ (by simp) rfl rfl (fun n hn _ => hn)
        (fun _ hnil => hne (by rw [hnil]; rfl)) (by simp)
  | lock i | sleep i =>
    rw [hd] at he hquiet
    obtain ⟨rfl, rfl⟩ := he
    exact hquiet _ (by simp) rfl rfl (fun n hn _ => hn) (fun hf => hf.elim) (by simp)
  | read i =>
    rw [hd] at he hl
    obtain ⟨car, queue', f₁, f₂, rfl, hread, hmod, hl', hout⟩ := hl.read
    obtain ⟨⟨crossingCar, g₁⟩, hg₁, heq⟩ := Run.bind_eq_ok.mp he
    rw [hread] at hg₁
    cases hg₁
    simp only [hmod] at heq
    cases heq
    exact hc.ofCross' ⟨_, _, hl'⟩ (hother f₂) ((hc.outs.crossTo (by simp)).modifyLane hout)
  | signal i car | unlock i car =>
    rw [hd] at he hquiet
    obtain ⟨rfl, rfl⟩ := he
    exact hquiet _ (by simp) rfl rfl (fun n hn _ => hn) (fun hf => hf.elim) (by simp)
  | acquire i car k | release i car k =>
    rw [hd] at he hquiet
    simp only [carCross, setIsectionLocks_path] at he
    split at he
    · obtain ⟨rfl, rfl⟩ := he
      exact hquiet _ (by simp) rfl rfl (fun n hn _ => hn) (fun hf => hf.elim) (by simp)
    · cases he
      exact hquiet _ (by simp) rfl rfl (fun n hn _ => hn) (fun hf => hf.elim) (by simp)
  | link i car =>
    rw [hd] at he hl
    cases he
    exact hc.link hl hd
  | push i car =>
    rw [hd] at he hl
    cases he
    exact hc.push hl hd fun e i' car' => hexcl e i car i' car' hd
  | pass i car =>
    rw [hd] at he hl
    cases he
    exact hc.ofCross' ⟨_, _, hl.pass⟩ (hother _) ((hc.outs.crossTo (by simp)).modifyLane rfl)
  | print i car =>
    rw [hd] at he hl
    cases he
    have hprint : LaneState schedule cap d g (arr d) (.loop (i + 1)) (crossed d) queue rest :=
      hl.crossTo (by simp) rfl rfl (fun n hn _ => ⟨hn.1, hn.2⟩) fun hf => hf.elim
    have houts : Outs schedule g (Function.update crs d (.loop (i + 1))) crossed outs :=
      hc.outs.crossTo (by simp)
    exact hc.ofCross' ⟨queue, rest, hprint.congr rfl fun _ _ => rfl⟩
      (fun _ _ => ⟨rfl, fun _ _ => rfl⟩) ⟨houts.list, houts.order, houts.linked⟩
  | free =>
    rw [hd] at he hl
    cases he
    exact hc.ofCross' ⟨_, _, hl.free⟩ (hother _) ((hc.outs.crossTo (by simp)).modifyLane rfl)
  | done =>
    rw [hd] at he
    exact he.elim

/-! ## Runs -/

variable {s s' : State} {t : Thread}

/-- Where the threads of a lane are, or return to from a wait. -/
def State.arrive (s : State) (d : Direction) : ArrivePc := (s.status (.carArrive d)).ctrl
def State.cross (s : State) (d : Direction) : CrossPc := (s.status (.carCross d)).ctrl

/-- Both threads of a lane return from a wait to the test before it. -/
theorem running_arrive (hown : Owned (code schedule) (holds schedule) s)
    {a : ArrivePc} (hd : s.arrive d = a) (ha : ∀ i, a ≠ .test i) :
    s.status (.carArrive d) = .running a := by
  apply hown.running hd
  intro pc v m hcode
  obtain ⟨i, _, _, _, rfl⟩ := carArrive_wait hcode
  exact ha i rfl

theorem running_cross (hown : Owned (code schedule) (holds schedule) s)
    (hd : s.cross d = c) (hc : ∀ i, c ≠ .test i) : s.status (.carCross d) = .running c := by
  apply hown.running hd
  intro pc v m hcode
  obtain ⟨i, _, _, _, rfl⟩ := carCross_wait hcode
  exact hc i rfl

/-- Two cars between the two steps of `complete_cross` leave through different exits. -/
theorem push_exclusive {e : Direction} {i' : Nat} {car' : CarPtr}
    (hown : Owned (code schedule) (holds schedule) s) (hd : s.cross d = .push i car)
    (he : s.cross e = .push i' car') (hne : e ≠ d) :
    (carAt schedule car').outDir ≠ (carAt schedule car).outDir := by
  intro hout
  -- Both would hold the quadrant of the exit.
  have hheld : (s.status (.carCross d)).Held (holds schedule (.carCross d))
      (quadAddr (exitQuad (carAt schedule car).outDir)) := by
    rw [running_cross hown hd (by simp)]
    exact ⟨_, exitQuad_mem _ _, rfl⟩
  have hheld' : (s.status (.carCross e)).Held (holds schedule (.carCross e))
      (quadAddr (exitQuad (carAt schedule car).outDir)) := by
    rw [running_cross hown he (by simp), ← hout]
    exact ⟨_, exitQuad_mem _ _, rfl⟩
  cases hown.exclusive hheld hheld'
  exact hne rfl

/-- Every step of a thread keeps the state of the intersection. -/
theorem inv_moves (hown : Owned (code schedule) (holds schedule) s)
    (h : Inv schedule cap s.mem s.arrive s.cross) (hmoves : Moves (code schedule) s s') :
    Inv schedule cap s'.mem s'.arrive s'.cross := by
  rcases hmoves.cases with hidle | ⟨t, c, hran⟩
  · have harr : s'.arrive = s.arrive := funext fun d => hidle.ctrl _
    have hcrs : s'.cross = s.cross := funext fun d => hidle.ctrl _
    rw [hidle.mem, harr, hcrs]
    exact h
  · have heffect := hran.effect
    cases t with
    | carArrive d =>
      have hc : s.arrive d = c := congrArg Status.ctrl hran.running
      have harr : s'.arrive = Function.update s.arrive d (s'.arrive d) := by
        funext e
        by_cases he : e = d
        · subst he
          rw [Function.update_self]
        · rw [Function.update_of_ne he]
          exact hran.ctrl (.carArrive e) (by simpa using he)
      have hcrs : s'.cross = s.cross := funext fun e => hran.ctrl (.carCross e) (by simp)
      rw [harr, hcrs]
      apply h.arrive
      rw [hc]
      exact heffect
    | carCross d =>
      have hc : s.cross d = c := congrArg Status.ctrl hran.running
      have hcrs : s'.cross = Function.update s.cross d (s'.cross d) := by
        funext e
        by_cases he : e = d
        · subst he
          rw [Function.update_self]
        · rw [Function.update_of_ne he]
          exact hran.ctrl (.carCross e) (by simpa using he)
      have harr : s'.arrive = s.arrive := funext fun e => hran.ctrl (.carArrive e) (by simp)
      rw [hcrs, harr]
      apply h.cross
      · rw [hc]
        exact heffect
      · intro e i car i' car' hd hne he
        exact push_exclusive hown hd he hne

theorem inv_start {laneLength : Nat} (hlen : 0 < laneLength) (schedule : List Car) :
    Inv schedule laneLength (start laneLength schedule).mem (start laneLength schedule).arrive
      (start laneLength schedule).cross := by
  have hparse := parseSchedule_spec schedule (g := initIntersection laneLength .zero)
    (fun d => ⟨rfl, rfl⟩)
  refine ⟨fun _ => [], fun _ => [], ?_, ?_, ?_, ?_⟩
  · intro d
    obtain ⟨first, hfirst, hlane⟩ := hparse d
    have hlane' : (start laneLength schedule).mem.lanes d = _ := hlane
    refine ⟨[], laneCars schedule d, rfl, ?_, ?_, ?_, ?_, Nat.zero_le _, ?_, ?_,
      ⟨rfl, Nat.zero_le _⟩, ⟨rfl, Nat.zero_le _⟩, ?_, fun hf => hf.elim, fun hf => hf.elim⟩
    · rw [hlane']
      exact hfirst
    · rw [hlane']
    · rw [hlane']
      rfl
    · rw [hlane']
      rfl
    · intro b hb
      rw [hlane']
      exact .empty hlen b
    · rw [hlane']
      intro hno
      cases hno
    · rw [hlane']
      rfl
  · intro o
    obtain ⟨first, _, hlane⟩ := hparse o
    change ((start laneLength schedule).mem.lanes o).outCars = none
    rw [show (start laneLength schedule).mem.lanes o = _ from hlane]
    rfl
  · intro o i
    rfl
  · intro d i car hd
    cases hd

/-- What holds in every state that a run gets to. -/
theorem run_inv {laneLength : Nat} (hlen : 0 < laneLength) {run : List (Action Thread)}
    (hrun : Run.exec (step schedule) run (start laneLength schedule) = .ok s) :
    Owned (code schedule) (holds schedule) s ∧
      Inv schedule laneLength s.mem s.arrive s.cross :=
  exec_owned (I := fun (s : State) => Inv schedule laneLength s.mem s.arrive s.cross) discipline
    (owned_start laneLength schedule) (inv_start hlen schedule)
    (fun _ _ hown hinv hmoves => inv_moves hown hinv hmoves) hrun

/-! ## Where the cars are -/

/-- The cars in the buffer of a lane. -/
def Lane.Buffered (l : Lane) (cars : List CarPtr) : Prop :=
  cars.length = l.inBuf ∧
    (cars = [] ∨ ∃ b, l.buffer = some b ∧ Ring l.capacity l.head l.tail b cars)

/-- Each car of the schedule is in one place, once: in the list of its lane, in the buffer of its
lane, in the hands of its lane's `car_cross`, or in the list of its exit. Other cars and other
places there are none. -/
structure OnePlace (schedule : List Car) (s : State) (ins bufs outs : Direction → List CarPtr) :
    Prop where
  list : ∀ d, Follows s.mem.next (s.mem.lanes d).inCars (ins d)
  buffer : ∀ d, (s.mem.lanes d).Buffered (bufs d)
  exit : ∀ o, Follows s.mem.next (s.mem.lanes o).outCars (outs o)
  inLane : ∀ d, ∀ car ∈ ins d ++ bufs d ++ (s.cross d).hand,
    car < schedule.length ∧ (carAt schedule car).inDir = d
  inExit : ∀ o, ∀ car ∈ outs o, car < schedule.length ∧ (carAt schedule car).outDir = o
  once : ∀ car < schedule.length,
    (ins (carAt schedule car).inDir).count car + (bufs (carAt schedule car).inDir).count car +
      ((s.cross (carAt schedule car).inDir).hand).count car +
      (outs (carAt schedule car).outDir).count car = 1

/-- The end of a run: an exit has the cars of each lane in the order of the schedule, and every
lane has counted its cars. -/
structure InOrder (schedule : List Car) (s : State) (outs : Direction → List CarPtr) : Prop where
  order : ∀ i o, (outs o).filter (fun car => (carAt schedule car).inDir = i) =
    (List.range schedule.length).filter fun car =>
      (carAt schedule car).inDir = i ∧ (carAt schedule car).outDir = o
  passed : ∀ d, (s.mem.lanes d).passed = (s.mem.lanes d).inc

/-- The list of an exit has as often a car as it has crossed. -/
theorem Outs.count (h : Outs schedule g crs crossed outs) (car : CarPtr) :
    (outs (carAt schedule car).outDir).count car =
      (crossed (carAt schedule car).inDir).count car := by
  have horder := congrArg (List.count car)
    (h.order (carAt schedule car).outDir (carAt schedule car).inDir)
  rwa [List.count_filter (by simp), List.count_reverse, List.count_filter (by simp)] at horder

theorem LaneState.crossed_subset {a : ArrivePc} {cs : List CarPtr}
    (h : LaneState schedule cap d g a c cs queue rest) (hcar : car ∈ cs) :
    car ∈ laneCars schedule d := by
  rw [h.cars]
  simp [hcar]

/-- The cars that have crossed are all cars, once `car_cross` has returned. -/
theorem LaneState.crossed_of_done {a : ArrivePc} {cs : List CarPtr}
    (h : LaneState schedule cap d g a .done cs queue rest) : cs = laneCars schedule d := by
  have htook := h.took
  have hcars := h.cars
  simp only [CrossPc.Took, CrossPc.hand, List.append_nil] at htook hcars
  have hlen := congrArg List.length hcars
  rw [List.length_append, List.length_append] at hlen
  obtain rfl : queue = [] := List.length_eq_zero_iff.mp (by omega)
  obtain rfl : rest = [] := List.length_eq_zero_iff.mp (by omega)
  rw [hcars, List.append_nil, List.append_nil]

theorem exited_cross (h : Exited (code schedule) s (.carCross d)) : s.cross d = .done := by
  obtain ⟨pc, hs, hcode⟩ := h
  have hctrl : s.cross d = pc := congrArg Status.ctrl hs
  rw [hctrl, carCross_exit hcode]

/-- No car is lost, duplicated or reordered: in every state that a run of the simulation gets to,
each car of the schedule is in one place, and when all threads have returned, the exits have the
cars of each lane in the order of the schedule. -/
theorem run_conserves {schedule : List Car} {run : List (Action Thread)} {s : State}
    (hrun : Run.exec (step schedule) run (start LANE_LENGTH schedule) = .ok s) :
    ∃ ins bufs outs, OnePlace schedule s ins bufs outs ∧
      ((∀ t, Exited (code schedule) s t) → InOrder schedule s outs) := by
  obtain ⟨_, crossed, outs, hc⟩ := run_inv (by decide) hrun
  choose queue rest hl using hc.lanes
  refine ⟨rest, queue, outs, ⟨fun d => (hl d).list, ?_, hc.outs.list, ?_, ?_, ?_⟩, ?_⟩
  · intro d
    refine ⟨(hl d).inBuf.symm, ?_⟩
    cases hq : queue d with
    | nil => exact .inl rfl
    | cons car q =>
      obtain ⟨b, hb⟩ := (hl d).buffer_of_rest (by simp [hq])
      have hring := (hl d).buffer b hb
      rw [hq, ← (hl d).capacity] at hring
      exact .inr ⟨b, hb, hring⟩
  · intro d car hcar
    apply mem_laneCars.mp
    rw [(hl d).cars]
    simp only [List.mem_append] at hcar ⊢
    tauto
  · intro o car hcar
    obtain ⟨hcrossed, hout⟩ := hc.outs.mem hcar
    exact ⟨(mem_laneCars.mp ((hl _).crossed_subset hcrossed)).1, hout⟩
  · intro car hcar
    -- The lane had the car once, and the parts of the lane make up the lane.
    have hcount := List.count_eq_one_of_mem (laneCars_nodup schedule (carAt schedule car).inDir)
      (mem_laneCars.mpr ⟨hcar, rfl⟩)
    rw [(hl _).cars] at hcount
    simp only [List.count_append] at hcount
    rw [hc.outs.count]
    omega
  · intro hexit
    have hdone : ∀ d, s.cross d = .done := fun d => exited_cross (hexit (.carCross d))
    have hall : ∀ d, crossed d = laneCars schedule d := by
      intro d
      have hd := hl d
      rw [hdone] at hd
      exact hd.crossed_of_done
    refine ⟨?_, ?_⟩
    · intro i o
      rw [hc.outs.order, hall, laneCars, List.filter_reverse, List.reverse_reverse,
        List.filter_filter]
      simp [Bool.and_comm]
    · intro d
      have hpassed := (hl d).passed
      rw [hdone, hall] at hpassed
      rw [(hl d).inc]
      exact hpassed

/-- Two cars of one lane, and one of the next lane. -/
def threeCars : List Car := [⟨1, .north, .west⟩, ⟨2, .north, .west⟩, ⟨3, .west, .south⟩]

/-- A run in which the first cars of both lanes cross at the same time, and all threads return. -/
def crossTogether : List (Action Thread) :=
  (List.replicate 7 [.run (.carArrive .north) none, .run (.carArrive .west) none]).flatten ++
    List.replicate 6 (.run (.carArrive .north) none) ++
    (List.replicate 16 [.run (.carCross .north) none, .run (.carCross .west) none]).flatten ++
    List.replicate 14 (.run (.carCross .north) none) ++
    [Direction.south, .east].flatMap fun d =>
      [.run (.carArrive d) none, .run (.carCross d) none, .run (.carCross d) none]

set_option maxRecDepth 8000 in
theorem exec_crossTogether : ∃ s, Run.exec (step threeCars) crossTogether
    (start LANE_LENGTH threeCars) = .ok s ∧ ∀ t, Exited (code threeCars) s t := by
  refine ⟨_, rfl, ?_⟩
  intro t
  cases t with
  | carArrive d => cases d <;> exact ⟨_, rfl, rfl⟩
  | carCross d => cases d <;> exact ⟨_, rfl, rfl⟩

theorem run_conserves_three :
    ∃ s outs, Run.exec (step threeCars) crossTogether (start LANE_LENGTH threeCars) = .ok s ∧
      InOrder threeCars s outs := by
  obtain ⟨s, hs, hexit⟩ := exec_crossTogether
  obtain ⟨_, _, outs, _, hend⟩ := run_conserves hs
  exact ⟨s, outs, hs, hend hexit⟩

end Traffic

-- SUMMARY: The mutexes of the traffic simulation: who holds which, and the order in which they are taken.
import OperatingSystems.Traffic.Program

/-!
# Locks

The programs keep the discipline of `holds`, and take mutexes in the order of the quadrants, the
lane locks after the first three. That the lock of the first lane is also a quadrant does no harm:
a thread that is at a buffer takes nothing else.
-/

namespace Traffic

open Library Library.Threads

variable {schedule : List Car} {car : CarPtr} {k : Nat} {m m' : Mutex}

/-! ## Parts of a path -/

theorem path_sorted (schedule : List Car) (car : CarPtr) :
    (path schedule car).Pairwise (· < ·) ∧ ∀ q ∈ path schedule car, 1 ≤ q ∧ q ≤ 4 :=
  computePath_sorted _ _

theorem not_quads_nil : ¬Quads [] m := by
  rintro ⟨q, hq, _⟩
  cases hq

theorem quads_take_succ (hk : k < (path schedule car).length) :
    Quads ((path schedule car).take (k + 1)) m ↔
      m = quadAddr (path schedule car)[k] ∨ Quads ((path schedule car).take k) m := by
  rw [List.take_add_one, List.getElem?_eq_getElem hk, Option.toList_some]
  constructor
  · rintro ⟨q, hq, rfl⟩
    cases List.mem_append.mp hq with
    | inl hq => exact .inr ⟨q, hq, rfl⟩
    | inr hq => exact .inl (congrArg quadAddr (List.mem_singleton.mp hq))
  · rintro (rfl | ⟨q, hq, rfl⟩)
    · exact ⟨_, List.mem_append_right _ List.mem_cons_self, rfl⟩
    · exact ⟨q, List.mem_append_left _ hq, rfl⟩

theorem quads_drop_succ (hk : k < (path schedule car).length) :
    Quads ((path schedule car).drop (k + 1)) m ↔
      Quads ((path schedule car).drop k) m ∧ m ≠ quadAddr (path schedule car)[k] := by
  obtain ⟨hsorted, hbound⟩ := path_sorted schedule car
  rw [List.drop_eq_getElem_cons hk]
  have hlt : ∀ q ∈ (path schedule car).drop (k + 1), (path schedule car)[k] < q := by
    have hdrop := hsorted.sublist (List.drop_sublist k _)
    rw [List.drop_eq_getElem_cons hk] at hdrop
    exact (List.pairwise_cons.mp hdrop).1
  constructor
  · rintro ⟨q, hq, rfl⟩
    refine ⟨⟨q, List.mem_cons_of_mem _ hq, rfl⟩, ?_⟩
    intro heq
    have hq4 := (hbound q (List.mem_of_mem_drop hq)).2
    have hk4 := (hbound _ (List.getElem_mem hk)).2
    have hqk := quadAddr_injective hq4 hk4 heq
    have hqlt := hlt q hq
    omega
  · rintro ⟨⟨q, hq, rfl⟩, hne⟩
    cases List.mem_cons.mp hq with
    | inl heq => exact absurd (congrArg quadAddr heq) hne
    | inr hq => exact ⟨q, hq, rfl⟩

/-! ## Which instruction stands where -/

section

variable {d : Direction} {pc next : ArrivePc} {v : CondVar}

theorem carArrive_wait (h : carArrive d pc = .wait v m next) :
    ∃ i, pc = .sleep i ∧ v = .producerCv d ∧ m = .lock d ∧ next = .test i := by
  cases pc with
  | sleep i =>
    cases h
    exact ⟨i, rfl, rfl, rfl, rfl⟩
  | _ => cases h

theorem carArrive_exit (h : carArrive d pc = .exit) : pc = .done := by
  cases pc with
  | done => rfl
  | _ => cases h

end

section

variable {d : Direction} {pc next : CrossPc} {v : CondVar}

/-- The loops over a path lock, unlock or compute. -/
theorem carCross_wait (h : carCross schedule d pc = .wait v m next) :
    ∃ i, pc = .sleep i ∧ v = .consumerCv d ∧ m = .lock d ∧ next = .test i := by
  cases pc with
  | sleep i =>
    cases h
    exact ⟨i, rfl, rfl, rfl, rfl⟩
  | acquire i car k | release i car k =>
    simp only [carCross, setIsectionLocks_path] at h
    split at h
    · cases h
    · cases h
  | _ => cases h

theorem carCross_signal (h : carCross schedule d pc = .signal v next) :
    ∃ i car, pc = .signal i car ∧ v = .producerCv d ∧ next = .unlock i car := by
  cases pc with
  | signal i car =>
    cases h
    exact ⟨i, car, rfl, rfl, rfl⟩
  | acquire i car k | release i car k =>
    simp only [carCross, setIsectionLocks_path] at h
    split at h
    · cases h
    · cases h
  | _ => cases h

theorem carCross_exit (h : carCross schedule d pc = .exit) : pc = .done := by
  cases pc with
  | done => rfl
  | acquire i car k | release i car k =>
    simp only [carCross, setIsectionLocks_path] at h
    split at h
    · cases h
    · cases h
  | _ => cases h

theorem carCross_lock (h : carCross schedule d pc = .lock m next) :
    (∃ i, pc = .lock i ∧ m = .lock d ∧ next = .test i) ∨
      ∃ i car k, ∃ hk : k < (path schedule car).length, pc = .acquire i car k ∧
        m = quadAddr (path schedule car)[k] ∧ next = .acquire i car (k + 1) := by
  cases pc with
  | lock i =>
    cases h
    exact .inl ⟨i, rfl, rfl, rfl⟩
  | acquire i car k =>
    simp only [carCross, setIsectionLocks_path] at h
    split at h
    case isTrue hk =>
      cases h
      exact .inr ⟨i, car, k, hk, rfl, rfl, rfl⟩
    case isFalse => cases h
  | release i car k =>
    simp only [carCross, setIsectionLocks_path] at h
    split at h
    · cases h
    · cases h
  | _ => cases h

theorem carCross_unlock (h : carCross schedule d pc = .unlock m next) :
    (∃ i car, pc = .unlock i car ∧ m = .lock d ∧ next = .acquire i car 0) ∨
      ∃ i car k, ∃ hk : k < (path schedule car).length, pc = .release i car k ∧
        m = quadAddr (path schedule car)[k] ∧ next = .release i car (k + 1) := by
  cases pc with
  | unlock i car =>
    cases h
    exact .inl ⟨i, car, rfl, rfl, rfl⟩
  | acquire i car k =>
    simp only [carCross, setIsectionLocks_path] at h
    split at h
    · cases h
    · cases h
  | release i car k =>
    simp only [carCross, setIsectionLocks_path] at h
    split at h
    case isTrue hk =>
      cases h
      exact .inr ⟨i, car, k, hk, rfl, rfl, rfl⟩
    case isFalse => cases h
  | _ => cases h

end

/-! ## The discipline -/

/-- A computation takes and gives up nothing. -/
theorem carArrive_compute {d : Direction} {pc next : ArrivePc}
    {f : Intersection → Except Fault (Intersection × ArrivePc)} {mem mem' : Intersection}
    (h : carArrive d pc = .compute f) (hf : f mem = .ok (mem', next)) :
    holds schedule (.carArrive d) next m ↔ holds schedule (.carArrive d) pc m := by
  cases pc with
  | loop i | test i =>
    cases h
    cases hf
    split
    · exact Iff.rfl
    · exact Iff.rfl
  | write i =>
    cases h
    obtain ⟨g, _, hg⟩ := Run.bind_eq_ok.mp hf
    cases hg
    exact Iff.rfl
  | _ => cases h

theorem carCross_compute {d : Direction} {pc next : CrossPc}
    {f : Intersection → Except Fault (Intersection × CrossPc)} {mem mem' : Intersection}
    (h : carCross schedule d pc = .compute f) (hf : f mem = .ok (mem', next)) :
    holds schedule (.carCross d) next m ↔ holds schedule (.carCross d) pc m := by
  cases pc with
  | loop i | test i =>
    cases h
    cases hf
    split
    · exact Iff.rfl
    · exact Iff.rfl
  | read i =>
    cases h
    obtain ⟨⟨crossingCar, g⟩, _, hg⟩ := Run.bind_eq_ok.mp hf
    cases crossingCar with
    | none => cases hg
    | some car =>
      cases hg
      exact Iff.rfl
  | acquire i car k =>
    simp only [carCross, setIsectionLocks_path] at h
    split at h
    case isTrue => cases h
    case isFalse hk =>
      cases h
      cases hf
      simp [holds, List.take_of_length_le (Nat.le_of_not_lt hk)]
  | release i car k =>
    simp only [carCross, setIsectionLocks_path] at h
    split at h
    case isTrue => cases h
    case isFalse hk =>
      cases h
      cases hf
      simp [holds, List.drop_of_length_le (Nat.le_of_not_lt hk), not_quads_nil]
  | link i car =>
    cases h
    cases hf
    exact Iff.rfl
  | push i car =>
    cases h
    cases hf
    exact Iff.rfl
  | pass i car =>
    cases h
    cases hf
    simp [holds]
  | print i car =>
    cases h
    cases hf
    exact Iff.rfl
  | free =>
    cases h
    cases hf
    exact Iff.rfl
  | _ => cases h

theorem discipline : Discipline (code schedule) (holds schedule) where
  lock {t c m next} h m' := by
    cases t with
    | carArrive d =>
      cases c with
      | lock i =>
        cases h
        simp [holds]
      | _ => cases h
    | carCross d =>
      rcases carCross_lock h with ⟨i, rfl, rfl, rfl⟩ | ⟨i, car, k, hk, rfl, rfl, rfl⟩
      · simp [holds]
      · exact quads_take_succ hk
  unlock {t c m next} h := by
    cases t with
    | carArrive d =>
      cases c with
      | unlock i =>
        cases h
        simp [holds]
      | _ => cases h
    | carCross d =>
      rcases carCross_unlock h with ⟨i, car, rfl, rfl, rfl⟩ | ⟨i, car, k, hk, rfl, rfl, rfl⟩
      · simp [holds, not_quads_nil]
      · refine ⟨⟨_, ?_, rfl⟩, fun m' => quads_drop_succ hk⟩
        rw [List.drop_eq_getElem_cons hk]
        exact List.mem_cons_self
  wait {t c v m next} h := by
    cases t with
    | carArrive d =>
      obtain ⟨i, rfl, rfl, rfl, rfl⟩ := carArrive_wait h
      simp [holds]
    | carCross d =>
      obtain ⟨i, rfl, rfl, rfl, rfl⟩ := carCross_wait h
      simp [holds]
  signal {t c v next} h m' := by
    cases t with
    | carArrive d =>
      cases c with
      | signal i =>
        cases h
        exact Iff.rfl
      | _ => cases h
    | carCross d =>
      obtain ⟨i, car, rfl, rfl, rfl⟩ := carCross_signal h
      exact Iff.rfl
  compute {t c f mem mem' next} h hf m' := by
    cases t with
    | carArrive d => exact carArrive_compute h hf
    | carCross d => exact carCross_compute h hf

/-! ## The order -/

/-- The place of a mutex in the order in which mutexes are taken. -/
def rank : Mutex → Nat
  | .quad i => i
  | .lock _ => 4

theorem rank_le (m : Mutex) : rank m ≤ 4 := by
  cases m with
  | quad i => exact i.isLt.le
  | lock d => exact le_rfl

theorem rank_quadAddr {q : Nat} (hq : q ≤ 4) : rank (quadAddr q) = q := by
  unfold quadAddr
  split
  · rfl
  · simp only [rank]
    omega

theorem ordered : Ordered (code schedule) (holds schedule) rank where
  lock {t c m next} h m' hm' := by
    cases t with
    | carArrive d =>
      cases c with
      | lock i => exact absurd hm' id
      | _ => cases h
    | carCross d =>
      rcases carCross_lock h with ⟨i, rfl, rfl, rfl⟩ | ⟨i, car, k, hk, rfl, rfl, rfl⟩
      · exact absurd hm' id
      · obtain ⟨q, hq, rfl⟩ := hm'
        obtain ⟨hsorted, hbound⟩ := path_sorted schedule car
        have hlt : q < (path schedule car)[k] := by
          have htake := hsorted.sublist (List.take_sublist (k + 1) _)
          rw [List.take_add_one, List.getElem?_eq_getElem hk, Option.toList_some] at htake
          exact (List.pairwise_append.mp htake).2.2 q hq _ List.mem_cons_self
        rw [rank_quadAddr (hbound q (List.mem_of_mem_take hq)).2,
          rank_quadAddr (hbound _ (List.getElem_mem hk)).2]
        exact hlt
  wait {t c v m next} h m' hm' := by
    cases t with
    | carArrive d =>
      obtain ⟨i, rfl, rfl, rfl, rfl⟩ := carArrive_wait h
      exact hm'
    | carCross d =>
      obtain ⟨i, rfl, rfl, rfl, rfl⟩ := carCross_wait h
      exact hm'
  exit {t c} h m hm := by
    cases t with
    | carArrive d =>
      obtain rfl := carArrive_exit h
      exact hm
    | carCross d =>
      obtain rfl := carCross_exit h
      exact hm

theorem owned_start (laneLength : Nat) (schedule : List Car) :
    Owned (code schedule) (holds schedule) (start laneLength schedule) := by
  refine .start (fun _ => rfl) ?_
  intro t
  cases t with
  | carArrive d => exact ⟨_, rfl, fun _ hm => hm⟩
  | carCross d => exact ⟨_, rfl, fun _ hm => hm⟩

end Traffic

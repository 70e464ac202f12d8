-- SUMMARY: Runs of a machine over a list of inputs, the rules that carry an invariant along a run, and counting loops.
import Mathlib.Data.List.Induction

/-!
# Runs

A machine takes one step for each input. A fallible machine stops at the first step that faults.
The invariants of this file may speak about the inputs consumed so far, so that a property of the
state can be tied to the history that led to it.
-/

namespace Library.Run

variable {ι σ ε : Type}

/-! ## Fallible results -/

theorem bind_eq_ok {α β : Type} {x : Except ε α} {f : α → Except ε β} {b : β} :
    (x >>= f) = .ok b ↔ ∃ a, x = .ok a ∧ f a = .ok b := by
  cases x with
  | error e =>
      constructor
      · intro h; cases h
      · rintro ⟨a, h, _⟩; cases h
  | ok a =>
      constructor
      · intro h; exact ⟨a, rfl, h⟩
      · rintro ⟨a', h, hb⟩; cases h; exact hb

@[simp] theorem ok_bind {α β : Type} (a : α) (f : α → Except ε β) :
    ((.ok a : Except ε α) >>= f) = f a := rfl

@[simp] theorem error_bind {α β : Type} (e : ε) (f : α → Except ε β) :
    ((.error e : Except ε α) >>= f) = .error e := rfl

/-- Two computations that both end, in results that `R` relates, or both fail in the same way. -/
inductive Related {α β : Type} (R : α → β → Prop) : Except ε α → Except ε β → Prop
  | ok {a : α} {b : β} : R a b → Related R (.ok a) (.ok b)
  | error (e : ε) : Related R (.error e) (.error e)

theorem Related.of_ok {α β : Type} {R : α → β → Prop} {x : Except ε α} {y : Except ε β} {a : α}
    {b : β} (h : Related R x y) (hx : x = .ok a) (hy : y = .ok b) : R a b := by
  subst hx
  subst hy
  cases h with
  | ok hR => exact hR

/-! ## Runs of a fallible machine -/

/-- The state after all of the inputs, or the fault of the first step that fails. -/
def exec (step : ι → σ → Except ε σ) : List ι → σ → Except ε σ
  | [], s => .ok s
  | a :: as, s => step a s >>= exec step as

variable {step : ι → σ → Except ε σ}

@[simp] theorem exec_nil (s : σ) : exec step [] s = .ok s := rfl

theorem exec_append (as bs : List ι) (s : σ) :
    exec step (as ++ bs) s = exec step as s >>= exec step bs := by
  induction as generalizing s with
  | nil => rfl
  | cons a as ih =>
      simp only [List.cons_append, exec]
      cases step a s with
      | error e => rfl
      | ok t => exact ih t

theorem exec_append_of_ok {as : List ι} {s t : σ} (h : exec step as s = .ok t) (bs : List ι) :
    exec step (as ++ bs) s = exec step bs t := by
  rw [exec_append, h, ok_bind]

theorem exec_concat (as : List ι) (a : ι) (s : σ) :
    exec step (as ++ [a]) s = exec step as s >>= step a := by
  rw [exec_append]
  cases exec step as s with
  | error e => rfl
  | ok t =>
      simp only [ok_bind, exec]
      cases step a t <;> rfl

/-- The run rule. `I` holds of the start and each step either keeps it or faults in a way that
`E` allows for its input; then the run ends in a state with `I`, or with a fault that some input
allows. -/
theorem exec_sound {I : List ι → σ → Prop} {E : ι → ε → Prop} {s : σ}
    (hinit : I [] s)
    (hok : ∀ as a t t', I as t → step a t = .ok t' → I (as ++ [a]) t')
    (herror : ∀ as a t e, I as t → step a t = .error e → E a e) (as : List ι) :
    (∃ t, exec step as s = .ok t ∧ I as t) ∨
      ∃ e, exec step as s = .error e ∧ ∃ a ∈ as, E a e := by
  induction as using List.reverseRecOn with
  | nil => exact .inl ⟨s, rfl, hinit⟩
  | append_singleton as a ih =>
      rw [exec_concat]
      rcases ih with ⟨t, ht, hI⟩ | ⟨e, he, b, hb, hE⟩
      · rw [ht, ok_bind]
        cases hstep : step a t with
        | ok t' => exact .inl ⟨t', rfl, hok as a t t' hI hstep⟩
        | error e => exact .inr ⟨e, rfl, a, by simp, herror as a t e hI hstep⟩
      · rw [he, error_bind]
        exact .inr ⟨e, rfl, b, by simp [hb], hE⟩

/-- A run that completes keeps the invariant. -/
theorem exec_invariant {I : List ι → σ → Prop} {s s' : σ}
    (hinit : I [] s)
    (hok : ∀ as a t t', I as t → step a t = .ok t' → I (as ++ [a]) t') {as : List ι}
    (h : exec step as s = .ok s') : I as s' := by
  rcases exec_sound (E := fun _ _ => True) hinit hok (fun _ _ _ _ _ _ => trivial) as with
    ⟨t, ht, hI⟩ | ⟨e, he, _⟩
  · rw [ht] at h; cases h; exact hI
  · rw [he] at h; cases h

/-- Each step of a run is taken in a state that meets a condition. -/
def Along (step : ι → σ → Except ε σ) (P : ι → σ → Prop) : List ι → σ → Prop
  | [], _ => True
  | a :: as, s =>
    P a s ∧ match step a s with
      | .ok t => Along step P as t
      | .error _ => True

theorem along_cons {P : ι → σ → Prop} {a : ι} {as : List ι} {s : σ} :
    Along step P (a :: as) s ↔ P a s ∧ ∀ t, step a s = .ok t → Along step P as t := by
  rw [Along]
  cases step a s with
  | error e => simp
  | ok t => simp

theorem Along.of_forall {P : ι → σ → Prop} {as : List ι} (h : ∀ a ∈ as, ∀ s, P a s) (s : σ) :
    Along step P as s := by
  induction as generalizing s with
  | nil => trivial
  | cons a as ih =>
      obtain ⟨ha, has⟩ := List.forall_mem_cons.mp h
      exact along_cons.mpr ⟨ha s, fun t _ => ih has t⟩

theorem Along.append {P : ι → σ → Prop} {as bs : List ι} {s t : σ} (h : Along step P as s)
    (hrun : exec step as s = .ok t) (h' : Along step P bs t) : Along step P (as ++ bs) s := by
  induction as generalizing s with
  | nil =>
      cases hrun
      exact h'
  | cons a as ih =>
      obtain ⟨u, hu, hrest⟩ := bind_eq_ok.mp hrun
      obtain ⟨hP, halong⟩ := along_cons.mp h
      refine along_cons.mpr ⟨hP, fun u' hu' => ?_⟩
      obtain rfl : u = u' := Except.ok.inj (hu.symm.trans hu')
      exact ih (halong u hu) hrest

/-- What the steps that meet the condition keep holds after a run of such steps. -/
theorem Along.invariant {P : ι → σ → Prop} {I : σ → Prop} {as : List ι} {s s' : σ}
    (h : Along step P as s) (hI : I s)
    (hstep : ∀ a s s', I s → P a s → step a s = .ok s' → I s') (hrun : exec step as s = .ok s') :
    I s' := by
  induction as generalizing s with
  | nil =>
      cases hrun
      exact hI
  | cons a as ih =>
      obtain ⟨t, ht, hrest⟩ := bind_eq_ok.mp hrun
      obtain ⟨hP, halong⟩ := along_cons.mp h
      exact ih (halong t ht) (hstep a s t hI hP ht) hrest

/-- A list that the steps of a run extend, each by what `more` gives for it. -/
def grown {α : Type} (step : ι → σ → Except ε σ) (more : ι → σ → List α → List α) :
    List ι → σ → List α → List α
  | [], _, l => l
  | a :: as, s, l =>
      match step a s with
      | .error _ => l
      | .ok t => grown step more as t (l ++ more a s l)

theorem prefix_grown {α : Type} {more : ι → σ → List α → List α} (as : List ι) (s : σ) (l : List α) :
    l <+: grown step more as s l := by
  induction as generalizing s l with
  | nil => exact List.prefix_rfl
  | cons a as ih =>
      rw [grown]
      cases step a s with
      | error e => exact List.prefix_rfl
      | ok t => exact (List.prefix_append l _).trans (ih t _)

theorem grown_prefix_append {α : Type} {more : ι → σ → List α → List α} (as bs : List ι) (s : σ) (l : List α) :
    grown step more as s l <+: grown step more (as ++ bs) s l := by
  induction as generalizing s l with
  | nil => exact prefix_grown bs s l
  | cons a as ih =>
      rw [List.cons_append, grown, grown]
      cases step a s with
      | error e => exact List.prefix_rfl
      | ok t => exact ih t _

/-- If each step that meets the condition keeps `I` with the list extended in some way, then all runs have
lists, those of longer runs extending those of shorter ones. -/
theorem Along.exists_grown {α : Type} {P : ι → σ → Prop} {I : σ → List α → Prop} {s : σ} (hI : I s [])
    (hstep : ∀ a t u l, I t l → P a t → step a t = .ok u → ∃ more, I u (l ++ more)) :
    ∃ lists : List ι → List α, (∀ as bs, lists as <+: lists (as ++ bs)) ∧
      ∀ as t, Along step P as s → exec step as s = .ok t → I t (lists as) := by
  have hmore : ∀ a t l, ∃ more, ∀ u, I t l → P a t → step a t = .ok u → I u (l ++ more) := by
    intro a t l
    by_cases h : ∃ u, I t l ∧ P a t ∧ step a t = .ok u
    · obtain ⟨u, hl, hP, hu⟩ := h
      obtain ⟨more, hmore⟩ := hstep a t u l hl hP hu
      refine ⟨more, fun u' _ _ hu' => ?_⟩
      obtain rfl : u = u' := Except.ok.inj (hu.symm.trans hu')
      exact hmore
    · exact ⟨[], fun u hl hP hu => absurd ⟨u, hl, hP, hu⟩ h⟩
  choose more hmore using hmore
  refine ⟨fun as => grown step more as s [], fun as bs => grown_prefix_append as bs s [], fun as t halong hrun => ?_⟩
  change I t (grown step more as s [])
  generalize ([] : List α) = l at hI ⊢
  induction as generalizing s l with
  | nil =>
      cases hrun
      exact hI
  | cons a as ih =>
      obtain ⟨u, hu, hrest⟩ := bind_eq_ok.mp hrun
      obtain ⟨hP, halong⟩ := along_cons.mp halong
      rw [grown, hu]
      exact ih (halong u hu) hrest _ (hmore a s l u hI hP hu)

/-- Under an invariant that the steps keep, one condition on them gives another. -/
theorem Along.of_invariant {P Q : ι → σ → Prop} {I : σ → Prop} {as : List ι} {s : σ}
    (h : Along step P as s) (hI : I s)
    (hstep : ∀ a s s', I s → P a s → step a s = .ok s' → I s') (hQ : ∀ a s, I s → P a s → Q a s) :
    Along step Q as s := by
  induction as generalizing s with
  | nil => trivial
  | cons a as ih =>
      obtain ⟨hP, halong⟩ := along_cons.mp h
      exact along_cons.mpr ⟨hQ a s hI hP, fun t ht => ih (halong t ht) (hstep a s t hI hP ht)⟩

/-- A machine whose steps, from states that `R` relates, are steps of another one has its runs as well. -/
theorem Along.refines {τ ε' : Type} {step' : ι → τ → Except ε' τ} {P : ι → τ → Prop} {R : σ → τ → Prop}
    {as : List ι} {s s' : σ} {t : τ} (h : Along step' P as t) (hR : R s t)
    (hstep : ∀ a s t s', R s t → P a t → step a s = .ok s' → ∃ t', step' a t = .ok t' ∧ R s' t')
    (hrun : exec step as s = .ok s') : ∃ t', exec step' as t = .ok t' ∧ R s' t' := by
  induction as generalizing s t with
  | nil =>
      cases hrun
      exact ⟨t, rfl, hR⟩
  | cons a as ih =>
      obtain ⟨u, hu, hrest⟩ := bind_eq_ok.mp hrun
      obtain ⟨hP, halong⟩ := along_cons.mp h
      obtain ⟨w, hw, hRw⟩ := hstep a s t u hR hP hu
      obtain ⟨t', ht', hR'⟩ := ih (halong w hw) hRw hrest
      exact ⟨t', bind_eq_ok.mpr ⟨w, hw, ht'⟩, hR'⟩

/-! ## The first step that goes wrong -/

/-- What the steps of a run keep holds after each of its prefixes. -/
theorem prefix_invariant {K : List ι → Prop} {trace : List ι} (hinit : K [])
    (hkeep : ∀ as a, as ++ [a] <+: trace → K as → K (as ++ [a])) {as : List ι}
    (has : as <+: trace) : K as := by
  induction as using List.reverseRecOn with
  | nil => exact hinit
  | append_singleton as a ih => exact hkeep as a has (ih ((List.prefix_append as [a]).trans has))

/-- Two conditions on the steps of a run agree if they agree wherever `K` holds, and the steps that
meet them keep `K`: at the first step that fails one of them, `K` still holds. -/
theorem forall_steps_iff {A B : List ι → ι → Prop} {K : List ι → Prop} {trace : List ι}
    (hinit : K []) (hiff : ∀ as a, as ++ [a] <+: trace → K as → (A as a ↔ B as a))
    (hkeep : ∀ as a, as ++ [a] <+: trace → K as → B as a → K (as ++ [a])) :
    (∀ as a, as ++ [a] <+: trace → A as a) ↔ ∀ as a, as ++ [a] <+: trace → B as a := by
  have hbefore : ∀ {as a}, as ++ [a] <+: trace → as <+: trace :=
    fun {as a} h => (List.prefix_append as [a]).trans h
  constructor
  · intro hA as a ha
    have hK : K as := prefix_invariant hinit
      (fun bs b hb hK => hkeep bs b hb hK ((hiff bs b hb hK).mp (hA bs b hb))) (hbefore ha)
    exact (hiff as a ha hK).mp (hA as a ha)
  · intro hB as a ha
    have hK : K as := prefix_invariant hinit
      (fun bs b hb hK => hkeep bs b hb hK (hB bs b hb)) (hbefore ha)
    exact (hiff as a ha hK).mpr (hB as a ha)

/-! ## Outputs -/

/-- What the states of a run put out before each of their steps. -/
def outputs {β : Type} (step : ι → σ → Except ε σ) (out : ι → σ → List β) : List ι → σ → List β
  | [], _ => []
  | a :: as, s =>
    out a s ++ match step a s with
      | .ok t => outputs step out as t
      | .error _ => []

theorem outputs_concat {β : Type} {out : ι → σ → List β} {as : List ι} {s t : σ}
    (h : exec step as s = .ok t) (a : ι) :
    outputs step out (as ++ [a]) s = outputs step out as s ++ out a t := by
  induction as generalizing s with
  | nil =>
      cases h
      simp only [List.nil_append, outputs]
      cases hstep : step a t <;> simp
  | cons b as ih =>
      obtain ⟨u, hstep, hexec⟩ := bind_eq_ok.mp h
      simp only [List.cons_append, outputs, hstep, ih hexec, List.append_assoc]

/-! ## Runs of a machine that cannot fault -/

/-- A property of the start that every step keeps holds after every run. -/
theorem foldl_invariant {step : σ → ι → σ} {I : List ι → σ → Prop} {s : σ}
    (hinit : I [] s) (hstep : ∀ as a t, I as t → I (as ++ [a]) (step t a)) (as : List ι) :
    I as (as.foldl step s) := by
  induction as using List.reverseRecOn with
  | nil => exact hinit
  | append_singleton as a ih =>
      rw [List.foldl_append]
      exact hstep as a _ ih

/-! ## Loops over a table -/

/-- A loop that rewrites the rows `a`, `a + 1`, … of a table, each from its own old value, applies
the body once to each row of the range and to no other. -/
theorem foldl_update {β : Type} (body : Nat → β → β) (a n : Nat) (tbl : Nat → β) (j : Nat) :
    (List.range' a n).foldl (fun t i => Function.update t i (body i (t i))) tbl j =
      if a ≤ j ∧ j < a + n then body j (tbl j) else tbl j := by
  induction n generalizing a tbl with
  | zero =>
      rw [if_neg (by omega)]
      rfl
  | succ n ih =>
      rw [List.range'_succ, List.foldl_cons, ih]
      by_cases hj : j = a
      · subst hj
        have hout : ¬(j + 1 ≤ j ∧ j < j + 1 + n) := by omega
        have hin : j ≤ j ∧ j < j + (n + 1) := by omega
        rw [if_neg hout, if_pos hin, Function.update_self]
      · simp only [Function.update_of_ne hj]
        have hrange : (a + 1 ≤ j ∧ j < a + 1 + n) ↔ (a ≤ j ∧ j < a + (n + 1)) := by omega
        simp only [hrange]

/-! ## Counting loops -/

section Counting

variable {f : Nat → σ → Except ε σ} {n m : Nat} {s : σ}

/-- `for (i = 0; i < n; i++) f`. -/
def upTo (n : Nat) (f : Nat → σ → Except ε σ) : σ → Except ε σ := exec f (List.range n)

/-- The rule of the loop: no turn faults, and the invariant is carried along. -/
theorem upTo_rule {I : Nat → σ → Prop} (hstart : I 0 s)
    (hbody : ∀ i < n, ∀ s, I i s → ∃ s', f i s = .ok s' ∧ I (i + 1) s') :
    ∃ s', upTo n f s = .ok s' ∧ I n s' := by
  unfold upTo
  induction n with
  | zero => exact ⟨s, rfl, hstart⟩
  | succ n ih =>
    obtain ⟨t, ht, hI⟩ := ih fun i hi => hbody i (Nat.lt_succ_of_lt hi)
    obtain ⟨s', hs', hI'⟩ := hbody n (Nat.lt_succ_self n) t hI
    exact ⟨s', by rw [List.range_succ, exec_concat, ht, ok_bind, hs'], hI'⟩

/-- The rule of a loop in a loop. -/
theorem nest_rule {I : Nat → Nat → σ → Prop} {f : Nat → Nat → σ → Except ε σ} (hstart : I 0 0 s)
    (hcell : ∀ i < m, ∀ j < n, ∀ s, I i j s → ∃ s', f i j s = .ok s' ∧ I i (j + 1) s')
    (hrow : ∀ i < m, ∀ s, I i n s → I (i + 1) 0 s) :
    ∃ s', upTo m (fun i => upTo n (f i)) s = .ok s' ∧ I m 0 s' := by
  refine upTo_rule (I := fun i => I i 0) hstart fun i hi s hI => ?_
  obtain ⟨s', hs', hI'⟩ := upTo_rule hI (hcell i hi)
  exact ⟨s', hs', hrow i hi s' hI'⟩

/-- The same, where something is done after the inner loop. -/
theorem nest_rule_after {I : Nat → Nat → σ → Prop} {f : Nat → Nat → σ → Except ε σ}
    {g : σ → Except ε σ} (hstart : I 0 0 s)
    (hcell : ∀ i < m, ∀ j < n, ∀ s, I i j s → ∃ s', f i j s = .ok s' ∧ I i (j + 1) s')
    (hafter : ∀ i < m, ∀ s, I i n s → ∃ s', g s = .ok s' ∧ I (i + 1) 0 s') :
    ∃ s', upTo m (fun i s => upTo n (f i) s >>= g) s = .ok s' ∧ I m 0 s' := by
  refine upTo_rule (I := fun i => I i 0) hstart fun i hi s hI => ?_
  obtain ⟨t, ht, hI⟩ := upTo_rule hI (hcell i hi)
  obtain ⟨s', hs', hI'⟩ := hafter i hi t hI
  exact ⟨s', by rw [ht, ok_bind, hs'], hI'⟩

/-- A loop over all the cells of a grid is a loop in a loop. -/
theorem upTo_flat (f : Nat → σ → Except ε σ) (m n : Nat) (s : σ) :
    upTo (m * n) f s = upTo m (fun i => upTo n fun j => f (i * n + j)) s := by
  have hmap : ∀ (k : Nat) (js : List Nat) (s : σ),
      exec f (js.map (k + ·)) s = exec (fun j => f (k + j)) js s := by
    intro k js
    induction js with
    | nil => exact fun _ => rfl
    | cons j js ih =>
      intro s
      rw [List.map_cons, exec, exec]
      exact congrArg (f (k + j) s >>= ·) (funext ih)
  unfold upTo
  induction m generalizing s with
  | zero => rw [Nat.zero_mul, List.range_zero, exec_nil, exec_nil]
  | succ m ih =>
    rw [Nat.succ_mul, List.range_add, exec_append, ih, List.range_succ, exec_append]
    refine congrArg (exec _ (List.range m) s >>= ·) (funext fun t => ?_)
    rw [hmap]
    exact (bind_pure _).symm

end Counting

end Library.Run

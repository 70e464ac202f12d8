-- SUMMARY: What opt_evict chooses from queues that list the positions of a trace: the page that is needed last, unless buckets mix pages.
import OperatingSystems.Paging.Course
import OperatingSystems.Paging.Opt
import OperatingSystems.Paging.SwapFile

/-!
# Furthest in the future

`opt_evict` drops from a queue what has passed, and takes the first position that is left for the
next reference to the page in the frame. Of the pages that hash to one bucket it cannot tell which
one a position belongs to.
-/

namespace Paging

open Library Library.Run

variable {φ : Type} {s s' t : Sim OptGlobals φ} {p q : PtePtr} {f i k h n : Nat} {is : List Nat}
  {v v' : Evictee} {o o' : OptGlobals} {l : List Nat} {ptrs : List NodePtr}

/-! ## What it leaves alone -/

theorem findEvictee_policyStep (h : findEvictee is v s = .ok (v', s')) : PolicyStep s s' := by
  induction is generalizing v s with
  | nil =>
    cases h
    exact .refl _
  | cons i is ih =>
    obtain ⟨passed, _, h⟩ := bind_eq_ok.mp h
    cases passed with
    | true =>
      cases h
      exact .refl _
    | false =>
      obtain ⟨o, _, h⟩ := bind_eq_ok.mp h
      obtain ⟨head, _, h⟩ := bind_eq_ok.mp h
      split at h
      · exact ((PolicyStep.refl _).setAlg o).trans (ih h)
      · exact ((PolicyStep.refl _).setAlg o).trans (ih h)

theorem optEvict_policyStep {furthestIndex : Nat} (h : optEvict furthestIndex s = .ok (f, s')) :
    PolicyStep s s' := by
  obtain ⟨⟨v, t⟩, hfind, h⟩ := bind_eq_ok.mp h
  simp only at h
  split at h
  · cases h
  · cases h
    exact findEvictee_policyStep hfind

theorem optRef_policyStep (p : PtePtr) (h : optRef p s = .ok s') : PolicyStep s s' := by
  cases h
  exact (PolicyStep.refl s).setAlg _

theorem opt_respectful : (opt : Functions OptGlobals φ).Respectful where
  init s := .refl s
  ref p _ _ := optRef_policyStep p
  evict _ _ _ := optEvict_policyStep

/-! ## Queues -/

namespace OptGlobals

variable {q : Queue}

theorem deref_of_index {p : NodePtr} (hp : o.index p = some n) :
    ∃ node, o.deref (some p) = .ok node ∧ node.index = n ∧ node.next = o.next p := by
  obtain ⟨node, hnode, rfl⟩ := Option.map_eq_some_iff.mp hp
  refine ⟨node, ?_, rfl, ?_⟩
  · rw [deref, hnode]
  · rw [next, hnode]
    rfl

namespace Queued

theorem length (hq : o.Queued h ptrs l) : ptrs.length = l.length := by
  rw [← List.length_map (f := o.index), hq.index, List.length_map]

theorem nil (hq : o.Queued h [] l) : l = [] ∧ (o.vaddrTable h).head = none :=
  ⟨List.length_eq_zero_iff.mp hq.length.symm, hq.follows⟩

theorem cons {p : NodePtr} (hq : o.Queued h (p :: ptrs) l) :
    ∃ n l', l = n :: l' ∧ (o.vaddrTable h).head = some p ∧ o.index p = some n ∧
      Follows o.next (o.next p) ptrs ∧ ptrs.map o.index = l'.map some := by
  cases l with
  | nil => cases hq.length
  | cons n l' =>
    obtain ⟨hn, hl⟩ := List.cons.inj hq.index
    exact ⟨n, l', rfl, hq.follows.1, hn, hq.follows.2, hl⟩

/-- The tail is the node of the last position. -/
theorem getLast? (hq : o.Queued h ptrs l) : ptrs.getLast?.map o.index = l.getLast?.map some := by
  rw [← List.getLast?_map, ← List.getLast?_map, hq.index]

/-- A queue is in the nodes and in its own entry of the table. -/
theorem congr (hq : o.Queued h ptrs l) (hnodes : o'.nodes = o.nodes)
    (htable : o'.vaddrTable h = o.vaddrTable h) : o'.Queued h ptrs l where
  follows := by
    rw [htable]
    exact hq.follows.congr fun p _ => by rw [next, next, hnodes]
  index := by
    rw [← hq.index]
    exact List.map_congr_left fun p _ => by rw [OptGlobals.index, OptGlobals.index, hnodes]
  tail := by
    rw [htable]
    exact hq.tail
  length_le := by
    rw [hnodes]
    exact hq.length_le

end Queued

theorem Lists.congr (hl : o.Lists h l) (hnodes : o'.nodes = o.nodes)
    (htable : o'.vaddrTable h = o.vaddrTable h) : o'.Lists h l := by
  obtain ⟨ptrs, hq⟩ := hl
  exact ⟨ptrs, hq.congr hnodes htable⟩

end OptGlobals

/-- Nothing in the list is still to come, as far as its last element says. -/
def Passed (k : Nat) (l : List Nat) : Prop := ∀ n ∈ l.getLast?, n < k

/-- What a list has first, once its front that has passed is dropped. -/
def Upcoming (k : Nat) (l : List Nat) (n : Nat) : Prop :=
  ¬Passed k l ∧ (l.dropWhile (· < k)).head? = some n

theorem noneToCome_spec (hl : o.Lists h l) :
    ∃ b, noneToCome h o = .ok b ∧ (b ↔ Passed o.vaddrCounter l) := by
  obtain ⟨ptrs, hq⟩ := hl
  cases ptrs with
  | nil =>
    obtain ⟨rfl, hhead⟩ := hq.nil
    refine ⟨true, by simp only [noneToCome, hhead], ?_⟩
    simp [Passed]
  | cons p ptrs =>
    obtain ⟨n, l', rfl, hhead, _⟩ := hq.cons
    obtain ⟨t, ht⟩ : ∃ t, (p :: ptrs).getLast? = some t := ⟨_, List.getLast?_cons⟩
    obtain ⟨m, hm⟩ : ∃ m, (n :: l').getLast? = some m := ⟨_, List.getLast?_cons⟩
    have hindex : o.index t = some m := by
      have hlast := hq.getLast?
      rw [ht, hm] at hlast
      exact Option.some.inj hlast
    obtain ⟨node, hnode, rfl, _⟩ := OptGlobals.deref_of_index hindex
    have htail := hq.tail (List.cons_ne_nil p ptrs)
    rw [ht] at htail
    refine ⟨decide (node.index < o.vaddrCounter), ?_, ?_⟩
    · simp only [noneToCome, hhead, htail, hnode, ok_bind]
    · simp [Passed, hm]

/-- What has passed is dropped from one queue. -/
theorem popPassed_spec {rounds : Nat} (hq : o.Queued h ptrs l) (hrounds : ptrs.length < rounds) :
    ∃ q, popPassed h rounds o = .ok (o.setQueue h q) ∧
      (o.setQueue h q).Lists h (l.dropWhile (· < o.vaddrCounter)) := by
  induction ptrs generalizing o l rounds with
  | nil =>
    obtain ⟨rounds, rfl⟩ := Nat.exists_eq_succ_of_ne_zero (Nat.ne_of_gt hrounds)
    obtain ⟨rfl, hhead⟩ := hq.nil
    have hsame : o.setQueue h (o.vaddrTable h) = o := by
      simp [OptGlobals.setQueue]
    refine ⟨o.vaddrTable h, ?_, ?_⟩
    · simp only [popPassed, hhead, hsame]
    · rw [hsame]
      exact ⟨[], hq⟩
  | cons p ptrs ih =>
    obtain ⟨rounds, rfl⟩ := Nat.exists_eq_succ_of_ne_zero (Nat.ne_of_gt (Nat.zero_lt_of_lt hrounds))
    obtain ⟨n, l', rfl, hhead, hindex, hfollows, hl'⟩ := hq.cons
    obtain ⟨node, hnode, rfl, hnext⟩ := OptGlobals.deref_of_index hindex
    by_cases hpassed : node.index < o.vaddrCounter
    · let o₁ := o.setQueue h { o.vaddrTable h with head := node.next }
      have hself : o₁.vaddrTable h = { o.vaddrTable h with head := node.next } :=
        Function.update_self ..
      have hq₁ : o₁.Queued h ptrs l' := by
        refine ⟨?_, hl', fun hne => ?_, Nat.le_of_succ_le hq.length_le⟩
        · rw [hself, hnext]
          exact hfollows
        · have htail := hq.tail (List.cons_ne_nil p ptrs)
          obtain ⟨c, cs, rfl⟩ := List.exists_cons_of_ne_nil hne
          rw [List.getLast?_cons_cons] at htail
          rw [hself, htail]
      obtain ⟨q, hpop, hlists⟩ := ih hq₁ (Nat.lt_of_succ_lt_succ hrounds)
      have hset : o₁.setQueue h q = o.setQueue h q := by
        simp [o₁, OptGlobals.setQueue]
      refine ⟨q, ?_, ?_⟩
      · simp only [popPassed, hhead, hnode, ok_bind, if_pos hpassed, pop]
        rw [← hset]
        exact hpop
      · rw [← hset, List.dropWhile_cons_of_pos (by simpa using hpassed)]
        exact hlists
    · have hsame : o.setQueue h (o.vaddrTable h) = o := by
        simp [OptGlobals.setQueue]
      refine ⟨o.vaddrTable h, ?_, ?_⟩
      · simp only [popPassed, hhead, hnode, ok_bind, if_neg hpassed, hsame]
      · rw [hsame, List.dropWhile_cons_of_neg (by simpa using hpassed)]
        exact ⟨p :: ptrs, hq⟩

/-- The node at the head is that of the first position. -/
theorem deref_head (hl : o.Lists h l) (hn : l.head? = some n) :
    ∃ node, o.deref (o.vaddrTable h).head = .ok node ∧ node.index = n := by
  obtain ⟨ptrs, hq⟩ := hl
  cases ptrs with
  | nil =>
    rw [hq.nil.1] at hn
    cases hn
  | cons p ptrs =>
    obtain ⟨m, l', rfl, hhead, hindex, _⟩ := hq.cons
    cases hn
    obtain ⟨node, hnode, hm, _⟩ := OptGlobals.deref_of_index hindex
    exact ⟨node, by rw [hhead, hnode], hm⟩

/-- Dropping what has passed does not change what is to come. -/
theorem passed_dropWhile : Passed k (l.dropWhile (· < k)) ↔ Passed k l := by
  by_cases hnil : l.dropWhile (· < k) = []
  · rw [hnil]
    refine iff_of_true (fun n hn => by cases hn) fun n hn => ?_
    simpa using List.dropWhile_eq_nil_iff.mp hnil n (List.mem_of_getLast? hn)
  · have hlast : l.getLast? = (l.dropWhile (· < k)).getLast? := by
      conv_lhs => rw [← @List.takeWhile_append_dropWhile _ (· < k) l]
      exact List.getLast?_append_of_ne_nil _ hnil
    rw [Passed, Passed, hlast]

theorem upcoming_dropWhile : Upcoming k (l.dropWhile (· < k)) n ↔ Upcoming k l n := by
  rw [Upcoming, Upcoming, passed_dropWhile, List.dropWhile_idempotent]

theorem exists_upcoming (h : ¬Passed k l) : ∃ n, Upcoming k l n := by
  cases hdrop : l.dropWhile (· < k) with
  | nil =>
    rw [← passed_dropWhile, hdrop] at h
    exact absurd (fun n hn => by cases hn) h
  | cons n l' => exact ⟨n, h, by rw [hdrop]; rfl⟩

/-- The list is as it was, or what has passed is dropped from it. -/
def Consumed (k : Nat) (l l' : List Nat) : Prop := l' = l ∨ l' = l.dropWhile (· < k)

namespace Consumed

variable {l' : List Nat}

theorem passed_iff (hc : Consumed k l l') : Passed k l' ↔ Passed k l := by
  rcases hc with rfl | rfl
  · rfl
  · exact passed_dropWhile

theorem upcoming_iff (hc : Consumed k l l') : Upcoming k l' n ↔ Upcoming k l n := by
  rcases hc with rfl | rfl
  · rfl
  · exact upcoming_dropWhile

theorem lists (hc : Consumed k l l') (hl : o.Lists h l' ∨ o.Lists h (l'.dropWhile (· < k))) :
    o.Lists h l ∨ o.Lists h (l.dropWhile (· < k)) := by
  rcases hc with rfl | rfl
  · exact hl
  · rw [List.dropWhile_idempotent, or_self] at hl
    exact .inr hl

end Consumed

/-! ## The choice -/

/-- What the loop over frames comes to, from what is in the bucket of each: a frame whose bucket has
nothing to come, or one for which the first position to come is last. -/
def Picks (k : Nat) (coming : Nat → List Nat) (coremap : Nat → Frame) (is : List Nat)
    (v v' : Evictee) : Prop :=
  (∃ i ∈ is, v'.evicted = some (coremap i) ∧ Passed k (coming i)) ∨
  (∀ i ∈ is, ∃ n ≤ v'.furthestIndex, Upcoming k (coming i) n) ∧
    v.furthestIndex ≤ v'.furthestIndex ∧
    ((∃ i ∈ is, v'.evicted = some (coremap i) ∧ Upcoming k (coming i) v'.furthestIndex) ∨
      v' = v ∧ (is = [] ∨ v.furthestIndex ≠ 0))

namespace Picks

variable {coming coming' : Nat → List Nat} {coremap : Nat → Frame}

theorem congr (h : Picks k coming coremap is v v')
    (hpassed : ∀ i, Passed k (coming i) ↔ Passed k (coming' i))
    (hupcoming : ∀ i n, Upcoming k (coming i) n ↔ Upcoming k (coming' i) n) :
    Picks k coming' coremap is v v' := by
  simp only [Picks, hpassed, hupcoming] at h
  exact h

/-- A frame for which there is a position to come is evicted for now if it is the first one, or its
position is further away than the one before. -/
theorem cons (hn : Upcoming k (coming i) n) {v₁ : Evictee}
    (hv₁ : v₁ = if v.furthestIndex = 0 ∨ n > v.furthestIndex then
      { furthestIndex := n, evicted := some (coremap i) } else v)
    (h : Picks k coming coremap is v₁ v') : Picks k coming coremap (i :: is) v v' := by
  rcases h with ⟨j, hj, hev, hpassed⟩ | ⟨hall, hle, hlast⟩
  · exact .inl ⟨j, List.mem_cons_of_mem _ hj, hev, hpassed⟩
  · have hbounds : n ≤ v₁.furthestIndex ∧ v.furthestIndex ≤ v₁.furthestIndex := by
      rw [hv₁]
      split
      · rename_i hupd
        refine ⟨le_rfl, ?_⟩
        change v.furthestIndex ≤ n
        omega
      · rename_i hkeep
        exact ⟨by omega, le_rfl⟩
    refine .inr ⟨List.forall_mem_cons.mpr ⟨⟨n, hbounds.1.trans hle, hn⟩, hall⟩,
      hbounds.2.trans hle, ?_⟩
    rcases hlast with ⟨j, hj, hev, hup⟩ | ⟨rfl, _⟩
    · exact .inl ⟨j, List.mem_cons_of_mem _ hj, hev, hup⟩
    · by_cases hupd : v.furthestIndex = 0 ∨ n > v.furthestIndex
      · rw [if_pos hupd] at hv₁
        refine .inl ⟨i, List.mem_cons_self, by rw [hv₁], ?_⟩
        rw [hv₁]
        exact hn
      · rw [if_neg hupd] at hv₁
        exact .inr ⟨hv₁, .inr fun hzero => hupd (.inl hzero)⟩

end Picks

/-- A round at a frame for whose bucket there is a position to come. -/
theorem findEvictee_cons {L : Nat → List Nat} (hL : ∀ h, s.alg.Lists h (L h)) (is : List Nat)
    (v : Evictee) (hn : Upcoming s.alg.vaddrCounter (L (hashcode (s.coremap i).vaddr)) n) :
    ∃ (o₁ : OptGlobals) (L₁ : Nat → List Nat), findEvictee (i :: is) v s =
        findEvictee is (if v.furthestIndex = 0 ∨ n > v.furthestIndex then
          { furthestIndex := n, evicted := some (s.coremap i) } else v) (s.setAlg o₁) ∧
      o₁.vaddrCounter = s.alg.vaddrCounter ∧ (∀ h, o₁.Lists h (L₁ h)) ∧
      ∀ h, Consumed s.alg.vaddrCounter (L h) (L₁ h) := by
  let h := hashcode (s.coremap i).vaddr
  obtain ⟨b, hnone, hb⟩ := noneToCome_spec (hL h)
  obtain rfl : b = false := by
    rw [← Bool.not_eq_true, hb]
    exact hn.1
  obtain ⟨ptrs, hq⟩ := hL h
  obtain ⟨q, hpop, hlists⟩ := popPassed_spec hq (Nat.lt_succ_of_le hq.length_le)
  obtain ⟨node, hnode, rfl⟩ := deref_head hlists hn.2
  refine ⟨s.alg.setQueue h q, Function.update L h ((L h).dropWhile (· < s.alg.vaddrCounter)),
    ?_, rfl, fun h' => ?_, fun h' => ?_⟩
  · have hnode' : (s.alg.setQueue h q).deref
        ((s.alg.setQueue h q).vaddrTable (hashcode (s.coremap i).vaddr)).head = .ok node := hnode
    change noneToCome (hashcode (s.coremap i).vaddr) s.alg = _ at hnone
    change popPassed (hashcode (s.coremap i).vaddr) (s.alg.nodes.length + 1) s.alg = _ at hpop
    simp only [findEvictee, hnone, hpop, hnode', ok_bind, if_false, Bool.false_eq_true]
    split
    · rfl
    · rfl
  · by_cases hh : h' = h
    · subst hh
      rw [Function.update_self]
      exact hlists
    · rw [Function.update_of_ne hh]
      exact (hL h').congr rfl (Function.update_of_ne hh _ _)
  · by_cases hh : h' = h
    · subst hh
      exact .inr (Function.update_self ..)
    · exact .inl (Function.update_of_ne hh ..)

/-- The loop over the frames does not fail, whatever the queues list. -/
theorem findEvictee_spec {L : Nat → List Nat} (hL : ∀ h, s.alg.Lists h (L h)) (is : List Nat)
    (v : Evictee) :
    ∃ v' o', findEvictee is v s = .ok (v', s.setAlg o') ∧
      o'.vaddrCounter = s.alg.vaddrCounter ∧
      (∀ h, o'.Lists h (L h) ∨ o'.Lists h ((L h).dropWhile (· < s.alg.vaddrCounter))) ∧
      Picks s.alg.vaddrCounter (fun i => L (hashcode (s.coremap i).vaddr)) s.coremap is v v' := by
  induction is generalizing v s L with
  | nil =>
    exact ⟨v, s.alg, rfl, rfl, fun h => .inl (hL h),
      .inr ⟨fun _ hi => absurd hi List.not_mem_nil, le_rfl, .inr ⟨rfl, .inl rfl⟩⟩⟩
  | cons i is ih =>
    by_cases hpassed : Passed s.alg.vaddrCounter (L (hashcode (s.coremap i).vaddr))
    · obtain ⟨b, hnone, hb⟩ := noneToCome_spec (hL (hashcode (s.coremap i).vaddr))
      obtain rfl : b = true := hb.mpr hpassed
      refine ⟨{ v with evicted := some (s.coremap i) }, s.alg, ?_, rfl, fun h => .inl (hL h),
        .inl ⟨i, List.mem_cons_self, rfl, hpassed⟩⟩
      simp only [findEvictee, hnone, ok_bind, if_true]
      rfl
    · obtain ⟨n, hn⟩ := exists_upcoming hpassed
      obtain ⟨o₁, L₁, hround, hcounter₁, hL₁, hconsumed⟩ := findEvictee_cons hL is v hn
      obtain ⟨v', o', hfind, hcounter, hkept, hpicks⟩ := ih (s := s.setAlg o₁) hL₁ _
      change ∀ h, o'.Lists h (L₁ h) ∨ o'.Lists h ((L₁ h).dropWhile (· < o₁.vaddrCounter)) at hkept
      change Picks o₁.vaddrCounter _ _ is _ v' at hpicks
      rw [hcounter₁] at hkept hpicks
      refine ⟨v', o', hround.trans hfind, hcounter.trans hcounter₁, fun h => ?_,
        .cons hn rfl (hpicks.congr ?_ ?_)⟩
      · exact (hconsumed h).lists (hkept h)
      · exact fun j => (hconsumed _).passed_iff
      · exact fun j n => (hconsumed _).upcoming_iff

/-- In full memory the choice is the number of a frame in use. -/
theorem optEvict_spec {L : Nat → List Nat} (hM : Mapped none s) (hmem : 1 ≤ s.memsize)
    (hall : ∀ i < s.memsize, (s.coremap i).inUse) (hL : ∀ h, s.alg.Lists h (L h)) :
    ∃ f q o', optEvict 0 s = .ok (f, s.setAlg o') ∧ s.page f = some q ∧
      o'.vaddrCounter = s.alg.vaddrCounter ∧
      (∀ h, o'.Lists h (L h) ∨ o'.Lists h ((L h).dropWhile (· < s.alg.vaddrCounter))) ∧
      (Passed s.alg.vaddrCounter (L (hashcode (s.coremap f).vaddr)) ∨
        ∃ m, Upcoming s.alg.vaddrCounter (L (hashcode (s.coremap f).vaddr)) m ∧
          ∀ i < s.memsize, ∃ n ≤ m, Upcoming s.alg.vaddrCounter (L (hashcode (s.coremap i).vaddr)) n) := by
  obtain ⟨v', o', hfind, hcounter, hkept, hpicks⟩ := findEvictee_spec hL (List.range s.memsize)
    { furthestIndex := 0, evicted := none }
  have hevict : ∀ i, i < s.memsize → v'.evicted = some (s.coremap i) →
      ∃ q, optEvict 0 s = .ok (i, s.setAlg o') ∧ s.page i = some q := by
    intro i hi hev
    obtain ⟨q, hq⟩ := hM.page_of_inUse (hall i hi)
    have hframe := ((hM.backed i q (by simp)).mp hq).2
    refine ⟨q, ?_, hq⟩
    simp only [optEvict, hfind, ok_bind, hev, Option.bind_some, (Mapped.inUse_of_page hq).2]
    rw [Sim.entry_setAlg, hframe]
  rcases hpicks with ⟨i, hi, hev, hpassed⟩ | ⟨hupcoming, -, ⟨i, hi, hev, hup⟩ | ⟨-, hnil | hne⟩⟩
  · obtain ⟨q, hev', hq⟩ := hevict i (List.mem_range.mp hi) hev
    exact ⟨i, q, o', hev', hq, hcounter, hkept, .inl hpassed⟩
  · obtain ⟨q, hev', hq⟩ := hevict i (List.mem_range.mp hi) hev
    exact ⟨i, q, o', hev', hq, hcounter, hkept,
      .inr ⟨_, hup, fun j hj => hupcoming j (List.mem_range.mpr hj)⟩⟩
  · rw [List.range_eq_nil] at hnil
    omega
  · exact absurd rfl hne

/-! ## Positions to come -/

variable {passed : List Nat} {trace as future : List Access} {a : Access} {r : PtePtr}

theorem le_of_mem_positions (hn : n ∈ positions h k as) : k ≤ n := by
  obtain ⟨_, hle, _⟩ := mem_positions.mp hn
  exact hle

theorem dropWhile_append_positions (hpassed : ∀ n ∈ passed, n < k) :
    (passed ++ positions h k future).dropWhile (· < k) = positions h k future := by
  rw [List.dropWhile_append_of_pos (by simpa using hpassed)]
  cases hpos : positions h k future with
  | nil => rfl
  | cons n ns =>
    have hle : k ≤ n := le_of_mem_positions (hpos ▸ List.mem_cons_self)
    exact List.dropWhile_cons_of_neg (by simpa using hle)

theorem passed_append_positions (hpassed : ∀ n ∈ passed, n < k)
    (h' : Passed k (passed ++ positions h k future)) : positions h k future = [] := by
  rw [← passed_dropWhile, dropWhile_append_positions hpassed] at h'
  by_contra hne
  obtain ⟨n, hn⟩ : ∃ n, (positions h k future).getLast? = some n :=
    ⟨_, List.getLast?_eq_some_getLast hne⟩
  have hlt := h' n hn
  have hle := le_of_mem_positions (List.mem_of_getLast? hn)
  omega

theorem Upcoming.head? (hup : Upcoming k (passed ++ positions h k future) n)
    (hpassed : ∀ n ∈ passed, n < k) : (positions h k future).head? = some n := by
  have hhead := hup.2
  rwa [dropWhile_append_positions hpassed] at hhead

/-- A page whose bucket has no position to come is not referenced again. -/
theorem notMem_references (hsame : ∀ c ∈ future, pteOf c.vaddr = r → hashcode c.vaddr = h)
    (hnil : positions h k future = []) : r ∉ references future := by
  intro hr
  obtain ⟨c, hc, hcr⟩ := List.mem_map.mp hr
  obtain ⟨m, hm, hcm⟩ := List.getElem_of_mem hc
  have hmem : k + m ∈ positions h k future := mem_positions.mpr
    ⟨c, Nat.le_add_right k m, by rw [Nat.add_sub_cancel_left, List.getElem?_eq_getElem hm, hcm],
      hsame c hc hcr⟩
  rw [hnil] at hmem
  cases hmem

/-- If no other page of its bucket comes before it, the first position to come is the page's. -/
theorem idxOf_of_head? (hsame : ∀ c ∈ future, pteOf c.vaddr = r → hashcode c.vaddr = h)
    (hown : ∀ m c, future[m]? = some c → hashcode c.vaddr = h →
      r ∈ references (future.take (m + 1)))
    (hhead : (positions h k future).head? = some n) :
    r ∈ references future ∧ k + (references future).idxOf r = n := by
  obtain ⟨c, hle, hc, hch⟩ := mem_positions.mp (List.mem_of_head? hhead)
  have htake := hown (n - k) c hc hch
  rw [references, List.map_take] at htake
  have hr : r ∈ references future := List.mem_of_mem_take htake
  have hlt := (List.mem_take_iff_idxOf_lt hr).mp htake
  refine ⟨hr, ?_⟩
  -- The reference to the page is itself in the bucket.
  have hidx := List.idxOf_lt_length_of_mem hr
  have hidx' : (references future).idxOf r < future.length := by simpa [references] using hidx
  have hget := List.getElem_idxOf hidx
  have hmem : k + (references future).idxOf r ∈ positions h k future := by
    refine mem_positions.mpr ⟨future[(references future).idxOf r], Nat.le_add_right _ _, ?_, ?_⟩
    · rw [Nat.add_sub_cancel_left, List.getElem?_eq_getElem hidx']
    · exact hsame _ (List.getElem_mem hidx') ((List.getElem_map _).symm.trans hget)
  have hfirst : n ≤ k + (references future).idxOf r := by
    have hsorted : (positions h k future).Pairwise (· < ·) := positions_sorted
    cases hpos : positions h k future with
    | nil =>
      rw [hpos] at hmem
      cases hmem
    | cons m ms =>
      rw [hpos] at hsorted hmem hhead
      cases hhead
      rcases List.mem_cons.mp hmem with heq | hms
      · exact heq.ge
      · exact ((List.pairwise_cons.mp hsorted).1 _ hms).le
  omega

/-! ## Runs -/

/-- The queues in the course of a replay: each lists the positions of its bucket that are to come,
behind some that have passed. -/
structure OptGlobals.Reads (trace as : List Access) (o : OptGlobals) : Prop where
  counter : o.vaddrCounter = as.length
  lists : ∃ L : Nat → List Nat, (∀ h, o.Lists h (L h)) ∧ ∀ future, trace = as ++ future → ∀ h, ∃ passed,
    L h = passed ++ positions h as.length future ∧ ∀ n ∈ passed, n < as.length

namespace OptGlobals.Reads

theorem start (hcounter : o.vaddrCounter = 0) (hlists : ∀ h, o.Lists h (positions h 0 trace)) :
    o.Reads trace [] := by
  refine ⟨hcounter, fun h => positions h 0 trace, hlists, ?_⟩
  rintro future rfl h
  exact ⟨[], rfl, fun _ hn => absurd hn List.not_mem_nil⟩

/-- `opt_ref` moves on by one position. -/
theorem ref (ho : o.Reads trace as) (a : Access) :
    OptGlobals.Reads trace (as ++ [a]) { o with vaddrCounter := o.vaddrCounter + 1 } := by
  obtain ⟨hcounter, L, hlists, hL⟩ := ho
  have hlength : (as ++ [a]).length = as.length + 1 := List.length_append
  refine ⟨by rw [hlength, ← hcounter], L, fun h => (hlists h).congr rfl rfl, ?_⟩
  intro future htrace h
  rw [List.append_assoc] at htrace
  obtain ⟨passed, hpassed, hlt⟩ := hL _ htrace h
  refine ⟨passed ++ positions h as.length [a], ?_, ?_⟩
  · rw [hpassed, positions_append, hlength, List.append_assoc]
    rfl
  · intro n hn
    rw [hlength]
    rcases List.mem_append.mp hn with hn | hn
    · exact Nat.lt_succ_of_lt (hlt n hn)
    · obtain ⟨c, hle, hc, _⟩ := mem_positions.mp hn
      have hbound := (List.getElem?_eq_some_iff.mp hc).1
      rw [List.length_singleton] at hbound
      omega

/-- `opt_evict` drops positions that have passed. -/
theorem evict {L : Nat → List Nat} (hcounter : o.vaddrCounter = as.length)
    (hL : ∀ future, trace = as ++ future → ∀ h, ∃ passed,
      L h = passed ++ positions h as.length future ∧ ∀ n ∈ passed, n < as.length)
    (hcounter' : o'.vaddrCounter = o.vaddrCounter)
    (hkept : ∀ h, o'.Lists h (L h) ∨ o'.Lists h ((L h).dropWhile (· < o.vaddrCounter))) :
    o'.Reads trace as := by
  have hchoose : ∀ h, ∃ l, o'.Lists h l ∧
      (l = L h ∨ l = (L h).dropWhile (· < o.vaddrCounter)) := by
    intro h
    rcases hkept h with hsame | hdrop
    · exact ⟨_, hsame, .inl rfl⟩
    · exact ⟨_, hdrop, .inr rfl⟩
  choose L' hlists' hL' using hchoose
  refine ⟨hcounter'.trans hcounter, L', hlists', fun future htrace h => ?_⟩
  obtain ⟨passed, hpassed, hlt⟩ := hL future htrace h
  rcases hL' h with hsame | hdrop
  · exact ⟨passed, hsame.trans hpassed, hlt⟩
  · rw [hcounter, hpassed, dropWhile_append_positions hlt] at hdrop
    exact ⟨[], hdrop, fun _ hn => absurd hn List.not_mem_nil⟩

end OptGlobals.Reads

/-- A call of `opt_evict` returns, with the frame whose bucket has nothing to come or, if all have,
the one whose bucket has its first position to come last. -/
theorem OptGlobals.Reads.call (ho : s.alg.Reads trace as) (hM : Mapped none s)
    (hmem : 1 ≤ s.memsize) (hfree : findFree s = none) (idx : Nat) :
    ∃ f q t', optEvict 0 (initSecondLevel idx s) = .ok (f, t') ∧ s.page f = some q ∧
      t'.alg.Reads trace as ∧ ∀ future, trace = as ++ future →
        positions (hashcode (s.coremap f).vaddr) as.length future = [] ∨
        ∃ m, (positions (hashcode (s.coremap f).vaddr) as.length future).head? = some m ∧
          ∀ i < s.memsize, ∃ n ≤ m,
            (positions (hashcode (s.coremap i).vaddr) as.length future).head? = some n := by
  obtain ⟨hcounter, L, hlists, hL⟩ := ho
  have hM₀ := mapped_initSecondLevel hM idx
  have hspec := optEvict_spec (L := L) hM₀ (by rw [Sim.memsize_initSecondLevel]; exact hmem)
    (by simpa using findFree_eq_none.mp hfree) (by simpa using hlists)
  simp only [Sim.memsize_initSecondLevel, Sim.coremap_initSecondLevel, Sim.alg_initSecondLevel,
    Sim.page] at hspec
  obtain ⟨f, q, o', hevict, hq, hcounter', hkept, hchoice⟩ := hspec
  refine ⟨f, q, _, hevict, hq, .evict hcounter hL hcounter' hkept, fun future htrace => ?_⟩
  rw [hcounter] at hchoice
  rcases hchoice with hpassed | ⟨m, hm, hall⟩
  · obtain ⟨passed, hf, hlt⟩ := hL future htrace (hashcode (s.coremap f).vaddr)
    rw [hf] at hpassed
    exact .inl (passed_append_positions hlt hpassed)
  · obtain ⟨passed, hf, hlt⟩ := hL future htrace (hashcode (s.coremap f).vaddr)
    rw [hf] at hm
    refine .inr ⟨m, hm.head? hlt, fun i hi => ?_⟩
    obtain ⟨n, hle, hn⟩ := hall i hi
    obtain ⟨passed', hi', hlt'⟩ := hL future htrace (hashcode (s.coremap i).vaddr)
    rw [hi'] at hn
    exact ⟨n, hle, hn.head? hlt'⟩

/-- Every access goes through, and keeps the queues. -/
theorem accessCases_opt (io : FileOps φ) (h : s.alg.Reads trace as) (hM : Mapped none s)
    (hmem : 1 ≤ s.memsize) (a : Access) :
    AccessCases opt io a.vaddr (fun s' => s'.alg.Reads trace (as ++ [a])) s where
  hit _ t ht _ := by
    refine ⟨_, rfl, ?_⟩
    have ht' : t.alg.Reads trace as := ht.alg ▸ h
    exact ht'.ref a
  free _ f t _ ht _ := by
    refine ⟨_, rfl, ?_⟩
    have ht' : t.alg.Reads trace as := ht.alg ▸ h
    exact ht'.ref a
  evict _ hfree := by
    obtain ⟨f, q, t', hevict, hq, hreads, _⟩ := h.call hM hmem hfree (pgdirIndex a.vaddr)
    refine ⟨f, t', hevict, hM.page_lt hq, fun t ht _ => ⟨_, rfl, ?_⟩⟩
    have ht' : t.alg.Reads trace as := ht.alg ▸ hreads
    exact ht'.ref a

/-- The page of a frame is never referenced again, or every page in memory is, and none of them later
than this one. -/
def NeededLast (future : List PtePtr) (t : Sim OptGlobals φ) (f : Nat) : Prop :=
  ∃ q, t.page f = some q ∧ (q ∉ future ∨
    ∀ i r, t.page i = some r → r ∈ future ∧ future.idxOf r ≤ future.idxOf q)

/-- No page in memory shares its bucket with another page that is referenced before it is. -/
def Unmixed (future : List Access) (t : Sim OptGlobals φ) : Prop :=
  ∀ i r, t.page i = some r → ∀ n b, future[n]? = some b →
    hashcode b.vaddr = hashcode (t.coremap i).vaddr → r ∈ references (future.take (n + 1))

/-- A replay has its queues, and faults at most at an address past the page directory. -/
theorem opt_runs (io : FileOps φ) {m swapsize : Nat} (hm : 1 ≤ m ∧ m ≤ 2 ^ 20)
    (hswap : swapsize < 2 ^ 32) (physmem : Memory) (fd : φ) {o : OptGlobals}
    (ho : o.vaddrCounter = 0 ∧ ∀ h, o.Lists h (positions h 0 trace)) (as : List Access) :
    (∃ s, simulate opt io m swapsize physmem fd o as = .ok s ∧ Mapped none s ∧ s.memsize = m ∧
      s.alg.Reads trace as) ∨
    (simulate opt io m swapsize physmem fd o as = .error .outOfBounds ∧
      ∃ a ∈ as, ¬pgdirIndex a.vaddr < PTRS_PER_PGDIR) := by
  refine simulate_sound io (J := fun as s => s.alg.Reads trace as) physmem fd o opt_respectful hm.2
    hswap (fun _ _ _ => .start ho.1 ho.2) ?_ (fun _ _ _ _ hJ => hJ) as
  intro as a s _ hM hmem hJ _
  exact accessCases_opt io hJ hM (hmem ▸ hm.1) a

/-- With queues that list the positions of a trace the algorithm answers each of its calls, in a run
over addresses of 36 bits. -/
theorem opt_answers (io : FileOps φ) {m swapsize : Nat} (hm : 1 ≤ m ∧ m ≤ 2 ^ 20)
    (hswap : swapsize < 2 ^ 32) (physmem : Memory) (fd : φ) {o : OptGlobals}
    (ho : o.vaddrCounter = 0 ∧ ∀ h, o.Lists h (positions h 0 trace))
    (hrange : ∀ a ∈ as, a.vaddr.toNat < 2 ^ 36) :
    (opt : Functions OptGlobals φ).Answers io m swapsize physmem fd o as := by
  obtain ⟨s, hs, _⟩ := ends_of_range hrange (opt_runs io hm hswap physmem fd ho as)
  exact opt_respectful.answers_of_simulate hm.2 hswap ⟨s, hs⟩

/-- With queues that list the positions of a trace, the replay of the trace goes through, and at each
call of `opt_evict` with no bucket mixed the page that is needed last is evicted. -/
theorem simulate_opt (io : FileOps φ) {m swapsize : Nat} (hm : 1 ≤ m) (hswap : swapsize < 2 ^ 32)
    (physmem : Memory) (fd : φ) {trace : List Access}
    (haligned : ∀ a ∈ trace, a.vaddr.toNat < 2 ^ 36 ∧ a.vaddr.toNat % 4096 = 0) {o : OptGlobals}
    (ho : o.vaddrCounter = 0 ∧ ∀ h, o.Lists h (positions h 0 trace)) :
    (m ≤ 2 ^ 20 → ∃ s, simulate opt io m swapsize physmem fd o trace = .ok s) ∧
    ∀ as a future s t, trace = as ++ a :: future →
      simulate opt io m swapsize physmem fd o as = .ok s → evictCall a.vaddr s = some t →
      m ≤ 2 ^ 20 → Unmixed (a :: future) t →
      ∃ f t', optEvict 0 t = .ok (f, t') ∧ NeededLast (references (a :: future)) t f := by
  refine ⟨fun hm' => ?_, fun as a future s t htrace hs hcall hm' hunmixed => ?_⟩
  · obtain ⟨s, hs, _⟩ := ends_of_range (fun a ha => (haligned a ha).1)
      (opt_runs io ⟨hm, hm'⟩ hswap physmem fd ho trace)
    exact ⟨s, hs⟩
  · obtain ⟨hM, hmem, hreads⟩ := of_run hs (opt_runs io ⟨hm, hm'⟩ hswap physmem fd ho as)
    obtain ⟨⟨_, _, hfree⟩, rfl⟩ := evictCall_eq_some.mp hcall
    obtain ⟨f, q, t', hevict, hq, _, hchoice⟩ :=
      hreads.call hM (hmem ▸ hm) hfree (pgdirIndex a.vaddr)
    have hpage : (initSecondLevel (pgdirIndex a.vaddr) s).page = s.page := by
      funext i
      simp [Sim.page]
    -- The references to a page in memory are to the address of its frame.
    have hsame : ∀ i r, s.page i = some r → ∀ c ∈ a :: future, pteOf c.vaddr = r →
        hashcode c.vaddr = hashcode (s.coremap i).vaddr := by
      rintro i r hr c hc hcr
      obtain ⟨b, hb, hbr, hbv⟩ := simulate_vaddr opt_respectful hm' hswap hs hr
      obtain ⟨hc₁, hc₂⟩ := haligned c (htrace ▸ List.mem_append_right _ hc)
      obtain ⟨hb₁, hb₂⟩ := haligned b (htrace ▸ List.mem_append_left _ hb)
      rw [hbv, pteOf_injective hc₁ hb₁ hc₂ hb₂ (hcr.trans hbr.symm)]
    refine ⟨f, t', hevict, q, by rw [hpage]; exact hq, ?_⟩
    rcases hchoice (a :: future) htrace with hnil | ⟨k, hk, hall⟩
    · exact .inl (notMem_references (hsame f q hq) hnil)
    · refine .inr fun i r hr => ?_
      rw [hpage] at hr
      have hown : ∀ i r, s.page i = some r → ∀ n c, (a :: future)[n]? = some c →
          hashcode c.vaddr = hashcode (s.coremap i).vaddr →
          r ∈ references ((a :: future).take (n + 1)) := by
        intro i r hr n c hc hh
        refine hunmixed i r (by rw [hpage]; exact hr) n c hc ?_
        rw [Sim.coremap_initSecondLevel]
        exact hh
      obtain ⟨n, hle, hn⟩ := hall i (hM.page_lt hr)
      obtain ⟨hr', hidx⟩ := idxOf_of_head? (hsame i r hr) (hown i r hr) hn
      obtain ⟨_, hidx'⟩ := idxOf_of_head? (hsame f q hq) (hown f q hq) hk
      exact ⟨hr', by omega⟩

/-- Two pages in a memory of one frame: the first is evicted when the second comes. -/
theorem simulate_opt_one : ∃ o s t, enqueueAll [⟨'L', 0x0⟩, ⟨'L', 0x1000⟩] = .ok o ∧
    simulate opt regularFile.toFileOps 1 4 (fun _ => 0) .empty o [⟨'L', 0x0⟩] = .ok s ∧
    evictCall 0x1000 s = some t ∧
    ∃ f t', optEvict 0 t = .ok (f, t') ∧ NeededLast (references [⟨'L', 0x1000⟩]) t f := by
  have hrun : ∃ o s t, enqueueAll [⟨'L', 0x0⟩, ⟨'L', 0x1000⟩] = .ok o ∧
      simulate opt regularFile.toFileOps 1 4 (fun _ => 0) .empty o [⟨'L', 0x0⟩] = .ok s ∧
      evictCall 0x1000 s = some t ∧ (t.coremap 0).vaddr = 0 ∧ t.memsize = 1 :=
    ⟨_, _, _, rfl, rfl, rfl, rfl, rfl⟩
  obtain ⟨o, s, t, ho, hs, ht, hvaddr, hmem⟩ := hrun
  obtain ⟨o', ho', hlists⟩ := enqueueAll_lists [⟨'L', 0x0⟩, ⟨'L', 0x1000⟩]
  cases ho.symm.trans ho'
  refine ⟨o, s, t, ho, hs, ht, (simulate_opt regularFile.toFileOps (le_refl 1) (by decide) _ _
    (by decide) hlists).2 [⟨'L', 0x0⟩] ⟨'L', 0x1000⟩ [] s t rfl hs ht (by decide) ?_⟩
  intro i r hr n c hc hh
  obtain ⟨-, rfl⟩ := evictCall_eq_some.mp ht
  have hM := (simulate_mapped opt_respectful (by decide) (by decide) hs).1
  have hi : i = 0 := by
    have hlt := (mapped_initSecondLevel hM _).page_lt hr
    omega
  obtain rfl : c = ⟨'L', 0x1000⟩ := by simpa using List.mem_of_getElem? hc
  rw [hi, hvaddr] at hh
  cases hh

/-- The page at 0xC35000 hashes like the page at 0. -/
def mixed : List Access := [⟨'L', 0x0⟩, ⟨'L', 0x1000⟩, ⟨'L', 0x2000⟩, ⟨'L', 0xC35000⟩, ⟨'L', 0x1000⟩]

/-- Of the pages 0 and 0x1000 the second is evicted, though it is the one that is needed again. -/
theorem not_neededLast_mixed : ∃ o s t, enqueueAll mixed = .ok o ∧
    (o.vaddrCounter = 0 ∧ ∀ h, o.Lists h (positions h 0 mixed)) ∧
    simulate opt regularFile.toFileOps 2 4 (fun _ => 0) .empty o (mixed.take 2) = .ok s ∧
    evictCall 0x2000 s = some t ∧
    ¬∃ f t', optEvict 0 t = .ok (f, t') ∧ NeededLast (references (mixed.drop 2)) t f := by
  have hrun : ∃ o s t r, enqueueAll mixed = .ok o ∧
      simulate opt regularFile.toFileOps 2 4 (fun _ => 0) .empty o (mixed.take 2) = .ok s ∧
      evictCall 0x2000 s = some t ∧ optEvict 0 t = .ok r ∧ r.1 = 1 ∧
      t.page 0 = some (pteOf 0x0) ∧ t.page 1 = some (pteOf 0x1000) :=
    ⟨_, _, _, _, rfl, rfl, rfl, rfl, rfl, rfl, rfl⟩
  obtain ⟨o, s, t, r, ho, hs, ht, hevict, hr, h0, h1⟩ := hrun
  obtain ⟨o', ho', hlists⟩ := enqueueAll_lists mixed
  cases ho.symm.trans ho'
  refine ⟨o, s, t, ho, hlists, hs, ht, ?_⟩
  rintro ⟨f, t'', hevict', q, hq, hlast⟩
  cases hevict.symm.trans hevict'
  obtain rfl : f = 1 := hr
  cases h1.symm.trans hq
  rcases hlast with hnot | hall
  · exact hnot (by decide)
  · exact absurd (hall 0 _ h0).1 (by decide)

end Paging

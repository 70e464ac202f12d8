-- SUMMARY: Linked lists as links between nodes: runs of nodes that a link visits, and doubly linked segments.
import Mathlib.Data.List.Chain
import Mathlib.Data.List.Nodup

/-!
# Links

Nodes hold their links in two fields, given as functions from nodes to the node linked to. A list
says in which order the links visit the nodes. A segment is a part of a doubly linked list with
what lies before and after it, so that a list can be cut, changed at the cut and put together.
-/

namespace Library

variable {α : Type} {next prev next' prev' : α → Option α} {l l₁ l₂ : List α} {a b : α}
  {before after before' after' : Option α}

/-- Following a link from a start visits exactly the nodes of the list, in order. -/
def Follows (next : α → Option α) : Option α → List α → Prop
  | start, [] => start = none
  | start, a :: l => start = some a ∧ Follows next (next a) l

/-- Only the links of the nodes visited matter. -/
theorem Follows.congr {start : Option α} (h : Follows next start l)
    (hnext : ∀ a ∈ l, next' a = next a) : Follows next' start l := by
  induction l generalizing start with
  | nil => exact h
  | cons a l ih =>
    obtain ⟨hstart, hl⟩ := h
    refine ⟨hstart, ?_⟩
    rw [hnext a List.mem_cons_self]
    exact ih hl fun b hb => hnext b (List.mem_cons_of_mem a hb)

/-- A node linked to by the last one. -/
theorem Follows.concat {start : Option α} {t : α} (h : Follows next start l)
    (hlast : l.getLast? = some t) (hnodup : l.Nodup) (hnext : ∀ a ∈ l, a ≠ t → next' a = next a)
    (ht : next' t = some b) (hb : next' b = none) : Follows next' start (l ++ [b]) := by
  induction l generalizing start with
  | nil => cases hlast
  | cons a l ih =>
    obtain ⟨hstart, hl⟩ := h
    obtain ⟨ha, hnodup⟩ := List.nodup_cons.mp hnodup
    refine ⟨hstart, ?_⟩
    cases l with
    | nil =>
      cases hlast
      exact ⟨ht, hb⟩
    | cons c l =>
      rw [List.getLast?_cons_cons] at hlast
      have hat : a ≠ t := fun heq => ha (heq ▸ List.mem_of_getLast? hlast)
      rw [hnext a List.mem_cons_self hat]
      exact ih hl hlast hnodup fun d hd => hnext d (List.mem_cons_of_mem _ hd)

/-- The nodes of the list are linked to each other both ways, the first one back to `before` and
the last one on to `after`. -/
def Segment (next prev : α → Option α) : Option α → List α → Option α → Prop
  | _, [], _ => True
  | before, a :: l, after => prev a = before ∧ next a = l.head?.or after ∧
      Segment next prev (some a) l after

@[simp] theorem segment_nil : Segment next prev before [] after := trivial

@[simp] theorem segment_cons : Segment next prev before (a :: l) after ↔
    prev a = before ∧ next a = l.head?.or after ∧ Segment next prev (some a) l after := Iff.rfl

theorem segment_append : Segment next prev before (l₁ ++ l₂) after ↔
    Segment next prev before l₁ (l₂.head?.or after) ∧
      Segment next prev (l₁.getLast?.or before) l₂ after := by
  induction l₁ generalizing before with
  | nil => simp
  | cons a l₁ ih =>
    have hhead : (l₁ ++ l₂).head?.or after = l₁.head?.or (l₂.head?.or after) := by
      cases l₁ <;> simp
    have hlast : (a :: l₁).getLast?.or before = l₁.getLast?.or (some a) := by
      cases l₁ with
      | nil => simp
      | cons b l => simp [List.getLast?_cons]
    simp only [List.cons_append, segment_cons, ih, hhead, hlast, and_assoc]

/-- Only the links of the nodes of a segment matter. -/
theorem Segment.congr (h : Segment next prev before l after)
    (hlinks : ∀ a ∈ l, next' a = next a ∧ prev' a = prev a) :
    Segment next' prev' before l after := by
  induction l generalizing before with
  | nil => trivial
  | cons a l ih =>
    obtain ⟨hp, hn, hl⟩ := h
    refine ⟨?_, ?_, ih hl fun b hb => hlinks b (List.mem_cons_of_mem a hb)⟩
    · rw [(hlinks a List.mem_cons_self).2, hp]
    · rw [(hlinks a List.mem_cons_self).1, hn]

/-- A doubly linked list read backwards. -/
theorem Segment.reverse (h : Segment next prev before l after) :
    Segment prev next after l.reverse before := by
  induction l generalizing before with
  | nil => trivial
  | cons a l ih =>
    obtain ⟨hp, hn, hl⟩ := h
    rw [List.reverse_cons, segment_append]
    refine ⟨ih hl, ?_, ?_, trivial⟩
    · rw [List.getLast?_reverse, hn]
    · rw [hp]
      rfl

/-- The forward links of a whole list visit its nodes. -/
theorem Segment.follows (h : Segment next prev before l none) : Follows next l.head? l := by
  induction l generalizing before with
  | nil => rfl
  | cons a l ih =>
    obtain ⟨_, hn, hl⟩ := h
    refine ⟨rfl, ?_⟩
    rw [hn, Option.or_none]
    exact ih hl

/-- The backward links of a whole list visit its nodes in reverse. -/
theorem Segment.follows_reverse (h : Segment next prev none l after) :
    Follows prev l.getLast? l.reverse := by
  have hrev := h.reverse.follows
  rwa [List.head?_reverse] at hrev

section

variable [DecidableEq α]

/-- The first node of a segment is linked back to something else. -/
theorem Segment.setBefore (h : Segment next prev before l after) (hnodup : l.Nodup)
    (hnext : ∀ a ∈ l, next' a = next a)
    (hprev : ∀ a ∈ l, prev' a = if l.head? = some a then before' else prev a) :
    Segment next' prev' before' l after := by
  cases l with
  | nil => trivial
  | cons a l =>
    obtain ⟨_, hn, hl⟩ := h
    obtain ⟨ha, _⟩ := List.nodup_cons.mp hnodup
    refine ⟨?_, ?_, hl.congr ?_⟩
    · rw [hprev a List.mem_cons_self]
      exact if_pos rfl
    · rw [hnext a List.mem_cons_self, hn]
    · intro b hb
      have hne : (a :: l).head? ≠ some b := by
        intro heq
        rw [← Option.some.inj heq] at hb
        exact ha hb
      rw [hnext b (List.mem_cons_of_mem a hb), hprev b (List.mem_cons_of_mem a hb), if_neg hne]
      exact ⟨rfl, rfl⟩

/-- The last node of a segment is linked on to something else. -/
theorem Segment.setAfter (h : Segment next prev before l after) (hnodup : l.Nodup)
    (hprev : ∀ a ∈ l, prev' a = prev a)
    (hnext : ∀ a ∈ l, next' a = if l.getLast? = some a then after' else next a) :
    Segment next' prev' before l after' := by
  have hrev : Segment prev' next' after' l.reverse before := by
    apply h.reverse.setBefore (List.nodup_reverse.mpr hnodup)
    · intro a ha
      exact hprev a (List.mem_reverse.mp ha)
    · intro a ha
      rw [List.head?_reverse]
      exact hnext a (List.mem_reverse.mp ha)
  have hback := hrev.reverse
  rwa [List.reverse_reverse] at hback

/-- A node is taken out of a segment by linking its neighbours to each other. -/
theorem Segment.remove (h : Segment next prev before (l₁ ++ a :: l₂) after)
    (hnodup : (l₁ ++ a :: l₂).Nodup)
    (hnext₁ : ∀ b ∈ l₁, next' b = if l₁.getLast? = some b then l₂.head?.or after else next b)
    (hprev₁ : ∀ b ∈ l₁, prev' b = prev b) (hnext₂ : ∀ b ∈ l₂, next' b = next b)
    (hprev₂ : ∀ b ∈ l₂, prev' b = if l₂.head? = some b then l₁.getLast?.or before else prev b) :
    Segment next' prev' before (l₁ ++ l₂) after := by
  obtain ⟨h₁, _, _, h₂⟩ := segment_append.mp h
  obtain ⟨hnodup₁, hnodup₂, _⟩ := List.nodup_append.mp hnodup
  refine segment_append.mpr ⟨?_, ?_⟩
  · exact h₁.setAfter hnodup₁ hprev₁ hnext₁
  · exact h₂.setBefore (List.nodup_cons.mp hnodup₂).2 hnext₂ hprev₂

/-- A node is put in front of a list. -/
theorem Segment.push (h : Segment next prev none l after) (hnodup : l.Nodup)
    (hnext : next' a = l.head?.or after) (hprev : prev' a = none)
    (hnext' : ∀ b ∈ l, next' b = next b)
    (hprev' : ∀ b ∈ l, prev' b = if l.head? = some b then some a else prev b) :
    Segment next' prev' none (a :: l) after :=
  ⟨hprev, hnext, h.setBefore hnodup hnext' hprev'⟩

/-- The link of the last node of a chain does not matter to the chain. -/
theorem isChain_update_last (h : List.IsChain (fun a b => next a = some b) l) (hnodup : l.Nodup)
    (hlast : l.getLast? = some a) (link : Option α) :
    List.IsChain (fun b c => Function.update next a link b = some c) l := by
  induction h with
  | nil => exact .nil
  | singleton b => exact .singleton b
  | @cons_cons b c l hbc _ ih =>
    obtain ⟨hb, hnodup'⟩ := List.nodup_cons.mp hnodup
    have hlast' : (c :: l).getLast? = some a := by rw [← hlast, List.getLast?_cons_cons]
    have hne : b ≠ a := fun heq => hb (heq ▸ List.mem_of_getLast? hlast')
    refine .cons_cons ?_ (ih hnodup' hlast')
    rw [Function.update_of_ne hne]
    exact hbc

end

end Library

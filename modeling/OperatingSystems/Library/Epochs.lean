-- SUMMARY: A trace cut into epochs of few pages, and what is left of its misses when of each epoch only the first uses are kept.
import OperatingSystems.Library.Caching
import OperatingSystems.Library.LruStack

/-!
# Epochs

A trace is cut wherever an epoch would get more than `b` pages. Of each epoch that is over, the slim
trace has the first use of each page. It is as hard on a cache as the whole one, up to `b - 1` more
places in the cache and the last epoch.
-/

namespace Library.Epochs

variable {ι α : Type} [DecidableEq α] {page : ι → α} {b h k m n : Nat} {a : ι} {p : α}
  {uses trace : List ι}

/-! ## First uses -/

/-- The first use of each page. -/
def firsts (page : ι → α) (uses : List ι) : List ι :=
  uses.foldl (fun kept a => if page a ∈ kept.map page then kept else kept ++ [a]) []

@[simp] theorem firsts_nil : firsts page [] = [] := rfl

theorem firsts_concat : firsts page (uses ++ [a]) =
    if page a ∈ (firsts page uses).map page then firsts page uses else firsts page uses ++ [a] := by
  rw [firsts, List.foldl_append]
  rfl

/-- All pages are kept. -/
theorem mem_map_firsts : p ∈ (firsts page uses).map page ↔ p ∈ uses.map page := by
  induction uses using List.reverseRecOn with
  | nil => rfl
  | append_singleton uses a ih =>
    rw [firsts_concat, List.map_append, List.mem_append, ← ih]
    split
    · rename_i hold
      constructor
      · exact .inl
      · rintro (hp | hp)
        · exact hp
        · rw [List.mem_singleton.mp hp]
          exact hold
    · rw [List.map_append, List.mem_append]

theorem toFinset_firsts (page : ι → α) (uses : List ι) :
    ((firsts page uses).map page).toFinset = (uses.map page).toFinset := by
  ext p
  rw [List.mem_toFinset, List.mem_toFinset, mem_map_firsts]

theorem firsts_of_mem (ha : page a ∈ uses.map page) :
    firsts page (uses ++ [a]) = firsts page uses := by
  rw [firsts_concat, if_pos (mem_map_firsts.mpr ha)]

theorem firsts_of_notMem (ha : page a ∉ uses.map page) :
    firsts page (uses ++ [a]) = firsts page uses ++ [a] := by
  rw [firsts_concat, if_neg fun hmem => ha (mem_map_firsts.mp hmem)]

theorem nodup_firsts (uses : List ι) : ((firsts page uses).map page).Nodup := by
  induction uses using List.reverseRecOn with
  | nil => exact List.nodup_nil
  | append_singleton uses a ih =>
    by_cases ha : page a ∈ uses.map page
    · rw [firsts_of_mem ha]
      exact ih
    · rw [firsts_of_notMem ha, List.map_append, List.map_singleton, ← List.concat_eq_append]
      exact ih.concat fun hmem => ha (mem_map_firsts.mp hmem)

/-- There is one first use for each page. -/
theorem length_firsts (uses : List ι) :
    (firsts page uses).length = (uses.map page).toFinset.card := by
  rw [← toFinset_firsts, List.toFinset_card_of_nodup (nodup_firsts uses), List.length_map]

theorem firsts_sublist (uses : List ι) : (firsts page uses).Sublist uses := by
  induction uses using List.reverseRecOn with
  | nil => exact List.Sublist.refl _
  | append_singleton uses a ih =>
    rw [firsts_concat]
    split
    · exact ih.trans (List.sublist_append_left _ _)
    · exact ih.append (List.Sublist.refl _)

theorem firsts_append_left (uses more : List ι) : firsts page uses <+: firsts page (uses ++ more) := by
  induction more using List.reverseRecOn with
  | nil =>
    rw [List.append_nil]
  | append_singleton more a ih =>
    rw [← List.append_assoc, firsts_concat]
    split
    · exact ih
    · exact ih.trans (List.prefix_append _ _)

/-! ## Cutting -/

/-- The epochs that are over, and the one that is open. -/
structure Cut (ι : Type) where
  done : List (List ι)
  opened : List ι
deriving DecidableEq, Repr

/-- A use stays in the open epoch if that does not get more than `b` pages. -/
def Cut.add (page : ι → α) (b : Nat) (c : Cut ι) (a : ι) : Cut ι :=
  if page a ∈ c.opened.map page then { c with opened := c.opened ++ [a] }
  else if (firsts page c.opened).length = b then { done := c.done ++ [c.opened], opened := [a] }
  else { c with opened := c.opened ++ [a] }

def cut (page : ι → α) (b : Nat) (trace : List ι) : Cut ι := trace.foldl (Cut.add page b) ⟨[], []⟩

/-- Of each epoch that is over, the first use of each page. -/
def slim (page : ι → α) (b : Nat) (trace : List ι) : List ι :=
  (cut page b trace).done.flatMap (firsts page)

theorem cut_concat : cut page b (trace ++ [a]) = (cut page b trace).add page b a := by
  rw [cut, List.foldl_append]
  rfl

/-- The ways a use can go. -/
theorem Cut.add_cases (page : ι → α) (b : Nat) (c : Cut ι) (a : ι) :
    page a ∈ c.opened.map page ∧ c.add page b a = { c with opened := c.opened ++ [a] } ∨
    page a ∉ c.opened.map page ∧ (firsts page c.opened).length ≠ b ∧
      c.add page b a = { c with opened := c.opened ++ [a] } ∨
    page a ∉ c.opened.map page ∧ (firsts page c.opened).length = b ∧
      c.add page b a = { done := c.done ++ [c.opened], opened := [a] } := by
  unfold Cut.add
  split
  · exact .inl ⟨‹_›, rfl⟩
  · split
    · exact .inr (.inr ⟨‹_›, ‹_›, rfl⟩)
    · exact .inr (.inl ⟨‹_›, ‹_›, rfl⟩)

/-- Nothing gets lost. -/
theorem cut_flatten (page : ι → α) (b : Nat) (trace : List ι) :
    (cut page b trace).done.flatten ++ (cut page b trace).opened = trace := by
  induction trace using List.reverseRecOn with
  | nil => rfl
  | append_singleton trace a ih =>
    rw [cut_concat]
    rcases (cut page b trace).add_cases page b a with
      ⟨_, hadd⟩ | ⟨_, _, hadd⟩ | ⟨_, _, hadd⟩
    all_goals
      rw [hadd]
      simp only [List.flatten_concat, ← List.append_assoc, ih]

theorem slim_sublist (page : ι → α) (b : Nat) (trace : List ι) : (slim page b trace).Sublist trace := by
  have hkept : ∀ es : List (List ι), (es.flatMap (firsts page)).Sublist es.flatten := by
    intro es
    induction es with
    | nil => exact List.Sublist.refl _
    | cons uses es ih =>
      rw [List.flatMap_cons, List.flatten_cons]
      exact (firsts_sublist uses).append ih
  calc (slim page b trace).Sublist (cut page b trace).done.flatten := hkept _
    List.Sublist _ ((cut page b trace).done.flatten ++ (cut page b trace).opened) :=
      List.sublist_append_left _ _
    _ = trace := cut_flatten page b trace

/-- No epoch has more than `b` pages. -/
theorem cut_card_le (page : ι → α) (hb : 1 ≤ b) (trace : List ι) :
    (∀ uses ∈ (cut page b trace).done, (uses.map page).toFinset.card ≤ b) ∧
      ((cut page b trace).opened.map page).toFinset.card ≤ b := by
  induction trace using List.reverseRecOn with
  | nil => exact ⟨fun _ huses => absurd huses List.not_mem_nil, Nat.zero_le b⟩
  | append_singleton trace a ih =>
    obtain ⟨hdone, hopened⟩ := ih
    rw [cut_concat]
    rcases (cut page b trace).add_cases page b a with
      ⟨ha, hadd⟩ | ⟨ha, hroom, hadd⟩ | ⟨ha, hfull, hadd⟩
    · rw [hadd]
      refine ⟨hdone, ?_⟩
      rw [← length_firsts, firsts_of_mem ha, length_firsts]
      exact hopened
    · rw [hadd]
      refine ⟨hdone, ?_⟩
      rw [← length_firsts] at hopened ⊢
      rw [firsts_of_notMem ha, List.length_append, List.length_singleton]
      omega
    · rw [hadd]
      refine ⟨fun uses huses => ?_, by simpa using hb⟩
      rcases List.mem_append.mp huses with huses | huses
      · exact hdone uses huses
      · rw [List.mem_singleton.mp huses]
        exact hopened

/-! ### Other names for the pages -/

section Map

variable {β κ : Type} [DecidableEq β] {page' : κ → β} {f : ι → κ}

omit [DecidableEq α] [DecidableEq β] in
theorem mem_map_iff (hf : ∀ x ∈ uses, page' (f x) = page' (f a) ↔ page x = page a) :
    page' (f a) ∈ (uses.map f).map page' ↔ page a ∈ uses.map page := by
  simp only [List.mem_map, exists_exists_and_eq_and]
  exact exists_congr fun x => and_congr_right fun hx => hf x hx

theorem firsts_map
    (hf : ∀ x ∈ uses, ∀ y ∈ uses, page' (f x) = page' (f y) ↔ page x = page y) :
    firsts page' (uses.map f) = (firsts page uses).map f := by
  induction uses using List.reverseRecOn with
  | nil => rfl
  | append_singleton uses a ih =>
    have hmem := mem_map_iff fun x hx =>
      hf x (List.mem_append_left _ hx) a (List.mem_append_right _ (List.mem_singleton_self a))
    have ih := ih fun x hx y hy => hf x (List.mem_append_left _ hx) y (List.mem_append_left _ hy)
    rw [List.map_append, List.map_singleton]
    by_cases ha : page a ∈ uses.map page
    · rw [firsts_of_mem ha, firsts_of_mem (hmem.mpr ha), ih]
    · rw [firsts_of_notMem ha, firsts_of_notMem (hmem.not.mpr ha), ih, List.map_append,
        List.map_singleton]

theorem cut_subset (trace : List ι) :
    (∀ uses ∈ (cut page b trace).done, uses ⊆ trace) ∧ (cut page b trace).opened ⊆ trace := by
  have hflatten := cut_flatten page b trace
  constructor
  · intro uses huses x hx
    rw [← hflatten]
    exact List.mem_append_left _ (List.mem_flatten_of_mem huses hx)
  · intro x hx
    rw [← hflatten]
    exact List.mem_append_right _ hx

theorem cut_map (hf : ∀ x ∈ trace, ∀ y ∈ trace, page' (f x) = page' (f y) ↔ page x = page y) :
    cut page' b (trace.map f) =
      { done := (cut page b trace).done.map (List.map f), opened := (cut page b trace).opened.map f } := by
  induction trace using List.reverseRecOn with
  | nil => rfl
  | append_singleton trace a ih =>
    have hold : ∀ x ∈ (cut page b trace).opened, x ∈ trace ++ [a] := fun x hx =>
      List.mem_append_left _ ((cut_subset trace).2 hx)
    have hmem := mem_map_iff fun x hx => hf x (hold x hx) a (by simp)
    have hfirsts := firsts_map fun x hx y hy => hf x (hold x hx) y (hold y hy)
    rw [List.map_append, List.map_singleton, cut_concat, cut_concat,
      ih fun x hx y hy => hf x (List.mem_append_left _ hx) y (List.mem_append_left _ hy), Cut.add,
      Cut.add, hfirsts, List.length_map]
    simp only [hmem]
    split
    · simp
    · split
      · simp
      · simp

/-- The slim trace does not depend on what the pages are called. -/
theorem slim_map (hf : ∀ x ∈ trace, ∀ y ∈ trace, page' (f x) = page' (f y) ↔ page x = page y) :
    slim page' b (trace.map f) = (slim page b trace).map f := by
  rw [slim, cut_map hf, slim, List.map_flatMap, List.flatMap_map]
  refine List.flatMap_congr fun uses huses => firsts_map fun x hx y hy => ?_
  exact hf x ((cut_subset trace).1 uses huses hx) y ((cut_subset trace).1 uses huses hy)

end Map

/-! ## Least recently used -/

section Lru

open LruStack

variable {κ : Type} {u v : κ → List α} {es : List κ} {e e' : List α}

/-- Two histories whose epochs have the same pages, in whatever order: an item that is not used in
the last epoch is in the cache of the one, so it is in a cache of the other with `b - 1` places more. -/
theorem mem_cache_of_flatMap
    (h : ∀ x ∈ es, (u x).toFinset = (v x).toFinset ∧ (v x).toFinset.card ≤ b)
    (he : e.toFinset = e'.toFinset) (hp : p ∉ e) (hmem : p ∈ cache m (es.flatMap u ++ e)) :
    p ∈ cache (m + b - 1) (es.flatMap v ++ e') := by
  induction es using List.reverseRecOn generalizing e e' with
  | nil => exact absurd (mem_of_mem_cache hmem) hp
  | append_singleton es x ih =>
    obtain ⟨hsame, hcard⟩ := h x (by simp)
    simp only [List.flatMap_append, List.flatMap_singleton, List.append_assoc] at hmem ⊢
    by_cases hx : p ∈ u x
    · have hx' : p ∈ v x := List.mem_toFinset.mp (hsame ▸ List.mem_toFinset.mpr hx)
      obtain ⟨before, since, hu, hsince⟩ := exists_last_use hx
      obtain ⟨before', since', hv, hsince'⟩ := exists_last_use hx'
      have hp' : p ∉ e' := fun hmem => hp (List.mem_toFinset.mp (he ▸ List.mem_toFinset.mpr hmem))
      rw [hu, List.append_assoc, List.cons_append, ← List.append_assoc,
        mem_cache_since _ (by simp [hsince, hp]), List.toFinset_append] at hmem
      rw [hv, List.append_assoc, List.cons_append, ← List.append_assoc,
        mem_cache_since _ (by simp [hsince', hp']), List.toFinset_append]
      have hlast : e'.toFinset.card < m := by
        rw [← he]
        exact (Finset.card_le_card Finset.subset_union_right).trans_lt hmem
      have hrest : since'.toFinset.card + 1 ≤ b := by
        rw [← Finset.card_insert_of_notMem (List.mem_toFinset.not.mpr hsince')]
        refine (Finset.card_le_card fun q hq => ?_).trans hcard
        rw [hv]
        rcases Finset.mem_insert.mp hq with rfl | hq
        · simp
        · simp [List.mem_toFinset.mp hq]
      have hunion := Finset.card_union_le since'.toFinset e'.toFinset
      omega
    · refine ih (fun y hy => h y (List.mem_append_left _ hy)) ?_ ?_ hmem
      · rw [List.toFinset_append, List.toFinset_append, hsame, he]
      · rw [List.mem_append, not_or]
        exact ⟨hx, hp⟩

/-- What an epoch adds to the misses, if only its first uses are made and there are `b - 1` places
more. -/
theorem misses_firsts_le
    (h : ∀ x ∈ es, (u x).toFinset = (v x).toFinset ∧ (v x).toFinset.card ≤ b)
    (hle : misses (m + b - 1) (es.flatMap v) ≤ misses m (es.flatMap u)) (uses : List ι) :
    misses (m + b - 1) (es.flatMap v ++ (firsts page uses).map page) ≤
      misses m (es.flatMap u ++ uses.map page) := by
  induction uses using List.reverseRecOn with
  | nil => simpa using hle
  | append_singleton uses a ih =>
    rw [List.map_append, List.map_singleton, ← List.append_assoc (es.flatMap u), misses_concat]
    by_cases ha : page a ∈ uses.map page
    · rw [firsts_of_mem ha]
      exact Nat.le_add_right_of_le ih
    · rw [firsts_of_notMem ha, List.map_append, List.map_singleton, ← List.append_assoc,
        misses_concat]
      have hmem := mem_cache_of_flatMap h (toFinset_firsts page uses).symm ha (m := m)
      by_cases hin : page a ∈ cache m (es.flatMap u ++ uses.map page)
      · rw [if_pos hin, if_pos (hmem hin)]
        exact ih
      · rw [if_neg hin]
        exact Nat.add_le_add ih (by split <;> simp)

/-- What an epoch adds to the misses, with `b - 1` places more than if only its first uses are made. -/
theorem misses_le_firsts (hm : 1 ≤ m)
    (h : ∀ x ∈ es, (v x).toFinset = (u x).toFinset ∧ (u x).toFinset.card ≤ b)
    (hle : misses (m + b - 1) (es.flatMap u) ≤ misses m (es.flatMap v))
    (hcard : (uses.map page).toFinset.card ≤ b) :
    misses (m + b - 1) (es.flatMap u ++ uses.map page) ≤
      misses m (es.flatMap v ++ (firsts page uses).map page) := by
  induction uses using List.reverseRecOn with
  | nil => simpa using hle
  | append_singleton uses a ih =>
    have hcard' : (uses.map page).toFinset.card ≤ b :=
      (Finset.card_le_card (by simp [List.toFinset_append])).trans hcard
    rw [List.map_append, List.map_singleton, ← List.append_assoc (es.flatMap u), misses_concat]
    by_cases ha : page a ∈ uses.map page
    · -- Since its last use there are only pages of this epoch.
      obtain ⟨before, since, hsplit, hsince⟩ := exists_last_use ha
      have hhit : page a ∈ cache (m + b - 1) (es.flatMap u ++ uses.map page) := by
        rw [hsplit, ← List.append_assoc, mem_cache_since _ hsince]
        have hlt : since.toFinset.card < b := by
          refine Nat.lt_of_lt_of_le (Finset.card_lt_card ?_) hcard'
          rw [hsplit, Finset.ssubset_iff_of_subset fun q hq => by simp [List.mem_toFinset.mp hq]]
          exact ⟨page a, by simp, List.mem_toFinset.not.mpr hsince⟩
        omega
      rw [if_pos hhit, firsts_of_mem ha]
      exact ih hcard'
    · rw [firsts_of_notMem ha, List.map_append, List.map_singleton, ← List.append_assoc,
        misses_concat]
      have hmem := mem_cache_of_flatMap h (toFinset_firsts page uses)
        (fun hmem => ha (mem_map_firsts.mp hmem)) (m := m)
      by_cases hin : page a ∈ cache m (es.flatMap v ++ (firsts page uses).map page)
      · rw [if_pos hin, if_pos (hmem hin)]
        exact ih hcard'
      · rw [if_neg hin]
        exact Nat.add_le_add (ih hcard') (by split <;> simp)

/-- The misses of the epochs that are over, in both traces. -/
theorem misses_flatMap_firsts (hm : 1 ≤ m) {es : List (List ι)}
    (hes : ∀ uses ∈ es, (uses.map page).toFinset.card ≤ b) :
    misses (m + b - 1) (es.flatMap fun uses => (firsts page uses).map page) ≤
        misses m (es.flatMap (List.map page)) ∧
      misses (m + b - 1) (es.flatMap (List.map page)) ≤
        misses m (es.flatMap fun uses => (firsts page uses).map page) := by
  induction es using List.reverseRecOn with
  | nil => exact ⟨Nat.le_refl _, Nat.le_refl _⟩
  | append_singleton es uses ih =>
    have hold : ∀ x ∈ es, (x.map page).toFinset.card ≤ b :=
      fun x hx => hes x (List.mem_append_left _ hx)
    obtain ⟨hfirst, hsecond⟩ := ih hold
    simp only [List.flatMap_append, List.flatMap_singleton]
    refine ⟨misses_firsts_le (fun x hx => ⟨(toFinset_firsts page x).symm, ?_⟩) hfirst uses,
      misses_le_firsts hm (fun x hx => ⟨toFinset_firsts page x, hold x hx⟩) hsecond (hes uses (by simp))⟩
    rw [toFinset_firsts]
    exact hold x hx

/-- A cache with `b - 1` places more misses no more often on the slim trace than on the whole one,
and on the whole one only in the last epoch more often than on the slim one. -/
theorem misses_slim (hb : 1 ≤ b) (hm : 1 ≤ m) (trace : List ι) :
    misses (m + b - 1) ((slim page b trace).map page) ≤ misses m (trace.map page) ∧
      misses (m + b - 1) (trace.map page) ≤ misses m ((slim page b trace).map page) + b := by
  obtain ⟨hdone, hopened⟩ := cut_card_le page hb trace
  obtain ⟨hfirst, hsecond⟩ := misses_flatMap_firsts hm hdone
  have htrace : trace.map page = (cut page b trace).done.flatMap (List.map page) ++
      (cut page b trace).opened.map page := by
    rw [List.flatMap_def, ← List.map_flatten, ← List.map_append, cut_flatten]
  have hslim : (slim page b trace).map page =
      (cut page b trace).done.flatMap fun uses => (firsts page uses).map page := List.map_flatMap
  rw [htrace, hslim]
  refine ⟨hfirst.trans (misses_append _ _).1, ?_⟩
  calc misses (m + b - 1) ((cut page b trace).done.flatMap (List.map page) ++
          (cut page b trace).opened.map page)
      ≤ misses m ((cut page b trace).done.flatMap (fun uses => (firsts page uses).map page) ++
          (firsts page (cut page b trace).opened).map page) :=
        misses_le_firsts hm (fun x hx => ⟨toFinset_firsts page x, hdone x hx⟩) hsecond hopened
    _ ≤ misses m ((cut page b trace).done.flatMap fun uses => (firsts page uses).map page) +
          ((firsts page (cut page b trace).opened).map page).length := (misses_append _ _).2
    _ ≤ misses m ((cut page b trace).done.flatMap fun uses => (firsts page uses).map page) + b := by
        rw [List.length_map, length_firsts]
        exact Nat.add_le_add_left hopened _

end Lru

/-! ## Any cache -/

section Service

open Caching

variable {as : List ι}

/-- The first uses of the epochs so far, the open one among them. -/
def soFar (page : ι → α) (b : Nat) (as : List ι) : List ι :=
  slim page b as ++ firsts page (cut page b as).opened

/-- The epochs of a part of the trace, in the whole one. -/
theorem cut_append (page : ι → α) (b : Nat) (as more : List ι) :
    (cut page b (as ++ more)).done = (cut page b as).done ∧
      (cut page b as).opened <+: (cut page b (as ++ more)).opened ∨
    ∃ uses es, (cut page b (as ++ more)).done = (cut page b as).done ++ uses :: es ∧
      (cut page b as).opened <+: uses := by
  induction more using List.reverseRecOn with
  | nil =>
    rw [List.append_nil]
    exact .inl ⟨rfl, List.prefix_rfl⟩
  | append_singleton more a ih =>
    rw [← List.append_assoc, cut_concat]
    rcases (cut page b (as ++ more)).add_cases page b a with
      ⟨_, hadd⟩ | ⟨_, _, hadd⟩ | ⟨_, _, hadd⟩
    · rw [hadd]
      exact ih.imp_left fun h => ⟨h.1, h.2.trans (List.prefix_append _ _)⟩
    · rw [hadd]
      exact ih.imp_left fun h => ⟨h.1, h.2.trans (List.prefix_append _ _)⟩
    · rw [hadd]
      right
      rcases ih with ⟨hdone, hopened⟩ | ⟨uses, es, hdone, hopened⟩
      · exact ⟨_, [], by rw [hdone], hopened⟩
      · exact ⟨uses, es ++ [(cut page b (as ++ more)).opened], by simp [hdone], hopened⟩

/-- The epoch that is open is one of those that the slim trace has. -/
def Kept (page : ι → α) (b : Nat) (trace as : List ι) : Prop :=
  (cut page b as).done.length < (cut page b trace).done.length

instance : Decidable (Kept page b trace as) := inferInstanceAs (Decidable (_ < _))

theorem Kept.prefix (h : Kept page b trace as) (has : as <+: trace) :
    soFar page b as <+: slim page b trace := by
  obtain ⟨more, rfl⟩ := has
  unfold Kept at h
  rcases cut_append page b as more with ⟨hdone, _⟩ | ⟨uses, es, hdone, hopened⟩
  · rw [hdone] at h
    exact absurd h (Nat.lt_irrefl _)
  · obtain ⟨rest, rfl⟩ := hopened
    rw [soFar, slim, slim, hdone, List.flatMap_append, List.flatMap_cons]
    exact (List.prefix_append_right_inj _).mpr ((firsts_append_left _ _).trans (List.prefix_append _ _))

/-- What a cache holds that has served the slim trace, and besides all of the epoch that is open. -/
def held (r : Service page k (slim page b trace)) (as : List ι) : Finset α :=
  (if Kept page b trace as then r.cache (soFar page b as) else ∅) ∪
    ((cut page b as).opened.map page).toFinset

/-- Its misses, with those of the last epoch. -/
def missed (r : Service page k (slim page b trace)) (as : List ι) : Nat :=
  if Kept page b trace as then r.misses (soFar page b as)
  else r.misses (slim page b trace) + (firsts page (cut page b as).opened).length

/-- The pages of the epoch that is open, after one use more. -/
theorem opened_concat (page : ι → α) (b : Nat) (as : List ι) (a : ι) :
    page a ∈ ((cut page b (as ++ [a])).opened.map page).toFinset ∧
      ((cut page b (as ++ [a])).opened.map page).toFinset ⊆
        insert (page a) ((cut page b as).opened.map page).toFinset := by
  rw [cut_concat]
  rcases (cut page b as).add_cases page b a with
    ⟨_, hadd⟩ | ⟨_, _, hadd⟩ | ⟨_, _, hadd⟩
  all_goals
    rw [hadd]
    constructor
    · simp
    · intro p hp
      simp only [List.mem_toFinset, List.map_append, List.mem_append, List.map_cons, List.map_nil,
        List.mem_singleton, Finset.mem_insert] at hp ⊢
      tauto

theorem soFar_concat (as : List ι) (a : ι) : soFar page b (as ++ [a]) =
    if page a ∈ (cut page b as).opened.map page then soFar page b as else soFar page b as ++ [a] := by
  rw [soFar, slim, cut_concat]
  rcases (cut page b as).add_cases page b a with
    ⟨ha, hadd⟩ | ⟨ha, _, hadd⟩ | ⟨ha, _, hadd⟩
  · rw [hadd, firsts_of_mem ha, if_pos ha]
    rfl
  · rw [hadd, firsts_of_notMem ha, if_neg ha, ← List.append_assoc]
    rfl
  · rw [hadd, if_neg ha, List.flatMap_append, List.flatMap_singleton]
    rfl

/-- Epochs that are over remain so. -/
theorem Kept.of_concat (h : Kept page b trace (as ++ [a])) : Kept page b trace as := by
  unfold Kept at h ⊢
  rcases cut_append page b as [a] with ⟨hdone, _⟩ | ⟨uses, es, hdone, _⟩
  · rwa [hdone] at h
  · rw [hdone, List.length_append] at h
    omega

/-- When the last epoch begins, the slim trace is over. -/
theorem Kept.last (h : Kept page b trace as)
    (hlast : ¬Kept page b trace (as ++ [a])) : page a ∉ (cut page b as).opened.map page ∧
      (cut page b (as ++ [a])).opened = [a] := by
  unfold Kept at h hlast
  rw [cut_concat] at hlast ⊢
  rcases (cut page b as).add_cases page b a with
    ⟨_, hadd⟩ | ⟨_, _, hadd⟩ | ⟨ha, _, hadd⟩
  · rw [hadd] at hlast
    exact absurd h hlast
  · rw [hadd] at hlast
    exact absurd h hlast
  · rw [hadd]
    exact ⟨ha, rfl⟩

/-- In the last epoch no epoch ends. -/
theorem firsts_last (h : ¬Kept page b trace as) (has : as ++ [a] <+: trace) :
    firsts page (cut page b (as ++ [a])).opened =
      if page a ∈ (cut page b as).opened.map page then firsts page (cut page b as).opened
      else firsts page (cut page b as).opened ++ [a] := by
  rw [cut_concat]
  rcases (cut page b as).add_cases page b a with
    ⟨ha, hadd⟩ | ⟨ha, _, hadd⟩ | ⟨ha, _, hadd⟩
  · rw [hadd, firsts_of_mem ha, if_pos ha]
  · rw [hadd, firsts_of_notMem ha, if_neg ha]
  · obtain ⟨more, rfl⟩ := has
    refine absurd ?_ h
    unfold Kept
    rcases cut_append page b (as ++ [a]) more with
      ⟨hdone, _⟩ | ⟨uses, es, hdone, _⟩
    all_goals
      rw [hdone, cut_concat, hadd]
      simp only [List.length_append, List.length_singleton]
      omega

/-- A page that is new to the epoch is used in the slim trace, too. -/
theorem Kept.serves (h : Kept page b trace (as ++ [a])) (r : Service page k (slim page b trace))
    (has : as ++ [a] <+: trace) (ha : page a ∉ (cut page b as).opened.map page) :
    Serves k (r.cache (soFar page b as)) (page a) (r.cache (soFar page b (as ++ [a]))) ∧
      r.misses (soFar page b as) + (if page a ∈ r.cache (soFar page b as) then 0 else 1) ≤
        r.misses (soFar page b (as ++ [a])) := by
  have hpre := h.prefix has
  rw [soFar_concat, if_neg ha] at hpre ⊢
  exact ⟨r.serves _ a hpre, r.miss _ a hpre⟩

/-- A use keeps this within `k + b - 1` places. -/
theorem serves_held (r : Service page k (slim page b trace)) (hb : 1 ≤ b) (hk : 1 ≤ k)
    (has : as ++ [a] <+: trace) (hcard : (held r as).card ≤ k + b - 1) :
    Serves (k + b - 1) (held r as) (page a) (held r (as ++ [a])) := by
  obtain ⟨hmem, hsub⟩ := opened_concat page b as a
  have hopened := (cut_card_le page hb (as ++ [a])).2
  have hmem' : page a ∈ held r (as ++ [a]) := Finset.mem_union_right _ hmem
  by_cases hkept : Kept page b trace (as ++ [a])
  · have hheld : held r as = r.cache (soFar page b as) ∪
        ((cut page b as).opened.map page).toFinset := by rw [held, if_pos hkept.of_concat]
    have hheld' : held r (as ++ [a]) = r.cache (soFar page b (as ++ [a])) ∪
        ((cut page b (as ++ [a])).opened.map page).toFinset := by rw [held, if_pos hkept]
    rw [hheld'] at hmem' ⊢
    by_cases ha : page a ∈ (cut page b as).opened.map page
    · rw [Finset.insert_eq_self.mpr (List.mem_toFinset.mpr ha)] at hsub
      rw [soFar_concat, if_pos ha] at hmem' ⊢
      have hle := Finset.union_subset_union_right (s := r.cache (soFar page b as)) hsub
      rw [← hheld] at hle
      exact ⟨hmem', hle.trans (Finset.subset_insert _ _), (Finset.card_le_card hle).trans hcard⟩
    · obtain ⟨hs, _⟩ := hkept.serves r has ha
      refine ⟨hmem', ?_, ?_⟩
      · rw [hheld, Finset.insert_union_distrib]
        exact Finset.union_subset_union hs.subset hsub
      · -- The page is in both, so it takes one place.
        have hunion := Finset.card_union_add_card_inter (r.cache (soFar page b (as ++ [a])))
          ((cut page b (as ++ [a])).opened.map page).toFinset
        have hinter := Finset.card_pos.mpr ⟨page a, Finset.mem_inter.mpr ⟨hs.mem, hmem⟩⟩
        have hroom := hs.card_le
        omega
  · have hheld' : held r (as ++ [a]) = ((cut page b (as ++ [a])).opened.map page).toFinset := by
      rw [held, if_neg hkept, Finset.empty_union]
    rw [hheld'] at hmem' ⊢
    refine ⟨hmem', hsub.trans (Finset.insert_subset_insert _ Finset.subset_union_right), ?_⟩
    omega

/-- Its misses are counted, those of the last epoch too. -/
theorem missed_concat (r : Service page k (slim page b trace)) (has : as ++ [a] <+: trace) :
    missed r as + (if page a ∈ held r as then 0 else 1) ≤ missed r (as ++ [a]) := by
  have hheld : page a ∈ held r as ↔ page a ∈ (if Kept page b trace as then
      r.cache (soFar page b as) else ∅) ∨ page a ∈ (cut page b as).opened.map page := by
    rw [held, Finset.mem_union, List.mem_toFinset]
  by_cases hkept : Kept page b trace (as ++ [a])
  · rw [missed, missed, if_pos hkept, if_pos hkept.of_concat]
    rw [if_pos hkept.of_concat] at hheld
    by_cases ha : page a ∈ (cut page b as).opened.map page
    · rw [if_pos (hheld.mpr (.inr ha)), soFar_concat, if_pos ha]
      exact Nat.le_refl _
    · obtain ⟨_, hmiss⟩ := hkept.serves r has ha
      by_cases hin : page a ∈ r.cache (soFar page b as)
      · rw [if_pos hin] at hmiss
        rwa [if_pos (hheld.mpr (.inl hin))]
      · rw [if_neg hin] at hmiss
        rwa [if_neg fun hmem => (hheld.mp hmem).elim hin ha]
  · by_cases hold : Kept page b trace as
    · obtain ⟨ha, hopened⟩ := hold.last hkept
      obtain ⟨more, hmore⟩ := hold.prefix (prefix_of_concat has)
      have hmono := r.misses_mono (hmore ▸ List.prefix_rfl : soFar page b as ++ more <+: _)
      rw [hmore] at hmono
      rw [missed, missed, if_pos hold, if_neg hkept, hopened]
      have hone : (firsts page [a]).length = 1 := rfl
      rw [hone]
      exact Nat.add_le_add hmono (by split <;> simp)
    · rw [if_neg hold] at hheld
      rw [missed, missed, if_neg hold, if_neg hkept, firsts_last hold has]
      by_cases ha : page a ∈ (cut page b as).opened.map page
      · rw [if_pos (hheld.mpr (.inr ha)), if_pos ha]
        exact Nat.le_refl _
      · rw [if_neg fun hmem => (hheld.mp hmem).elim (Finset.notMem_empty _) ha, if_neg ha,
          List.length_append]
        exact Nat.le_refl _

/-- What serves the slim trace serves the whole one, with `b - 1` places more. -/
def serviceOfSlim (r : Service page k (slim page b trace)) (hb : 1 ≤ b) (hk : 1 ≤ k) :
    Service page (k + b - 1) trace where
  cache := held r
  misses := missed r
  cache_nil := by
    have hnil : soFar page b ([] : List ι) = [] := rfl
    rw [held, hnil, r.cache_nil, ite_self]
    rfl
  serves as a has := by
    have hcard : ∀ as, as <+: trace → (held r as).card ≤ k + b - 1 := by
      intro as
      induction as using List.reverseRecOn with
      | nil =>
        intro _
        have hnil : soFar page b ([] : List ι) = [] := rfl
        rw [held, hnil, r.cache_nil, ite_self]
        exact Nat.zero_le _
      | append_singleton as a ih =>
        exact fun has => (serves_held r hb hk has (ih (prefix_of_concat has))).card_le
    exact serves_held r hb hk has (hcard as (prefix_of_concat has))
  miss as a has := missed_concat r has

/-- A run over the whole trace that gives up only what is needed last misses, outside of the last
epoch, no more often than any cache for `b - 1` items less does on the slim trace. -/
theorem misses_le_slim (hb : 1 ≤ b) (hh : 1 ≤ h) (hle : h + b - 1 ≤ k) (r : Run page k trace)
    (hlast : r.EvictsLast) (r' : Service page h (slim page b trace)) :
    r.misses trace ≤ r'.misses (slim page b trace) + b := by
  have hmisses := r.misses_le_service (serviceOfSlim r' hb hh) hle hlast
  refine hmisses.trans ?_
  change missed r' trace ≤ _
  rw [missed, if_neg (show ¬Kept page b trace trace from Nat.lt_irrefl _), length_firsts]
  exact Nat.add_le_add_left (cut_card_le page hb trace).2 _

/-- A run over the slim trace that gives up only what is needed last misses no more often than any
cache of its size does on the whole one. -/
theorem slim_misses_le (hle : h ≤ k) (r : Run page k (slim page b trace)) (hlast : r.EvictsLast)
    (r' : Service page h trace) : r.misses (slim page b trace) ≤ r'.misses trace :=
  r.misses_le_of_sublist r' hle hlast (slim_sublist page b trace)

end Service

end Library.Epochs

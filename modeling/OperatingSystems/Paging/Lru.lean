-- SUMMARY: The lru replacement algorithm is exact LRU: its list holds the frames in order of their last reference.
import Mathlib.Data.List.Perm.Subperm
import OperatingSystems.Library.LruStack
import OperatingSystems.Paging.Course
import OperatingSystems.Paging.Policy
import OperatingSystems.Paging.SwapFile

/-!
# Least recently used

`lru_ref` moves the frame of a reference to the top of a doubly linked list and `lru_evict` takes
the bottom one. Where a frame stands is read off its two links alone, so the list must never be a
single frame when a frame of it is referenced, unless `top_node` is not set yet.
-/

namespace Paging

open Library Library.Run

/-! ## The code -/

/-- The globals of `lru.c`. -/
structure LruNodes where
  topNode : Option Nat
  bottomNode : Option Nat

def LruNodes.zero : LruNodes := { topNode := none, bottomNode := none }

variable {φ : Type}

def setTop (s : Sim LruNodes φ) (node : Option Nat) : Sim LruNodes φ :=
  s.setAlg { s.alg with topNode := node }

def setBottom (s : Sim LruNodes φ) (node : Option Nat) : Sim LruNodes φ :=
  s.setAlg { s.alg with bottomNode := node }

/-- `lru_evict`. -/
def lruEvict (s : Sim LruNodes φ) : Except Fault (Nat × Sim LruNodes φ) :=
  match s.alg.bottomNode with
  | none => .error .nullPointer
  | some evict =>
    match s.above evict with
    | none => .error .nullPointer
    | some parent =>
      -- The frame is unlinked; it is marked as being in no list by its two links.
      let s := setBottom s (some parent)
      let s := s.setBelow parent none
      let s := s.setAbove evict none
      let s := s.setBelow evict none
      match (s.coremap evict).pte with
      | none => .error .nullPointer
      | some p => .ok ((s.entry p).frameNo, s)

/-- `lru_ref`. -/
def lruRef (p : PtePtr) (s : Sim LruNodes φ) : Except Fault (Sim LruNodes φ) :=
  let latest := (s.entry p).frameNo
  match s.alg.bottomNode with
  | none =>
    -- The first frame of all.
    let s := setBottom s (some latest)
    let s := s.setAbove latest none
    .ok (s.setBelow latest none)
  | some bottom =>
    match s.alg.topNode with
    | none =>
      -- As long as `top_node` is not set there is one frame, and a reference to it changes nothing.
      if latest ≠ bottom then
        let s := setTop s (some latest)
        let s := s.setBelow latest (some bottom)
        .ok (s.setAbove bottom (some latest))
      else .ok s
    | some top =>
      match s.above latest, s.below latest with
      -- A frame that is in no list: it goes on top.
      | none, none =>
        let s := s.setAbove top (some latest)
        let s := s.setBelow latest (some top)
        .ok (setTop s (some latest))
      | none, some _ => do
        need (latest = top) .assertion
        .ok s
      -- The bottom frame moves to the top.
      | some parent, none => do
        need (latest = bottom) .assertion
        let s := setBottom s (some parent)
        let s := s.setBelow parent none
        let s := s.setAbove top (some latest)
        let s := s.setBelow latest (some top)
        let s := setTop s (some latest)
        .ok (s.setAbove latest none)
      -- A frame between others is cut out and moves to the top.
      | some topTemp, some bottomTemp =>
        let s := s.setAbove bottomTemp (some topTemp)
        let s := s.setBelow topTemp (some bottomTemp)
        let s := s.setAbove top (some latest)
        let s := s.setBelow latest (some top)
        let s := s.setAbove latest none
        .ok (setTop s (some latest))

/-- The algorithm under the name `lru`. -/
def lru : Functions LruNodes φ := { init := id, ref := lruRef, evict := lruEvict }

variable {s s' t : Sim LruNodes φ} {p q : PtePtr} {f i : Nat} {L : List Nat}

/-! ## What it leaves alone -/

theorem lruEvict_policyStep (h : lruEvict s = .ok (f, s')) : PolicyStep s s' := by
  unfold lruEvict at h
  split at h
  · cases h
  · split at h
    · cases h
    · simp only at h
      split at h
      · cases h
      · cases h
        exact ((((PolicyStep.refl s).setAlg _).setBelow _ _).setAbove _ _).setBelow _ _

theorem lruRef_policyStep (h : lruRef p s = .ok s') : PolicyStep s s' := by
  unfold lruRef at h
  simp only at h
  split at h
  · cases h
    exact (((PolicyStep.refl s).setAlg _).setAbove _ _).setBelow _ _
  · split at h
    · split at h
      · cases h
        exact (((PolicyStep.refl s).setAlg _).setBelow _ _).setAbove _ _
      · cases h
        exact .refl s
    · split at h
      · cases h
        exact (((PolicyStep.refl s).setAbove _ _).setBelow _ _).setAlg _
      · obtain ⟨_, _, heq⟩ := bind_eq_ok.mp h
        cases heq
        exact .refl s
      · obtain ⟨_, _, heq⟩ := bind_eq_ok.mp h
        cases heq
        exact ((((((PolicyStep.refl s).setAlg _).setBelow _ _).setAbove _ _).setBelow _ _).setAlg
          _).setAbove _ _
      · cases h
        exact ((((((PolicyStep.refl s).setAbove _ _).setBelow _ _).setAbove _ _).setBelow _
          _).setAbove _ _).setAlg _

theorem lru_respectful : (lru : Functions LruNodes φ).Respectful where
  init s := .refl s
  ref _ _ _ := lruRef_policyStep
  evict _ _ _ := lruEvict_policyStep

/-! ## The list -/

/-- The list kept in the links, most recent first. Frames outside of it have no links, which is
how `lru_ref` tells them. -/
structure LruList (s : Sim LruNodes φ) (L : List Nat) : Prop where
  nodup : L.Nodup
  links : Segment s.below s.above none L none
  unlinked : ∀ i, i ∉ L → s.above i = none ∧ s.below i = none
  bottom : s.alg.bottomNode = L.getLast?

namespace LruList

theorem congr (h : LruList s L) (habove : t.above = s.above) (hbelow : t.below = s.below)
    (halg : t.alg = s.alg) : LruList t L where
  nodup := h.nodup
  links := by rw [habove, hbelow]; exact h.links
  unlinked := by rw [habove, hbelow]; exact h.unlinked
  bottom := by rw [halg]; exact h.bottom

/-- The oldest frame leaves the list, if it is not the only one. -/
theorem evict {y : Nat} (h : LruList s (L ++ [y])) (hL : L ≠ []) (hpte : (s.coremap y).pte = some q)
    (hq : (s.entry q).frameNo = y) :
    ∃ s', lruEvict s = .ok (y, s') ∧ LruList s' L ∧ s'.alg.topNode = s.alg.topNode := by
  obtain ⟨x, hx⟩ := List.getLast?_isSome.mpr hL |> Option.isSome_iff_exists.mp
  have hdisj := List.nodup_append.mp h.nodup
  have hyL : y ∉ L := fun hy => hdisj.2.2 y hy y (by simp) rfl
  have hxL : x ∈ L := List.mem_of_getLast? hx
  have hxy : x ≠ y := fun heq => hyL (heq ▸ hxL)
  obtain ⟨hseg, hy⟩ := segment_append.mp h.links
  have habove : s.above y = some x := by rw [hy.1, hx]; rfl
  have hbottom : s.alg.bottomNode = some y := by rw [h.bottom]; simp
  -- The list has a frame `x` above the last one, which becomes the bottom.
  let s' := (((setBottom s (some x)).setBelow x none).setAbove y none).setBelow y none
  have hevict : lruEvict s = .ok (y, s') := by
    have hkeep : PolicyStep s s' :=
      ((((PolicyStep.refl s).setAlg _).setBelow _ _).setAbove _ _).setBelow _ _
    have hpte' : (s'.coremap y).pte = some q := (hkeep.pte y).trans hpte
    have hq' : (s'.entry q).frameNo = y := hq
    unfold lruEvict
    simp only [hbottom, habove]
    rw [hpte']
    simp only
    rw [hq']
  refine ⟨s', hevict, ⟨hdisj.1, ?_, ?_, ?_⟩, rfl⟩
  · apply hseg.setAfter hdisj.1
    · intro a ha
      have hay : a ≠ y := fun heq => hyL (heq ▸ ha)
      simp [s', setBottom, hay]
    · intro a ha
      have hay : a ≠ y := fun heq => hyL (heq ▸ ha)
      simp [s', setBottom, hay, hx, Function.update_apply, eq_comm]
  · intro i hi
    -- The frame evicted has no links left, like all frames outside of the list.
    by_cases hiy : i = y
    · subst hiy
      simp [s', setBottom]
    · have hix : i ≠ x := fun heq => hi (heq ▸ hxL)
      have hold := h.unlinked i (by simp [hi, hiy])
      simp [s', setBottom, hiy, hix, hold]
  · simp [s', setBottom, hx]

/-- The globals hold no list yet: the first frame referenced becomes the bottom. -/
theorem ref_first (h : LruList s []) {x : Nat} (hx : (s.entry p).frameNo = x) :
    ∃ s', lruRef p s = .ok s' ∧ LruList s' [x] ∧ s'.alg.topNode = s.alg.topNode := by
  have hbottom : s.alg.bottomNode = none := h.bottom
  let s' := ((setBottom s (some x)).setAbove x none).setBelow x none
  have href : lruRef p s = .ok s' := by
    unfold lruRef
    simp only [hbottom, hx]
    rfl
  refine ⟨s', href, ⟨by simp, ?_, ?_, ?_⟩, rfl⟩
  · simp [s', setBottom]
  · intro i hi
    have hix : i ≠ x := by simpa using hi
    simp [s', setBottom, hix, h.unlinked i (by simp)]
  · rfl

/-- A single frame, with `top_node` not set: another frame becomes the top. -/
theorem ref_second {b x : Nat} (h : LruList s [b]) (htop : s.alg.topNode = none)
    (hx : (s.entry p).frameNo = x) (hne : x ≠ b) :
    ∃ s', lruRef p s = .ok s' ∧ LruList s' [x, b] ∧ s'.alg.topNode = some x := by
  have hbottom : s.alg.bottomNode = some b := h.bottom
  let s' := ((setTop s (some x)).setBelow x (some b)).setAbove b (some x)
  have href : lruRef p s = .ok s' := by
    unfold lruRef
    simp only [hbottom, htop, hx, if_pos hne]
    rfl
  have hlinks := h.unlinked x (by simpa using hne)
  obtain ⟨hb, hb', _⟩ := h.links
  refine ⟨s', href, ⟨by simpa using hne, ?_, ?_, ?_⟩, rfl⟩
  · refine ⟨?_, ?_, ?_, ?_, trivial⟩
    · simpa [s', setTop, hne] using hlinks.1
    · simp [s', setTop]
    · simp [s', setTop]
    · simpa [s', setTop, hne.symm] using hb'
  · intro i hi
    obtain ⟨hix, hib⟩ : i ≠ x ∧ i ≠ b := by simpa using hi
    simp [s', setTop, hix, hib, h.unlinked i (by simpa using hib)]
  · exact hbottom

/-- A single frame, with `top_node` not set: referencing it again changes nothing. -/
theorem ref_only {b : Nat} (h : LruList s [b]) (htop : s.alg.topNode = none)
    (hx : (s.entry p).frameNo = b) : lruRef p s = .ok s := by
  have hbottom : s.alg.bottomNode = some b := h.bottom
  unfold lruRef
  simp [hbottom, htop, hx]

/-- A frame outside of the list goes on top, even if the list is a single frame. -/
theorem ref_push {x top : Nat} (h : LruList s (top :: L)) (htop : s.alg.topNode = some top)
    (hx : (s.entry p).frameNo = x) (hmem : x ∉ top :: L) :
    ∃ s', lruRef p s = .ok s' ∧ LruList s' (x :: top :: L) ∧ s'.alg.topNode = some x := by
  obtain ⟨bottom, hbottom⟩ : ∃ b, s.alg.bottomNode = some b := by
    rw [h.bottom]
    exact ⟨_, List.getLast?_cons⟩
  obtain ⟨habove, hbelow⟩ := h.unlinked x hmem
  have hne : x ≠ top := fun heq => hmem (by simp [heq])
  let s' := setTop ((s.setAbove top (some x)).setBelow x (some top)) (some x)
  have href : lruRef p s = .ok s' := by
    unfold lruRef
    simp only [hbottom, htop, hx, habove, hbelow]
    rfl
  refine ⟨s', href, ⟨List.nodup_cons.mpr ⟨hmem, h.nodup⟩, ?_, ?_, ?_⟩, rfl⟩
  · apply h.links.push h.nodup
    · simp [s', setTop]
    · simp [s', setTop, hne, habove]
    · intro a ha
      have hax : a ≠ x := fun heq => hmem (heq ▸ ha)
      simp [s', setTop, hax]
    · intro a ha
      simp [s', setTop, Function.update_apply, eq_comm]
  · intro i hi
    obtain ⟨hix, hiL⟩ : i ≠ x ∧ i ∉ top :: L := by simpa using hi
    have hit : i ≠ top := fun heq => hiL (by simp [heq])
    simp [s', setTop, hix, hit, h.unlinked i hiL]
  · exact h.bottom.trans (by simp)

/-- The top frame stays where it is. -/
theorem ref_top {top : Nat} (h : LruList s (top :: L)) (htop : s.alg.topNode = some top)
    (hx : (s.entry p).frameNo = top) (hL : L ≠ []) : lruRef p s = .ok s := by
  obtain ⟨bottom, hbottom⟩ : ∃ b, s.alg.bottomNode = some b := by
    rw [h.bottom]
    exact ⟨_, List.getLast?_cons⟩
  obtain ⟨next, hnext⟩ := Option.isSome_iff_exists.mp (List.isSome_head?.mpr hL)
  obtain ⟨habove, hbelow, _⟩ := h.links
  rw [hnext, Option.some_or] at hbelow
  unfold lruRef
  simp [hbottom, htop, hx, habove, hbelow, need]

/-- The bottom frame goes to the top. -/
theorem ref_bottom {x top : Nat} (h : LruList s (top :: L ++ [x])) (htop : s.alg.topNode = some top)
    (hx : (s.entry p).frameNo = x) :
    ∃ s', lruRef p s = .ok s' ∧ LruList s' (x :: top :: L) ∧ s'.alg.topNode = some x := by
  have hbottom : s.alg.bottomNode = some x := h.bottom.trans List.getLast?_concat
  obtain ⟨parent, hparent⟩ : ∃ b, (top :: L).getLast? = some b := ⟨_, List.getLast?_cons⟩
  obtain ⟨hseg, hlast⟩ := segment_append.mp h.links
  have habove : s.above x = some parent := by rw [hlast.1, hparent]; rfl
  have hbelow : s.below x = none := hlast.2.1
  have hdisj := List.nodup_append.mp h.nodup
  have hmem : x ∉ top :: L := fun hm => hdisj.2.2 x hm x (by simp) rfl
  have hne : x ≠ top := fun heq => hmem (by simp [heq])
  have hpx : parent ≠ x := fun heq => hmem (heq ▸ List.mem_of_getLast? hparent)
  -- First the frame is cut off (`u`), then it goes on top.
  let u := (setBottom s (some parent)).setBelow parent none
  let s' := (setTop ((u.setAbove top (some x)).setBelow x (some top)) (some x)).setAbove x none
  have href : lruRef p s = .ok s' := by
    unfold lruRef
    simp only [hbottom, htop, hx, habove, hbelow]
    rfl
  have hu : Segment u.below u.above none (top :: L) none := by
    apply hseg.setAfter hdisj.1
    · intro a ha
      simp [u, setBottom]
    · intro a ha
      simp [u, setBottom, hparent, Function.update_apply, eq_comm]
  refine ⟨s', href, ⟨List.nodup_cons.mpr ⟨hmem, hdisj.1⟩, ?_, ?_, ?_⟩, rfl⟩
  · apply hu.push hdisj.1
    · simp [s', setTop]
    · simp [s', setTop]
    · intro a ha
      have hax : a ≠ x := fun heq => hmem (heq ▸ ha)
      simp [s', setTop, hax]
    · intro a ha
      have hax : a ≠ x := fun heq => hmem (heq ▸ ha)
      simp [s', setTop, hax, Function.update_apply, eq_comm]
  · intro i hi
    obtain ⟨hix, hiL⟩ : i ≠ x ∧ i ∉ top :: L := by simpa using hi
    have hit : i ≠ top := fun heq => hiL (by simp [heq])
    have hip : i ≠ parent := fun heq => hiL (heq ▸ List.mem_of_getLast? hparent)
    have hold := h.unlinked i (by simpa [hix] using hiL)
    simp [s', u, setTop, setBottom, hix, hit, hip, hold]
  · exact hparent.symm.trans (by simp)

/-- A frame from the middle goes to the top. -/
theorem ref_middle {x top after : Nat} {M : List Nat} (h : LruList s (top :: L ++ x :: after :: M))
    (htop : s.alg.topNode = some top) (hx : (s.entry p).frameNo = x) :
    ∃ s', lruRef p s = .ok s' ∧ LruList s' (x :: (top :: L ++ after :: M)) ∧
      s'.alg.topNode = some x := by
  obtain ⟨bottom, hbottom⟩ : ∃ b, s.alg.bottomNode = some b := by
    rw [h.bottom]
    exact ⟨_, List.getLast?_cons⟩
  obtain ⟨parent, hparent⟩ : ∃ b, (top :: L).getLast? = some b := ⟨_, List.getLast?_cons⟩
  obtain ⟨_, habove, hbelow, _⟩ := segment_append.mp h.links
  rw [hparent] at habove
  have hperm := h.nodup.perm List.perm_middle
  obtain ⟨hmem, hnodup⟩ := List.nodup_cons.mp hperm
  have hne : x ≠ top := fun heq => hmem (by simp [heq])
  have hxp : parent ∈ top :: L := List.mem_of_getLast? hparent
  -- First the frame is cut out (`u`), then it goes on top.
  let u := (s.setAbove after (some parent)).setBelow parent (some after)
  let s' := setTop (((u.setAbove top (some x)).setBelow x (some top)).setAbove x none) (some x)
  have href : lruRef p s = .ok s' := by
    unfold lruRef
    simp only [hbottom, htop, hx, habove, hbelow]
    rfl
  have hdisj := (List.nodup_append.mp hnodup).2.2
  have hu : Segment u.below u.above none (top :: L ++ after :: M) none := by
    apply h.links.remove h.nodup
    · intro a ha
      simp [u, hparent, Function.update_apply, eq_comm]
    · intro a ha
      have hne : a ≠ after := hdisj a ha after List.mem_cons_self
      simp [u, hne]
    · intro a ha
      have hne : a ≠ parent := (hdisj parent hxp a ha).symm
      simp [u, hne]
    · intro a ha
      simp [u, hparent, Function.update_apply, eq_comm]
  refine ⟨s', href, ⟨hperm, ?_, ?_, ?_⟩, rfl⟩
  · apply hu.push hnodup
    · simp [s', setTop]
    · simp [s', setTop]
    · intro a ha
      have hax : a ≠ x := fun heq => hmem (heq ▸ ha)
      simp [s', setTop, hax]
    · intro a ha
      have hax : a ≠ x := fun heq => hmem (heq ▸ ha)
      simp [s', setTop, hax, Function.update_apply, eq_comm]
  · intro i hi
    obtain ⟨hix, hiL⟩ : i ≠ x ∧ i ∉ top :: L ++ after :: M := by simpa using hi
    have hit : i ≠ top := fun heq => hiL (by simp [heq])
    have hip : i ≠ parent := fun heq => hiL (heq ▸ List.mem_append_left _ hxp)
    have hia : i ≠ after := fun heq => hiL (by simp [heq])
    have hold := h.unlinked i (by
      intro hm
      exact hi (List.perm_middle.mem_iff.mp hm))
    simp [s', u, setTop, hix, hit, hip, hia, hold]
  · apply h.bottom.trans
    simp [List.getLast?_append, List.getLast?_cons]

/-- What `top_node` is when the algorithm waits for the next access. -/
def topOf : List Nat → Option Nat
  | [] => none
  | [_] => none
  | top :: _ :: _ => some top

/-- `lru_ref` moves the frame of the page to the top. -/
theorem ref (h : LruList s L) (htop : s.alg.topNode = topOf L) {x : Nat}
    (hx : (s.entry p).frameNo = x) :
    ∃ s', lruRef p s = .ok s' ∧ LruList s' (x :: L.erase x) ∧
      s'.alg.topNode = topOf (x :: L.erase x) := by
  match L, h, htop with
  | [], h, htop =>
    obtain ⟨s', href, hs', htop'⟩ := h.ref_first hx
    exact ⟨s', href, hs', htop'.trans htop⟩
  | [b], h, htop =>
    by_cases hxb : x = b
    · subst hxb
      have herase : [x].erase x = [] := by simp
      rw [herase]
      exact ⟨s, h.ref_only htop hx, h, htop⟩
    · have herase : [b].erase x = [b] := List.erase_of_not_mem (by simpa using hxb)
      rw [herase]
      exact h.ref_second htop hx hxb
  | top :: c :: L, h, htop =>
    by_cases hmem : x ∈ top :: c :: L
    · cases List.mem_cons.mp hmem with
      | inl hxt =>
        subst hxt
        rw [List.erase_cons_head]
        exact ⟨s, h.ref_top htop hx (by simp), h, htop⟩
      | inr hxL =>
        have hne : top ≠ x := fun heq => (List.nodup_cons.mp h.nodup).1 (heq ▸ hxL)
        obtain ⟨A, B, hxA, heq, herase⟩ := List.exists_erase_eq hxL
        rw [List.erase_cons_tail (by simpa using hne), herase]
        rw [heq] at h
        cases B with
        | nil =>
          rw [List.append_nil]
          exact h.ref_bottom htop hx
        | cons after M => exact h.ref_middle htop hx
    · rw [List.erase_of_not_mem hmem]
      exact h.ref_push htop hx hmem

end LruList

/-! ## The order -/

/-- The frames in use, from the most to the least recently referenced one. -/
structure RecencyOrder (history : List PtePtr) (s : Sim LruNodes φ) (L : List Nat) : Prop where
  nodup : L.Nodup
  mem : ∀ i, i ∈ L ↔ (s.coremap i).inUse
  sorted : L.Pairwise fun i j => frameAge history s i < frameAge history s j

/-- Between accesses the list of the links has the frames in use in this order. -/
structure LruOrder (history : List PtePtr) (s : Sim LruNodes φ) (L : List Nat) : Prop where
  list : LruList s L
  top : s.alg.topNode = LruList.topOf L
  mem : ∀ i, i ∈ L ↔ (s.page i).isSome
  sorted : L.Pairwise fun i j => frameAge history s i < frameAge history s j

/-- A page that arrives in a frame is the newest one of all. -/
theorem Arrived.sorted {history : List PtePtr} (ht : Arrived p f s t) (hpage : s'.page = t.page)
    (hL : L.Pairwise fun i j => frameAge history s i < frameAge history s j) (hf : f ∉ L) :
    (f :: L).Pairwise fun i j =>
      frameAge (history ++ [p]) s' i < frameAge (history ++ [p]) s' j := by
  rw [frameAge_congr hpage]
  refine pairwise_lt_cons hL ?_ ht.frameAge_self
  intro j hj
  exact ht.frameAge_ne fun heq => hf (heq ▸ hj)

namespace LruOrder

variable {history : List PtePtr}

/-- A reference to a page that is in a frame, or has got a frame that was not in use. -/
theorem ref (h : LruOrder history s L) (ht : Arrived p f s t) :
    ∃ s', lruRef p t = .ok s' ∧ LruOrder (history ++ [p]) s' (f :: L.erase f) := by
  have hlist : LruList t L := h.list.congr ht.above ht.below ht.alg
  obtain ⟨s', href, hlist', htop'⟩ := hlist.ref (ht.alg ▸ h.top) ht.frameNo
  have hpage := (lruRef_policyStep href).page
  refine ⟨s', href, hlist', htop', ?_, ?_⟩
  · intro i
    rw [hpage, ht.inUse_iff, ← h.mem, List.mem_cons]
    by_cases hi : i = f
    · simp [hi]
    · rw [List.mem_erase_of_ne hi]
  · apply ht.sorted hpage (h.sorted.sublist List.erase_sublist)
    exact fun hf => (h.list.nodup.mem_erase_iff.mp hf).1 rfl

/-- The bottom of the list is evicted: the frame in use with the oldest page. -/
theorem evict (h : LruOrder history s L) (hM : Mapped none s) (hL : 2 ≤ L.length) :
    ∃ y L' s', L = L' ++ [y] ∧ lruEvict s = .ok (y, s') ∧ LruList s' L' ∧ L' ≠ [] ∧
      s'.alg.topNode = L'.head? := by
  obtain ⟨L', y, rfl⟩ : ∃ L' y, L = L' ++ [y] :=
    ⟨L.dropLast, L.getLast (by rintro rfl; simp at hL), (List.dropLast_concat_getLast _).symm⟩
  have hne : L' ≠ [] := by
    rintro rfl
    simp at hL
  obtain ⟨q, hq⟩ := Option.isSome_iff_exists.mp ((h.mem y).mp (by simp))
  have hframe := ((hM.backed y q (by simp)).mp hq).2
  obtain ⟨s', hevict, hlist, htop⟩ := h.list.evict hne (Mapped.inUse_of_page hq).2 hframe
  refine ⟨y, L', s', rfl, hevict, hlist, hne, ?_⟩
  rw [htop, h.top]
  match L', hne with
  | [a], _ => rfl
  | a :: b :: L', _ => rfl

/-- The frame just evicted comes back with its new page. -/
theorem ref_evicted {y : Nat} {s₁ : Sim LruNodes φ} (h : LruOrder history s (L ++ [y]))
    (hpages : s₁.page = s.page) (hlist : LruList s₁ L) (hL : L ≠ [])
    (htop : s₁.alg.topNode = L.head?) (ht : Arrived p y s₁ t) :
    ∃ s', lruRef p t = .ok s' ∧ LruOrder (history ++ [p]) s' (y :: L) := by
  obtain ⟨hnodup, _, hdisj⟩ := List.nodup_append.mp h.list.nodup
  have hy : y ∉ L := fun hy => hdisj y hy y (by simp) rfl
  obtain ⟨top, L', rfl⟩ := List.exists_cons_of_ne_nil hL
  obtain ⟨s', href, hlist', htop'⟩ :=
    (hlist.congr ht.above ht.below ht.alg).ref_push (ht.alg ▸ htop) ht.frameNo hy
  have hpage := (lruRef_policyStep href).page
  refine ⟨s', href, hlist', htop', ?_, ?_⟩
  · intro i
    have hold := h.mem i
    rw [hpage, ht.inUse_iff, hpages, ← hold]
    simp
    tauto
  · have hsorted := h.sorted.sublist (List.sublist_append_left (top :: L') [y])
    rw [← frameAge_congr hpages] at hsorted
    exact ht.sorted hpage hsorted hy

theorem recencyOrder (h : LruOrder history s L) (hM : Mapped none s) :
    RecencyOrder history s L :=
  ⟨h.list.nodup, fun i => (h.mem i).trans (hM.inUse_iff i).symm, h.sorted⟩

end LruOrder

/-! ## Runs -/

theorem two_le_length {a b : Nat} (ha : a ∈ L) (hb : b ∈ L) (hne : a ≠ b) : 2 ≤ L.length := by
  match L with
  | [] => cases ha
  | [c] =>
    rw [List.mem_singleton] at ha hb
    exact absurd (ha.trans hb.symm) hne
  | _ :: _ :: _ => simp

/-- When memory is full there are frames to evict from and one to stay. -/
theorem LruOrder.full {history : List PtePtr} (h : LruOrder history s L) (hM : Mapped none s)
    (hmem : 2 ≤ s.memsize) (hfree : findFree s = none) : 2 ≤ L.length := by
  have hall := findFree_eq_none.mp hfree
  refine two_le_length (a := 0) (b := 1) ?_ ?_ (by decide)
  · exact (h.mem 0).mpr ((hM.inUse_iff 0).mp (hall 0 (by omega)))
  · exact (h.mem 1).mpr ((hM.inUse_iff 1).mp (hall 1 (by omega)))

variable {history : List PtePtr} {vaddr : Addr}

theorem LruOrder.initSecondLevel (h : LruOrder history s L) (idx : Nat) :
    LruOrder history (Paging.initSecondLevel idx s) L where
  list := h.list.congr (by funext i; simp [Sim.above]) (by funext i; simp [Sim.below]) (by simp)
  top := by simpa using h.top
  mem i := by simpa [Sim.page] using h.mem i
  sorted := by simpa [frameAge, Sim.page] using h.sorted

/-! ### The pages of the list -/

/-- The pages of the list, when a page moves to the top. -/
theorem Arrived.map_page (ht : Arrived p f s t) (hf : f ∉ L) :
    (f :: L).map t.page = some p :: L.map s.page := by
  rw [List.map_cons, ht.page_self, ht.page]
  congr 1
  apply List.map_congr_left
  intro i hi
  have hne : i ≠ f := fun heq => hf (heq ▸ hi)
  exact Function.update_of_ne hne _ _

theorem LruOrder.length_le (h : LruOrder history s L) (hM : Mapped none s) :
    L.length ≤ s.memsize := by
  have hsub : L ⊆ List.range s.memsize := by
    intro i hi
    obtain ⟨q, hq⟩ := Option.isSome_iff_exists.mp ((h.mem i).mp hi)
    exact List.mem_range.mpr (hM.page_lt hq)
  simpa using (List.subperm_of_subset h.list.nodup hsub).length_le

/-- A frame that is not in the list leaves room in it. -/
theorem LruOrder.length_lt (h : LruOrder history s L) (hM : Mapped none s) (hf : f < s.memsize)
    (hfL : f ∉ L) : L.length < s.memsize := by
  have hsub : f :: L ⊆ List.range s.memsize := by
    intro i hi
    rcases List.mem_cons.mp hi with rfl | hi
    · exact List.mem_range.mpr hf
    · obtain ⟨q, hq⟩ := Option.isSome_iff_exists.mp ((h.mem i).mp hi)
      exact List.mem_range.mpr (hM.page_lt hq)
  have hle := (List.subperm_of_subset (List.nodup_cons.mpr ⟨hfL, h.list.nodup⟩) hsub).length_le
  rwa [List.length_cons, List.length_range] at hle

theorem LruOrder.length_eq (h : LruOrder history s L) (hM : Mapped none s)
    (hfree : findFree s = none) : L.length = s.memsize := by
  have hsub : List.range s.memsize ⊆ L := by
    intro i hi
    exact (h.mem i).mpr ((hM.inUse_iff i).mp
      (findFree_eq_none.mp hfree i (List.mem_range.mp hi)))
  have hle := (List.subperm_of_subset List.nodup_range hsub).length_le
  rw [List.length_range] at hle
  exact le_antisymm (h.length_le hM) hle

/-- The pages of the list are those in memory. -/
theorem LruOrder.mem_pages (h : LruOrder history s L) (hM : Mapped none s) {C : List PtePtr}
    (hC : L.map s.page = C.map some) : q ∈ C ↔ (s.entry q).valid := by
  have hmem : q ∈ C ↔ some q ∈ L.map s.page := by simp [hC]
  rw [hmem, hM.valid_iff, List.mem_map]
  constructor
  · rintro ⟨i, _, hi⟩
    exact ⟨i, hi⟩
  · rintro ⟨i, hi⟩
    exact ⟨i, (h.mem i).mpr (by rw [hi]; rfl), hi⟩

/-- Every access keeps the order, and does to the pages of the list what a use does to a cache. -/
theorem accessCases_lru (io : FileOps φ) (h : LruOrder history s L) (hM : Mapped none s)
    (hmem : 2 ≤ s.memsize) {C : List PtePtr} (hC : L.map s.page = C.map some) :
    AccessCases lru io vaddr (fun s' => ∃ L, LruOrder (history ++ [pteOf vaddr]) s' L ∧
      L.map s'.page = (LruStack.touchIn s.memsize C (pteOf vaddr)).map some) s where
  hit hvalid t ht _ := by
    obtain ⟨s', href, hs'⟩ := h.ref ht
    have hpage := hM.page_frameNo hvalid
    have hnotin : (s.entry (pteOf vaddr)).frameNo ∉ L.erase (s.entry (pteOf vaddr)).frameNo :=
      fun hf => (h.list.nodup.mem_erase_iff.mp hf).1 rfl
    have hlen : C.length ≤ s.memsize := by
      have hle := h.length_le hM
      rwa [← List.length_map (f := s.page), hC, List.length_map] at hle
    refine ⟨s', href, _, hs', ?_⟩
    rw [(lruRef_policyStep href).page, ht.map_page hnotin,
      LruStack.touchIn_of_mem ((h.mem_pages hM hC).mpr hvalid) hlen, List.map_cons,
      LruStack.map_erase_of_forall, hC, hpage, LruStack.map_erase_of_forall]
    · exact fun q _ hq => Option.some.inj hq
    · intro i _ hi
      exact hM.page_injective (hi.trans hpage) hpage
  free hvalid f t hfree ht _ := by
    obtain ⟨s', href, hs'⟩ := h.ref ht
    obtain ⟨hlt, hunused, _⟩ := findFree_eq_some.mp hfree
    have hnotin : f ∉ L := by
      rw [h.mem, ← hM.inUse_iff, hunused]
      simp
    have hlen : C.length < s.memsize := by
      have hle := h.length_lt hM hlt hnotin
      rwa [← List.length_map (f := s.page), hC, List.length_map] at hle
    rw [List.erase_of_not_mem hnotin] at hs'
    refine ⟨s', href, _, hs', ?_⟩
    rw [(lruRef_policyStep href).page, ht.map_page hnotin, hC, LruStack.touchIn_of_room ?_ hlen]
    · rfl
    · rw [h.mem_pages hM hC, hvalid]
      simp
  evict hvalid hfree := by
    have hM₀ := mapped_initSecondLevel hM (pgdirIndex vaddr)
    have h₀ := h.initSecondLevel (pgdirIndex vaddr)
    have hlen := h.length_eq hM hfree
    obtain ⟨y, L', s₁, rfl, hevict, hlist, hne, htop⟩ := h₀.evict hM₀ (h.full hM hmem hfree)
    have hpages := (lruEvict_policyStep hevict).page
    have hpages₁ : s₁.page = s.page := by
      rw [hpages]
      funext i
      simp [Sim.page]
    refine ⟨y, s₁, hevict, ?_, ?_⟩
    · obtain ⟨q, hq⟩ := Option.isSome_iff_exists.mp ((h.mem y).mp (by simp))
      exact hM.page_lt hq
    · intro t ht _
      obtain ⟨s', href, hs'⟩ := h₀.ref_evicted hpages hlist hne htop ht
      have hnotin : y ∉ L' := fun hy =>
        (List.nodup_append.mp h.list.nodup).2.2 y hy y (by simp) rfl
      refine ⟨s', href, _, hs', ?_⟩
      rw [← List.length_map (f := s.page), hC, List.length_map] at hlen
      have hpC : pteOf vaddr ∉ C := by
        rw [h.mem_pages hM hC, hvalid]
        simp
      -- The last page of the cache is the one in the bottom frame.
      rw [List.map_append] at hC
      obtain ⟨C', D, rfl, hC', hD⟩ := List.map_eq_append_iff.mp hC.symm
      obtain ⟨q, rfl, _⟩ := List.map_eq_singleton_iff.mp hD
      rw [(lruRef_policyStep href).page, ht.map_page hnotin, hpages₁, ← hC',
        LruStack.touchIn_of_full hpC hlen]
      rfl

/-- The list that the links show, from the second frame in use on. -/
theorem LruOrder.shown (h : LruOrder history s L) (hL : 2 ≤ L.length) :
    Follows s.below s.alg.topNode L ∧ Follows s.above s.alg.bottomNode L.reverse := by
  have htop : s.alg.topNode = L.head? := by
    rw [h.top]
    match L, hL with
    | _ :: _ :: _, _ => rfl
  rw [htop, h.list.bottom]
  exact ⟨h.list.links.follows, h.list.links.follows_reverse⟩

/-- What the globals show of the order. If two frames are in use, `frame_below` from the top and
`frame_above` from the bottom list the frames in use in order of their last references; and if an
access has to evict now, the frame chosen is the one whose page was referenced longest ago. -/
structure ExactLru (m : Nat) (history : List PtePtr) (s : Sim LruNodes φ) : Prop where
  list : (∃ i j, i ≠ j ∧ (s.coremap i).inUse ∧ (s.coremap j).inUse) →
    ∃ L, RecencyOrder history s L ∧ Follows s.below s.alg.topNode L ∧
      Follows s.above s.alg.bottomNode L.reverse
  victim : ∀ vaddr t, evictCall vaddr s = some t →
    ∃ i t', lruEvict t = .ok (i, t') ∧ i < m ∧ (t.coremap i).inUse ∧
      ∀ j, (t.coremap j).inUse → j ≠ i → frameAge history t j < frameAge history t i

theorem LruOrder.exact (h : LruOrder history s L) (hM : Mapped none s) (hmem : 2 ≤ s.memsize) :
    ExactLru s.memsize history s where
  list := by
    rintro ⟨i, j, hij, hi, hj⟩
    have horder := h.recencyOrder hM
    exact ⟨L, horder, h.shown (two_le_length ((horder.mem i).mpr hi) ((horder.mem j).mpr hj) hij)⟩
  victim vaddr t ht := by
    obtain ⟨⟨_, _, hfree⟩, rfl⟩ := evictCall_eq_some.mp ht
    have hM₀ := mapped_initSecondLevel hM (pgdirIndex vaddr)
    have h₀ := h.initSecondLevel (pgdirIndex vaddr)
    obtain ⟨y, L', t', rfl, hevict, _⟩ := h₀.evict hM₀ (h.full hM hmem hfree)
    have horder := h₀.recencyOrder hM₀
    have hy := (horder.mem y).mp (by simp)
    obtain ⟨q, hq⟩ := hM₀.page_of_inUse hy
    have hlt := hM₀.page_lt hq
    rw [Sim.memsize_initSecondLevel] at hlt
    refine ⟨y, t', hevict, hlt, hy, ?_⟩
    intro j hj hne
    have hjL : j ∈ L' := by simpa [hne] using (horder.mem j).mpr hj
    exact (List.pairwise_append.mp horder.sorted).2.2 j hjL y (by simp)

/-- Before the trace no frame is in use. -/
theorem lruOrder_zero {m : Nat} {bm : Bitmap} {physmem : Memory} {fd : φ} :
    LruOrder [] (lru.init (.zero m bm physmem fd .zero)) [] := by
  refine ⟨⟨List.nodup_nil, trivial, fun _ _ => ⟨rfl, rfl⟩, rfl⟩, rfl, ?_, .nil⟩
  intro i
  simp [Sim.page, Sim.zero, Frame.zero, lru]

theorem LruOrder.store (h : LruOrder history s L) (physmem : Memory) (stderr : List String) :
    LruOrder history { s with physmem := physmem, stderr := stderr } L :=
  ⟨h.list.congr rfl rfl rfl, h.top, h.mem, h.sorted⟩

/-- A run keeps the order and, in it, the cache of the pages referenced. -/
theorem simulate_lruOrder (io : FileOps φ) {m swapsize : Nat} (hm : 2 ≤ m ∧ m ≤ 2 ^ 20)
    (hswap : swapsize < 2 ^ 32) (physmem : Memory) (fd : φ) (trace : List Access) :
    (∃ s, simulate lru io m swapsize physmem fd .zero trace = .ok s ∧ Mapped none s ∧
      s.memsize = m ∧ ∃ L, LruOrder (references trace) s L ∧
        L.map s.page = (LruStack.cache m (references trace)).map some) ∨
    (simulate lru io m swapsize physmem fd .zero trace = .error .outOfBounds ∧
      ∃ a ∈ trace, ¬pgdirIndex a.vaddr < PTRS_PER_PGDIR) := by
  refine simulate_sound io (J := fun as s => ∃ L, LruOrder (references as) s L ∧
    L.map s.page = (LruStack.cache m (references as)).map some) physmem fd
    LruNodes.zero lru_respectful hm.2 hswap ?_ ?_ ?_ trace
  · exact fun bm _ _ => ⟨[], lruOrder_zero, rfl⟩
  · rintro as a s _ hM hmem ⟨L, hJ, hpages⟩ _
    rw [references_concat, LruStack.cache_concat, ← hmem]
    exact accessCases_lru io hJ hM (hmem ▸ hm.1) (hmem ▸ hpages)
  · rintro as s physmem stderr ⟨L, hJ, hpages⟩
    exact ⟨L, hJ.store physmem stderr, hpages⟩

/-- In a run over addresses of 36 bits the algorithm answers each of its calls. -/
theorem lru_answers (io : FileOps φ) {m swapsize : Nat} (hm : 2 ≤ m ∧ m ≤ 2 ^ 20)
    (hswap : swapsize < 2 ^ 32) (physmem : Memory) (fd : φ) {trace : List Access}
    (hrange : ∀ a ∈ trace, a.vaddr.toNat < 2 ^ 36) :
    (lru : Functions LruNodes φ).Answers io m swapsize physmem fd .zero trace := by
  obtain ⟨s, hs, _⟩ := ends_of_range hrange (simulate_lruOrder io hm hswap physmem fd trace)
  exact lru_respectful.answers_of_simulate hm.2 hswap ⟨s, hs⟩

/-- The algorithm is exact LRU in every state that a run gets to, and a run faults at most at an
address past the page directory. -/
theorem simulate_lru (io : FileOps φ) {m swapsize : Nat} (hm : 2 ≤ m ∧ m ≤ 2 ^ 20)
    (hswap : swapsize < 2 ^ 32) (physmem : Memory) (fd : φ) (trace : List Access) :
    (∃ s, simulate lru io m swapsize physmem fd .zero trace = .ok s ∧
      ExactLru m (references trace) s) ∨
    (simulate lru io m swapsize physmem fd .zero trace = .error .outOfBounds ∧
      ∃ a ∈ trace, ¬pgdirIndex a.vaddr < PTRS_PER_PGDIR) := by
  apply (simulate_lruOrder io hm hswap physmem fd trace).imp_left
  rintro ⟨s, hs, hM, hmem, L, hJ, _⟩
  exact ⟨s, hs, hmem ▸ hJ.exact hM (hmem ▸ hm.1)⟩

/-- Two frames: the first eviction leaves a list of a single frame, which the next reference
must not take for a frame outside of the list. -/
theorem simulate_lru_two :
    ∃ s, simulate lru regularFile.toFileOps 2 4 (fun _ => 0) .empty .zero
        [⟨'L', 0x1000⟩, ⟨'S', 0x2000⟩, ⟨'L', 0x1000⟩, ⟨'L', 0x3000⟩, ⟨'L', 0x3000⟩] = .ok s ∧
      ExactLru 2 (references [⟨'L', 0x1000⟩, ⟨'S', 0x2000⟩, ⟨'L', 0x1000⟩, ⟨'L', 0x3000⟩,
        ⟨'L', 0x3000⟩]) s :=
  (simulate_lru regularFile.toFileOps (by decide) (by decide) _ _ _).resolve_right
    fun ⟨_, a, ha, hdir⟩ => hdir ((by decide : ∀ a ∈ [Access.mk 'L' 0x1000, ⟨'S', 0x2000⟩,
      ⟨'L', 0x1000⟩, ⟨'L', 0x3000⟩, ⟨'L', 0x3000⟩], pgdirIndex a.vaddr < PTRS_PER_PGDIR) a ha)

end Paging

-- SUMMARY: Which bits the checker toggles, and when none of them is cleared.
import OperatingSystems.Ext2.Checker
import OperatingSystems.Ext2.Restoration

/-!
# Marks

For a number whose next one is free, the checker toggles the bit. It marks the number if the bit was
clear, and frees it otherwise. The walk over the blocks of an inode toggles one number after the other,
until one of them is out of the range of bitmaps.
-/

namespace Ext2

open Library Library.Process

variable {m : Memory} {s s' s₀ : State} {b : Bm} {sysBm n w a : Nat} {ns ws : List Nat} {inode : Inode}

/-! ## Toggling a single bit -/

/-- A single number is toggled, or the tool stops before that. It stops afterwards if the number is
not in the range of bitmaps. -/
theorem setNToggleBit_single (hsize : s.size ≤ 2 ^ 29 - 1) {setFlag : Nat} :
    Triple (· = s) (setNToggleBit b [n] setFlag)
      (fun _ s' => (9 ≤ n ∧ n ≤ 128) ∧ s'.disk = flip s.disk (s.bmap b).sysBm n ∧ Unmoved s s')
      fun _ s' => (s'.disk = s.disk ∧ (1 ≤ n → s.size ≤ (s.bmap b).sysBm + (n - 1) / 8) ∨
        1 ≤ n ∧ s'.disk = flip s.disk (s.bmap b).sysBm n) ∧ Unmoved s s' := by
  rintro s rfl
  have hlast : [n].getLast? = some n := rfl
  rw [setNToggleBit, hlast]
  dsimp only
  rw [run_get_bind]
  by_cases h0 : n = 0
  · subst h0
    have hfault : (toggleBits (s.bmap b).sysBm [0]).run s = .halted .fault s := by
      have hbyte : BYTE_INDEX 0 = 2 ^ 29 - 1 := rfl
      -- Unfolding both sides at once would compute with the index.
      have hout : ¬(s.bmap b).sysBm + BYTE_INDEX 0 < s.size := by omega
      rw [toggleBits, toggleBit, bind_halted (bind_halted (run_loadByte_fault hout))]
    rw [bind_halted hfault]
    exact ⟨.inl ⟨rfl, by omega⟩, .refl s⟩
  · have h1 : 1 ≤ n := by omega
    by_cases hin : (s.bmap b).sysBm + (n - 1) / 8 < s.size
    · have htoggle : (toggleBits (s.bmap b).sysBm [n]).run s =
          .done () { s with disk := flip s.disk (s.bmap b).sysBm n } :=
        run_toggleBits fun k hk => List.mem_singleton.mp hk ▸ ⟨h1, hin⟩
      rw [bind_done htoggle, BYTE_INDEX_eq h1]
      by_cases hrange : 1 ≤ (n - 1) / 8 ∧ (n - 1) / 8 ≤ 15
      · rw [if_pos hrange, run_modify_bind]
        have hupdate := @updateCursor_unmoved (flip s.disk (s.bmap b).sysBm n) s b
        refine hupdate.weaken (fun _ h => h) (fun _ _ h => ⟨by omega, h⟩)
          (fun _ _ h => ⟨.inr ⟨h1, h.1⟩, h.2⟩) _ ⟨State.disk_setBmap, ?_⟩
        exact Unmoved.disk.trans (.setBmap rfl)
      · rw [if_neg hrange, run_halt]
        exact ⟨.inr ⟨h1, rfl⟩, .disk⟩
    · have hfault : (toggleBits (s.bmap b).sysBm [n]).run s = .halted .fault s :=
        bind_halted (bind_halted (run_loadByte_fault (by rwa [BYTE_INDEX_eq h1])))
      rw [bind_halted hfault]
      exact ⟨.inl ⟨rfl, fun _ => by omega⟩, .refl s⟩

/-! ## Toggled bits -/

/-- A bit of none of the numbers stays as it is, wherever it is. -/
theorem getLsbD_flips_of_forall {i : Nat}
    (h : ∀ n ∈ ns, ¬(a = sysBm + (n - 1) / 8 ∧ i = (n - 1) % 8)) :
    (flips m sysBm ns a).getLsbD i = (m a).getLsbD i := by
  induction ns generalizing m with
  | nil => rfl
  | cons n ns ih =>
    rw [flips_cons, ih fun n' hn' => h n' (List.mem_cons_of_mem _ hn'), getLsbD_flip,
      decide_eq_false (h n List.mem_cons_self), Bool.xor_false]

theorem used_flips_of_not_mem (hpos : ∀ k ∈ ns, 1 ≤ k) (hn : 1 ≤ n) (h : n ∉ ns) :
    used (flips m sysBm ns) sysBm n = used m sysBm n := by
  refine getLsbD_flips_of_forall fun k hk heq => ?_
  have hk1 := hpos k hk
  have hkn : n = k := by omega
  exact h (hkn ▸ hk)

theorem used_flip (hw : 1 ≤ w) (hn : 1 ≤ n) :
    used (flip m sysBm w) sysBm n = (used m sysBm n ^^ decide (n = w)) := by
  have h := @used_flips m sysBm n [w] (List.nodup_singleton w) (by simpa using hw) hn
  simpa using h

/-! ## The walk over the blocks of an inode -/

/-- The number that the walk comes to next, if it can be read. -/
def MarkWalk.numAt (m : Memory) (size : Nat) (inode : Inode) (w : MarkWalk) : Option Nat :=
  if w.iBlockIndex = INDIRECT_BLK_INDEX then
    let table := inode.iBlock.getD INDIRECT_BLK_INDEX 0
    if table ≠ 0 ∧ blockAddrU table + 4 * w.indirectBlockIndex + 4 ≤ size then
      some (word m 4 (blockAddrU table + 4 * w.indirectBlockIndex))
    else none
  else inode.iBlock[w.iBlockIndex]?

/-- The walk at the next number. -/
def MarkWalk.at (w : MarkWalk) (v : Nat) : MarkWalk :=
  if w.iBlockIndex = INDIRECT_BLK_INDEX then
    { w with blockNum := v, indirectBlockIndex := w.indirectBlockIndex + 1 }
  else { w with blockNum := v, iBlockIndex := w.iBlockIndex + 1 }

@[simp] theorem blockNum_at {w : MarkWalk} {v : Nat} : (w.at v).blockNum = v := by
  rw [MarkWalk.at]
  split <;> rfl

@[simp] theorem blockCount_at {w : MarkWalk} {v : Nat} : (w.at v).blockCount = w.blockCount := by
  rw [MarkWalk.at]
  split <;> rfl

/-- The numbers that the walk comes to, up to the first zero: those of the direct blocks, and then those
in the indirect table. -/
def numsFrom (m : Memory) (size : Nat) (inode : Inode) : Nat → MarkWalk → List Nat
  | 0, _ => []
  | fuel + 1, w =>
    if w.blockNum = 0 then []
    else match w.numAt m size inode with
      | none => []
      | some v => if v = 0 then [] else v :: numsFrom m size inode fuel (w.at v)

/-- The walk comes to a zero at last. -/
def EndsFrom (m : Memory) (size : Nat) (inode : Inode) : Nat → MarkWalk → Prop
  | 0, _ => False
  | fuel + 1, w =>
    if w.blockNum = 0 then True
    else match w.numAt m size inode with
      | none => False
      | some v => EndsFrom m size inode fuel (w.at v)

/-- The walk at the first block of an inode. -/
def MarkWalk.start (inode : Inode) : MarkWalk :=
  { iBlockIndex := 0, indirectBlockIndex := 0, blockNum := inode.iBlock.getD 0 0, blockCount := 0 }

theorem at_blockCount {w : MarkWalk} {v k : Nat} :
    MarkWalk.at { w with blockCount := k } v = { w.at v with blockCount := k } := by
  rw [MarkWalk.at, MarkWalk.at]
  split <;> rfl

theorem numsFrom_blockCount {size fuel k : Nat} {w : MarkWalk} :
    numsFrom m size inode fuel { w with blockCount := k } = numsFrom m size inode fuel w := by
  induction fuel generalizing w with
  | zero => rfl
  | succ fuel ih =>
    simp only [numsFrom, at_blockCount, ih]
    rfl

theorem endsFrom_blockCount {size fuel k : Nat} {w : MarkWalk} :
    EndsFrom m size inode fuel { w with blockCount := k } ↔ EndsFrom m size inode fuel w := by
  induction fuel generalizing w with
  | zero => rfl
  | succ fuel ih =>
    simp only [EndsFrom, at_blockCount, ih]
    rfl

/-- Of the numbers on a walk, those that the checker toggles: the next number is free at that point.
It goes no further than the first number out of range. -/
def toggledBy (m : Memory) (sysBm : Nat) : List Nat → List Nat
  | [] => []
  | w :: ws =>
    if used m sysBm (w + 1) then toggledBy m sysBm ws
    else w :: if 9 ≤ w ∧ w ≤ 128 then toggledBy (flip m sysBm w) sysBm ws else []

theorem mem_of_mem_toggledBy (h : n ∈ toggledBy m sysBm ws) : n ∈ ws := by
  induction ws generalizing m with
  | nil => exact h
  | cons w ws ih =>
    rw [toggledBy] at h
    split at h
    · exact List.mem_cons_of_mem _ (ih h)
    · cases List.mem_cons.mp h with
      | inl heq => exact heq ▸ List.mem_cons_self
      | inr hin =>
        split at hin
        · exact List.mem_cons_of_mem _ (ih hin)
        · cases hin

theorem pos_of_mem_numsFrom {size fuel : Nat} {w : MarkWalk} (h : n ∈ numsFrom m size inode fuel w) :
    1 ≤ n := by
  induction fuel generalizing w with
  | zero => cases h
  | succ fuel ih =>
    rw [numsFrom] at h
    split at h
    · cases h
    · split at h
      · cases h
      · split at h
        · cases h
        · cases List.mem_cons.mp h with
          | inl heq => omega
          | inr hin => exact ih hin

theorem run_next (w : MarkWalk) : (w.next inode).run s =
    match w.numAt s.disk s.size inode with
    | none => .halted .fault s
    | some v => .done (w.at v) s := by
  rw [MarkWalk.next, MarkWalk.numAt]
  by_cases h : w.iBlockIndex = INDIRECT_BLK_INDEX
  · simp only [if_pos h]
    rw [iBlockAt, List.getD_eq_getElem?_getD]
    cases htable : inode.iBlock[INDIRECT_BLK_INDEX]? with
    | none => rfl
    | some table =>
      rw [Process.pure_bind, Option.getD_some]
      by_cases h0 : table = 0
      · rw [if_pos h0, if_neg (by simp [h0])]
        rfl
      · rw [if_neg h0]
        by_cases hin : blockAddrU table + 4 * w.indirectBlockIndex + 4 ≤ s.size
        · rw [if_pos ⟨h0, hin⟩, run_loadWord_bind hin]
          simp only [MarkWalk.at, if_pos h]
          rfl
        · rw [if_neg (by tauto), bind_halted (run_loadWord_fault hin)]
  · simp only [if_neg h]
    rw [iBlockAt]
    cases inode.iBlock[w.iBlockIndex]? with
    | none => rfl
    | some v =>
      simp only [MarkWalk.at, if_neg h]
      rfl

/-- The loop over the blocks of an inode, with the number that the walk is at looked up. -/
theorem loop_markRound {fuel : Nat} {w : MarkWalk} (h0 : w.blockNum ≠ 0) :
    (loop .diverges (markRound inode) (fuel + 1) w).run s =
      match w.numAt s.disk s.size inode with
      | none => .halted .fault s
      | some v => (checkBit s.blkBmap v >>= fun u =>
          if u then loop .diverges (markRound inode) fuel (w.at v)
          else setNToggleBit .blk [v] 1 >>= fun _ => loop .diverges (markRound inode) fuel
            { w.at v with blockCount := (w.at v).blockCount + 1 }).run s := by
  have hnext := @run_next s inode w
  cases hv : w.numAt s.disk s.size inode with
  | none =>
    rw [hv] at hnext
    refine loop_of_halted ?_
    rw [markRound, if_pos h0, bind_halted hnext]
  | some v =>
    rw [hv] at hnext
    have hround : (markRound inode w).run s =
        (checkBit s.blkBmap v >>= fun u => if u then pure (.next (w.at v)) else do
          setNToggleBit .blk [v] 1
          pure (.next { w.at v with blockCount := (w.at v).blockCount + 1 })).run s := by
      rw [markRound, if_pos h0, bind_done hnext, run_get_bind]
      simp only [blockNum_at]
    dsimp only
    cases htest : (checkBit s.blkBmap v).run s with
    | halted e s₁ =>
      rw [bind_halted htest] at hround ⊢
      exact loop_of_halted hround
    | done u s₁ =>
      rw [bind_done htest] at hround ⊢
      cases u with
      | true => exact loop_of_next hround
      | false =>
        rw [if_neg (by decide)] at hround ⊢
        cases htoggle : (setNToggleBit .blk [v] 1).run s₁ with
        | halted e s₂ =>
          rw [bind_halted htoggle] at hround ⊢
          exact loop_of_halted hround
        | done _ s₂ =>
          rw [bind_done htoggle] at hround ⊢
          exact loop_of_next hround

theorem numAt_congr {size : Nat} {w : MarkWalk} {m' : Memory}
    (htable : inode.iBlock.getD INDIRECT_BLK_INDEX 0 ≠ 0 →
      a ≤ blockAddrU (inode.iBlock.getD INDIRECT_BLK_INDEX 0))
    (hm : ∀ j, a ≤ j → m' j = m j) : w.numAt m' size inode = w.numAt m size inode := by
  rw [MarkWalk.numAt, MarkWalk.numAt]
  by_cases hi : w.iBlockIndex = INDIRECT_BLK_INDEX
  · rw [if_pos hi, if_pos hi]
    dsimp only
    by_cases h : inode.iBlock.getD INDIRECT_BLK_INDEX 0 ≠ 0 ∧
        blockAddrU (inode.iBlock.getD INDIRECT_BLK_INDEX 0) + 4 * w.indirectBlockIndex + 4 ≤ size
    · have ha := htable h.1
      rw [if_pos h, if_pos h, word_congr fun j h1 h2 => hm j (by omega)]
    · rw [if_neg h, if_neg h]
  · rw [if_neg hi, if_neg hi]

theorem checkBit_done {bm : Bitmap} {v : Nat} {u : Bool} (h : (checkBit bm v).run s = .done u s') :
    u = used s.disk bm.sysBm (v + 1) ∧ s' = s := by
  obtain ⟨byte, s₁, hload, hpure⟩ := bind_eq_done.mp h
  obtain ⟨_, rfl, rfl⟩ := loadByte_done hload
  cases hpure
  exact ⟨rfl, rfl⟩

/-- What the walks on a state rely on: the mapping is not too large, the first number of the bitmap is
in use, and what the walk reads of an indirect table is behind the bitmap. -/
structure Walkable (m : Memory) (inode : Inode) (s : State) : Prop where
  size : s.size ≤ 2 ^ 29 - 1
  one : s.used .blk 1 = true
  table : inode.iBlock.getD INDIRECT_BLK_INDEX 0 ≠ 0 →
    s.blkBmap.sysBm + 16 ≤ blockAddrU (inode.iBlock.getD INDIRECT_BLK_INDEX 0)
  disk : ∀ j, s.blkBmap.sysBm + 16 ≤ j → s.disk j = m j

theorem Walkable.numAt (h : Walkable m inode s) {w : MarkWalk} :
    w.numAt s.disk s.size inode = w.numAt m s.size inode := numAt_congr h.table h.disk

/-- Toggling a number in the range keeps this. -/
theorem Walkable.flip (h : Walkable m inode s) (hn : 2 ≤ n ∧ n ≤ 128)
    (hdisk : s'.disk = flip s.disk s.blkBmap.sysBm n) (hs : Unmoved s s') : Walkable m inode s' := by
  have hsysBm : s'.blkBmap.sysBm = s.blkBmap.sysBm := hs.sysBm .blk
  refine ⟨by rw [hs.size]; exact h.size, ?_, by rw [hsysBm]; exact h.table, ?_⟩
  · change used s'.disk s'.blkBmap.sysBm 1 = true
    rw [hsysBm, hdisk, used_flip (by omega) le_rfl, decide_eq_false (by omega), Bool.xor_false]
    exact h.one
  · intro j hj
    rw [hsysBm] at hj
    rw [hdisk, ← h.disk j hj]
    refine Function.update_of_ne ?_ _ _
    omega

/-- What the loop of `check_data_block_bitmap` does to the disk: if it ends, it has toggled and counted
all the numbers it is to toggle, and otherwise it has toggled the first ones of them. -/
theorem markLoop_run {fuel : Nat} {w : MarkWalk} (h : Walkable m inode s) :
    Triple (· = s) (loop .diverges (markRound inode) fuel w)
      (fun r s' => EndsFrom m s.size inode fuel w ∧
        (r = w.blockCount + (toggledBy s.disk s.blkBmap.sysBm (numsFrom m s.size inode fuel w)).length ∧
          ∀ n ∈ toggledBy s.disk s.blkBmap.sysBm (numsFrom m s.size inode fuel w), 9 ≤ n ∧ n ≤ 128) ∧
        s'.disk = flips s.disk s.blkBmap.sysBm
          (toggledBy s.disk s.blkBmap.sysBm (numsFrom m s.size inode fuel w)) ∧ Unmoved s s')
      fun _ s' => (∃ ns, ns <+: toggledBy s.disk s.blkBmap.sysBm (numsFrom m s.size inode fuel w) ∧
        s'.disk = flips s.disk s.blkBmap.sysBm ns) ∧ Unmoved s s' := by
  induction fuel generalizing s w with
  | zero =>
    refine .halt ?_
    rintro _ rfl
    exact ⟨⟨[], List.nil_prefix, rfl⟩, .refl _⟩
  | succ fuel ih =>
    rintro s rfl
    rw [numsFrom, EndsFrom]
    by_cases h0 : w.blockNum = 0
    · have hstop : (markRound inode w).run s = .done (.stop w.blockCount) s := by
        rw [markRound, if_neg (not_not.mpr h0), run_pure]
      rw [loop_of_stop hstop, if_pos h0, if_pos h0]
      exact ⟨trivial, ⟨rfl, fun n hn => absurd hn List.not_mem_nil⟩, rfl, .refl s⟩
    rw [loop_markRound h0, if_neg h0, if_neg h0, h.numAt]
    cases hv : w.numAt m s.size inode with
    | none => exact ⟨⟨[], List.nil_prefix, rfl⟩, .refl s⟩
    | some v =>
      dsimp only
      cases htest : (checkBit s.blkBmap v).run s with
      | halted e s₁ =>
        rw [bind_halted htest]
        obtain rfl := (readOnly_checkBit _ _).of_halted htest
        exact ⟨⟨[], List.nil_prefix, rfl⟩, .refl _⟩
      | done u s₁ =>
        rw [bind_done htest]
        obtain ⟨hused, rfl⟩ := checkBit_done htest
        by_cases hv0 : v = 0
        · -- The bit tested for a zero is that of the first number.
          have hu : u = true := by
            rw [hused, hv0]
            exact h.one
          have hnil : numsFrom m s₁.size inode fuel (w.at v) = [] := by
            cases fuel with
            | zero => rfl
            | succ fuel => rw [numsFrom, if_pos (by rw [blockNum_at, hv0])]
          have hrec := ih (w := w.at v) h s₁ rfl
          rw [hnil, blockCount_at] at hrec
          rw [if_pos hu, if_pos hv0]
          exact hrec
        · rw [if_neg hv0, toggledBy, ← hused]
          cases u with
          | true =>
            have hrec := ih (w := w.at v) h s₁ rfl
            rw [blockCount_at] at hrec
            rw [if_pos rfl, if_pos rfl]
            exact hrec
          | false =>
            rw [if_neg (by decide), if_neg (by decide)]
            have hsingle := @setNToggleBit_single _ .blk v h.size 1
            cases htoggle : (setNToggleBit .blk [v] 1).run s₁ with
            | halted e s₂ =>
              rw [bind_halted htoggle]
              obtain ⟨hdisk, hs₂⟩ := hsingle.of_halted rfl htoggle
              refine ⟨?_, hs₂⟩
              cases hdisk with
              | inl hsame => exact ⟨[], List.nil_prefix, hsame.1⟩
              | inr hflip => exact ⟨[v], (List.prefix_cons_inj v).mpr List.nil_prefix, hflip.2⟩
            | done _ s₂ =>
              rw [bind_done htoggle]
              obtain ⟨hrange, hdisk, hs₂⟩ := hsingle.of_done rfl htoggle
              have hdisk' : s₂.disk = flip s₁.disk s₁.blkBmap.sysBm v := hdisk
              have hsysBm : s₂.blkBmap.sysBm = s₁.blkBmap.sysBm := hs₂.sysBm .blk
              have hrec := ih (w := { w.at v with blockCount := (w.at v).blockCount + 1 })
                (h.flip (by omega) hdisk' hs₂)
              rw [hsysBm, hdisk', hs₂.size, numsFrom_blockCount, endsFrom_blockCount] at hrec
              rw [if_pos hrange]
              refine hrec.weaken (fun _ h => h)
                (fun r s' h => ⟨h.1, ⟨?_, List.forall_mem_cons.mpr ⟨hrange, h.2.1.2⟩⟩, h.2.2.1, hs₂.trans h.2.2.2⟩)
                (fun _ s' h => ⟨?_, hs₂.trans h.2⟩) s₂ rfl
              · have hcount := h.2.1.1
                dsimp only at hcount
                rw [hcount, blockCount_at, List.length_cons]
                omega
              · obtain ⟨⟨ns, hprefix, hns⟩, _⟩ := h
                exact ⟨v :: ns, (List.prefix_cons_inj v).mpr hprefix, hns⟩

/-! ## Walks over numbers of the bitmap -/

theorem Unmoved.used (h : Unmoved s s') : s'.used b n = Ext2.used s'.disk (s.bmap b).sysBm n := by
  rw [State.used, h.sysBm b]

/-- The numbers in use once the bit of one of them has been toggled. -/
theorem Unmoved.used_flip {v : Nat} (h : Unmoved s s')
    (hdisk : s'.disk = flip s.disk s.blkBmap.sysBm v) (hv : 1 ≤ v) (hn : 1 ≤ n) :
    s'.used .blk n = (s.used .blk n ^^ decide (n = v)) := by
  rw [h.used, hdisk]
  exact Ext2.used_flip hv hn

/-- Once the bit of a number has been toggled, it stays clear on the rest of the walk. -/
theorem state_markLoop_of_not_mem {fuel : Nat} {w : MarkWalk} (h : Walkable m inode s) (hn : 1 ≤ n)
    (hout : n ∉ numsFrom m s.size inode fuel w) :
    ((loop .diverges (markRound inode) fuel w).run s).state.used .blk n = s.used .blk n := by
  have hkeep : ∀ ns s', (∀ k ∈ ns, k ∈ toggledBy s.disk s.blkBmap.sysBm (numsFrom m s.size inode fuel w)) →
      s'.disk = flips s.disk s.blkBmap.sysBm ns → Unmoved s s' → s'.used .blk n = s.used .blk n := by
    intro ns s' hsub hdisk hs
    rw [hs.used, hdisk]
    refine used_flips_of_not_mem (fun k hk => ?_) hn fun hin => hout (mem_of_mem_toggledBy (hsub n hin))
    exact pos_of_mem_numsFrom (mem_of_mem_toggledBy (hsub k hk))
  have hrun := @markLoop_run _ _ _ fuel w h
  cases hloop : (loop .diverges (markRound inode) fuel w).run s with
  | done r s' =>
    obtain ⟨_, _, hdisk, hs⟩ := hrun.of_done rfl hloop
    exact hkeep _ s' (fun k hk => hk) hdisk hs
  | halted e s' =>
    obtain ⟨⟨ns, hprefix, hdisk⟩, hs⟩ := hrun.of_halted rfl hloop
    exact hkeep ns s' (fun k hk => hprefix.subset hk) hdisk hs

/-- A number in use whose bit is toggled is free after the rest of the walk. -/
theorem markLoop_frees {fuel v : Nat} {w : MarkWalk} (h : Walkable m inode s) (hv : 2 ≤ v ∧ v ≤ 128)
    (hroom : s.blkBmap.sysBm + 17 ≤ s.size) (hvu : s.used .blk v = true)
    (hout : v ∉ numsFrom m s.size inode fuel w) :
    ((setNToggleBit .blk [v] 1 >>= fun _ => loop .diverges (markRound inode) fuel w).run s).state.used
      .blk v = false := by
  have hclear : ∀ s₂, s₂.disk = flip s.disk s.blkBmap.sysBm v → Unmoved s s₂ →
      s₂.used .blk v = false := by
    intro s₂ hdisk hs₂
    rw [hs₂.used_flip hdisk (by omega) (by omega), hvu, decide_eq_true rfl]
    rfl
  have hsingle := @setNToggleBit_single _ .blk v h.size 1
  cases htoggle : (setNToggleBit .blk [v] 1).run s with
  | halted e s₂ =>
    rw [bind_halted htoggle]
    obtain ⟨hdisk, hs₂⟩ := hsingle.of_halted rfl htoggle
    cases hdisk with
    | inl hsame =>
      have hfar := hsame.2 (by omega)
      have hsysBm : (s.bmap .blk).sysBm = s.blkBmap.sysBm := rfl
      omega
    | inr hflip => exact hclear s₂ hflip.2 hs₂
  | done _ s₂ =>
    rw [bind_done htoggle]
    obtain ⟨_, hdisk, hs₂⟩ := hsingle.of_done rfl htoggle
    rw [state_markLoop_of_not_mem (h.flip hv hdisk hs₂) (by omega) (by rwa [hs₂.size])]
    exact hclear s₂ hdisk hs₂

/-- If the bitmap is in order and the numbers are distinct numbers of it, then either one of them was in
use and is freed, or all that are toggled are free, and the walk ends if it comes to a zero. -/
theorem markLoop_valid {fuel N : Nat} {w : MarkWalk} (h : Walkable m inode s) (hN : N ≤ 128)
    (hroom : s.blkBmap.sysBm + 17 ≤ s.size) (hgood : Good N .blk s)
    (hrange : ∀ n ∈ numsFrom m s.size inode fuel w, 11 ≤ n ∧ n ≤ N)
    (hnodup : (numsFrom m s.size inode fuel w).Nodup) :
    (∃ n ∈ numsFrom m s.size inode fuel w, s.used .blk n = true ∧
      ((loop .diverges (markRound inode) fuel w).run s).state.used .blk n = false) ∨
    ((∀ n ∈ toggledBy s.disk s.blkBmap.sysBm (numsFrom m s.size inode fuel w), s.used .blk n = false) ∧
      (EndsFrom m s.size inode fuel w →
        ∃ r s', (loop .diverges (markRound inode) fuel w).run s = .done r s')) := by
  induction fuel generalizing s w with
  | zero => exact .inr ⟨by simp [numsFrom, toggledBy], False.elim⟩
  | succ fuel ih =>
    by_cases h0 : w.blockNum = 0
    · right
      have hstop : (markRound inode w).run s = .done (.stop w.blockCount) s := by
        rw [markRound, if_neg (not_not.mpr h0), run_pure]
      refine ⟨by simp [numsFrom, h0, toggledBy], fun _ => ⟨_, s, loop_of_stop hstop⟩⟩
    rw [loop_markRound h0, h.numAt]
    rw [numsFrom, if_neg h0] at hrange hnodup ⊢
    rw [EndsFrom, if_neg h0]
    cases hv : w.numAt m s.size inode with
    | none => exact .inr ⟨by simp [toggledBy], False.elim⟩
    | some v =>
      rw [hv] at hrange hnodup
      dsimp only at hrange hnodup ⊢
      have hmapped : v ≤ 128 → (checkBit s.blkBmap v).run s = .done (s.used .blk (v + 1)) s := fun hle =>
        run_testBit_pos (b := .blk) (by
          have : (s.bmap .blk).sysBm = s.blkBmap.sysBm := rfl
          omega)
      by_cases hv0 : v = 0
      · rw [bind_done (hmapped (by omega)), hv0, h.one, if_pos rfl, if_pos rfl]
        have hnil : numsFrom m s.size inode fuel (w.at 0) = [] := by
          cases fuel with
          | zero => rfl
          | succ fuel => rw [numsFrom, if_pos blockNum_at]
        have hrec := ih (w := w.at 0) h hroom hgood (by simp [hnil]) (by simp [hnil])
        rwa [hnil] at hrec
      · rw [if_neg hv0] at hrange hnodup ⊢
        obtain ⟨hnot, hnodup'⟩ := List.nodup_cons.mp hnodup
        obtain ⟨h11, hvN⟩ := hrange v List.mem_cons_self
        have hrange' := fun n hn => hrange n (List.mem_cons_of_mem _ hn)
        rw [bind_done (hmapped (by omega)), toggledBy]
        have hnext : Ext2.used s.disk s.blkBmap.sysBm (v + 1) = s.used .blk (v + 1) := rfl
        rw [hnext]
        cases hu : s.used .blk (v + 1) with
        | true =>
          rw [if_pos rfl, if_pos rfl]
          rcases ih (w := w.at v) h hroom hgood hrange' hnodup' with ⟨n, hn, hfreed⟩ | hfine
          · exact .inl ⟨n, List.mem_cons_of_mem _ hn, hfreed⟩
          · exact .inr hfine
        | false =>
          rw [if_neg (by decide), if_neg (by decide), if_pos (by omega)]
          cases hvu : s.used .blk v with
          | true =>
            -- The bit is cleared, and stays so.
            exact .inl ⟨v, List.mem_cons_self, hvu,
              markLoop_frees h (by omega) hroom hvu (by rwa [numsFrom_blockCount])⟩
          | false =>
            have hsysBm : (s.bmap .blk).sysBm = s.blkBmap.sysBm := rfl
            have htoggle := @run_setNToggleBit N [v] s .blk 1 hN
              (by rw [Mapped, hsysBm]; omega) hgood (by simp) (by simp) (by simpa using ⟨h11, hvN⟩) (.inr rfl)
              (by simpa using hvu)
            have hs₂ : Unmoved s (s.toggled .blk N [v]) := .toggled
            have hdisk : (s.toggled .blk N [v]).disk = flip s.disk s.blkBmap.sysBm v := disk_toggled
            have hused : ∀ n, 1 ≤ n → n ≠ v → (s.toggled .blk N [v]).used .blk n = s.used .blk n := by
              intro n hn hne
              rw [hs₂.used_flip hdisk (by omega) hn, decide_eq_false hne, Bool.xor_false]
            have hrec := ih (w := { w.at v with blockCount := (w.at v).blockCount + 1 })
              (h.flip (by omega) hdisk hs₂) (by rw [hs₂.size]; exact (hs₂.sysBm .blk).symm ▸ hroom)
              (hgood.toggled (by simp) (by simpa using h11))
            rw [hs₂.size, numsFrom_blockCount, endsFrom_blockCount] at hrec
            rw [bind_done htoggle]
            rcases hrec hrange' hnodup' with ⟨n, hn, hnu, hfreed⟩ | ⟨hfree, hends⟩
            · refine .inl ⟨n, List.mem_cons_of_mem _ hn, ?_, hfreed⟩
              have h11n := (hrange' n hn).1
              rwa [hused n (by omega) fun heq => hnot (heq ▸ hn)] at hnu
            · refine .inr ⟨fun n hn => ?_, hends⟩
              cases List.mem_cons.mp hn with
              | inl heq => rwa [heq]
              | inr hin =>
                have hin' : n ∈ toggledBy (s.toggled .blk N [v]).disk (s.toggled .blk N [v]).blkBmap.sysBm
                    (numsFrom m s.size inode fuel (w.at v)) := by
                  rw [hdisk]
                  exact (hs₂.sysBm .blk).symm ▸ hin
                have hmem := mem_of_mem_toggledBy hin
                have h11n := (hrange' n hmem).1
                rw [← hused n (by omega) fun heq => hnot (heq ▸ hmem)]
                exact hfree n hin'

/-! ## The inode of an entry -/

variable {dirEnt inodeNum : Nat}

theorem word_run (hentry : dirEnt + 4 ≤ s.size) (hnum : inodeNum = word s.disk 4 dirEnt) :
    (loadWord 4 dirEnt).run s = .done inodeNum s := by
  rw [run_loadWord hentry, hnum]

/-- Above the group descriptor, the disk is the one with the bit of a number toggled. -/
def FlippedAbove (b : Bm) (n : Nat) (s s' : State) : Prop :=
  Unmoved s s' ∧ ∀ j, 3 * EXT2_BLOCK_SIZE ≤ j → s'.disk j = flip s.disk (s.bmap b).sysBm n j

theorem flippedAbove_storeWord {v : Nat} (ha : a + w ≤ 3 * EXT2_BLOCK_SIZE) :
    Triple (FlippedAbove b n s) (storeWord w a v) (fun _ => FlippedAbove b n s)
      fun _ => FlippedAbove b n s := by
  refine .of_state fun s' h => ?_
  by_cases hin : a + w ≤ s'.size
  · rw [run_storeWord hin]
    refine ⟨h.1.trans .disk, fun j hj => ?_⟩
    change Memory.store s'.disk a (leBytes w v) j = _
    rw [Memory.store_of_le (by rw [length_leBytes]; omega), h.2 j hj]
  · rw [storeWord, run_storeBytes_fault (by rwa [length_leBytes])]
    exact h

theorem checkBit_run {bm : Bitmap} {v : Nat} (h : bm.sysBm + v / 8 < s.size) :
    (checkBit bm v).run s = .done (used s.disk bm.sysBm (v + 1)) s := by
  rw [checkBit, testBit, bind_done (run_loadByte h)]
  rfl

/-- If the next number is in use, nothing happens. -/
theorem run_checkInodeBitmap (hentry : dirEnt + 4 ≤ s.size) (hnum : inodeNum = word s.disk 4 dirEnt)
    (hmapped : s.indBmap.sysBm + inodeNum / 8 < s.size) (hused : s.used .ind (inodeNum + 1) = true) :
    (checkInodeBitmap dirEnt).run s = .done () s := by
  have hused' : used s.disk s.indBmap.sysBm (inodeNum + 1) = true := hused
  rw [checkInodeBitmap, run_get_bind, bind_done (word_run hentry hnum), bind_done (checkBit_run hmapped),
    hused', if_pos rfl, run_pure]

/-- If the next number is free, the bit of the number itself is toggled. -/
theorem state_checkInodeBitmap (hsize : s.size ≤ 2 ^ 29 - 1) (hentry : dirEnt + 4 ≤ s.size)
    (hnum : inodeNum = word s.disk 4 dirEnt) (hpos : 1 ≤ inodeNum)
    (hmapped : s.indBmap.sysBm + inodeNum / 8 < s.size) (hfree : s.used .ind (inodeNum + 1) = false) :
    FlippedAbove .ind inodeNum s ((checkInodeBitmap dirEnt).run s).state := by
  have hfree' : used s.disk s.indBmap.sysBm (inodeNum + 1) = false := hfree
  rw [checkInodeBitmap, run_get_bind, bind_done (word_run hentry hnum), bind_done (checkBit_run hmapped),
    hfree', if_neg (by decide)]
  have hsingle := @setNToggleBit_single _ .ind inodeNum hsize 1
  cases htoggle : (setNToggleBit .ind [inodeNum] 1).run s with
  | halted e s₂ =>
    rw [bind_halted htoggle]
    obtain ⟨hdisk, hs₂⟩ := hsingle.of_halted rfl htoggle
    cases hdisk with
    | inl hsame =>
      have hfar := hsame.2 hpos
      have hsysBm : (s.bmap .ind).sysBm = s.indBmap.sysBm := rfl
      omega
    | inr hflip => exact ⟨hs₂, fun j _ => congrFun hflip.2 j⟩
  | done _ s₂ =>
    rw [bind_done htoggle]
    obtain ⟨_, hdisk, hs₂⟩ := hsingle.of_done rfl htoggle
    have hload : ∀ w a, Triple (FlippedAbove .ind inodeNum s) (loadWord w a)
        (fun _ => FlippedAbove .ind inodeNum s) fun _ => FlippedAbove .ind inodeNum s :=
      fun w a => .of_readOnly (readOnly_loadWord w a) fun _ _ h => h
    refine Triple.state (P := FlippedAbove .ind inodeNum s) ?_ ⟨hs₂, fun j _ => congrFun hdisk j⟩
    refine .bind (hload _ _) fun bgFreeInodes => .bind (flippedAbove_storeWord (by decide)) fun _ => ?_
    exact .bind (hload _ _) fun sFreeInodes => flippedAbove_storeWord (by decide)

/-! ## The blocks of an entry -/

/-- The inode that the checker takes for that of an entry. -/
def nextInode (s : State) (dirEnt : Nat) : Inode := inodeOf s (word s.disk 4 dirEnt + 1)

/-- The blocks that it goes over. -/
def walkOf (s : State) (dirEnt : Nat) : List Nat :=
  numsFrom s.disk s.size (nextInode s dirEnt) (s.size + 14) (.start (nextInode s dirEnt))

/-- The numbers of blocks that it toggles. -/
def toggledFor (s : State) (dirEnt : Nat) : List Nat :=
  toggledBy s.disk s.blkBmap.sysBm (walkOf s dirEnt)

theorem run_indTableAt_next (h : s.indTable + inodeSize * (n + 1) ≤ s.size) :
    (indTableAt (n : Int)).run s = .done (inodeOf s (n + 1)) s := by
  have haddr : (s.indTable : Int) + inodeSize * (n : Int) = (inodeAddr s (n + 1) : Int) := by
    rw [inodeAddr]
    push_cast
    rfl
  have hin : inodeAddr s (n + 1) + inodeSize ≤ s.size := by
    rw [inodeAddr, Nat.add_sub_cancel]
    rw [Nat.mul_add] at h
    omega
  rw [indTableAt, run_get_bind]
  simp only [haddr]
  rw [if_pos (by omega), run_pure, Int.toNat_natCast, inodeOf]

theorem run_checkDataBlockBitmap (hentry : dirEnt + 4 ≤ s.size)
    (htable : s.indTable + inodeSize * (word s.disk 4 dirEnt + 1) ≤ s.size) :
    (checkDataBlockBitmap dirEnt).run s =
      (loop .diverges (markRound (nextInode s dirEnt)) (s.size + 14) (.start (nextInode s dirEnt)) >>=
        fun blockCount => pure (BitVec.ofNat 32 blockCount)).run s := by
  rw [checkDataBlockBitmap, run_loadWord_bind hentry, bind_done (run_indTableAt_next htable), run_get_bind]
  rfl

/-! ## When nothing is freed -/

/-- Both checks of an entry clear no bit of either bitmap, and when they end, the bits of the entry's
inode and of the blocks of this inode are set. -/
structure NeverFrees (m : Memory) (s : State) (dirEnt : Nat) : Prop where
  inodeKept : ∀ b n, 1 ≤ n → n ≤ total m b → s.used b n = true →
    ((checkInodeBitmap dirEnt).run s).state.used b n = true
  inodeMarked : ∀ s', (checkInodeBitmap dirEnt).run s = .done () s' →
    s'.used .ind (word s.disk 4 dirEnt) = true
  blocksKept : ∀ b n, 1 ≤ n → n ≤ total m b → s.used b n = true →
    ((checkDataBlockBitmap dirEnt).run s).state.used b n = true
  blocksMarked : ∀ r s', (checkDataBlockBitmap dirEnt).run s = .done r s' →
    ∀ blk ∈ blockRefs s.disk (inodeOf s (word s.disk 4 dirEnt)), s'.used .blk blk = true

/-- The number of the inode and the next one are both free or both in use, the numbers of blocks that
are toggled are free, the blocks of the inode are marked when this is done, and the indirect table lies
behind the bitmap. -/
structure Fits (s : State) (dirEnt : Nat) : Prop where
  inode : s.used .ind (word s.disk 4 dirEnt) = s.used .ind (word s.disk 4 dirEnt + 1)
  blocks : ∀ n ∈ toggledFor s dirEnt, s.used .blk n = false
  own : EndsFrom s.disk s.size (nextInode s dirEnt) (s.size + 14) (.start (nextInode s dirEnt)) →
    ∀ blk ∈ blockRefs s.disk (inodeOf s (word s.disk 4 dirEnt)),
      used (flips s.disk s.blkBmap.sysBm (toggledFor s dirEnt)) s.blkBmap.sysBm blk = true
  table : (nextInode s dirEnt).iBlock.getD INDIRECT_BLK_INDEX 0 ≠ 0 →
    s.blkBmap.sysBm + 16 ≤ blockAddrU ((nextInode s dirEnt).iBlock.getD INDIRECT_BLK_INDEX 0)

/-- The bitmap of blocks is in order, and the blocks that the checker goes over are distinct numbers of
it. -/
structure Distinct (N : Nat) (s : State) (dirEnt : Nat) : Prop where
  good : Good N .blk s
  range : ∀ n ∈ walkOf s dirEnt, 11 ≤ n ∧ n ≤ N
  nodup : (walkOf s dirEnt).Nodup
  table : (nextInode s dirEnt).iBlock.getD INDIRECT_BLK_INDEX 0 ≠ 0 →
    s.blkBmap.sysBm + 16 ≤ blockAddrU ((nextInode s dirEnt).iBlock.getD INDIRECT_BLK_INDEX 0)

section

variable (hmounted : Mounted m s) (hlayout : Layout m) (hentry : dirEnt + 4 ≤ s.size)
  (hnum : 1 ≤ word s.disk 4 dirEnt ∧ word s.disk 4 dirEnt ≤ total m .ind)

include hmounted hlayout

theorem sysBm_bounds (b : Bm) :
    3 * EXT2_BLOCK_SIZE ≤ (s.bmap b).sysBm ∧ (s.bmap b).sysBm + 1024 ≤ 11 * 1024 ∧ s.size = 128 * 1024 := by
  have h := hlayout.bitmaps b
  rw [hmounted.sysBm b, hmounted.size]
  exact ⟨h.1, h.2, rfl⟩

/-- A bit that is set stays set if a clear one is toggled. -/
theorem used_of_flippedAbove {b' : Bm} (h : FlippedAbove b w s s') (hw : s.used b w = false)
    (hn : s.used b' n = true) : s'.used b' n = true := by
  have hb' := (sysBm_bounds hmounted hlayout b').1
  rw [h.1.used, Ext2.used, h.2 _ (by omega), getLsbD_flip]
  have hn' : (s.disk ((s.bmap b').sysBm + (n - 1) / 8)).getLsbD ((n - 1) % 8) = true := hn
  rw [hn', decide_eq_false]
  · rfl
  · rintro ⟨haddr, hbit⟩
    rw [haddr, hbit] at hn'
    exact absurd (hn'.symm.trans hw) (by decide)

theorem used_self_of_flippedAbove (h : FlippedAbove b w s s') (hw : 1 ≤ w) :
    s'.used b w = !s.used b w := by
  have hb := (sysBm_bounds hmounted hlayout b).1
  have hflip := @used_flip s.disk (s.bmap b).sysBm _ _ hw hw
  rw [decide_eq_true rfl, Bool.xor_true] at hflip
  rw [h.1.used, Ext2.used, h.2 _ (by omega)]
  exact hflip

include hentry hnum

/-- The check of the inode clears nothing, and marks the inode, exactly if the two numbers agree. -/
theorem inode_iff :
    ((∀ b n, 1 ≤ n → n ≤ total m b → s.used b n = true →
        ((checkInodeBitmap dirEnt).run s).state.used b n = true) ∧
      ∀ s', (checkInodeBitmap dirEnt).run s = .done () s' → s'.used .ind (word s.disk 4 dirEnt) = true) ↔
    s.used .ind (word s.disk 4 dirEnt) = s.used .ind (word s.disk 4 dirEnt + 1) := by
  obtain ⟨_, hend, hsize⟩ := sysBm_bounds hmounted hlayout .ind
  have htotal := (hlayout.total .ind).1
  have hmapped : s.indBmap.sysBm + word s.disk 4 dirEnt / 8 < s.size := by
    have hsysBm : (s.bmap .ind).sysBm = s.indBmap.sysBm := rfl
    omega
  cases hnext : s.used .ind (word s.disk 4 dirEnt + 1) with
  | true =>
    have hrun := run_checkInodeBitmap hentry rfl hmapped hnext
    rw [hrun]
    constructor
    · rintro ⟨_, hmarked⟩
      exact hmarked s rfl
    · intro hused
      refine ⟨fun _ _ _ _ h => h, ?_⟩
      rintro _ ⟨⟩
      exact hused
  | false =>
    have hstate := state_checkInodeBitmap (by omega) hentry rfl hnum.1 hmapped hnext
    have hself := used_self_of_flippedAbove hmounted hlayout hstate hnum.1
    constructor
    · rintro ⟨hkept, _⟩
      by_contra hused
      rw [Bool.not_eq_false] at hused
      rw [hkept .ind _ hnum.1 hnum.2 hused, hused] at hself
      cases hself
    · intro hfree
      refine ⟨fun b n _ _ hn => used_of_flippedAbove hmounted hlayout hstate hfree hn, fun s' hrun => ?_⟩
      rw [hrun, hfree] at hself
      exact hself

/-- The check of the blocks, as the loop over them. -/
theorem run_markLoop :
    (checkDataBlockBitmap dirEnt).run s =
      (loop .diverges (markRound (nextInode s dirEnt)) (s.size + 14) (.start (nextInode s dirEnt)) >>=
        fun blockCount => pure (BitVec.ofNat 32 blockCount)).run s := by
  obtain ⟨_, _, hsize⟩ := sysBm_bounds hmounted hlayout .ind
  have htable := hlayout.table.2
  have h128 : inodeSize = 128 := rfl
  have h1024 : EXT2_BLOCK_SIZE = 1024 := rfl
  have h11 : EXT2_GOOD_OLD_FIRST_INO = 11 := rfl
  refine run_checkDataBlockBitmap hentry ?_
  rw [hmounted.table]
  rw [h128] at htable ⊢
  rw [h11, h1024] at htable
  omega

omit hentry hnum in
theorem walkable {inode : Inode} (htable : inode.iBlock.getD INDIRECT_BLK_INDEX 0 ≠ 0 →
    s.blkBmap.sysBm + 16 ≤ blockAddrU (inode.iBlock.getD INDIRECT_BLK_INDEX 0)) :
    Walkable s.disk inode s where
  size := by rw [hmounted.size]; decide
  one := by rw [hmounted.used hlayout]; exact hlayout.reserved .blk 1 le_rfl (by decide)
  table := htable
  disk _ _ := rfl

/-- The conditions are enough. -/
theorem neverFrees_of_fits (h : Fits s dirEnt) : NeverFrees m s dirEnt := by
  obtain ⟨hinodeKept, hinodeMarked⟩ := (inode_iff hmounted hlayout hentry hnum).mpr h.inode
  have hrun := @markLoop_run _ _ _ (s.size + 14) (.start (nextInode s dirEnt))
    (walkable hmounted hlayout h.table)
  -- Toggling some of the numbers keeps every bit that is set.
  have hkeep : ∀ ns s', (∀ k ∈ ns, k ∈ toggledFor s dirEnt) →
      s'.disk = flips s.disk s.blkBmap.sysBm ns → Unmoved s s' →
      ∀ b n, s.used b n = true → s'.used b n = true := by
    intro ns s' hsub hdisk hs b n hn
    have hn' : (s.disk ((s.bmap b).sysBm + (n - 1) / 8)).getLsbD ((n - 1) % 8) = true := hn
    rw [hs.used, hdisk, Ext2.used, getLsbD_flips_of_forall fun k hk => ?_]
    · exact hn'
    · rintro ⟨haddr, hbit⟩
      rw [haddr, hbit] at hn'
      exact absurd (hn'.symm.trans (h.blocks k (hsub k hk))) (by decide)
  refine ⟨hinodeKept, hinodeMarked, fun b n _ _ hn => ?_, fun r s' hdone => ?_⟩
  · rw [run_markLoop hmounted hlayout hentry hnum]
    cases hloop : (loop .diverges (markRound (nextInode s dirEnt)) (s.size + 14)
        (.start (nextInode s dirEnt))).run s with
    | done c s' =>
      rw [bind_done hloop]
      obtain ⟨_, _, hdisk, hs⟩ := hrun.of_done rfl hloop
      exact hkeep _ s' (fun _ hk => hk) hdisk hs b n hn
    | halted e s' =>
      rw [bind_halted hloop]
      obtain ⟨⟨ns, hprefix, hdisk⟩, hs⟩ := hrun.of_halted rfl hloop
      exact hkeep ns s' (fun _ hk => hprefix.subset hk) hdisk hs b n hn
  · rw [run_markLoop hmounted hlayout hentry hnum] at hdone
    obtain ⟨c, s₁, hloop, hpure⟩ := bind_eq_done.mp hdone
    cases hpure
    obtain ⟨hends, _, hdisk, hs⟩ := hrun.of_done rfl hloop
    intro blk hblk
    rw [hs.used, hdisk]
    exact h.own hends blk hblk

/-- The conditions are needed if the bitmap is in order and the blocks are distinct numbers of it. -/
theorem fits_of_neverFrees (hdistinct : Distinct (total m .blk) s dirEnt) (h : NeverFrees m s dirEnt) :
    Fits s dirEnt := by
  have hinode := (inode_iff hmounted hlayout hentry hnum).mp ⟨h.inodeKept, h.inodeMarked⟩
  obtain ⟨_, hend, hsize⟩ := sysBm_bounds hmounted hlayout .blk
  have hsysBm : (s.bmap .blk).sysBm = s.blkBmap.sysBm := rfl
  have hwalkable := walkable hmounted hlayout hdistinct.table
  have hloopRun := run_markLoop hmounted hlayout hentry hnum
  rcases @markLoop_valid _ _ _ (s.size + 14) _ (.start (nextInode s dirEnt)) hwalkable
      (hlayout.total .blk).1 (by omega) hdistinct.good hdistinct.range hdistinct.nodup with
    ⟨n, hn, hused, hfreed⟩ | ⟨hfree, hends⟩
  · -- A number that has been freed contradicts that none is.
    obtain ⟨h11, hN⟩ := hdistinct.range n hn
    have hkept := h.blocksKept .blk n (by omega) hN hused
    rw [hloopRun] at hkept
    cases hloop : (loop .diverges (markRound (nextInode s dirEnt)) (s.size + 14)
        (.start (nextInode s dirEnt))).run s with
    | done c s' =>
      rw [bind_done hloop] at hkept
      rw [hloop] at hfreed
      exact absurd (hfreed.symm.trans hkept) (by decide)
    | halted e s' =>
      rw [bind_halted hloop] at hkept
      rw [hloop] at hfreed
      exact absurd (hfreed.symm.trans hkept) (by decide)
  · refine ⟨hinode, hfree, fun hend => ?_, hdistinct.table⟩
    obtain ⟨c, s', hloop⟩ := hends hend
    obtain ⟨_, _, hdisk, hs⟩ := (markLoop_run hwalkable).of_done rfl hloop
    have hdone := hloopRun.trans (bind_done hloop)
    intro blk hblk
    have hmarked := h.blocksMarked _ _ hdone blk hblk
    rwa [hs.used, hdisk] at hmarked

/-- The checker frees nothing for an entry if its conditions are met; and only then, if the bitmap of
blocks is in order and the blocks it goes over are distinct numbers of it. -/
theorem neverFrees_iff :
    (Fits s dirEnt → NeverFrees m s dirEnt) ∧
      (Distinct (total m .blk) s dirEnt → NeverFrees m s dirEnt → Fits s dirEnt) :=
  ⟨neverFrees_of_fits hmounted hlayout hentry hnum, fits_of_neverFrees hmounted hlayout hentry hnum⟩

end

/-! ## The entry for `lost+found` -/

/-- The disk with a file whose block is not marked. -/
def unmarkedDisk : Memory := [
  (sFreeBlocksCount, leBytes 4 117), (bgFreeBlocksCount, leBytes 2 117), (3 * EXT2_BLOCK_SIZE + 1, [0x03])].foldl
    (fun m p => Memory.store m p.1 p.2) fileDisk

/-- This disk with the globals of a tool. -/
def State.onUnmarked : State :=
  { State.onEmpty with
    disk := zeroed unmarkedDisk
    indBmap := { sysBm := 4096, numBitsAvail := 20, availByteIndex := 1, availBitIndex := 4, currAvailNum := 13 } }

theorem initGlobals_unmarkedDisk : initGlobals.run (.boot unmarkedDisk) = .done () .onUnmarked := rfl

theorem layout_unmarkedDisk : Layout unmarkedDisk where
  total b := by cases b <;> decide +kernel
  bitmaps b := by cases b <;> decide +kernel
  apart := by decide +kernel
  table := by decide +kernel
  tableApart b := by cases b <;> decide +kernel
  reserved b n h1 h10 := by cases b <;> interval_cases n <;> decide +kernel

theorem good_onUnmarked : Good 128 .blk .onUnmarked where
  reserved n h1 h10 := by interval_cases n <;> decide +kernel
  avail := by decide +kernel
  cursor := by decide +kernel

/-- The inode behind that of `lost+found` is that of the file, whose block gets marked. -/
theorem neverFrees_unmarkedDisk :
    NeverFrees unmarkedDisk .onUnmarked (9 * EXT2_BLOCK_SIZE + 24) ∧
      Fits .onUnmarked (9 * EXT2_BLOCK_SIZE + 24) ∧ toggledFor .onUnmarked (9 * EXT2_BLOCK_SIZE + 24) = [11] := by
  have hmounted := mounted_of_initGlobals initGlobals_unmarkedDisk
  have htoggled : toggledFor .onUnmarked (9 * EXT2_BLOCK_SIZE + 24) = [11] := by decide +kernel
  have hwalk : walkOf .onUnmarked (9 * EXT2_BLOCK_SIZE + 24) = [11] := by decide +kernel
  have hfits : Fits .onUnmarked (9 * EXT2_BLOCK_SIZE + 24) := by
    refine ⟨by decide +kernel, ?_, fun _ => by decide +kernel, by decide +kernel⟩
    rw [htoggled]
    decide +kernel
  have hiff := @neverFrees_iff _ _ (9 * EXT2_BLOCK_SIZE + 24) hmounted layout_unmarkedDisk
    (by decide +kernel) (by decide +kernel)
  have hfrees := hiff.1 hfits
  refine ⟨hfrees, hiff.2 ⟨good_onUnmarked, ?_, ?_, by decide +kernel⟩ hfrees, htoggled⟩
  · rw [hwalk]
    decide
  · rw [hwalk]
    decide

/-- On the empty disk the inode of `lost+found` is the last one in use, and is freed. -/
theorem not_neverFrees_lostFound :
    Mounted emptyDisk .onEmpty ∧ Layout emptyDisk ∧ (∃ es, Block emptyDisk 9 es) ∧
      decodeEntry emptyDisk (9 * EXT2_BLOCK_SIZE + 24) = ⟨11, 1000, 10, EXT2_FT_DIR, lostFound⟩ ∧
      ¬NeverFrees emptyDisk .onEmpty (9 * EXT2_BLOCK_SIZE + 24) := by
  refine ⟨mounted_onEmpty, layout_emptyDisk, ⟨_, (List.forall₂_cons.mp listing_root).1⟩,
    by decide +kernel, fun h => ?_⟩
  have hagree := (inode_iff mounted_onEmpty layout_emptyDisk (by decide +kernel) (by decide +kernel)).mp
    ⟨h.inodeKept, h.inodeMarked⟩
  exact absurd hagree (by decide +kernel)

end Ext2

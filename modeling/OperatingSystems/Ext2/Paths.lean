-- SUMMARY: Paths of the command line: normalising them, counting their components, and splitting them.
import OperatingSystems.Ext2.Directories
import OperatingSystems.Library.Strings

/-!
# Paths

A path lies in a buffer, and the tools change it in place. Pointers into it are indices. An access
outside the buffer is a `fault`. Command lines are far shorter than an int can count.
-/

namespace Ext2

open Library Library.Process

/-- The character `/`. -/
def SLASH : Byte := 0x2F

/-- A tool, or a part of one, at work on the buffer of a path. -/
abbrev PathTool (α : Type) : Type := Process Halt (List Byte) α

/-! ## Access to the buffer -/

/-- `path[i]`. -/
def charAt (i : Nat) : PathTool Byte := do
  let buf ← get
  match buf[i]? with
  | some c => pure c
  | none => halt .fault

/-- The string at `&path[i]`. -/
def stringFrom (i : Nat) : PathTool (List Byte) := do
  let buf ← get
  match stringAt buf i with
  | some cs => pure cs
  | none => halt .fault

/-- `strlen(&path[i])`. -/
def strlen (i : Nat) : PathTool Nat := do
  let cs ← stringFrom i
  pure cs.length

/-- `strstr(&path[i], "/")`, with `none` for a null pointer. -/
def strstrSlash (i : Nat) : PathTool (Option Nat) := do
  let cs ← stringFrom i
  pure (if cs.contains SLASH then some (i + cs.idxOf SLASH) else none)

/-- `memcpy(&path[dst], &path[src], n)`, taken as `memmove`. -/
def memmove (dst src n : Nat) : PathTool Unit := do
  let buf ← get
  if dst + n ≤ buf.length ∧ src + n ≤ buf.length then
    modify fun buf => buf.take dst ++ (buf.drop src).take n ++ buf.drop (dst + n)
  else halt .fault

section

variable {buf pre cs junk : List Byte} {i : Nat} {c : Byte}

theorem run_charAt (h : buf[i]? = some c) : (charAt i).run buf = .done c buf := by
  rw [charAt, run_get_bind, h, run_pure]

theorem run_stringFrom (h : stringAt buf i = some cs) : (stringFrom i).run buf = .done cs buf := by
  rw [stringFrom, run_get_bind, h, run_pure]

theorem run_strlen (junk : List Byte) (h : 0 ∉ cs) : (strlen 0).run (cs ++ 0 :: junk) = .done cs.length (cs ++ 0 :: junk) := by
  rw [strlen, bind_done (run_stringFrom (stringAt_zero junk h)), run_pure]

/-- The next slash, behind what has been seen. -/
theorem run_strstrSlash (pre junk : List Byte) (h : 0 ∉ cs) :
    (strstrSlash pre.length).run (pre ++ (cs ++ 0 :: junk)) =
      .done (if SLASH ∈ cs then some (pre.length + cs.idxOf SLASH) else none) (pre ++ (cs ++ 0 :: junk)) := by
  rw [strstrSlash, bind_done (run_stringFrom (stringAt_append h)), run_pure]
  simp only [List.contains_iff_mem]

/-- Moving the end of a string, with its NUL, to the front cuts out what lies between. -/
theorem run_memmove (pre mid cs junk : List Byte) :
    ∃ junk', (memmove pre.length (pre.length + mid.length) (cs.length + 1)).run
      (pre ++ (mid ++ (cs ++ 0 :: junk))) = .done () (pre ++ (cs ++ 0 :: junk')) := by
  refine ⟨(pre ++ (mid ++ (cs ++ 0 :: junk))).drop (pre.length + (cs.length + 1)), ?_⟩
  have hdrop : (pre ++ (mid ++ (cs ++ 0 :: junk))).drop (pre.length + mid.length) = cs ++ 0 :: junk := by
    rw [← List.append_assoc]
    exact List.drop_left' (by simp)
  have htake : (cs ++ 0 :: junk).take (cs.length + 1) = cs ++ [0] := by
    rw [List.append_cons]
    exact List.take_left' (by simp)
  rw [memmove, run_get_bind, if_pos ?_, run_modify, List.take_left, hdrop, htake]
  · simp
  · simp only [List.length_append, List.length_cons]
    omega

end

/-! ## Normalising -/

/-- A round of the loop of `normalize_path` over adjacent slashes, with `curr_slash`. -/
def adjacentRound (currSlash : Nat) : PathTool (Round Nat Nat) := do
  let c ← charAt (currSlash + 1)
  if c = SLASH then pure (.next (currSlash + 1)) else pure (.stop currSlash)

/-- A round of the loop of `normalize_path` over the slashes, with `curr_slash`. -/
def normalizeRound (currSlash : Option Nat) : PathTool (Round (Option Nat) Unit) := do
  match currSlash with
  | none => pure (.stop ())
  | some prevSlash => do
    let buf ← get
    let currSlash ← loop .diverges adjacentRound buf.length prevSlash
    (if prevSlash < currSlash then do
      let len ← strlen 0
      memmove (prevSlash + 1) (currSlash + 1) (len - currSlash)
    else pure ())
    let next ← strstrSlash (prevSlash + 1)
    pure (.next next)

/-- `normalize_path`. A path of three characters loses the last one, whatever it is. -/
def normalizePath : PathTool Unit := do
  let len ← strlen 0
  let c ← charAt 0
  if len < 2 ∨ c ≠ SLASH then halt (.exit ENOENT)
  else do
    let currSlash ← strstrSlash 0
    if len = 3 then modify fun buf => buf.set 2 0
    else do
      let buf ← get
      loop .diverges normalizeRound (buf.length + 1) currSlash

section

variable {pre rest junk : List Byte} {fuel : Nat}

/-- The inner loop stops at the last of the slashes that are next to each other. -/
theorem run_adjacent (pre junk : List Byte) (fuel : Nat) (hfuel : (rest.takeWhile (· = SLASH)).length < fuel) :
    (loop .diverges adjacentRound fuel pre.length).run (pre ++ SLASH :: (rest ++ 0 :: junk)) =
      .done (pre.length + (rest.takeWhile (· = SLASH)).length) (pre ++ SLASH :: (rest ++ 0 :: junk)) := by
  obtain ⟨fuel, rfl⟩ := Nat.exists_eq_succ_of_ne_zero (Nat.ne_zero_of_lt hfuel)
  induction rest generalizing pre fuel with
  | nil =>
    refine loop_of_stop ?_
    rw [adjacentRound, bind_done (run_charAt (c := 0) (by simp)), if_neg (by decide)]
    rfl
  | cons x rest ih =>
    have hchar : (charAt (pre.length + 1)).run (pre ++ SLASH :: (x :: rest ++ 0 :: junk)) =
        .done x (pre ++ SLASH :: (x :: rest ++ 0 :: junk)) := run_charAt (by simp)
    by_cases hx : x = SLASH
    · subst hx
      rw [List.takeWhile_cons_of_pos (by simp), List.length_cons] at hfuel ⊢
      obtain ⟨fuel, rfl⟩ := Nat.exists_eq_succ_of_ne_zero (n := fuel) (by omega)
      have hbody : (adjacentRound pre.length).run (pre ++ SLASH :: (SLASH :: rest ++ 0 :: junk)) =
          .done (.next (pre.length + 1)) (pre ++ SLASH :: (SLASH :: rest ++ 0 :: junk)) := by
        rw [adjacentRound, bind_done hchar, if_pos rfl, run_pure]
      have hrun := ih (pre ++ [SLASH]) fuel (by omega)
      rw [List.length_append, List.length_singleton, List.append_assoc] at hrun
      rw [loop_of_next hbody]
      refine hrun.trans ?_
      rw [Nat.add_assoc, Nat.add_comm 1]
      rfl
    · rw [List.takeWhile_cons_of_neg (by simpa using hx)]
      refine loop_of_stop ?_
      rw [adjacentRound, bind_done hchar, if_neg hx]
      rfl

/-- A round cuts the slashes that follow, and goes on to the next one. -/
theorem run_normalizeRound (junk : List Byte) (hpre : 0 ∉ pre) (hrest : 0 ∉ rest) :
    ∃ junk', (normalizeRound (some pre.length)).run (pre ++ SLASH :: (rest ++ 0 :: junk)) =
      .done (.next (if SLASH ∈ rest.dropWhile (· = SLASH) then
          some (pre.length + 1 + (rest.dropWhile (· = SLASH)).idxOf SLASH) else none))
        (pre ++ SLASH :: (rest.dropWhile (· = SLASH) ++ 0 :: junk')) := by
  have hparts := List.takeWhile_append_dropWhile (p := (· = SLASH)) (l := rest)
  generalize hmid : rest.takeWhile (· = SLASH) = mid at hparts
  generalize hcs : rest.dropWhile (· = SLASH) = cs at hparts
  have hlen : mid.length + cs.length = rest.length := by rw [← hparts, List.length_append]
  have h0 : 0 ∉ cs := fun h => hrest (by rw [← hparts]; exact List.mem_append_right _ h)
  have hloop := @run_adjacent rest pre junk (pre ++ SLASH :: (rest ++ 0 :: junk)).length (by
    rw [hmid]
    simp only [List.length_append, List.length_cons]
    omega)
  -- The slash itself belongs to what stays in place.
  have hsplit : ∀ tail, pre ++ SLASH :: tail = (pre ++ [SLASH]) ++ tail := fun tail => by simp
  have hnext : ∀ junk', (strstrSlash (pre.length + 1)).run (pre ++ SLASH :: (cs ++ 0 :: junk')) =
      .done (if SLASH ∈ cs then some (pre.length + 1 + cs.idxOf SLASH) else none)
        (pre ++ SLASH :: (cs ++ 0 :: junk')) := by
    intro junk'
    have h := run_strstrSlash (pre ++ [SLASH]) junk' h0
    rw [List.length_append, List.length_singleton] at h
    rw [hsplit]
    exact h
  rw [normalizeRound, run_get_bind, bind_done hloop, hmid]
  by_cases hzero : mid = []
  · rw [hzero, List.nil_append] at hparts
    rw [hzero, if_neg (by simp), pure_bind, ← hparts, bind_done (hnext junk)]
    exact ⟨junk, rfl⟩
  · have hpos := List.length_pos_iff.mpr hzero
    obtain ⟨junk', hmove⟩ := run_memmove (pre ++ [SLASH]) mid cs junk
    have hstrlen : (strlen 0).run (pre ++ SLASH :: (rest ++ 0 :: junk)) =
        .done (pre.length + (rest.length + 1)) (pre ++ SLASH :: (rest ++ 0 :: junk)) := by
      have hnul : 0 ∉ pre ++ SLASH :: rest := by
        rw [List.mem_append, List.mem_cons]
        rintro (h | h | h)
        · exact hpre h
        · exact absurd h (by decide)
        · exact hrest h
      have h := run_strlen junk hnul
      rwa [List.length_append, List.length_cons, List.append_assoc, List.cons_append] at h
    have hmove' : (memmove (pre.length + 1) (pre.length + mid.length + 1)
        (pre.length + (rest.length + 1) - (pre.length + mid.length))).run
          (pre ++ SLASH :: (rest ++ 0 :: junk)) =
        .done () (pre ++ SLASH :: (cs ++ 0 :: junk')) := by
      have h1 : pre.length + mid.length + 1 = pre.length + 1 + mid.length := by omega
      have h2 : pre.length + (rest.length + 1) - (pre.length + mid.length) = cs.length + 1 := by omega
      rw [List.length_append, List.length_singleton] at hmove
      rw [h1, h2, hsplit (rest ++ 0 :: junk), hsplit (cs ++ 0 :: junk'), ← hparts, List.append_assoc mid]
      exact hmove
    refine ⟨junk', ?_⟩
    rw [if_pos (by omega), Process.bind_assoc, bind_done hstrlen, bind_done hmove', bind_done (hnext junk')]
    rfl

/-- The loop squeezes what lies behind its first slash. -/
theorem run_normalizeLoop (pre rest junk : List Byte) (fuel : Nat) (hpre : 0 ∉ pre) (hrest : 0 ∉ rest) (hfuel : rest.length + 2 ≤ fuel) :
    ∃ junk', (loop .diverges normalizeRound fuel (some pre.length)).run
        (pre ++ SLASH :: (rest ++ 0 :: junk)) =
      .done () (pre ++ (squeeze SLASH (SLASH :: rest) ++ 0 :: junk')) := by
  induction hn : rest.length using Nat.strong_induction_on generalizing pre rest junk fuel with
  | _ n ih =>
    obtain ⟨fuel, rfl⟩ := Nat.exists_eq_add_of_le' (show 2 ≤ fuel by omega)
    obtain ⟨junk', hround⟩ := run_normalizeRound junk hpre hrest
    have hsuffix := List.dropWhile_suffix (l := rest) (· = SLASH)
    rw [squeeze_sep_cons, loop_of_next hround]
    generalize rest.dropWhile (· = SLASH) = cs at hsuffix
    have h0 : 0 ∉ cs := fun h => hrest (hsuffix.mem h)
    have hle := hsuffix.length_le
    rcases eq_or_split SLASH cs with hnone | ⟨seg, tail, rfl, hseg⟩
    · rw [if_neg hnone, squeeze_eq_self hnone]
      exact ⟨junk', loop_of_stop rfl⟩
    · rw [List.length_append, List.length_cons] at hle
      rw [List.mem_append, List.mem_cons, not_or, not_or] at h0
      have hidx : (seg ++ SLASH :: tail).idxOf SLASH = seg.length := by
        rw [List.idxOf_append_of_notMem hseg, List.idxOf_cons_self, Nat.add_zero]
      obtain ⟨junk'', hrun⟩ := ih tail.length (by omega) (pre ++ SLASH :: seg) tail junk' (fuel + 1) (by
          rw [List.mem_append, List.mem_cons]
          rintro (h | h | h)
          · exact hpre h
          · exact absurd h (by decide)
          · exact h0.1 h) h0.2.2 (by omega) rfl
      have hpos : pre.length + 1 + seg.length = (pre ++ SLASH :: seg).length := by
        rw [List.length_append, List.length_cons]
        omega
      refine ⟨junk'', ?_⟩
      rw [if_pos (by simp), hidx, hpos, squeeze_append hseg]
      simpa using hrun

end

/-! ### What normalising makes of a path -/

/-- What normalising should make of a path: the same components, each behind one slash. -/
structure Normalized (p q : List Byte) : Prop where
  absolute : q.head? = some SLASH
  squeezed : Squeezed SLASH q
  noTrailing : q.getLast? ≠ some SLASH
  same : components SLASH q = components SLASH p

/-- `normalize_path` ends, and leaves a normalised path in the buffer, whatever is behind it. -/
def Normalizes (p : Name) : Prop :=
  ∀ junk, ∃ q junk', 0 ∉ q ∧ normalizePath.run (p.chars ++ 0 :: junk) = .done () (q ++ 0 :: junk') ∧
    Normalized p.chars q

/-- The string that `normalize_path` leaves. -/
def trimmed (p : List Byte) : List Byte := if p.length = 3 then p.take 2 else squeeze SLASH p

theorem notMem_trimmed {p : Name} : 0 ∉ trimmed p.chars := by
  rw [trimmed]
  split
  · exact fun h => p.noNul (List.mem_of_mem_take h)
  · exact fun h => p.noNul (mem_of_mem_squeeze h)

section

variable {p : Name} {junk : List Byte}

theorem run_normalizePath (junk : List Byte) (hlen : 2 ≤ p.chars.length) (habs : p.chars.head? = some SLASH) :
    ∃ junk', normalizePath.run (p.chars ++ 0 :: junk) = .done () (trimmed p.chars ++ 0 :: junk') := by
  have hnul := p.noNul
  generalize p.chars = cs at *
  obtain ⟨c, rest, rfl⟩ := List.exists_cons_of_length_pos (show 0 < cs.length by omega)
  obtain rfl : c = SLASH := by simpa using habs
  have hslash : (strstrSlash 0).run (SLASH :: rest ++ 0 :: junk) =
      .done (some 0) (SLASH :: rest ++ 0 :: junk) := by
    simpa using run_strstrSlash [] junk hnul
  have hrest : 0 ∉ rest := fun h => hnul (List.mem_cons_of_mem _ h)
  have hok : ¬((SLASH :: rest).length < 2 ∨ SLASH ≠ SLASH) := by
    rintro (h | h)
    · omega
    · exact h rfl
  rw [normalizePath, bind_done (run_strlen junk hnul), bind_done (run_charAt (c := SLASH) rfl),
    if_neg hok, bind_done hslash, trimmed]
  by_cases h3 : (SLASH :: rest).length = 3
  · obtain ⟨a, b, rfl⟩ := List.length_eq_two.mp (show rest.length = 2 by simpa using h3)
    exact ⟨0 :: junk, rfl⟩
  · rw [if_neg h3, if_neg h3, run_get_bind]
    obtain ⟨junk', hrun⟩ := run_normalizeLoop [] rest junk ((SLASH :: rest ++ 0 :: junk).length + 1)
      List.not_mem_nil hrest (by
        simp only [List.length_append, List.length_cons]
        omega)
    exact ⟨junk', hrun⟩

/-- The tool does what it should if the string that it leaves is what it should be. -/
theorem normalizes_iff_trimmed (hlen : 2 ≤ p.chars.length) (habs : p.chars.head? = some SLASH) :
    Normalizes p ↔ Normalized p.chars (trimmed p.chars) := by
  constructor
  · intro h
    obtain ⟨q, junk', hq, hrun, hnorm⟩ := h []
    obtain ⟨junk'', hrun'⟩ := run_normalizePath [] hlen habs
    have hbuf : q ++ 0 :: junk' = trimmed p.chars ++ 0 :: junk'' :=
      (Outcome.done.inj (hrun.symm.trans hrun')).2
    have hstring := stringAt_zero junk' hq
    rw [hbuf, stringAt_zero _ notMem_trimmed] at hstring
    rwa [Option.some.inj hstring]
  · intro h junk
    obtain ⟨junk', hrun⟩ := run_normalizePath junk hlen habs
    exact ⟨trimmed p.chars, junk', notMem_trimmed, hrun, h⟩

/-- The path keeps its components, and loses its last slash, exactly if it has three characters and a
slash at its end, or neither. -/
theorem normalizes_iff (hlen : 2 ≤ p.chars.length) (habs : p.chars.head? = some SLASH)
    (hname : ∃ c ∈ p.chars, c ≠ SLASH) :
    Normalizes p ↔ (p.chars.length = 3 ↔ p.chars.getLast? = some SLASH) := by
  rw [normalizes_iff_trimmed hlen habs]
  generalize p.chars = cs at *
  by_cases h3 : cs.length = 3
  · obtain ⟨c, a, b, rfl⟩ := List.length_eq_three.mp h3
    obtain rfl : c = SLASH := by simpa using habs
    have htrim : trimmed [SLASH, a, b] = [SLASH, a] := rfl
    have hlast : [SLASH, a, b].getLast? = some b := rfl
    simp only [htrim, h3, hlast, true_iff, Option.some.injEq]
    constructor
    · intro h
      have ha : a ≠ SLASH := by simpa using h.noTrailing
      by_contra hb
      have hsame := h.same
      rw [components_sep_cons, components_sep_cons, components_of_notMem (by simpa using ha.symm) (by simp),
        components_of_notMem (by simp [ha.symm, Ne.symm hb]) (by simp)] at hsame
      simp at hsame
    · rintro rfl
      have ha : a ≠ SLASH := by simpa using hname
      refine ⟨rfl, by simp [Squeezed, ha], by simpa using ha, ?_⟩
      rw [components_sep_cons, components_sep_cons, show [a, SLASH] = [a] ++ SLASH :: [] from rfl,
        components_append_cons, components_nil, List.append_nil]
  · rw [trimmed, if_neg h3]
    simp only [h3, false_iff]
    constructor
    · intro h
      have hsqueeze : (squeeze SLASH cs).getLast? = cs.getLast? := getLast?_squeeze
      rw [← hsqueeze]
      exact h.noTrailing
    · intro h
      exact ⟨head?_squeeze.trans habs, squeezed_squeeze, by rwa [getLast?_squeeze], components_squeeze⟩

/-- The path `/ab`. -/
def slashAB : Name where
  chars := [SLASH, 0x61, 0x62]
  noNul := by decide

/-- The path `/a/`. -/
def slashA : Name where
  chars := [SLASH, 0x61, SLASH]
  noNul := by decide

theorem normalizes_slashA : Normalizes slashA :=
  (normalizes_iff (p := slashA) (by decide) rfl ⟨0x61, by decide, by decide⟩).mpr (by decide)

/-- Of `/ab`, only `/a` is left. -/
theorem not_normalizes_slashAB : ¬Normalizes slashAB := by
  intro h
  obtain ⟨q, junk', hq, hrun, hnorm⟩ := h []
  have hbuf : [SLASH, 0x61, 0, 0] = q ++ 0 :: junk' := (Outcome.done.inj hrun).2
  have hstring := stringAt_zero junk' hq
  rw [← hbuf] at hstring
  obtain rfl : [SLASH, 0x61] = q := Option.some.inj hstring
  exact absurd hnorm.same (by decide)

end

/-! ## Splitting -/

/-- The loop of `get_path_substr_count`, over `n` characters from an index on. The path is not empty
here, so that its NUL has a character before it. -/
def countFrom : Nat → Nat → Nat → PathTool Nat
  | 0, _, substrCount => pure substrCount
  | n + 1, index, substrCount => do
    let c ← charAt index
    if c = SLASH ∧ index > 0 then countFrom n (index + 1) (substrCount + 1)
    else if c = 0 then do
      let prev ← charAt (index - 1)
      countFrom n (index + 1) (if prev ≠ SLASH then substrCount + 1 else substrCount)
    else countFrom n (index + 1) substrCount

/-- `get_path_substr_count`. -/
def getPathSubstrCount : PathTool Nat := do
  let pathLen ← strlen 0
  let slash ← strstrSlash 0
  if slash = none then pure 1 else countFrom (pathLen + 1) 0 0

/-- A new array with the characters from `prev_char` up to `curr_char`, and a NUL. -/
def substr (prevChar currChar : Nat) : PathTool (List Byte) := do
  if currChar < prevChar then halt .fault
  else do
    let cs ← stringFrom prevChar
    pure (strncpy cs (currChar - prevChar) ++ [0])

/-- The loop of `create_path` over the components of the parent, `n` of them: their arrays, and
`prev_char` after it. -/
def splitFrom (pNullTerm : Nat) : Nat → Nat → Option Nat → PathTool (List (List Byte) × Nat)
  | 0, prevChar, _ => pure ([], prevChar)
  | n + 1, prevChar, currChar => do
    let part ← substr prevChar (currChar.getD pNullTerm)
    let next ← strstrSlash (currChar.getD pNullTerm + 1)
    let rest ← splitFrom pNullTerm n (currChar.getD pNullTerm + 1) next
    pure (part :: rest.1, rest.2)

/-- `create_path`: the arrays for the parent's components, and the one for the child. -/
def createPath : PathTool (List (List Byte) × List (List Byte)) := do
  let pathLen ← getPathSubstrCount
  let pathCharLen ← strlen 0
  let c ← charAt 0
  let currChar ← strstrSlash 1
  let parent ← splitFrom pathCharLen (pathLen - 1) (if c = SLASH then 1 else 0) currChar
  let child ← substr parent.2 pathCharLen
  pure (parent.1, [child])

/-! ### What splitting makes of a path -/

/-- A component of a path. -/
structure Component extends Name where
  ne_nil : chars ≠ []
  noSlash : SLASH ∉ chars

/-- The path of components, each behind a slash. -/
def pathOf (cs : List Component) : List Byte := cs.flatMap fun c => SLASH :: c.chars

/-- The array of a component: its characters and a NUL. -/
def Component.array (c : Component) : List Byte := c.chars ++ [0]

section

variable {cs init : List Component} {c last : Component} {pre rest junk : List Byte} {k n pNullTerm : Nat}

@[simp] theorem pathOf_cons : pathOf (c :: cs) = SLASH :: c.chars ++ pathOf cs := rfl

@[simp] theorem pathOf_nil : pathOf [] = [] := rfl

theorem noNul_pathOf : 0 ∉ pathOf cs := by
  rw [pathOf, List.mem_flatMap]
  rintro ⟨c, _, h⟩
  rcases List.mem_cons.mp h with h | h
  · exact absurd h (by decide)
  · exact c.noNul h

theorem count_pathOf : (pathOf cs).count SLASH = cs.length := by
  induction cs with
  | nil => rfl
  | cons c cs ih =>
    rw [pathOf_cons, List.cons_append, List.count_cons_self, List.count_append,
      List.count_eq_zero.mpr c.noSlash, ih, List.length_cons, Nat.zero_add]

/-- The last character of a path is that of its last component. -/
theorem getLast?_pathOf : (pathOf (init ++ [last])).getLast? ≠ some SLASH := by
  have hlast : (pathOf (init ++ [last])).getLast? = last.chars.getLast? := by
    rw [pathOf, List.flatMap_append]
    simp [List.getLast?_append, List.getLast?_cons, List.getLast?_eq_some_getLast last.ne_nil]
  rw [hlast]
  exact fun h => last.noSlash (List.mem_of_getLast? h)

/-- Behind the first character, each slash counts, and so does the end of a path without one there. -/
theorem run_countFrom (pre rest junk : List Byte) (k : Nat) (hne : pre ≠ []) (h0 : 0 ∉ rest) :
    (countFrom (rest.length + 1) pre.length k).run (pre ++ (rest ++ 0 :: junk)) =
      .done (k + rest.count SLASH + if (pre ++ rest).getLast? = some SLASH then 0 else 1)
        (pre ++ (rest ++ 0 :: junk)) := by
  have hpos := List.length_pos_iff.mpr hne
  induction rest generalizing pre k with
  | nil =>
    obtain ⟨front, x, rfl⟩ := (List.eq_nil_or_concat' pre).resolve_left hne
    have hprev : (charAt ((front ++ [x]).length - 1)).run (front ++ [x] ++ ([] ++ 0 :: junk)) =
        .done x (front ++ [x] ++ ([] ++ 0 :: junk)) := run_charAt (by simp)
    rw [List.length_nil, countFrom, bind_done (run_charAt (c := 0) (by simp)), if_neg fun h => absurd h.1 (by decide),
      if_pos rfl, bind_done hprev, countFrom, run_pure]
    by_cases hx : x = SLASH <;> simp [hx]
  | cons x rest ih =>
    rw [List.mem_cons, not_or] at h0
    have hrun := fun k => ih (pre ++ [x]) k (by simp) h0.2 (by simp)
    simp only [List.length_append, List.length_singleton, List.append_assoc, List.singleton_append] at hrun
    rw [List.length_cons, countFrom, bind_done (run_charAt (c := x) (by simp)), List.cons_append]
    by_cases hx : x = SLASH
    · subst hx
      rw [if_pos ⟨rfl, hpos⟩, hrun, List.count_cons_self]
      simp only [Nat.add_assoc, Nat.add_comm 1]
    · rw [if_neg (by simp [hx]), if_neg (Ne.symm h0.1), hrun, List.count_cons_of_ne hx]

theorem run_getPathSubstrCount :
    getPathSubstrCount.run (pathOf (init ++ [last]) ++ 0 :: junk) =
      .done (init.length + 1) (pathOf (init ++ [last]) ++ 0 :: junk) := by
  have hnul : 0 ∉ pathOf (init ++ [last]) := noNul_pathOf
  have hcount : (pathOf (init ++ [last])).count SLASH = (init ++ [last]).length := count_pathOf
  have hlast := @getLast?_pathOf init last
  obtain ⟨rest, hpath⟩ : ∃ rest, pathOf (init ++ [last]) = SLASH :: rest := by
    cases init <;> exact ⟨_, rfl⟩
  rw [hpath] at hnul hcount hlast ⊢
  rw [List.count_cons_self, List.length_append, List.length_singleton] at hcount
  have hslash : (strstrSlash 0).run (SLASH :: rest ++ 0 :: junk) =
      .done (some 0) (SLASH :: rest ++ 0 :: junk) := by
    simpa using run_strstrSlash [] junk hnul
  have hrun := run_countFrom [SLASH] rest junk 0 (by simp)
    fun h => hnul (List.mem_cons_of_mem _ h)
  rw [getPathSubstrCount, bind_done (run_strlen junk hnul), bind_done hslash, if_neg (by simp), List.length_cons,
    countFrom, bind_done (run_charAt (c := SLASH) rfl), if_neg (by simp), if_neg (by decide)]
  refine hrun.trans ?_
  rw [List.singleton_append, if_neg hlast]
  congr 1
  omega

/-- The slash behind a component is that of the next one, if there is one. -/
theorem run_strstrSlash_pathOf (init : List Component) (last : Component) (pre junk : List Byte) :
    (strstrSlash (pre.length + 1)).run (pre ++ (pathOf (init ++ [last]) ++ 0 :: junk)) =
      .done (init.head?.map fun c => pre.length + 1 + c.chars.length)
        (pre ++ (pathOf (init ++ [last]) ++ 0 :: junk)) := by
  have hrun : ∀ cs : List Byte, 0 ∉ cs →
      (strstrSlash (pre.length + 1)).run (pre ++ (SLASH :: cs ++ 0 :: junk)) =
        .done (if SLASH ∈ cs then some (pre.length + 1 + cs.idxOf SLASH) else none)
          (pre ++ (SLASH :: cs ++ 0 :: junk)) := by
    intro cs h
    simpa using run_strstrSlash (pre ++ [SLASH]) junk h
  cases init with
  | nil =>
    have h := hrun last.chars last.noNul
    rw [if_neg last.noSlash] at h
    simpa using h
  | cons c cs =>
    have hnul : 0 ∉ c.chars ++ pathOf (cs ++ [last]) := by
      rw [List.mem_append, not_or]
      exact ⟨c.noNul, noNul_pathOf⟩
    obtain ⟨rest, hpath⟩ : ∃ rest, pathOf (cs ++ [last]) = SLASH :: rest := by
      cases cs <;> exact ⟨_, rfl⟩
    have hidx : (c.chars ++ pathOf (cs ++ [last])).idxOf SLASH = c.chars.length := by
      rw [List.idxOf_append_of_notMem c.noSlash, hpath, List.idxOf_cons_self, Nat.add_zero]
    have h := hrun _ hnul
    rw [hidx, if_pos (by rw [hpath]; simp)] at h
    exact h

/-- A part of a path without a NUL is copied as it is. -/
theorem run_substr (c : Component) (pre junk : List Byte) (h : 0 ∉ rest) :
    (substr pre.length (pre.length + c.chars.length)).run (pre ++ (c.chars ++ rest ++ 0 :: junk)) =
      .done c.array (pre ++ (c.chars ++ rest ++ 0 :: junk)) := by
  have hnul : 0 ∉ c.chars ++ rest := by
    rw [List.mem_append, not_or]
    exact ⟨c.noNul, h⟩
  rw [substr, if_neg (by omega), bind_done (run_stringFrom (stringAt_append hnul)), run_pure,
    Nat.add_sub_cancel_left, strncpy_append]
  rfl

/-- The loop takes one component after the other, up to the last one. -/
theorem run_splitFrom (init : List Component) (last : Component) (pre junk : List Byte) :
    (splitFrom pNullTerm init.length (pre.length + 1)
        (init.head?.map fun c => pre.length + 1 + c.chars.length)).run
      (pre ++ (pathOf (init ++ [last]) ++ 0 :: junk)) =
      .done (init.map Component.array, (pre ++ pathOf init).length + 1)
        (pre ++ (pathOf (init ++ [last]) ++ 0 :: junk)) := by
  induction init generalizing pre with
  | nil => simp [splitFrom]
  | cons c cs ih =>
    have hnul : 0 ∉ pathOf (cs ++ [last]) := noNul_pathOf
    have hpart := run_substr c (pre ++ [SLASH]) junk hnul
    have hnext := run_strstrSlash_pathOf cs last (pre ++ SLASH :: c.chars) junk
    have hrest := ih (pre ++ SLASH :: c.chars)
    have hlen : (pre ++ SLASH :: c.chars).length = pre.length + 1 + c.chars.length := by
      rw [List.length_append, List.length_cons]
      omega
    have hlen' : (pre ++ [SLASH]).length = pre.length + 1 := by simp
    have hbuf : ∀ tail, pre ++ (pathOf (c :: cs ++ [last]) ++ tail) =
        pre ++ SLASH :: c.chars ++ (pathOf (cs ++ [last]) ++ tail) := fun tail => by simp
    have hbuf' : ∀ tail, pre ++ (pathOf (c :: cs ++ [last]) ++ tail) =
        pre ++ [SLASH] ++ (c.chars ++ pathOf (cs ++ [last]) ++ tail) := fun tail => by simp
    rw [hlen] at hnext hrest
    rw [hlen', ← hbuf'] at hpart
    rw [← hbuf] at hnext hrest
    rw [List.length_cons, splitFrom]
    simp only [List.head?_cons, Option.map_some, Option.getD_some]
    rw [bind_done hpart, bind_done hnext, bind_done hrest, run_pure]
    simp

/-- For a path of components, `get_path_substr_count` counts them, and `create_path` gives an array for
each, the last one apart; joined with slashes they are the path. -/
def Splits (init : List Component) (last : Component) : Prop :=
  ∀ junk, getPathSubstrCount.run (pathOf (init ++ [last]) ++ 0 :: junk) =
      .done (init.length + 1) (pathOf (init ++ [last]) ++ 0 :: junk) ∧
    ∃ parent child, createPath.run (pathOf (init ++ [last]) ++ 0 :: junk) =
        .done (parent, child) (pathOf (init ++ [last]) ++ 0 :: junk) ∧
      parent = init.map (fun c => c.chars ++ [0]) ∧ child = [last.chars ++ [0]] ∧
      (parent ++ child).flatMap (fun cs => SLASH :: cs.dropLast) = pathOf (init ++ [last])

theorem splits (init : List Component) (last : Component) : Splits init last := by
  intro junk
  refine ⟨run_getPathSubstrCount, init.map Component.array, [last.array], ?_, rfl, rfl, ?_⟩
  · have hfirst : (charAt 0).run (pathOf (init ++ [last]) ++ 0 :: junk) =
        .done SLASH (pathOf (init ++ [last]) ++ 0 :: junk) := by
      cases init <;> exact run_charAt rfl
    have hnext := run_strstrSlash_pathOf init last [] junk
    have hparent := @run_splitFrom (pathOf (init ++ [last])).length init last [] junk
    have hchild : (substr ((pathOf init).length + 1) (pathOf (init ++ [last])).length).run
        (pathOf (init ++ [last]) ++ 0 :: junk) =
          .done last.array (pathOf (init ++ [last]) ++ 0 :: junk) := by
      have h := @run_substr [] last (pathOf init ++ [SLASH]) junk List.not_mem_nil
      have hpath : pathOf (init ++ [last]) = pathOf init ++ SLASH :: last.chars := by simp [pathOf]
      rw [hpath]
      simpa [Nat.add_assoc, Nat.add_comm 1] using h
    rw [List.nil_append, List.length_nil, Nat.zero_add] at hnext hparent
    rw [List.nil_append] at hparent
    rw [createPath, bind_done run_getPathSubstrCount, bind_done (run_strlen junk noNul_pathOf), bind_done hfirst,
      bind_done hnext, if_pos rfl, Nat.add_sub_cancel, bind_done hparent, bind_done hchild, run_pure]
  · simp [pathOf, Component.array, List.flatMap_map]

end

end Ext2

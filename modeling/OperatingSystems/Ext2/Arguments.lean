-- SUMMARY: What the tools get of the path on their command line: the arrays of its components, and a slash at its end.
import OperatingSystems.Ext2.Paths

/-!
# Arguments

Each tool normalises the path that it is given, in place, and splits what is in the buffer then. A slash
at the end of the path survives the first step, and the second one takes it for a part of the last
component.
-/

namespace Ext2

open Library Library.Process

/-- What the tools do with a path: `normalize_path`, then `create_path` on the same buffer. -/
def pathArrays : PathTool (List (List Byte) × List (List Byte)) := do
  normalizePath
  createPath

/-- A path, or the part of one with three characters that `normalize_path` leaves. -/
def kept (p : List Byte) : List Byte := if p.length = 3 then p.take 2 else p

/-- The slash at the end of a path, if it has one there. -/
def trailing (p : List Byte) : List Byte := if p.getLast? = some SLASH then [SLASH] else []

section

variable {p q tail junk pre : List Byte} {init : List Component} {last : Component}

/-! ## The components of a normalised path -/

theorem exists_pathOf (habs : q.head? = some SLASH) (hsq : Squeezed SLASH q) (h0 : 0 ∉ q)
    (hname : ∃ c ∈ q, c ≠ SLASH) : ∃ init last tail, q = pathOf (init ++ [last]) ++ tail ∧
      (tail = [] ∨ tail = [SLASH]) ∧ components SLASH q = (init ++ [last]).map fun c => c.chars := by
  induction hn : q.length using Nat.strong_induction_on generalizing q with
  | _ n ih =>
    obtain ⟨c, rest, rfl⟩ : ∃ c rest, q = c :: rest := by
      cases q with
      | nil => cases habs
      | cons c rest => exact ⟨c, rest, rfl⟩
    obtain rfl : c = SLASH := Option.some.inj habs
    have h0 : 0 ∉ rest := fun h => h0 (List.mem_cons_of_mem _ h)
    rcases eq_or_split SLASH rest with hrest | ⟨seg, more, rfl, hseg⟩
    · -- The last component, and no slash behind it.
      have hne : rest ≠ [] := by
        rintro rfl
        obtain ⟨c, hc, hne⟩ := hname
        exact hne (List.mem_singleton.mp hc)
      refine ⟨[], ⟨⟨rest, h0⟩, hne, hrest⟩, [], ?_, .inl rfl, ?_⟩
      · simp [pathOf]
      · rw [components_sep_cons, components_of_notMem hrest hne]
        rfl
    · have hne : seg ≠ [] := by
        rintro rfl
        exact (List.isChain_cons_cons.mp hsq).1 ⟨rfl, rfl⟩
      have hnul : 0 ∉ seg := fun h => h0 (List.mem_append_left _ h)
      let first : Component := ⟨⟨seg, hnul⟩, hne, hseg⟩
      have hcomps : components SLASH (SLASH :: (seg ++ SLASH :: more)) =
          seg :: components SLASH (SLASH :: more) := by
        rw [components_sep_cons, components_append_cons, components_of_notMem hseg hne,
          components_sep_cons, List.singleton_append]
      cases more with
      | nil =>
        refine ⟨[], first, [SLASH], ?_, .inr rfl, ?_⟩
        · simp [pathOf, first]
        · rw [hcomps, components_sep_cons, components_nil]
          rfl
      | cons d more =>
        have hsq' : Squeezed SLASH (SLASH :: d :: more) := by
          have happend : Squeezed SLASH ((SLASH :: seg) ++ SLASH :: d :: more) := hsq
          exact (List.isChain_append.mp happend).2.1
        have hd : d ≠ SLASH := fun hd => (List.isChain_cons_cons.mp hsq').1 ⟨rfl, hd⟩
        obtain ⟨init, last, tail, heq, htail, hparts⟩ := ih _ (by
            rw [← hn]
            simp only [List.length_cons, List.length_append]
            have := List.length_pos_iff.mpr hne
            omega) rfl hsq' (fun h => h0 (List.mem_append_right _ h))
          ⟨d, List.mem_cons_of_mem _ List.mem_cons_self, hd⟩ rfl
        refine ⟨first :: init, last, tail, ?_, htail, ?_⟩
        · rw [List.cons_append, pathOf_cons, List.append_assoc, ← heq]
          rfl
        · rw [hcomps, hparts]
          rfl

/-- Behind the components, there is the slash that the path ends with. -/
theorem tail_eq (heq : q = pathOf (init ++ [last]) ++ tail) (htail : tail = [] ∨ tail = [SLASH]) :
    tail = trailing q := by
  rcases htail with rfl | rfl
  · rw [trailing, if_neg]
    rw [heq, List.append_nil]
    exact getLast?_pathOf
  · rw [trailing, if_pos]
    rw [heq, List.getLast?_concat]

/-! ## Splitting with a slash at the end -/

/-- The end of the string does not count behind a slash, so that there are as many parts as without
it. -/
theorem run_getPathSubstrCount_tail (htail : tail = [] ∨ tail = [SLASH]) :
    getPathSubstrCount.run (pathOf (init ++ [last]) ++ tail ++ 0 :: junk) =
      .done (init.length + 1) (pathOf (init ++ [last]) ++ tail ++ 0 :: junk) := by
  rcases htail with rfl | rfl
  · rw [List.append_nil]
    exact run_getPathSubstrCount
  · have hnul : 0 ∉ pathOf (init ++ [last]) ++ [SLASH] := by
      rw [List.mem_append, not_or]
      exact ⟨noNul_pathOf, by decide⟩
    have hcount : (pathOf (init ++ [last]) ++ [SLASH]).count SLASH = init.length + 2 := by
      rw [List.count_append, count_pathOf, List.length_append]
      rfl
    have hlast : (pathOf (init ++ [last]) ++ [SLASH]).getLast? = some SLASH :=
      List.getLast?_concat
    obtain ⟨rest, hpath⟩ : ∃ rest, pathOf (init ++ [last]) ++ [SLASH] = SLASH :: rest := by
      cases init <;> exact ⟨_, rfl⟩
    rw [hpath] at hnul hcount hlast ⊢
    rw [List.count_cons_self] at hcount
    have hslash : (strstrSlash 0).run (SLASH :: rest ++ 0 :: junk) =
        .done (some 0) (SLASH :: rest ++ 0 :: junk) := by
      simpa using run_strstrSlash [] junk hnul
    have hrun := run_countFrom [SLASH] rest junk 0 (by simp)
      fun h => hnul (List.mem_cons_of_mem _ h)
    rw [getPathSubstrCount, bind_done (run_strlen junk hnul), bind_done hslash, if_neg (by simp),
      List.length_cons, countFrom, bind_done (run_charAt (c := SLASH) rfl), if_neg (by simp),
      if_neg (by decide)]
    refine hrun.trans ?_
    rw [List.singleton_append, if_pos hlast]
    congr 1
    omega

theorem noNul_tail (h0 : 0 ∉ tail) : 0 ∉ pathOf (init ++ [last]) ++ tail := by
  rw [List.mem_append, not_or]
  exact ⟨noNul_pathOf, h0⟩

/-- Behind the first slash, the next one ends the first component, if it is not the last one. -/
theorem run_strstrSlash_tail (init : List Component) (last : Component) (pre junk : List Byte)
    (h0 : 0 ∉ tail) : ∃ next, (strstrSlash (pre.length + 1)).run
        (pre ++ (pathOf (init ++ [last]) ++ tail ++ 0 :: junk)) =
          .done next (pre ++ (pathOf (init ++ [last]) ++ tail ++ 0 :: junk)) ∧
      ∀ c ∈ init.head?, next = some (pre.length + 1 + c.chars.length) := by
  cases init with
  | nil =>
    have hnul : 0 ∉ last.chars ++ tail := by
      rw [List.mem_append, not_or]
      exact ⟨last.noNul, h0⟩
    have hbuf : pre ++ (pathOf ([] ++ [last]) ++ tail ++ 0 :: junk) =
        pre ++ [SLASH] ++ (last.chars ++ tail ++ 0 :: junk) := by simp [pathOf]
    have hrun := run_strstrSlash (pre ++ [SLASH]) junk hnul
    rw [← hbuf, List.length_append, List.length_singleton] at hrun
    exact ⟨_, hrun, fun c hc => by cases hc⟩
  | cons c cs =>
    have hnul : 0 ∉ c.chars ++ (pathOf (cs ++ [last]) ++ tail) := by
      rw [List.mem_append, not_or]
      exact ⟨c.noNul, noNul_tail h0⟩
    obtain ⟨rest, hpath⟩ : ∃ rest, pathOf (cs ++ [last]) = SLASH :: rest := by
      cases cs <;> exact ⟨_, rfl⟩
    have hidx : (c.chars ++ (pathOf (cs ++ [last]) ++ tail)).idxOf SLASH = c.chars.length := by
      rw [List.idxOf_append_of_notMem c.noSlash, hpath, List.cons_append, List.idxOf_cons_self,
        Nat.add_zero]
    have hrun := run_strstrSlash (pre ++ [SLASH]) junk hnul
    rw [hidx, if_pos (by rw [hpath]; simp), List.length_append, List.length_singleton] at hrun
    refine ⟨some (pre.length + 1 + c.chars.length), ?_, fun d hd => ?_⟩
    · simpa using hrun
    · obtain rfl : c = d := Option.some.inj hd
      rfl

/-- The loop takes the components before the last one, whatever is behind it. -/
theorem run_splitFrom_tail {next : Option Nat} {pNullTerm : Nat} (init : List Component)
    (last : Component) (pre junk : List Byte) (h0 : 0 ∉ tail)
    (hnext : ∀ c ∈ init.head?, next = some (pre.length + 1 + c.chars.length)) :
    (splitFrom pNullTerm init.length (pre.length + 1) next).run
      (pre ++ (pathOf (init ++ [last]) ++ tail ++ 0 :: junk)) =
        .done (init.map Component.array, (pre ++ pathOf init).length + 1)
          (pre ++ (pathOf (init ++ [last]) ++ tail ++ 0 :: junk)) := by
  induction init generalizing pre next with
  | nil => simp [splitFrom]
  | cons c cs ih =>
    obtain rfl := hnext c rfl
    have hlen : (pre ++ SLASH :: c.chars).length = pre.length + 1 + c.chars.length := by
      rw [List.length_append, List.length_cons]
      omega
    have hbuf : pre ++ (pathOf (c :: cs ++ [last]) ++ tail ++ 0 :: junk) =
        pre ++ SLASH :: c.chars ++ (pathOf (cs ++ [last]) ++ tail ++ 0 :: junk) := by simp
    have hnul : 0 ∉ pathOf (cs ++ [last]) ++ tail := noNul_tail h0
    have hpart := run_substr c (pre ++ [SLASH]) junk hnul
    have hbuf' : pre ++ [SLASH] ++ (c.chars ++ (pathOf (cs ++ [last]) ++ tail) ++ 0 :: junk) =
        pre ++ SLASH :: c.chars ++ (pathOf (cs ++ [last]) ++ tail ++ 0 :: junk) := by simp
    obtain ⟨next, hstrstr, hnext⟩ := run_strstrSlash_tail cs last (pre ++ SLASH :: c.chars) junk h0
    have hrest := ih (pre ++ SLASH :: c.chars) hnext
    rw [hlen] at hstrstr hrest
    rw [hbuf', List.length_append, List.length_singleton] at hpart
    rw [hbuf, List.length_cons, splitFrom, Option.getD_some, bind_done hpart, bind_done hstrstr,
      bind_done hrest, run_pure]
    simp

/-- The array of the child is all that is behind the last slash that counts. -/
theorem run_createPath_tail (htail : tail = [] ∨ tail = [SLASH]) :
    createPath.run (pathOf (init ++ [last]) ++ tail ++ 0 :: junk) =
      .done (init.map Component.array, [last.chars ++ tail ++ [0]])
        (pathOf (init ++ [last]) ++ tail ++ 0 :: junk) := by
  have h0 : 0 ∉ tail := by
    rcases htail with rfl | rfl <;> decide
  have hfirst : (charAt 0).run (pathOf (init ++ [last]) ++ tail ++ 0 :: junk) =
      .done SLASH (pathOf (init ++ [last]) ++ tail ++ 0 :: junk) := by
    cases init <;> exact run_charAt rfl
  obtain ⟨next, hstrstr, hnext⟩ := run_strstrSlash_tail init last [] junk h0
  have hparent := @run_splitFrom_tail _ _ (pathOf (init ++ [last]) ++ tail).length
    init last [] junk h0 hnext
  have hchild : (substr ((pathOf init).length + 1) (pathOf (init ++ [last]) ++ tail).length).run
      (pathOf (init ++ [last]) ++ tail ++ 0 :: junk) = .done (last.chars ++ tail ++ [0])
        (pathOf (init ++ [last]) ++ tail ++ 0 :: junk) := by
    have hnul : 0 ∉ last.chars ++ tail := by
      rw [List.mem_append, not_or]
      exact ⟨last.noNul, h0⟩
    have hpath : pathOf (init ++ [last]) ++ tail ++ 0 :: junk =
        pathOf init ++ [SLASH] ++ (last.chars ++ tail ++ 0 :: junk) := by simp [pathOf]
    have hlen : (pathOf (init ++ [last]) ++ tail).length =
        (pathOf init).length + 1 + (last.chars ++ tail).length := by
      simp only [pathOf, List.flatMap_append, List.flatMap_singleton, List.length_append,
        List.length_cons]
      omega
    have hstring := run_stringFrom (@stringAt_append (pathOf init ++ [SLASH]) _ junk hnul)
    rw [← hpath, List.length_append, List.length_singleton] at hstring
    have hcopy : strncpy (last.chars ++ tail) (last.chars ++ tail).length = last.chars ++ tail := by
      simpa using @strncpy_append (last.chars ++ tail) []
    rw [substr, hlen, if_neg (by omega), bind_done hstring, run_pure, Nat.add_sub_cancel_left, hcopy]
  rw [List.nil_append, List.length_nil, Nat.zero_add] at hstrstr hparent
  rw [List.nil_append] at hparent
  rw [createPath, bind_done (run_getPathSubstrCount_tail htail),
    bind_done (run_strlen junk (noNul_tail h0)), bind_done hfirst, bind_done hstrstr, if_pos rfl,
    Nat.add_sub_cancel, bind_done hparent, bind_done hchild, run_pure]

end

/-! ## From the argument to the arrays -/

/-- The string that `normalize_path` leaves is without repeated slashes, and has the components and the
slash at the end of what it starts from. -/
theorem trimmed_spec {p : List Byte} (habs : p.head? = some SLASH)
    (hname : ∃ c ∈ kept p, c ≠ SLASH) : (trimmed p).head? = some SLASH ∧
      Squeezed SLASH (trimmed p) ∧ (∃ c ∈ trimmed p, c ≠ SLASH) ∧
      components SLASH (trimmed p) = components SLASH (kept p) ∧
      trailing (trimmed p) = trailing (kept p) := by
  by_cases h3 : p.length = 3
  · obtain ⟨c, a, b, rfl⟩ := List.length_eq_three.mp h3
    obtain rfl : c = SLASH := Option.some.inj habs
    have ha : a ≠ SLASH := by simpa [kept] using hname
    exact ⟨rfl, by simp [trimmed, Squeezed, ha], hname, rfl, rfl⟩
  · rw [trimmed, if_neg h3]
    rw [kept, if_neg h3] at hname ⊢
    have hsame : components SLASH (squeeze SLASH p) = components SLASH p := components_squeeze
    refine ⟨head?_squeeze.trans habs, squeezed_squeeze, ?_, hsame, ?_⟩
    · obtain ⟨c, hc, hne⟩ := hname
      exact ⟨c, mem_squeeze hc hne, hne⟩
    · rw [trailing, getLast?_squeeze, trailing]

/-- Repeated slashes do not count, but three characters are cut to two, and a slash at the end stays
with the last component. -/
theorem run_pathArrays {p : Name} (hlen : 2 ≤ p.chars.length) (habs : p.chars.head? = some SLASH)
    (hname : ∃ c ∈ kept p.chars, c ≠ SLASH) (junk : List Byte) : ∃ init last buf,
      components SLASH (kept p.chars) = init ++ [last] ∧
      pathArrays.run (p.chars ++ 0 :: junk) =
        .done (init.map (· ++ [0]), [last ++ trailing (kept p.chars) ++ [0]]) buf := by
  obtain ⟨habs', hsq, hname', hsame, hlast⟩ := trimmed_spec habs hname
  obtain ⟨junk', hnormal⟩ := run_normalizePath junk hlen habs
  obtain ⟨init, last, tail, hpath, htail, hcomps⟩ := exists_pathOf habs' hsq notMem_trimmed hname'
  have hsplit := @run_createPath_tail _ junk' init last htail
  rw [← hpath, tail_eq hpath htail, hlast] at hsplit
  refine ⟨init.map fun c => c.chars, last.chars, trimmed p.chars ++ 0 :: junk', ?_, ?_⟩
  · rw [← hsame, hcomps, List.map_append, List.map_singleton]
  · rw [pathArrays, bind_done hnormal, hsplit, List.map_map]
    rfl

/-- The path `/a//b/`, as it is written. -/
def slashASlashB : Name where
  chars := [SLASH, 0x61, SLASH, SLASH, 0x62, SLASH]
  noNul := by decide

/-- The last component becomes `b/`. -/
theorem run_pathArrays_slashASlashB : ∃ init last buf, [[0x61], [0x62]] = init ++ [last] ∧
    pathArrays.run (slashASlashB.chars ++ 0 :: []) =
      .done (init.map (· ++ [0]), [last ++ [SLASH] ++ [0]]) buf :=
  run_pathArrays (p := slashASlashB) (by decide) rfl ⟨0x61, by decide, by decide⟩ []

end Ext2
